import PugContracts.Template.Node

/-!
# Overriding regions

A template that extends another one contributes the content of its top-level regions. Each is
applied to the regions of the same name in the parent, wherever they stand. What else the child
holds at the top level is *loose* and comes before the parent's content.
-/

namespace PugContracts.Resolution

open Template

/-- What a child says of one region. -/
structure Override where
  /-- How it combines with what is there. -/
  mode : RegionMode
  /-- The child's content. -/
  nodes : List Node

/-- A child template cut into overrides and loose content. -/
structure ChildParts where
  /-- The overrides of each name; names in the order of their first mention, and the overrides of a
  name in the order in which they were written. -/
  overrides : List (String × List Override)
  /-- The top-level nodes that are neither named regions nor name a parent. -/
  loose : List Node

namespace ChildParts

/-- The overrides of a name. -/
def overridesOf (parts : ChildParts) (name : String) : List Override :=
  (parts.overrides.lookup name).getD []

/-- Add an override after those of the same name. -/
def insertOverride (name : String) (override : Override) :
    List (String × List Override) → List (String × List Override)
  | [] => [(name, [override])]
  | (other, chain) :: rest =>
    if other = name then (other, chain ++ [override]) :: rest
    else (other, chain) :: insertOverride name override rest

/-- Add a top-level node of the child. -/
def add (file : Path) (parts : ChildParts) (node : Node) : ChildParts :=
  match node.kind, node.regionName? with
  | .inherits _, _ => parts
  | .region _ mode, some name =>
    { parts with overrides :=
        insertOverride name ⟨mode, stampAll file node.children⟩ parts.overrides }
  | _, _ => { parts with loose := parts.loose ++ [node] }

/-- Cut the top-level nodes of the template `file`. -/
def ofNodes (nodes : List Node) (file : Path) : ChildParts :=
  nodes.foldl (add file) ⟨[], []⟩

end ChildParts

/-- Apply one override to the content of a region. -/
def Override.apply (content : List Node) (override : Override) : List Node :=
  match override.mode with
  | .replace => override.nodes
  | .append => content ++ override.nodes
  | .prepend => override.nodes ++ content

mutual

/-- Apply a child's overrides to a tree of its parent. Content that an override brings in is not
looked through again. -/
def mergeNode (parts : ChildParts) : Node → Node
  | ⟨kind, line, file, children, alternate⟩ =>
    let merged := mergeAll parts children
    let content :=
      match (Node.mk kind line file children alternate).regionName? with
      | some name => (parts.overridesOf name).foldl Override.apply merged
      | none => merged
    ⟨kind, line, file, content, mergeAll parts alternate⟩

/-- Apply a child's overrides to every tree of its parent. -/
def mergeAll (parts : ChildParts) : List Node → List Node
  | [] => []
  | node :: rest => mergeNode parts node :: mergeAll parts rest

end

/-- The names of all regions in a forest, in the order of the forest. -/
def regionNames (nodes : List Node) : List String :=
  (walkAll nodes).filterMap Node.regionName?

end PugContracts.Resolution
