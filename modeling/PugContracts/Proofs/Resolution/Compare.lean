import PugContracts.Proofs.Resolution.Run

/-!
# Comparing two resolvers

A `Comparison` relates the steps of two resolvers, which may look at two disks. It holds of equal
basic steps and is kept when steps are put one after the other. Both resolvers go through a text in
the same way, so a comparison holds of resolving a text if it holds of following its references
(`Comparison.resolveText`).

Where `RunLogic` speaks of the states at which a step starts and ends, a comparison is about steps
as such, and needs no knowledge of the trees of parents.
-/

namespace PugContracts.Resolution

open Template Contract

/-- A relation between the steps of two resolvers. -/
structure Comparison (d d' : Disk) where
  /-- The relation. -/
  holds : {α : Type} → Resolve α → Resolve α → Prop
  /-- It holds of giving a value. -/
  holds_pure : ∀ {α : Type} (a : α), holds (pure a) (pure a)
  /-- It holds of stopping with an error. -/
  holds_throw : ∀ {α : Type} (error : ResolveError), holds (throw error : Resolve α) (throw error)
  /-- It holds of collecting errors. -/
  holds_report : ∀ errors : List TemplateError, holds (report errors) (report errors)
  /-- It is kept when steps are put one after the other. -/
  holds_bind : ∀ {α β : Type} {x x' : Resolve α} {f f' : α → Resolve β}, holds x x' →
    (∀ a, holds (f a) (f' a)) → holds (x >>= f) (x' >>= f')
  /-- It holds of including a file that is no template. -/
  holds_raw : ∀ {file path : Path} (error : ResolveError), path.normalize = path →
    holds (do depend file path; if d.isFile path then return ([] : List Node) else throw error)
      (do depend file path; if d'.isFile path then return [] else throw error)

namespace Comparison

variable {d d' : Disk} (C : Comparison d d') {viewsRoot current file : Path}
  {follow follow' : Follow}

/-- The comparison holds of following a reference right after its edge was recorded. -/
def Follows (follow follow' : Follow) : Prop :=
  ∀ reference path, path.normalize = path → C.holds
    (do depend reference.referrer path; follow reference path)
    (do depend reference.referrer path; follow' reference path)

variable {C}

theorem resolveInclude (hfollow : C.Follows follow follow') (line : Nat) (target : String)
    (filter : Option String) :
    C.holds (Resolution.resolveInclude d viewsRoot follow file line target filter)
      (Resolution.resolveInclude d' viewsRoot follow' file line target filter) := by
  have hpath := normalize_resolveTarget target file viewsRoot
  simp only [Resolution.resolveInclude]
  by_cases hraw : (filter.isSome || !isTemplatePath (resolveTarget target file viewsRoot)) = true
  · simp only [hraw, if_true]
    exact C.holds_raw _ hpath
  · simp only [hraw]
    exact hfollow ⟨.inclusion, file, line, target⟩ _ hpath

theorem rewriteNode (hfollow : C.Follows follow follow') {kind : NodeKind} {line : Nat}
    {origin : Option Path} {children alternate : List Node}
    (hchildren : C.holds (rewriteAll d viewsRoot follow current children)
      (rewriteAll d' viewsRoot follow' current children))
    (halternate : C.holds (rewriteAll d viewsRoot follow current alternate)
      (rewriteAll d' viewsRoot follow' current alternate)) :
    C.holds
      (Resolution.rewriteNode d viewsRoot follow current ⟨kind, line, origin, children, alternate⟩)
      (Resolution.rewriteNode d' viewsRoot follow' current
        ⟨kind, line, origin, children, alternate⟩) := by
  cases origin with
  | none =>
    simp only [Resolution.rewriteNode]
    exact C.holds_throw _
  | some file =>
    cases kind using NodeKind.directiveCases with
    | inherits target =>
      simp only [Resolution.rewriteNode]
      exact C.holds_bind (C.holds_report _) fun _ => C.holds_pure _
    | inclusion target filter =>
      simp only [Resolution.rewriteNode]
      exact resolveInclude hfollow line target filter
    | plain kind hplain =>
      simp only [RunLogic.rewriteNode_of_not_isDirective hplain]
      exact C.holds_bind halternate fun _ => C.holds_bind hchildren fun _ => C.holds_pure _

theorem rewriteAll (hfollow : C.Follows follow follow') (nodes : List Node) :
    C.holds (Resolution.rewriteAll d viewsRoot follow current nodes)
      (Resolution.rewriteAll d' viewsRoot follow' current nodes) := by
  induction nodes using forest_induction with
  | nil =>
    simp only [Resolution.rewriteAll]
    exact C.holds_pure _
  | cons kind line origin children alternate rest hchildren halternate hrest =>
    simp only [Resolution.rewriteAll]
    exact C.holds_bind (rewriteNode hfollow hchildren halternate) fun _ =>
      C.holds_bind hrest fun _ => C.holds_pure _

/-- **Resolving a text.** The comparison holds if it holds of following references. -/
theorem resolveText (hfollow : C.Follows follow follow') (text : String) :
    C.holds (Resolution.resolveText d viewsRoot follow file text)
      (Resolution.resolveText d' viewsRoot follow' file text) := by
  simp only [Resolution.resolveText]
  refine C.holds_bind (C.holds_report _) fun _ => ?_
  cases parentDirectives (stampAll file (parse text).nodes) with
  | nil => exact rewriteAll hfollow _
  | cons first more =>
    refine C.holds_bind (C.holds_report _) fun _ =>
      C.holds_bind ?_ fun _ => rewriteAll hfollow _
    simp only [Resolution.inherit, ← bind_assoc]
    exact C.holds_bind
      (hfollow ⟨.parent, file, first.1, first.2⟩ _ (normalize_resolveTarget _ _ _))
      fun _ => C.holds_pure _

end Comparison

end PugContracts.Resolution
