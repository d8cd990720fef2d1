import PugContracts.Path.Basic

/-!
# References between templates

A template refers to its parent and to the files it includes by targets. A target that starts with a
slash is looked up below the root of all views, any other in the directory of the template that
holds it; a target without an extension means a template.
-/

namespace PugContracts.Contract

/-- The extension of templates. -/
def templateExtension : String := "pug"

/-- Whether a path names a template, and not a file that is included as it is. -/
def isTemplatePath (p : Path) : Bool :=
  p.extension? == some templateExtension

/-- A quotation mark around a target. -/
def isTargetQuote (c : Char) : Bool :=
  c == '"' || c == '\''

/-- A target without the blanks and quotation marks around it. -/
def bareTarget (target : String) : List Char :=
  Text.dropTrailing isTargetQuote ((Text.trim target.toList).dropWhile isTargetQuote)

/-- The path that has the extension of templates if it had none. -/
def withDefaultExtension (p : Path) : Path :=
  if p.extension?.isNone then p.withExtension templateExtension else p

/-- The path that a target in the template `source` stands for. -/
def resolveTarget (target : String) (source viewsRoot : Path) : Path :=
  let joined :=
    match bareTarget target with
    | '/' :: rooted => viewsRoot.join ⟨String.ofList rooted⟩
    | relative => source.parent.join ⟨String.ofList relative⟩
  withDefaultExtension joined.normalize

end PugContracts.Contract
