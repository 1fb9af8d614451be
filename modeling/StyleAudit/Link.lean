import StyleAudit.Path
import StyleAudit.Text.Blank
import StyleAudit.Text.Fold

/-!
# Stylesheet links

Where the `href` of a stylesheet link points to: an address on the web, or a file seen from the
directory of the document or from the root of the workspace.
-/

namespace StyleAudit

open Text

/-- What a stylesheet link points to. -/
inductive LinkTarget
  | remote (url : String)
  | file (path : Path)
  deriving Repr, DecidableEq

/-- The key of a file in caches and style maps. It has what is shown of the path, so files whose
paths are no texts may share a key. -/
def Path.key (p : Path) : String := "fs://" ++ p.text

namespace LinkTarget

/-- The key of a target in caches and style maps. -/
def key : LinkTarget → String
  | remote url => url
  | file path => path.key

/-- The file that `spelling` names. A leading `/` means the root of the workspace, or the root of
the disk when there is no workspace. -/
def locate (spelling : List Char) (dir root : Option Path) : Option Path :=
  match spelling, root with
  | '/' :: rel, some root => some (root.join ⟨utf8 rel⟩)
  | '/' :: _, none => some ⟨utf8 spelling⟩
  | _, _ => dir.map (·.join ⟨utf8 spelling⟩)

/-- The target of `href`, in a document of directory `dir` and a workspace with root `root`.
Addresses without a scheme are taken as secure; inline data and other schemes have no target. -/
def ofHref? (href : String) (dir root : Option Path) : Option LinkTarget :=
  let href := trim isBlank href.toList
  let lower := toAsciiLower href
  if (after? "http://".toList lower).isSome || (after? "https://".toList lower).isSome then
    some (.remote (String.ofList href))
  else match after? "//".toList href with
    | some rest => some (.remote (String.ofList ("https://".toList ++ rest)))
    | none =>
      if (after? "data:".toList lower).isSome || Text.contains "://".toList lower then none
      else
        let spelling := href.takeWhile fun c => c ≠ '?' && c ≠ '#'
        if spelling.isEmpty then none
        else (locate spelling dir root).map fun path => .file path.normalize

end LinkTarget

end StyleAudit
