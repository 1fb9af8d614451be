import StyleAudit.FileTree
import StyleAudit.Settings.Basic

/-!
# Finding files

The files of a project below a directory, without the directories that hold no sources of the
project and without excluded paths, in the order of their paths.
-/

namespace StyleAudit

open Text

/-- Directories that are never entered. -/
def skippedDirectories : List String := ["node_modules", ".git", "target", ".hg", ".svn"]

/-- Whether a directory with this name is never entered. -/
def isSkippedName (name : Spelling) : Bool :=
  skippedDirectories.any fun skipped => utf8 skipped.toList = name

/-- Whether the way to a file leads through a directory that is never entered. -/
def isSkipped (names : List Spelling) : Bool := names.dropLast.any isSkippedName

/-- Whether a directory below `root` is to be entered and cannot be opened: below a long root, paths
reach the bound. -/
def hasClosedDirectory (tree : FileTree) (root : Path) (loc : Location) : Bool :=
  (tree.directoriesBelow loc).any fun names =>
    !names.any isSkippedName && FileTree.pathBound ≤ (names.foldl Path.child root).raw.length

/-- The files below `root` that `accept` takes and `excluded` does not match, in order. Paths
start with `root` as it is written. One directory that cannot be opened is enough to fail. -/
def filesBelow (tree : FileTree) (root : Path) (excluded : GlobSet) (accept : Path → Bool) :
    Except Error (List Path) :=
  match tree.locate root with
  | .error _ => .error (.gather root.text)
  | .ok loc =>
    if hasClosedDirectory tree root loc then .error (.gather root.text) else
    let paths := ((tree.below loc).filter (!isSkipped ·)).map fun names =>
      names.foldl Path.child root
    .ok ((paths.filter fun path => accept path && !excluded.excludes path root).mergeSort Path.le)

/-- Whether a path is that of a style file, by its name or as a whole. -/
def GlobSet.acceptsStyle (styles : GlobSet) (path : Path) : Bool :=
  path.fileName?.any styles.isMatch || styles.isMatch path.raw

/-- The style files below `root`, up to the limit that is set. -/
def styleFilesBelow (tree : FileTree) (root : Path) (settings : Settings) :
    Except Error (List Path) := do
  let styles ← settings.styleSet
  let excluded ← settings.excludeSet
  let files ← filesBelow tree root excluded styles.acceptsStyle
  return files.take settings.maxWorkspaceFiles

/-- The files below `root` that can be analysed, with their kinds. -/
def documentsBelow (tree : FileTree) (root : Path) (settings : Settings) :
    Except Error (List (Path × DocumentKind)) := do
  let excluded ← settings.excludeSet
  let files ← filesBelow tree root excluded fun path => (settings.kindOfPath? path).isSome
  return files.filterMap fun path => (settings.kindOfPath? path).map fun kind => (path, kind)

end StyleAudit
