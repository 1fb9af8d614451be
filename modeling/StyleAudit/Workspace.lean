import StyleAudit.FileTree
import StyleAudit.Settings.Value
import StyleAudit.Toml.Document

/-!
# Workspaces

The root of a workspace is the nearest directory that holds a mark of a project, or the innermost
folder that the editor has open. Settings of a workspace come from the settings file in its root.
-/

namespace StyleAudit.Workspace

/-- Names that mark the root of a project. -/
def markers : List String := [Error.settingsFile, "package.json", ".git"]

/-- Whether `dir` holds a mark of a project. -/
def isRoot (tree : FileTree) (dir : Path) : Bool :=
  markers.any fun marker => tree.has (dir.join (.ofText marker))

/-- The nearest root at or above a directory, or above a file. -/
def findRoot? (tree : FileTree) (path : Path) : Option Path :=
  let dirs := if tree.isDirectory path then path :: path.ancestors else path.ancestors
  dirs.find? (isRoot tree)

/-- The folder with the most components, the last one of several. -/
def innermost : List Path → Option Path
  | [] => none
  | folder :: folders =>
    match innermost folders with
    | none => some folder
    | some other =>
      if folder.components.length ≤ other.components.length then some other else some folder

/-- The root for a file: the innermost of the open folders that holds it, or else the nearest
root on disk. -/
def rootFor? (tree : FileTree) (file : Path) (folders : List Path) : Option Path :=
  (innermost (folders.filter file.startsWith)).or (findRoot? tree file)

/-- The settings file of a workspace, if there is one. -/
def loadSettings (tree : FileTree) (root : Path) : Except Error (Option Settings) := do
  let path := root.join (.ofText Error.settingsFile)
  if tree.has path then
    match tree.read path with
    | .error _ => throw (.unreadableSettings path.text)
    | .ok text =>
      match (Toml.parse? text).bind Settings.ofTable? with
      | some settings => return some settings
      | none => throw .malformedSettings
  else return none

end StyleAudit.Workspace
