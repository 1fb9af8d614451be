import StyleAudit.Cli.Check

/-!
# The command line program

Reads the files of a project into a file tree and runs the check on it. Stylesheets outside of
the project are read when a first run asks for them.
-/

namespace StyleAudit.Disk

/-- The names on the way to an absolute path. -/
def locationOf (path : String) : Location :=
  (Path.partsFrom 0 (Path.ofText path).raw).map Prod.snd

/-- Whether something stands at a path on disk. -/
def onDisk (path : String) : IO Bool := (System.mkFilePath [path]).pathExists

/-- Whether a path on disk is that of a directory. -/
def isDirectoryOnDisk (path : String) : IO Bool := (System.mkFilePath [path]).isDir

/-- Reads one file into the tree. A file that cannot be read counts as one without text. -/
def addFile (tree : FileTree) (path : String) : IO FileTree := do
  let contents ←
    try
      let bytes ← IO.FS.readBinFile path
      pure (match String.fromUTF8? bytes with
        | some text => FileContents.text text
        | none => FileContents.bytes bytes.size)
    catch _ => pure (FileContents.bytes 0)
  return tree.write (locationOf path) ⟨contents, 0⟩

/-- Reads a directory and what is below it into the tree. Directories that are never entered are
added without their files. -/
partial def addDirectory (tree : FileTree) (path : String) : IO FileTree := do
  let mut tree := tree.addDirectory (locationOf path)
  for entry in ← (System.mkFilePath [path]).readDir do
    let child := ((Path.ofText path).join (.ofText entry.fileName)).text
    if ← isDirectoryOnDisk child then
      if skippedDirectories.contains entry.fileName then
        tree := tree.addDirectory (locationOf child)
      else tree ← addDirectory tree child
    else tree ← addFile tree child
  return tree

/-- Reads what stands at a path into the tree, if anything does. -/
def addPath (tree : FileTree) (path : String) : IO FileTree := do
  if ← isDirectoryOnDisk path then addDirectory tree path
  else if ← onDisk path then addFile tree path
  else return tree

/-- Reads the marks of a project in the directories above a path. -/
def addMarkers (tree : FileTree) (path : Path) : IO FileTree := do
  let mut tree := tree
  for dir in path.ancestors do
    for marker in Workspace.markers do
      let place := (dir.join (.ofText marker)).text
      if ← isDirectoryOnDisk place then tree := tree.addDirectory (locationOf place)
      else if ← onDisk place then tree ← addFile tree place
  return tree

/-- The tree around the path that the options name. -/
def treeFor (o : Cli.Options) : IO FileTree := do
  let working := toString (← IO.currentDir)
  let tree := FileTree.empty (locationOf working)
  let spelling := o.path.getD Cli.defaultPath
  if !(← onDisk spelling) then return tree
  let input := Path.ofText (toString (← IO.FS.realPath spelling))
  let tree ← addPath tree input.text
  let tree ← addMarkers tree input
  if tree.isDirectory input then return tree
  else addPath tree (Cli.projectRoot tree input).text

/-- Adds the files that a run asked for and that are not in the tree. -/
def addAsked (tree : FileTree) (calls : List Call) : IO FileTree := do
  let mut tree := tree
  for call in calls do
    match call with
    | .stat path => if !tree.has path then tree ← addPath tree path.text
    | _ => pure ()
  return tree

end StyleAudit.Disk

open StyleAudit in
def main (args : List String) : IO UInt32 := do
  let tree ← match Cli.Command.ofArguments args with
    | .check o => Disk.treeFor o
    | _ => pure (FileTree.empty [])
  let tree ← Disk.addAsked tree (Cli.run tree args).calls
  let output := Cli.run tree args
  IO.print output.stdout
  match output.error with
  | some cause => IO.eprintln s!"Error: {cause.message}"
  | none => if output.status = 2 then IO.eprintln Cli.usageLine
  return output.status.toUInt32
