import StyleAudit.Path

/-!
# File trees

The files and directories that an analysis can see, as a value. A place is the list of names that
leads to it from the root of the disk. Paths are resolved step by step, as an operating system
does it: every step but the last must be a directory, and `..` leads to the directory above.
-/

namespace StyleAudit

inductive FileContents
  | text (text : String)
  /-- Bytes that are no text. -/
  | bytes (size : Nat)
  deriving Repr, DecidableEq

/-- A file, with the time of its last change in milliseconds. -/
structure File where
  contents : FileContents
  modified : Int
  deriving Repr, DecidableEq

def File.size (f : File) : Nat :=
  match f.contents with
  | .text text => text.utf8ByteSize
  | .bytes size => size

/-- Why a file cannot be used. -/
inductive FileFault
  | missing
  | notDirectory
  | isDirectory
  | notText
  | badName
  | nameTooLong
  deriving Repr, DecidableEq

def FileFault.message : FileFault → String
  | missing => "No such file or directory (os error 2)"
  | notDirectory => "Not a directory (os error 20)"
  | isDirectory => "Is a directory (os error 21)"
  | notText => "stream did not contain valid UTF-8"
  | badName => "file name contained an unexpected NUL byte"
  | nameTooLong => "File name too long (os error 36)"

/-- A place on disk, by the names on the way from the root. -/
abbrev Location := List Spelling

/-- The place that names lead to which are texts. -/
def Location.ofTexts (names : List String) : Location := names.map fun name => Text.utf8 name.toList

/-- The files and directories of a disk, and the directory that relative paths start from. -/
structure FileTree where
  files : List (Location × File)
  directories : List Location
  workingDirectory : Location
  deriving Repr, DecidableEq

namespace FileTree

/-- What stands at a place. -/
inductive Item
  | file (file : File)
  | directory
  deriving Repr, DecidableEq

def item? (t : FileTree) (loc : Location) : Option Item :=
  if loc.isEmpty || t.directories.contains loc then some .directory
  else (t.files.lookup loc).map .file

/-- The longest name of a file or directory, in bytes. -/
def maxNameLength : Nat := 255

/-- Paths are shorter than this, in bytes. -/
def pathBound : Nat := 4096

/-- The place that steps lead to from a place. -/
def walk (t : FileTree) : (loc : Location) → (steps : List Spelling) → Except FileFault Location
  | loc, [] => .ok loc
  | loc, step :: steps =>
    match t.item? loc with
    | some .directory =>
      if step = [Path.dot] then walk t loc steps
      else if step = [Path.dot, Path.dot] then walk t loc.dropLast steps
      else if maxNameLength < step.length then .error .nameTooLong
      else if (t.item? (loc ++ [step])).isSome then walk t (loc ++ [step]) steps
      else .error .missing
    | some (.file _) => .error .notDirectory
    | none => .error .missing

/-- The steps of a path. A separator at the end asks for a directory. -/
def steps (path : Path) : List Spelling :=
  (Path.partsFrom 0 path.raw).map Prod.snd ++
    if path.raw.getLast? = some Path.separator then [[Path.dot]] else []

/-- The place that a path names. -/
def locate (t : FileTree) (path : Path) : Except FileFault Location :=
  if path.raw.isEmpty then .error .missing
  else if path.raw.contains 0 then .error .badName
  else if pathBound ≤ path.raw.length then .error .nameTooLong
  else t.walk (if path.isAbsolute then [] else t.workingDirectory) (steps path)

def resolve (t : FileTree) (path : Path) : Except FileFault Item := do
  match t.item? (← t.locate path) with
  | some item => return item
  | none => throw .missing

def has (t : FileTree) (path : Path) : Bool := (t.resolve path).toOption.isSome

def isDirectory (t : FileTree) (path : Path) : Bool :=
  match t.resolve path with
  | .ok .directory => true
  | _ => false

def read (t : FileTree) (path : Path) : Except FileFault String := do
  match ← t.resolve path with
  | .directory => throw .isDirectory
  | .file ⟨.text text, _⟩ => return text
  | .file ⟨.bytes _, _⟩ => throw .notText

def absolute (loc : Location) : Path := ⟨Path.separator :: [Path.separator].intercalate loc⟩

/-- The names on the way from `loc` to `place`, if it lies there. -/
def way? (loc place : Location) : Option (List Spelling) :=
  if loc.isPrefixOf place then some (place.drop loc.length) else none

/-- The files at or below a place, by the names on the way from there. -/
def below (t : FileTree) (loc : Location) : List (List Spelling) :=
  t.files.filterMap fun (place, _) => way? loc place

/-- The directories at or below a place, by the names on the way from there. -/
def directoriesBelow (t : FileTree) (loc : Location) : List (List Spelling) :=
  t.directories.filterMap (way? loc)

/-! ### Changes -/

/-- The place that the steps of a path lead to, whether it exists or not. -/
def place (t : FileTree) (path : Path) : Location :=
  (steps path).foldl (fun loc step =>
      if step = [Path.dot] then loc
      else if step = [Path.dot, Path.dot] then loc.dropLast
      else loc ++ [step])
    (if path.isAbsolute then [] else t.workingDirectory)

/-- Adds a directory and the directories above it. -/
def addDirectory (t : FileTree) (loc : Location) : FileTree :=
  let missing := ((List.range loc.length).map fun n => loc.take (n + 1)).filter
    (!t.directories.contains ·)
  { t with directories := t.directories ++ missing }

/-- Writes a file, and makes the directories above it. -/
def write (t : FileTree) (loc : Location) (file : File) : FileTree :=
  let t := t.addDirectory loc.dropLast
  { t with files := t.files.filter (·.1 ≠ loc) ++ [(loc, file)] }

/-- Removes what stands at a place and below it. -/
def remove (t : FileTree) (loc : Location) : FileTree :=
  { t with
    files := t.files.filter (!loc.isPrefixOf ·.1)
    directories := t.directories.filter (!loc.isPrefixOf ·) }

/-- A tree with only a working directory. -/
def empty (workingDirectory : Location) : FileTree :=
  FileTree.addDirectory ⟨[], [], workingDirectory⟩ workingDirectory

end FileTree

end StyleAudit
