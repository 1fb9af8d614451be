import StyleAudit.Cli.Arguments
import StyleAudit.Report
import StyleAudit.Session
import StyleAudit.Workspace

/-!
# Checking a project from the command line

Checks one file or every file of a directory and reports what was found. The exit status is 1 if
something was found or went wrong, and 2 if the arguments make no sense.
-/

namespace StyleAudit.Cli

/-- What the program writes and how it ends. -/
structure Output where
  status : Nat
  stdout : String := ""
  /-- What went wrong. -/
  error : Option Error := none
  /-- The calls made to the outside, in order. -/
  calls : List Call := []

/-- The name and version of the program. -/
def versionLine : String := "cssxref-cli 0.1.0\n"

/-- How to call the program. -/
def usageLine : String := "Usage: cssxref [OPTIONS] [PATH]\n"

/-- The directory of a file, or nowhere. -/
def directoryOf (file : Path) : Path := file.parent?.getD ⟨[]⟩

def projectRoot (tree : FileTree) (file : Path) : Path :=
  (Workspace.findRoot? tree file).getD (directoryOf file)

/-- The root of the project and the files to check, for a path to a file or to a directory. -/
def targets (tree : FileTree) (input : Path) (settings : Settings) :
    Except Error (Path × List (Path × DocumentKind)) := do
  if tree.isDirectory input then
    return (input, ← documentsBelow tree input settings)
  else match settings.kindOfPath? input with
    | some kind => return (projectRoot tree input, [(input, kind)])
    | none => throw (.unsupportedFile input.text)

/-- The documents of the files that can be read. -/
def readDocuments (tree : FileTree) (files : List (Path × DocumentKind)) :
    List (Path × Document) :=
  files.filterMap fun (path, kind) =>
    match tree.read path with
    | .ok text => some (path, { key := path.text, version := 0, text, kind, path := some path })
    | .error _ => none

/-- The spelling of a path in reports: as seen from the root, if it is below it. -/
def displayPath (path root : Path) : Path := (path.relativeTo? root).getD path

/-- Validates documents one after the other, with one cache for all. -/
def validateAll (auditor : Auditor) (world : World) (root : Path) :
    List (Path × Document) → Progress → List Report.Entry × Progress
  | [], p => ([], p)
  | (path, d) :: more, p =>
    let (found, p) := auditor.validate world .never d (some root) p
    let entries := Report.entries (displayPath path root) d.text.toList found
    let (rest, p) := validateAll auditor world root more p
    (entries ++ rest, p)

structure Findings where
  entries : List Report.Entry
  filesChecked : Nat
  calls : List Call

def check (tree : FileTree) (o : Options) : Except Error Findings := do
  let spelling := o.path.getD defaultPath
  let input ← match tree.locate (.ofText spelling) with
    | .ok loc => pure (FileTree.absolute loc)
    | .error _ => throw (.unresolvedPath spelling)
  let home := if tree.isDirectory input then input else projectRoot tree input
  let settings := o.apply ((← Workspace.loadSettings tree home).getD {})
  let (root, files) ← targets tree input settings
  let documents := readDocuments tree files
  let session ← Session.create settings none tree none
  let start := (session.audit .never).start session.cache
  let (entries, p) := validateAll session.auditor session.world root documents start
  return ⟨entries, documents.length, p.calls.reverse⟩

def report (o : Options) (f : Findings) : String :=
  if o.json then Report.json f.entries f.filesChecked
  else Report.plain f.entries ++ Report.footer f.entries.length f.filesChecked

/-- Runs the program on the given files. -/
def run (tree : FileTree) (args : List String) : Output :=
  match Command.ofArguments args with
  | .version => { status := 0, stdout := versionLine }
  | .help => { status := 0, stdout := usageLine }
  | .misuse => { status := 2 }
  | .check o =>
    match check tree o with
    | .error cause => { status := 1, error := some cause }
    | .ok f =>
      { status := if f.entries.isEmpty then 0 else 1, stdout := report o f, calls := f.calls }

end StyleAudit.Cli
