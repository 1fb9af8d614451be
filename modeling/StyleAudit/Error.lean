/-!
# Errors

What can go wrong outside the scanners, which accept every text. Each cause has one wording.
-/

namespace StyleAudit

/-- A cause of failure. -/
inductive Error
  /-- A file could not be looked up or read. -/
  | file (path reason : String)
  /-- A stylesheet could not be fetched. -/
  | fetch (url reason : String)
  /-- A file is larger than the limit, both in bytes. -/
  | tooLarge (path : String) (size limit : Nat)
  /-- Settings are not acceptable. -/
  | settings (path reason : String)
  | invalidArgument (reason : String)
  | internal (reason : String)
  /-- A settings file exists and cannot be read as text. -/
  | unreadableSettings (path : String)
  /-- A settings file does not hold settings. -/
  | malformedSettings
  /-- The files below a directory could not be listed. -/
  | gather (root : String)
  /-- A path on the command line does not exist. -/
  | unresolvedPath (path : String)
  /-- A file on the command line is of no known kind. -/
  | unsupportedFile (path : String)
  /-- An editor asks for a command that does not exist. -/
  | unknownCommand (name : String)
  deriving Repr, DecidableEq

namespace Error

/-- Name of the settings file of a project. -/
def settingsFile : String := "cssxref.toml"

def message : Error → String
  | file path reason => s!"I/O error at {path}: {reason}"
  | fetch url reason => s!"Fetch error for {url}: {reason}"
  | tooLarge path size limit => s!"{path} is {size} bytes, over the {limit} byte limit"
  | settings path reason => s!"Config error at {path}: {reason}"
  | invalidArgument reason => s!"Invalid argument: {reason}"
  | internal reason => s!"Internal error: {reason}"
  | unreadableSettings path => s!"Failed to read {path}"
  | malformedSettings => s!"Invalid {settingsFile}"
  | gather root => s!"Failed to gather files from {root}"
  | unresolvedPath path => s!"Failed to resolve path: {path}"
  | unsupportedFile path => s!"Unsupported file type: {path}"
  | unknownCommand name => s!"Unknown command: {name}"

/-- Whether work can go on without the source that failed. -/
def recoverable : Error → Bool
  | file .. | fetch .. | tooLarge .. | settings .. => true
  | _ => false

def path? : Error → Option String
  | file path _ | tooLarge path _ _ | settings path _ => some path
  | _ => none

/-- A line index starts at neither 0 nor 1. -/
def badOrigin (origin : Nat) : Error :=
  invalidArgument s!"line index origin must be 0 or 1, got {origin}"

/-- A cache can hold nothing. -/
def noCapacity : Error := invalidArgument "cache capacity must be at least 1"

end Error

end StyleAudit
