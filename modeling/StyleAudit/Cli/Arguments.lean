import StyleAudit.Settings.Basic
import StyleAudit.Text.Basic

/-!
# Command line arguments

One path and a few options, in any order. `--exclude` takes every argument that follows it up to
the next option; `--` ends the options.
-/

namespace StyleAudit.Cli

/-- What the command line asks for. -/
structure Options where
  /-- The path to check, if one is given. -/
  path : Option String := none
  json : Bool := false
  /-- Globs to exclude besides those of the settings. -/
  exclude : List String := []
  noRemote : Bool := false
  noWorkspace : Bool := false
  noUnused : Bool := false
  noUndefined : Bool := false
  deriving Repr, DecidableEq

/-- The path that is checked when none is given. -/
def defaultPath : String := "."

/-- What to do. -/
inductive Command
  | check (options : Options)
  | version
  | help
  /-- The arguments make no sense. -/
  | misuse
  deriving Repr, DecidableEq

/-- What an argument that is no option stands for. -/
inductive Expected
  | path
  /-- The first value of `--exclude`, which must come. -/
  | glob
  /-- A further value of `--exclude`. -/
  | moreGlobs
  deriving Repr, DecidableEq

/-- Whether an argument is an option. A single dash is not. -/
def isOption (arg : String) : Bool := arg.toList.head? = some '-' && arg ≠ "-"

namespace Options

/-- Sets an option that may be given once. Fails for a second time and for other options. -/
def setFlag? (o : Options) (arg : String) : Option Options :=
  match arg with
  | "--json" => if o.json then none else some { o with json := true }
  | "--no-remote" => if o.noRemote then none else some { o with noRemote := true }
  | "--no-workspace" => if o.noWorkspace then none else some { o with noWorkspace := true }
  | "--no-unused" => if o.noUnused then none else some { o with noUnused := true }
  | "--no-undefined" => if o.noUndefined then none else some { o with noUndefined := true }
  | _ => none

def addGlob (o : Options) (glob : String) : Options := { o with exclude := o.exclude ++ [glob] }

/-- Takes arguments after `--`, of which at most one path is left. -/
def takePaths (o : Options) : List String → Command
  | [] => .check o
  | [path] => if o.path.isSome then .misuse else .check { o with path := some path }
  | _ => .misuse

end Options

/-- Reads arguments, given the options so far. -/
def readArguments : Expected → Options → List String → Command
  | expected, o, [] => if expected = .glob then .misuse else .check o
  | expected, o, arg :: args =>
    if !isOption arg then
      if expected = .path then
        if o.path.isSome then .misuse else readArguments .path { o with path := some arg } args
      else readArguments .moreGlobs (o.addGlob arg) args
    else if expected = .glob then .misuse
    else if arg = "--" then o.takePaths args
    else if arg = "--exclude" then readArguments .glob o args
    else if arg = "--version" then .version
    else if arg = "--help" then .help
    else match Text.after? "--exclude=".toList arg.toList with
      | some glob => readArguments .path (o.addGlob (String.ofList glob)) args
      | none =>
        match arg.toList with
        | '-' :: 'V' :: _ => .version
        | '-' :: 'h' :: _ => .help
        | _ =>
          match o.setFlag? arg with
          | some o => readArguments .path o args
          | none => .misuse

def Command.ofArguments (args : List String) : Command := readArguments .path {} args

/-- Puts options on top of settings: options exclude more and check less. -/
def Options.apply (o : Options) (s : Settings) : Settings :=
  { s with
    exclude := s.exclude ++ o.exclude
    remoteStylesheets := s.remoteStylesheets && !o.noRemote
    workspaceScan := s.workspaceScan && !o.noWorkspace
    checkUnused := s.checkUnused && !o.noUnused
    checkUndefined := s.checkUndefined && !o.noUndefined }

end StyleAudit.Cli
