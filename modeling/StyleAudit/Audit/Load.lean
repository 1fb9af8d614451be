import StyleAudit.Audit.Plan
import StyleAudit.Link
import StyleAudit.Stylesheet

/-!
# Loading stylesheets

Selectors of files and of addresses on the web, from the cache as long as they hold. A file holds
until it changes; an address holds until its entry expires.
-/

namespace StyleAudit

/-- What can be told about a file without reading it. -/
structure FileStat where
  /-- The time of the last change in milliseconds. Times before 1970 count as 1970. -/
  modified : Int
  size : Nat
  deriving Repr, DecidableEq

/-- Size that is reported for a directory. -/
def directorySize : Nat := 4096

/-- Looks a file up. -/
def FileTree.stat (t : FileTree) (path : Path) : Except FileFault FileStat := do
  match ← t.resolve path with
  | .directory => return ⟨0, directorySize⟩
  | .file file => return ⟨max 0 file.modified, file.size⟩

/-- The selectors of a stylesheet, of which at most `limit` characters count. -/
def selectorsUpTo (limit : Nat) (text : String) : List Selector :=
  Stylesheet.selectors (Text.truncate limit text.toList).1

namespace Audit

/-- The freshness of every address: only time makes it stale. -/
def remoteFreshness : Int := -1

/-- How the selectors of a file are found. -/
def filePlan (a : Audit) (path : Path) : Plan (Except Error (List Selector)) := do
  Plan.call (.stat path)
  match a.world.tree.stat path with
  | .error fault => return .error (.file path.text fault.message)
  | .ok stat =>
    match ← Plan.ask path.key stat.modified with
    | some hit => return .ok hit
    | none =>
      if a.settings.maxFileSize < stat.size then
        return .error (.tooLarge path.text stat.size a.settings.maxFileSize)
      else
        Plan.call (.read path)
        match a.world.tree.read path with
        | .error fault => return .error (.file path.text fault.message)
        | .ok text =>
          let selectors := selectorsUpTo a.settings.maxContentLength text
          Plan.keep path.key stat.modified selectors
          return .ok selectors

def loadFile (a : Audit) (path : Path) (p : Progress) : Except Error (List Selector) × Progress :=
  (a.filePlan path).run a p

/-- How the selectors of an address are found. -/
def remotePlan (a : Audit) (url : String) : Plan (Except Error (List Selector)) := do
  match ← Plan.ask url remoteFreshness with
  | some hit => return .ok hit
  | none =>
    match a.world.remote with
    | none => return .error (.fetch url "remote stylesheets are disabled")
    | some answer =>
      Plan.call (.fetch url a.settings.remoteTimeoutMs)
      match answer url with
      | .error reason => return .error (.fetch url reason)
      | .ok text =>
        let selectors := selectorsUpTo a.settings.maxContentLength text
        Plan.keep url remoteFreshness selectors
        return .ok selectors

def loadRemote (a : Audit) (url : String) (p : Progress) :
    Except Error (List Selector) × Progress :=
  (a.remotePlan url).run a p

end Audit

end StyleAudit
