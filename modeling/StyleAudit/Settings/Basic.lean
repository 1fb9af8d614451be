import StyleAudit.Document
import StyleAudit.Error
import StyleAudit.Glob.Expression
import StyleAudit.Path
import StyleAudit.Text.Fold

/-!
# Settings

What a project can set, the defaults, and what follows from the settings: the kind of a file, the
globs of style files and the set of excluded paths.
-/

namespace StyleAudit

open Text

structure Settings where
  /-- Globs of paths that are neither analysed nor scanned. -/
  exclude : List String := []
  styleExtensions : List String := ["css", "scss", "less"]
  markupExtensions : List String := ["html", "htm", "vue", "svelte", "php", "erb", "hbs"]
  scriptExtensions : List String := ["js", "jsx", "ts", "tsx", "mjs", "cjs"]
  /-- Report names that are used and declared nowhere. -/
  checkUndefined : Bool := true
  /-- Report names that are declared and used nowhere. -/
  checkUnused : Bool := true
  /-- Fetch the stylesheets that a document links to on the web. -/
  remoteStylesheets : Bool := true
  /-- Collect selectors from every style file of the workspace. -/
  workspaceScan : Bool := true
  /-- Report ids of elements that are declared nowhere. -/
  reportUnknownIdAttributes : Bool := false
  cacheMaxEntries : Nat := 300
  cacheTtlSecs : Nat := 1800
  maxWorkspaceFiles : Nat := 500
  batchSize : Nat := 10
  maxConcurrency : Nat := 5
  /-- Larger files are skipped, in bytes. -/
  maxFileSize : Nat := 2097152
  /-- Longer texts are cut, in characters. -/
  maxContentLength : Nat := 1000000
  remoteTimeoutMs : Nat := 10000
  maxRedirects : Nat := 5
  deriving Repr, DecidableEq

namespace Settings

/-- The time that an unused cache entry lives, in milliseconds. -/
def cacheTtl (s : Settings) : Nat := s.cacheTtlSecs * 1000

/-- Whether an extension is in a list, in any case of ASCII letters. -/
def listsExtension (extensions : List String) (ext : String) : Bool :=
  extensions.any fun e => eqIgnoreAsciiCase e.toList ext.toList

def kindOfExtension? (s : Settings) (ext : String) : Option DocumentKind :=
  if listsExtension s.styleExtensions ext then some .style
  else if listsExtension s.markupExtensions ext then some .markup
  else if listsExtension s.scriptExtensions ext then some .script
  else none

/-- The kind of a file, by its extension, which has to be a text. -/
def kindOfPath? (s : Settings) (path : Path) : Option DocumentKind :=
  (path.extension?.bind ofUtf8?).bind fun ext => s.kindOfExtension? (String.ofList ext)

/-- The glob of all files with an extension, which may be written with leading dots. -/
def extensionGlob (ext : String) : String :=
  "**/*." ++ String.ofList (toAsciiLower (ext.toList.dropWhile (· = '.')))

/-- The globs of style files, sorted and without repetition. -/
def styleGlobs (s : Settings) : List String :=
  ((s.styleExtensions.map extensionGlob).mergeSort fun a b => decide (a ≤ b)).eraseDups

/-- Globs that are excluded in every project. -/
def alwaysExcluded : List String := ["**/node_modules/**", "**/.git/**", "**/target/**"]

/-- Reads globs into a set, and reports the first that is not one. -/
def readGlobs (patterns : List String) : Except Error GlobSet := do
  let globs ← patterns.mapM fun pattern =>
    (Glob.parse pattern).mapError fun fault =>
      Error.settings Error.settingsFile
        s!"invalid glob '{pattern}': error parsing glob '{pattern}': {fault.message}"
  (GlobSet.ofGlobs globs).mapError fun fault =>
    Error.settings Error.settingsFile fault.message

/-- The set of style files. -/
def styleSet (s : Settings) : Except Error GlobSet := readGlobs s.styleGlobs

/-- The set of excluded paths. -/
def excludeSet (s : Settings) : Except Error GlobSet := readGlobs (alwaysExcluded ++ s.exclude)

end Settings

/-- Whether `set` has `path`, as it is written or as seen from `root`. -/
def GlobSet.excludes (set : GlobSet) (path root : Path) : Bool :=
  set.isMatch path.raw || (path.relativeTo? root).any fun rel => set.isMatch rel.raw

end StyleAudit
