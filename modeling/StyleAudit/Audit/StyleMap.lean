import StyleAudit.Audit.Load
import StyleAudit.Discovery
import StyleAudit.Markup.Stylesheets
import StyleAudit.Unused

/-!
# Style maps

All selectors that a document can refer to, by their sources: the document itself, the
stylesheets it links to, and the style files of its workspace. A source that cannot be loaded
adds nothing. A cancelled request ends with the sources it has.
-/

namespace StyleAudit

/-- Selectors by the key of their source. Keys are distinct; the first source of a key keeps
it. -/
abbrev StyleMap := List (String × List Selector)

namespace StyleMap

def has (m : StyleMap) (key : String) : Bool := (m.lookup key).isSome

/-- Adds a source unless its key is there. -/
def add (m : StyleMap) (key : String) (selectors : List Selector) : StyleMap :=
  if m.has key then m else m ++ [(key, selectors)]

/-- Adds the result of a load. -/
def take (m : StyleMap) (key : String) : Except Error (List Selector) → StyleMap
  | .ok selectors => m.add key selectors
  | .error _ => m

def names (m : StyleMap) : Names :=
  m.foldl (fun names (_, selectors) => names.addSelectors selectors) .empty

end StyleMap

/-- The selectors that a document itself declares. -/
def Document.selectors (d : Document) : List Selector :=
  let text := d.text.toList
  match d.kind with
  | .style => Stylesheet.selectors text
  | .markup =>
    let index := LineIndex.ofText text
    (Markup.styleBlocks (.ofText text)).flatMap fun block => Stylesheet.selectorsAt block index
  | .script => []

/-- Cuts a list into batches of `size + 1` elements. The last one may be shorter. -/
def batches {α : Type} (size : Nat) (xs : List α) : List (List α) :=
  match xs with
  | [] => []
  | x :: rest => (x :: rest.take size) :: batches size (rest.drop size)
termination_by xs.length
decreasing_by simp only [List.length_drop, List.length_cons]; omega

/-- How the selectors of a document are found: in the cache, for a version seen before. -/
def Document.ownPlan (d : Document) : Plan (List Selector) := do
  match ← Plan.ask d.key d.version with
  | some hit => return hit
  | none =>
    Plan.keep d.key d.version d.selectors
    return d.selectors

namespace Audit

/-- The selectors that a document declares, from the cache for a version seen before. -/
def ownSelectors (a : Audit) (d : Document) (p : Progress) : List Selector × Progress :=
  d.ownPlan.run a p

/-- Adds a file to a style map if it can be loaded. -/
def addFile (a : Audit) (path : Path) (m : StyleMap) : Plan StyleMap := do
  return m.take path.key (← a.filePlan path)

/-- Adds an address to a style map if it can be loaded. -/
def addRemote (a : Audit) (url : String) (m : StyleMap) : Plan StyleMap := do
  return m.take url (← a.remotePlan url)

/-- Whether addresses on the web are fetched. -/
def fetches (a : Audit) : Bool := a.settings.remoteStylesheets && a.world.remote.isSome

/-- Adds the targets of links, in order. Every fetch is preceded by a check. -/
def addLinks (a : Audit) : (targets : List LinkTarget) → StyleMap → Plan StyleMap
  | [], m => return m
  | .file path :: targets, m =>
    if m.has path.key then addLinks a targets m
    else do addLinks a targets (← a.addFile path m)
  | .remote url :: targets, m =>
    if !a.fetches || m.has url then addLinks a targets m
    else do
      if ← Plan.check then return m
      else addLinks a targets (← a.addRemote url m)

/-- A way to add the files of a batch to a style map. -/
abbrev BatchLoader := (paths : List Path) → StyleMap → Plan StyleMap

/-- Adds files one after another. -/
def addFiles (a : Audit) : BatchLoader
  | [], m => return m
  | path :: paths, m => do addFiles a paths (m.take path.key (← a.filePlan path))

/-- Adds batches of files. Every batch is preceded by a check. -/
def addBatches (load : BatchLoader) : List (List Path) → StyleMap → Plan StyleMap
  | [], m => return m
  | batch :: more, m => do
    if ← Plan.check then return m
    else addBatches load more (← load batch m)

/-- Adds the style files of a workspace that are not in the map. -/
def addWorkspace (a : Audit) (load : BatchLoader) (root : Path) (m : StyleMap) : Plan StyleMap :=
  match styleFilesBelow a.world.tree root a.settings with
  | .error _ => return m
  | .ok files =>
    let pending := files.filter fun path => !m.has path.key
    addBatches load (batches (a.settings.batchSize - 1) pending) m

/-- What the stylesheet links of a document point to. Only markup has links. -/
def linkTargets (d : Document) (root : Option Path) : List LinkTarget :=
  match d.kind with
  | .markup =>
    (Markup.stylesheetLinks (.ofText d.text.toList)).filterMap fun href =>
      LinkTarget.ofHref? href d.dir root
  | _ => []

/-- Adds the style files below the root of the workspace, if there is one and its files count. -/
def addRoot (a : Audit) (load : BatchLoader) (root : Option Path) (m : StyleMap) : Plan StyleMap :=
  match root with
  | some root => if a.settings.workspaceScan then a.addWorkspace load root m else return m
  | none => return m

/-- Adds what a document links to and then the style files of its workspace, with a check between
the two. -/
def addSources (a : Audit) (load : BatchLoader) (d : Document) (root : Option Path) (m : StyleMap) :
    Plan StyleMap := do
  let m ← a.addLinks (linkTargets d root) m
  if ← Plan.check then return m
  else a.addRoot load root m

/-- How the style map of a document is collected, with the given way to load batches. -/
def collectPlan (a : Audit) (load : BatchLoader) (d : Document) (root : Option Path) :
    Plan StyleMap := do
  let m : StyleMap := [(d.key, ← d.ownPlan)]
  if ← Plan.check then return m
  else a.addSources load d root m

/-- The style map of a document, its files loaded one after another. -/
def collect (a : Audit) (d : Document) (root : Option Path) (p : Progress) :
    StyleMap × Progress :=
  (a.collectPlan a.addFiles d root).run a p

end Audit

end StyleAudit
