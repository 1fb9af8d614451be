import StyleAudit.Session
import StyleAudit.Text.Utf16
import StyleAudit.Uri.Parser
import StyleAudit.Workspace

/-!
# A server for editors

Keeps the text of the documents that an editor has open and publishes their diagnostics whenever
one is opened, changed or saved. Messages are handled one at a time.
-/

namespace StyleAudit

/-- A document that is open in the editor. -/
structure OpenDocument where
  uri : Uri
  version : Int
  text : String
  kind : DocumentKind
  deriving Repr, DecidableEq

/-- A diagnostic with the positions of its ends, as editors count them. -/
structure PlacedDiagnostic where
  start : Position
  stop : Position
  diagnostic : Diagnostic
  deriving Repr, DecidableEq

/-- The diagnostics of a document, for the editor. -/
structure Publication where
  uri : Uri
  /-- The version of the document. A closed document has none. -/
  version : Option Int
  diagnostics : List PlacedDiagnostic
  deriving Repr, DecidableEq

structure Server where
  session : Session
  /-- The folders that are open in the editor. -/
  folders : List Path
  /-- The open documents, by the spelling of their addresses. -/
  documents : List (String × OpenDocument)

namespace Server

def name : String := "cssxref-lsp"

def version : String := "0.1.0"

/-- The command that empties the cache. -/
def clearCommand : String := "cssxref.clearCache"

/-- What the server says when it is ready. -/
def greeting : String := "cssxref LSP server initialized"

/-- What an editor says at the start. -/
structure StartRequest where
  folders : List Uri
  root : Option Uri
  options : Settings.Source

/-- Reads an address of a start request. One that is none is refused with a reason. -/
def readAddress (text : String) : Except String Uri :=
  (Uri.parse text).mapError fun fault =>
    s!"invalid value: string \x22{text}\x22, expected {fault.message}"

/-- The folders on disk, or else the root. -/
def StartRequest.paths (r : StartRequest) : List Path :=
  match r.folders.filterMap Uri.filePath? with
  | [] => (r.root.bind Uri.filePath?).toList
  | paths => paths

/-- The settings of the first folder that has any. A settings file that cannot be used is
skipped. -/
def folderSettings (tree : FileTree) (folders : List Path) : Settings :=
  (folders.findSome? fun folder => (Workspace.loadSettings tree folder).toOption.join).getD {}

/-- The settings that the editor sends, or else those of its folders. -/
def startSettings (tree : FileTree) (r : StartRequest) : Except Error Settings :=
  match r.options with
  | .absent => .ok (folderSettings tree r.paths)
  | options => Settings.ofEditor options

/-- Starts a server without open documents. -/
def start (tree : FileTree) (r : StartRequest) : Except Error Server := do
  let session ← Session.create (← startSettings tree r) none tree none
  return ⟨session, r.paths, []⟩

inductive Message
  | opened (uri : Uri) (language : String) (version : Int) (text : String)
  /-- New texts of a document, of which the last one counts. -/
  | changed (uri : Uri) (version : Int) (texts : List String)
  | saved (uri : Uri)
  | closed (uri : Uri)
  | command (name : String)

/-- What a message causes. -/
structure Effects where
  published : List Publication := []
  logs : List String := []
  error : Option Error := none

/-- The kind of documents in a language of the editor. -/
def kindOfLanguage (language : String) : DocumentKind :=
  if ["css", "scss", "less"].contains language then .style
  else if ["javascript", "javascriptreact", "typescript", "typescriptreact"].contains language then
    .script
  else .markup

/-- The kind of a document: by its extension, or else by its language. -/
def kindOf (settings : Settings) (uri : Uri) (language : String) : DocumentKind :=
  (settings.kindOfPath? (.ofText uri.path)).getD (kindOfLanguage language)

/-- The kind of a document after a change: an open one keeps its kind. -/
def kindAfterChange (s : Server) (uri : Uri) : DocumentKind :=
  match s.documents.lookup uri.text with
  | some d => d.kind
  | none => kindOf s.session.auditor.settings uri ""

/-- The documents without the one with a given address. -/
def without (documents : List (String × OpenDocument)) (uri : Uri) :
    List (String × OpenDocument) :=
  documents.filter (·.1 ≠ uri.text)

def store (s : Server) (d : OpenDocument) : Server :=
  { s with documents := without s.documents d.uri ++ [(d.uri.text, d)] }

/-- An open document as the auditor takes it. -/
def toDocument (d : OpenDocument) : Document where
  key := d.uri.text
  version := d.version
  text := d.text
  kind := d.kind
  path := d.uri.filePath?

/-- The root of the workspace of an address. -/
def rootOf (s : Server) (uri : Uri) : Option Path :=
  uri.filePath?.bind fun path => Workspace.rootFor? s.session.world.tree path s.folders

def placeDiagnostic (text : List Char) (index : LineIndex) (d : Diagnostic) : PlacedDiagnostic :=
  ⟨index.utf16Position text d.offset, index.utf16Position text d.stop, d⟩

/-- The diagnostics that were found in a document, for the editor. -/
def publication (d : OpenDocument) (found : List Diagnostic) : Publication :=
  let text := d.text.toList
  ⟨d.uri, some d.version, found.map (placeDiagnostic text (.ofText text))⟩

/-- How an open document is validated, with the given way to load batches. -/
def validation (s : Server) (load : Audit.BatchLoader) (d : OpenDocument) :
    Plan (List Diagnostic) :=
  s.session.auditor.plan s.session.world load (toDocument d) (s.rootOf d.uri)

/-- Validates documents one after another and publishes what was found. -/
def publishAll (s : Server) (load : Audit.BatchLoader) :
    List OpenDocument → List Publication → Plan (List Publication)
  | [], published => return published
  | d :: ds, published => do
    publishAll s load ds (published ++ [publication d (← s.validation load d)])

/-- What is to be done about a message. -/
structure Orders where
  /-- The server once it has read the message. -/
  server : Server
  /-- The documents that are to be validated. -/
  validate : List OpenDocument := []
  /-- What is published at once. -/
  published : List Publication := []
  logs : List String := []
  error : Option Error := none

def withCache (s : Server) (cache : SelectorCache) : Server :=
  { s with session := { s.session with cache } }

/-- The document that is open at an address is to be validated. -/
def ordersFor (s : Server) (uri : Uri) : Orders :=
  { server := s, validate := (s.documents.lookup uri.text).toList }

def orders (s : Server) : Message → Orders
  | .opened uri language version text =>
    let kind := kindOf s.session.auditor.settings uri language
    (s.store ⟨uri, version, text, kind⟩).ordersFor uri
  | .changed uri version texts =>
    match texts.getLast? with
    | none => { server := s }
    | some text => (s.store ⟨uri, version, text, s.kindAfterChange uri⟩).ordersFor uri
  | .saved uri => s.ordersFor uri
  | .closed uri =>
    let server := s.withCache (s.session.cache.delete uri.text).2
    { server := { server with documents := without s.documents uri }
      published := [⟨uri, none, []⟩] }
  | .command name =>
    if name = clearCommand then
      { server := s.withCache s.session.cache.clear
        validate := s.documents.map (·.2)
        logs := [s!"Selector cache cleared, revalidating {s.documents.length} document(s)"] }
    else { server := s, error := some (.unknownCommand name) }

/-- The effects of a message, once the documents are validated, and the server after it. -/
def Orders.finish (o : Orders) (published : List Publication) (p : Progress) : Effects × Server :=
  (⟨o.published ++ published, o.logs, o.error⟩, o.server.withCache p.cache)

/-- Handles a message. Documents are validated one after another. -/
def handle (s : Server) (m : Message) : Effects × Server :=
  let o := s.orders m
  let a := o.server.session.audit .never
  let (published, p) := (o.server.publishAll a.addFiles o.validate []).run a
    (a.start o.server.session.cache)
  o.finish published p

/-- `s.Handles m r`: the message may come to the effects and the server `r`. Documents are validated
side by side, and so are the files of a batch loaded. -/
def Handles (s : Server) (m : Message) (r : Effects × Server) : Prop :=
  let o := s.orders m
  let a := o.server.session.audit .never
  ∃ (load : OpenDocument → Audit.BatchLoader) (t : Plan (List Publication)) (published : _) (p : _),
    (∀ d, a.Interleaves (load d)) ∧
    Weaves o.validate.length (fun published d found => published ++ [publication d found])
      (o.validate.map fun d => .waiting d (o.server.validation (load d) d)) [] t ∧
    t.Runs a (a.start o.server.session.cache) (published, p) ∧ r = o.finish published p

/-- To validate one document after another is one way to handle a message. -/
theorem handles_handle (s : Server) (m : Message) : s.Handles m (s.handle m) := by
  let o := s.orders m
  let a := o.server.session.audit .never
  refine ⟨fun _ => a.addFiles, o.server.publishAll a.addFiles o.validate [], _, _,
    fun _ => a.interleaves_addFiles, ?_, Plan.runs_run .., rfl⟩
  have hweaves : ∀ (ds : List OpenDocument) (places : Nat), ds.length ≤ places → ∀ published,
      Weaves places (fun published d found => published ++ [publication d found])
        (ds.map fun d => .waiting d (o.server.validation a.addFiles d)) published
        (o.server.publishAll a.addFiles ds published) := by
    intro ds places hplaces
    induction ds with
    | nil => exact fun published => .done published
    | cons d ds ih =>
      intro published
      rw [List.length_cons] at hplaces
      refine Weaves.first (by omega) ?_ d _ fun found => ih (by omega) _
      intro job hjob
      obtain ⟨d', _, rfl⟩ := List.mem_map.mp hjob
      rfl
  exact hweaves o.validate _ (Nat.le_refl _) []

/-- Changes the world around the server. -/
def step (s : Server) (change : Session.Step) : Server :=
  { s with session := (s.session.step change).2 }

end Server

end StyleAudit
