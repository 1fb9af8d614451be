import StyleAudit.Server

/-!
# Runs of a server

An editor opens documents, changes, saves and closes them. Between its messages files change and
time passes. This module says what a run is, what the editor has open at each moment of it, and what
would be published at that moment if nothing had been cached.
-/

namespace StyleAudit

namespace Server

/-- What happens to a server. -/
inductive Event
  | message (m : Message)
  /-- Files change. -/
  | edit (change : FileTree → FileTree)
  | advance (ms : Nat)

/-- What is published because of an event, and the server after it. Documents are validated one
after another. -/
def react (s : Server) : Event → List Publication × Server
  | .message m => ((s.handle m).1.published, (s.handle m).2)
  | .edit change => ([], s.step (.change change))
  | .advance ms => ([], s.step (.advance ms))

/-- `s.Reacts event r`: because of the event `r.1` may be published, in this order, and leave the
server `r.2`. -/
def Reacts (s : Server) (event : Event) (r : List Publication × Server) : Prop :=
  match event with
  | .message m => ∃ effects, s.Handles m (effects, r.2) ∧ r.1 = effects.published
  | event => r = s.react event

theorem reacts_react (s : Server) (event : Event) : s.Reacts event (s.react event) := by
  cases event with
  | message m => exact ⟨_, s.handles_handle m, rfl⟩
  | _ => rfl

/-! ### What the editor has open -/

/-- A document since it was opened. -/
structure Period where
  current : OpenDocument
  /-- The versions and texts that it had before. -/
  earlier : List (Int × String)

/-- The versions and texts of a document since it was opened, the current ones first. -/
def Period.texts (p : Period) : List (Int × String) :=
  (p.current.version, p.current.text) :: p.earlier

/-- The document after a change. It keeps its kind. -/
def Period.change (p : Period) (uri : Uri) (version : Int) (text : String) : Period :=
  ⟨⟨uri, version, text, p.current.kind⟩, p.texts⟩

/-- The documents that an editor has open, by the spelling of their addresses. -/
abbrev Editor := String → Option Period

namespace Editor

/-- Nothing is open. -/
def idle : Editor := fun _ => none

/-- Puts a document in place of what an address had. -/
def put (e : Editor) (address : String) (p : Option Period) : Editor :=
  fun asked => if asked = address then p else e asked

@[simp] theorem put_self (e : Editor) (address : String) (p : Option Period) :
    e.put address p address = p := if_pos rfl

theorem put_of_ne (e : Editor) {address asked : String} (p : Option Period) (h : asked ≠ address) :
    e.put address p asked = e asked := if_neg h

/-- What is open after an event. -/
def after (settings : Settings) (e : Editor) : Event → Editor
  | .message (.opened uri language version text) =>
    e.put uri.text (some ⟨⟨uri, version, text, kindOf settings uri language⟩, []⟩)
  | .message (.changed uri version texts) =>
    match texts.getLast?, e uri.text with
    | some text, some p => e.put uri.text (some (p.change uri version text))
    | _, _ => e
  | .message (.closed uri) => e.put uri.text none
  | _ => e

end Editor

/-- A moment of a run: the server and the editor before an event, and what was published because of
it. -/
structure Visit where
  server : Server
  editor : Editor
  event : Event
  published : List Publication

/-- What is open after the event. -/
def Visit.next (v : Visit) : Editor := v.editor.after v.server.session.auditor.settings v.event

/-- `s.Lives e visits`: the moments of a run that starts with the given server and editor. -/
inductive Lives : Server → Editor → List Visit → Prop
  | nil (s : Server) (e : Editor) : Lives s e []
  | cons {s : Server} {e : Editor} {event : Event} {r : List Publication × Server}
      {visits : List Visit} (reacts : s.Reacts event r)
      (rest : Lives r.2 (e.after s.session.auditor.settings event) visits) :
      Lives s e (⟨s, e, event, r.1⟩ :: visits)

/-- The moments of the run in which documents are validated one after another. -/
def visits (s : Server) (e : Editor) : List Event → List Visit
  | [] => []
  | event :: events =>
    ⟨s, e, event, (s.react event).1⟩ ::
      visits (s.react event).2 (e.after s.session.auditor.settings event) events

theorem lives_visits (s : Server) (e : Editor) (events : List Event) :
    s.Lives e (s.visits e events) := by
  induction events generalizing s e with
  | nil => exact .nil s e
  | cons event events ih => exact .cons (s.reacts_react event) (ih _ _)

/-! ### Messages in context -/

namespace Event

/-- The address that an event is about. -/
def uri? : Event → Option Uri
  | .message (.opened uri _ _ _) | .message (.changed uri _ _) | .message (.saved uri)
  | .message (.closed uri) => some uri
  | _ => none

/-- Whether an event opens the document at an address. -/
def Opens (address : String) : Event → Prop
  | .message (.opened uri _ _ _) => uri.text = address
  | _ => False

/-- Whether an event asks for the diagnostics of the document at an address. -/
def AsksFor (address : String) : Event → Prop
  | .message (.opened uri _ _ _) | .message (.saved uri) => uri.text = address
  | .message (.changed uri _ texts) => texts ≠ [] ∧ uri.text = address
  | .message (.command name) => name = clearCommand
  | _ => False

/-- Documents are opened when they are closed, and changed or closed when they are open. -/
def Follows (e : Editor) : Event → Prop
  | .message (.opened uri _ _ _) => e uri.text = none
  | .message (.changed uri _ _) | .message (.closed uri) => (e uri.text).isSome
  | _ => True

/-- A change to a version that the document had since it was opened is to the text of that
version. -/
def KeepsVersions (e : Editor) : Event → Prop
  | .message (.changed uri version texts) =>
    ∀ text, texts.getLast? = some text → ∀ p, e uri.text = some p →
      ∀ earlier ∈ p.texts, earlier.1 = version → earlier.2 = text
  | _ => True

end Event

/-! ### What is due -/

/-- The diagnostics of a document that is validated with the given cache. -/
def freshDiagnostics (s : Server) (cache : SelectorCache) (d : OpenDocument) : List Diagnostic :=
  (s.session.auditor.validate s.session.world .never (toDocument d) (s.rootOf d.uri)
    ((s.session.audit .never).start cache)).1

/-- What is published of a document that is validated with the given cache. -/
def freshPublication (s : Server) (cache : SelectorCache) (d : OpenDocument) : Publication :=
  publication d (s.freshDiagnostics cache d)

/-- `v.Due cache p`: at this moment `p` is to be published. It has the diagnostics of a document
that is asked for, as they are with the given cache, or it says that a document was closed. -/
def Visit.Due (v : Visit) (cache : SelectorCache) (p : Publication) : Prop :=
  (∃ address period, v.event.AsksFor address ∧ v.next address = some period ∧
    p = v.server.freshPublication cache period.current) ∨
  ∃ uri, v.event = .message (.closed uri) ∧ p = ⟨uri, none, []⟩

end Server

end StyleAudit
