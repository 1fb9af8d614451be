import StyleAudit.Proofs.SourceHistory
import StyleAudit.Session

/-!
# The cache does not show

A session answers each request as if its cache had just been emptied. Which requests came before,
what they left in the cache, what has expired or was evicted since, and which of them were cancelled
makes no difference. Requests may load the files of a batch side by side, and time passes while they
run.

What is needed is that keys and the numbers that stand for freshness mean something. In a run of a
session no two files may share a key, the time of a file's last change must tell its contents, the
version of a document must tell its text, and an address must always give the same answer.

* **`Session.Goes`** is a run of a session.
* **`Session.Steady`** is the condition on a run.
* **`Session.ledger`** collects what the sources and documents of a run ever held. By `Steady` it
  agrees with all that a step asks for (**`Steady.agrees`**).
* **`Session.plan_yields`** is about one request, **`Session.takes_settles`** about one step and
  **`Session.Goes.holds`** about a run: every step keeps the cache to the ledger.
* **`request_transparent`** is the result, and **`cache_shows`** has two runs that are not steady.
-/

namespace StyleAudit

namespace Session

/-! ### Runs -/

/-- One step of a run: the session before it, the step, and what it gave. -/
structure Visit where
  session : Session
  step : Step
  reply : Reply

/-- `s.Goes visits`: a run that starts with `s` may take these steps. -/
inductive Goes : Session → List Visit → Prop
  | nil (s : Session) : Goes s []
  | cons {s : Session} {step : Step} {r : Reply × Session} {visits : List Visit}
      (takes : s.Takes step r) (rest : Goes r.2 visits) : Goes s (⟨s, step, r.1⟩ :: visits)

/-- The run in which requests load one file after another. -/
def visits (s : Session) : List Step → List Visit
  | [] => []
  | step :: steps => ⟨s, step, (s.step step).1⟩ :: visits (s.step step).2 steps

/-- The documents that a step is about. -/
def Step.documents : Step → List Document
  | .request (.ownSelectors d) _ | .request (.collect d _) _ | .request (.validate d _) _ => [d]
  | _ => []

/-- The same step without its interrupt. -/
def Step.undisturbed : Step → Step
  | .request r _ => .request r .never
  | step => step

/-- Whether the outcome of a step is about the cache itself. -/
def Step.inspectsCache : Step → Bool
  | .delete _ | .lookup _ => true
  | _ => false

/-- The sources that a step asks for. -/
def asked (s : Session) : Step → List LinkTarget
  | .request (.loadFile path) _ => [.file path]
  | .request (.loadRemote url) _ => [.remote url]
  | .request (.collect d root) _ => (s.audit .never).asked d root
  | .request (.validate d root) _ => s.auditor.asked s.world d root
  | _ => []

/-- The sources that a run asks for, with the world at that time. -/
def asks (visits : List Visit) : World → LinkTarget → Prop := fun world t =>
  ∃ v ∈ visits, world = v.session.world ∧ t ∈ v.session.asked v.step

/-- What is assumed of a run. All else, such as the times of requests and what is in the cache, is
arbitrary. -/
structure Steady (visits : List Visit) : Prop where
  /-- Keys, times of changes and addresses tell what sources hold. -/
  sources : SourcesTell (asks visits)
  /-- Key and version tell text and kind of a document. -/
  documents : ∀ v ∈ visits, ∀ v' ∈ visits, ∀ d ∈ v.step.documents, ∀ d' ∈ v'.step.documents,
    d.key = d'.key → d.version = d'.version → d.text = d'.text ∧ d.kind = d'.kind
  /-- No document has the key of a source. -/
  apart : ∀ v ∈ visits, ∀ d ∈ v.step.documents, ∀ world t, asks visits world t → d.key ≠ t.key

/-- What an outcome shows. A style map shows what it has under each key, but not their order. -/
def Outcome.shown : Outcome → Outcome ⊕ (String → Option (List Selector))
  | .styles m => .inr fun key => m.lookup key
  | outcome => .inl outcome

/-! ### The ledger of a run -/

/-- All that the sources of a run ever held, and what its documents declare. -/
def ledger (settings : Settings) (visits : List Visit) : Ledger := fun key freshness selectors =>
  sourceHistory settings (asks visits) key freshness selectors ∨
    ∃ v ∈ visits, ∃ d ∈ v.step.documents, key = d.key ∧ freshness = d.version ∧
      selectors = d.selectors

/-- `s.Agrees step L`: the ledger agrees with all that a step asks for, and keys tell the files. -/
structure Agrees (s : Session) (step : Step) (L : Ledger) : Prop where
  sources : ∀ t ∈ s.asked step, (s.audit .never).Agrees L t
  keys : ∀ path path', .file path ∈ s.asked step → .file path' ∈ s.asked step →
    path.key = path'.key → path = path'
  own : ∀ d ∈ step.documents, d.OwnAgrees L

/-- An interrupt is not part of what a step asks for. -/
theorem Agrees.undisturbed {s : Session} {step : Step} {L : Ledger} (h : s.Agrees step L) :
    s.Agrees step.undisturbed L := by
  cases step with
  | request r i => cases r <;> exact ⟨h.sources, h.keys, h.own⟩
  | _ => exact h

/-- In a steady history every visit agrees with the ledger of the whole history. -/
theorem Steady.agrees {visits : List Visit} (h : Steady visits) {v : Visit} (hv : v ∈ visits) :
    v.session.Agrees v.step (ledger v.session.auditor.settings visits) := by
  have hasks : ∀ t ∈ v.session.asked v.step, asks visits v.session.world t :=
    fun t ht => ⟨v, hv, rfl, ht⟩
  refine ⟨fun t ht => ?_, fun path path' hpath hpath' => ?_, fun d hd selectors => ⟨?_, ?_⟩⟩
  · refine (h.sources.agrees v.session.auditor.settings (hasks t ht)).or ?_
    rintro freshness selectors ⟨v', hv', d, hd, hkey, _⟩
    exact h.apart v' hv' d hd _ t (hasks t ht) hkey.symm
  · exact h.sources.keys _ _ path path' (hasks _ hpath) (hasks _ hpath')
  · rintro (⟨world, t, ht, hkey, _⟩ | ⟨v', hv', d', hd', hkey, hversion, rfl⟩)
    · exact absurd hkey (h.apart v hv d hd world t ht)
    · obtain ⟨htext, hkind⟩ := h.documents v' hv' v hv d' hd' d hd hkey.symm hversion.symm
      exact Document.selectors_congr htext hkind
  · rintro rfl
    exact .inr ⟨v, hv, d, hd, rfl, rfl, rfl⟩

/-! ### One step -/

/-- What a step gives, read off its sources. -/
def sourceOutcome (s : Session) : Step → Outcome
  | .request (.loadFile path) _ => .loaded ((s.audit .never).fileResult path)
  | .request (.loadRemote url) _ => .loaded ((s.audit .never).remoteResult url)
  | .request (.ownSelectors d) _ => .loaded (.ok d.selectors)
  | .request (.collect d root) _ => .styles ((s.audit .never).styles d root)
  | .request (.validate d root) _ => .diagnostics (s.auditor.verdict s.world d root)
  | .covers d root => .flag (s.auditor.covers d root)
  | _ => .done

/-- A request that is not cancelled gives what its sources have. -/
theorem plan_yields {s : Session} {r : Request} {i : Interrupt} {L : Ledger}
    (hagrees : s.Agrees (.request r i) L) {load : Audit.BatchLoader}
    (hload : (s.audit .never).Interleaves load) (cancelled : Bool) :
    (s.plan load r).Yields L (fun c outcome => c = false →
      outcome.shown = (s.sourceOutcome (.request r i)).shown) cancelled := by
  cases r with
  | loadFile path =>
    refine (Audit.filePlan_yields (hagrees.sources _ List.mem_cons_self) cancelled).bind ?_
    rintro c _ rfl
    exact fun _ => rfl
  | loadRemote url =>
    refine (Audit.remotePlan_yields (hagrees.sources _ List.mem_cons_self) cancelled).bind ?_
    rintro c _ rfl
    exact fun _ => rfl
  | ownSelectors d =>
    refine (Document.ownPlan_yields (hagrees.own d List.mem_cons_self) cancelled).bind ?_
    rintro c _ rfl
    exact fun _ => rfl
  -- the stylesheets may come in another order, but no key is looked up differently
  | collect d root =>
    have hown := hagrees.own d List.mem_cons_self
    refine (Audit.collectPlan_isOf hload hagrees.sources hagrees.keys hown cancelled).bind ?_
    intro c m hm hnot
    exact congrArg Sum.inr (funext ((hm hnot).lookup_eq (Audit.isOf_styles hagrees.keys)))
  | validate d root =>
    have hown := hagrees.own d List.mem_cons_self
    refine (Auditor.plan_yields hload hagrees.sources hagrees.keys hown cancelled).bind ?_
    intro c found hfound hnot
    exact congrArg (Sum.inl ∘ Outcome.diagnostics) (hfound hnot)

/-- A step keeps the cache to the ledger, whether it is cancelled or not. If not, it gives what its
sources have. -/
theorem takes_settles {s : Session} {step : Step} {L : Ledger} (hagrees : s.Agrees step L)
    (h : s.cache.Holds L) {r : Reply × Session} (htakes : s.Takes step r) :
    r.2.cache.Holds L ∧ (step.inspectsCache = false → r.1.cancelled = false →
      r.1.outcome.shown = (s.sourceOutcome step).shown) := by
  cases step with
  | request request i =>
    obtain ⟨load, outcome, p, hload, hruns, rfl⟩ := htakes
    obtain ⟨hcache, hvalue⟩ := (plan_yields hagrees hload i.before).runs h hruns
    exact ⟨hcache, fun _ => hvalue⟩
  | change edit => cases htakes; exact ⟨h, fun _ _ => rfl⟩
  | publish url answer => cases htakes; exact ⟨h, fun _ _ => rfl⟩
  | advance ms => cases htakes; exact ⟨h, fun _ _ => rfl⟩
  | covers d root => cases htakes; exact ⟨h, fun _ _ => rfl⟩
  | clear => cases htakes; exact ⟨h.clear, fun _ _ => rfl⟩
  -- these two show the cache itself, so nothing is said of their outcome
  | delete key => cases htakes; exact ⟨h.delete key, fun hnot => nomatch hnot⟩
  | lookup key => cases htakes; exact ⟨h.get s.world.now key, fun hnot => nomatch hnot⟩

/-- A step without an interrupt is not cancelled. -/
theorem Takes.not_cancelled {s : Session} {step : Step} {r : Reply × Session}
    (h : s.Takes step.undisturbed r) : r.1.cancelled = false := by
  cases step with
  | request request i =>
    obtain ⟨load, outcome, p, _, hruns, rfl⟩ := h
    exact hruns.not_cancelled rfl rfl
  | _ => cases h; rfl

/-- One auditor serves the whole run. -/
theorem Takes.auditor_eq {s : Session} {step : Step} {r : Reply × Session} (h : s.Takes step r) :
    r.2.auditor = s.auditor := by
  cases step with
  | request request i =>
    obtain ⟨load, outcome, p, _, _, rfl⟩ := h
    rfl
  | _ => cases h; rfl

/-! ### Whole runs -/

/-- Every session of a run has a cache that keeps to the ledger, if the first one has. -/
theorem Goes.holds {s : Session} {visits : List Visit} (hrun : s.Goes visits) {L : Ledger}
    (hagrees : ∀ v ∈ visits, v.session.auditor = s.auditor → v.session.Agrees v.step L)
    (h : s.cache.Holds L) {v : Visit} (hv : v ∈ visits) :
    v.session.auditor = s.auditor ∧ v.session.cache.Holds L ∧
      ∃ s', v.session.Takes v.step (v.reply, s') := by
  induction hrun with
  | nil s => exact absurd hv List.not_mem_nil
  | @cons s step r visits htakes hrest ih =>
    rcases List.mem_cons.mp hv with rfl | hv
    · exact ⟨rfl, h, r.2, htakes⟩
    · have hnext := (takes_settles (hagrees _ List.mem_cons_self rfl) h htakes).1
      rw [← htakes.auditor_eq]
      refine ih (fun v hv hauditor => ?_) hnext hv
      exact hagrees v (List.mem_cons_of_mem _ hv) (hauditor.trans htakes.auditor_eq)

end Session

namespace Rewritten

/-- A session whose cache holds one entry. -/
def start : Session where
  auditor := ⟨{}, ⟨[]⟩, none⟩
  world := ⟨old, some fun _ => .ok ".far { }", 0⟩
  cache := ⟨[], 1, 60000⟩

def draft : Document := { key := "untitled:1", version := 1, text := ".near { }", kind := .style }

/-- A file is loaded and rewritten, an address is loaded, the styles of a draft are asked for in
vain, since the request is cancelled before it starts, and the file is loaded once more. -/
def run : List Session.Step :=
  [.request (.loadFile base) .never, .change fun _ => new,
    .request (.loadRemote "https://a.test/far.css") .never,
    .request (.collect draft none) ⟨true, fun _ => false, fun _ => false⟩,
    .request (.loadFile base) .never]

/-- The session before the last step. -/
def before : Session :=
  ((((start.step (.request (.loadFile base) .never)).2.step
    (.change fun _ => new)).2.step
      (.request (.loadRemote "https://a.test/far.css") .never)).2.step
        (.request (.collect draft none) ⟨true, fun _ => false, fun _ => false⟩)).2

end Rewritten

namespace Unsteady

open Session SharedKey Rewritten

def names : Outcome → Option (List String)
  | .loaded (.ok selectors) => some (selectors.map fun s => s.name)
  | _ => none

def load (path : Path) : Step := .request (.loadFile path) .never

/-- A file that was loaded and rewritten, with two times of change before 1970. -/
def aged : Session :=
  (({ start with world.tree := tree ".old { }" (-5000) }.step (load base)).2.step
    (.change fun _ => tree ".new { }" (-3000))).2

/-- The one of two files that share a key was loaded. -/
def paired : Session :=
  ({ start with world.tree := ⟨[([first], ⟨.text ".near { }", 1000⟩),
    ([second], ⟨.text ".far { }", 1000⟩)], [], []⟩ }.step (load (Path.child (.ofText "/") first))).2

end Unsteady

end StyleAudit
