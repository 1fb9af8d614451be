import StyleAudit.Proofs.OpenDocuments
import StyleAudit.Proofs.StyleFiles
import StyleAudit.Proofs.Verdicts

/-!
# What is published shows no history

The diagnostics that a server publishes are those of the current texts and kinds of documents. Which
texts they had before, whether they were closed and opened again, what has expired or was evicted
since, when the cache was cleared, and in which order documents were validated makes no difference.

* **`Server.Orderly`** is the condition on a run. Versions have to tell texts only as long as a
  document is open, and keys and times of changes have to tell the files that are asked for.
* **`Server.Orderly.proper`**: what the files of a run ever held agrees with the files at every
  moment.
* **`Server.Lives.answered`**: every event is answered with what is due.
* **`Server.getLast?_published`** is about documents that were closed.
* **`published_is_fresh`** is the result, and **`published_is_stale`** has two runs that are not
  orderly.
-/

namespace StyleAudit

namespace Server

/-! ### What is assumed -/

/-- The sources that are asked for in a run, with the world at that time. -/
def asks (visits : List Visit) : World → LinkTarget → Prop := fun world t =>
  ∃ v ∈ visits, world = v.server.session.world ∧
    ∃ address p, v.event.AsksFor address ∧ v.next address = some p ∧ t ∈ v.server.asked p.current

/-- What is assumed of a run. All else, such as the times of events and what the cache holds, is
arbitrary. -/
structure Orderly (visits : List Visit) : Prop where
  follows : ∀ v ∈ visits, v.event.Follows v.editor
  versions : ∀ v ∈ visits, v.event.KeepsVersions v.editor
  /-- Addresses have schemes, and none has the one that the cache has for files. -/
  addresses : ∀ v ∈ visits, ∀ uri, v.event.uri? = some uri →
    ':' ∉ uri.scheme.toList ∧ uri.scheme ≠ "fs"
  /-- Keys and times of changes tell what files hold. -/
  sources : SourcesTell (asks visits)
  /-- No stylesheet is fetched from the web. -/
  unfetched : ∀ world url, ¬ asks visits world (.remote url)

/-! ### Whole runs -/

/-- Reading a message changes the cache of the session at most. -/
theorem orders_session (s : Server) (m : Message) :
    ∃ cache, (s.orders m).server.session = { s.session with cache } := by
  cases m with
  | opened uri language version text => exact ⟨_, rfl⟩
  | saved uri => exact ⟨_, rfl⟩
  | closed uri => exact ⟨_, rfl⟩
  | changed uri version texts =>
    simp only [orders]
    split <;> exact ⟨_, rfl⟩
  | command name =>
    simp only [orders]
    split <;> exact ⟨_, rfl⟩

theorem orders_auditor (s : Server) (m : Message) :
    (s.orders m).server.session.auditor = s.session.auditor := by
  obtain ⟨_, hsession⟩ := s.orders_session m
  rw [hsession]

/-- One auditor serves the whole run. -/
theorem Reacts.auditor_eq {s : Server} {event : Event} {r : List Publication × Server}
    (h : s.Reacts event r) : r.2.session.auditor = s.session.auditor := by
  cases event with
  | edit change => cases h; rfl
  | advance ms => cases h; rfl
  | message m =>
    obtain ⟨_, ⟨_, _, _, _, _, _, _, heffects⟩, _⟩ := h
    rw [(Prod.mk.inj heffects).2]
    exact s.orders_auditor m

/-- What files ever held is right about the files at every moment. -/
theorem Orderly.proper {visits : List Visit} (h : Orderly visits) {v : Visit} (hv : v ∈ visits) :
    v.Proper (sourceHistory v.server.session.auditor.settings (asks visits)) where
  follows := h.follows v hv
  versions := h.versions v hv
  keys uri huri := Uri.text_ne_key (h.addresses v hv uri huri).1 (h.addresses v hv uri huri).2
  sources address p hasks hp := by
    have hasked : ∀ t ∈ v.server.asked p.current, asks visits v.server.session.world t :=
      fun t ht => ⟨v, hv, rfl, address, p, hasks, hp, ht⟩
    refine ⟨fun t ht => ?_, fun t ht => h.sources.agrees _ (hasked t ht),
      fun path path' hpath hpath' =>
      h.sources.keys _ _ path path' (hasked _ hpath) (hasked _ hpath')⟩
    cases t with
    | file path => exact ⟨path, rfl⟩
    | remote url => exact absurd (hasked _ ht) (h.unfetched _ url)

/-- `v.Answered`: what is published is what is due, and documents are open at their addresses. -/
structure Visit.Answered (v : Visit) : Prop where
  published : ∀ cache : SelectorCache, cache.entries = [] →
    ∀ pub, pub ∈ v.published ↔ v.Due cache pub
  periods : ∀ address p, v.next address = some p → p.current.uri.text = address

/-- Every event of a run is answered, if each is proper when it is its turn. -/
theorem Lives.answered {s : Server} {e : Editor} {visits : List Visit} (hrun : Lives s e visits)
    {F : Ledger}
    (hF : ∀ key freshness selectors, F key freshness selectors → ∃ path : Path, key = path.key)
    (hproper : ∀ v ∈ visits, v.server.session.auditor = s.session.auditor → v.Proper F)
    (h : Kept F s e) {v : Visit} (hv : v ∈ visits) : v.Answered := by
  induction hrun with
  | nil s e => cases hv
  | @cons s e event r visits hreacts hrest ih =>
    have hfirst := hproper ⟨s, e, event, r.1⟩ List.mem_cons_self rfl
    obtain ⟨hkept, hpublished⟩ := h.reacts hF hfirst hreacts
    rcases List.mem_cons.mp hv with rfl | hv
    · exact ⟨hpublished, fun address p hp => (hkept.periods address p hp).address_eq⟩
    · refine ih (fun v hv hauditor => ?_) hkept hv
      exact hproper v (List.mem_cons_of_mem _ hv) (hauditor.trans hreacts.auditor_eq)

/-! ### Closed documents -/

/-- A document that is closed stays so, until it is opened. -/
theorem Editor.after_eq_none {settings : Settings} {e : Editor} {event : Event} {address : String}
    (h : e address = none) (hopens : ¬ event.Opens address) :
    e.after settings event address = none := by
  have hput : ∀ (uri : Uri) p, uri.text ≠ address → e.put uri.text p address = none :=
    fun uri p hne => (e.put_of_ne p (Ne.symm hne)).trans h
  cases event with
  | edit change => exact h
  | advance ms => exact h
  | message m =>
    cases m with
    | opened uri language version text => exact hput uri _ hopens
    | saved uri => exact h
    | command name => exact h
    | closed uri =>
      show (if address = uri.text then none else e address) = none
      rw [h, ite_self]
    | changed uri version texts =>
      cases hlast : texts.getLast? with
      | none => simpa only [after, hlast] using h
      | some text =>
        cases hopen : e uri.text with
        | none => simpa only [after, hlast, hopen] using h
        | some p =>
          -- an open document is changed, so its address is another one
          have hne : uri.text ≠ address := fun heq => by cases (heq ▸ hopen).symm.trans h
          simpa only [after, hlast, hopen] using hput uri _ hne

/-- Nothing is published at an address that is closed and not opened. -/
theorem Visit.Answered.uri_ne {v : Visit} (h : v.Answered) (hfollows : v.event.Follows v.editor)
    {address : String} (hclosed : v.editor address = none) (hopens : ¬ v.event.Opens address) :
    ∀ pub ∈ v.published, pub.uri.text ≠ address := by
  intro pub hpub heq
  rcases (h.published ⟨[], 0, 0⟩ rfl pub).mp hpub with ⟨address', p, _, hp, rfl⟩ |
    ⟨uri, hevent, rfl⟩
  · have haddress : address' = address := (h.periods address' p hp).symm.trans heq
    rw [haddress] at hp
    cases hp.symm.trans (Editor.after_eq_none hclosed hopens)
  · rw [hevent] at hfollows
    have hopen : (v.editor uri.text).isSome := hfollows
    rw [heq, hclosed] at hopen
    cases hopen

/-- When a document is closed, nothing else is published. -/
theorem Visit.Answered.getLast?_closed {v : Visit} (h : v.Answered) {uri : Uri}
    (hevent : v.event = .message (.closed uri)) :
    (v.published.filter (·.uri.text = uri.text)).getLast? = some ⟨uri, none, []⟩ := by
  have honly : ∀ pub, pub ∈ v.published ↔ pub = ⟨uri, none, []⟩ := by
    intro pub
    rw [h.published ⟨[], 0, 0⟩ rfl pub]
    simp [Visit.Due, hevent, Event.AsksFor]
  cases hlast : (v.published.filter (·.uri.text = uri.text)).getLast? with
  | none =>
    have hmem : ⟨uri, none, []⟩ ∈ v.published.filter (·.uri.text = uri.text) :=
      List.mem_filter.mpr ⟨(honly _).mpr rfl, decide_eq_true rfl⟩
    rw [List.getLast?_eq_none_iff.mp hlast] at hmem
    cases hmem
  | some pub =>
    rw [(honly pub).mp (List.mem_filter.mp (List.mem_of_getLast? hlast)).1]

/-- Nothing is published for a document that stays closed. -/
theorem Lives.uri_ne {s : Server} {e : Editor} {visits : List Visit} (hrun : Lives s e visits)
    (hanswered : ∀ v ∈ visits, v.Answered) (hfollows : ∀ v ∈ visits, v.event.Follows v.editor)
    {address : String} (hclosed : e address = none)
    (hopens : ∀ v ∈ visits, ¬ v.event.Opens address) :
    ∀ v ∈ visits, ∀ pub ∈ v.published, pub.uri.text ≠ address := by
  induction hrun with
  | nil s e => exact fun _ hv => absurd hv List.not_mem_nil
  | @cons s e event r visits hreacts hrest ih =>
    rw [List.forall_mem_cons] at hanswered hfollows hopens ⊢
    exact ⟨hanswered.1.uri_ne hfollows.1 hclosed hopens.1,
      ih hanswered.2 hfollows.2 (Editor.after_eq_none hclosed hopens.1) hopens.2⟩

/-- The beginning of a run is a run. -/
theorem Lives.of_append {s : Server} {e : Editor} {visits rest : List Visit}
    (h : Lives s e (visits ++ rest)) : Lives s e visits := by
  induction visits generalizing s e with
  | nil => exact .nil s e
  | cons v visits ih =>
    cases h with
    | cons hreacts hrest => exact .cons hreacts (ih hrest)

/-- The last publication for a document that was closed, and not opened since, says so. -/
theorem getLast?_published {s : Server} {e : Editor} {before later : List Visit} {v : Visit}
    (hrun : Lives s e (before ++ v :: later))
    (hanswered : ∀ w ∈ before ++ v :: later, w.Answered)
    (hfollows : ∀ w ∈ before ++ v :: later, w.event.Follows w.editor) {uri : Uri}
    (hevent : v.event = .message (.closed uri)) (hopens : ∀ w ∈ later, ¬ w.event.Opens uri.text) :
    (((before ++ v :: later).flatMap Visit.published).filter
      (·.uri.text = uri.text)).getLast? = some ⟨uri, none, []⟩ := by
  induction before generalizing s e with
  | nil =>
    rw [List.nil_append, List.forall_mem_cons] at hanswered hfollows
    cases hrun with
    | @cons _ _ event r _ hreacts hrest =>
      obtain rfl : event = .message (.closed uri) := hevent
      have hclosed : e.after s.session.auditor.settings (.message (.closed uri)) uri.text = none :=
        e.put_self _ _
      have hlater : (later.flatMap Visit.published).filter (·.uri.text = uri.text) = [] := by
        refine List.filter_eq_nil_iff.mpr fun pub hpub => ?_
        obtain ⟨w, hw, hpub⟩ := List.mem_flatMap.mp hpub
        rw [decide_eq_true_eq]
        exact hrest.uri_ne hanswered.2 hfollows.2 hclosed hopens w hw pub hpub
      rw [List.nil_append, List.flatMap_cons, List.filter_append, hlater, List.append_nil]
      exact hanswered.1.getLast?_closed rfl
  | cons w before ih =>
    rw [List.cons_append, List.forall_mem_cons] at hanswered hfollows
    cases hrun with
    | cons _ hrest =>
      rw [List.cons_append, List.flatMap_cons, List.filter_append, List.getLast?_append,
        ih hrest hanswered.2 hfollows.2]
      rfl

end Server

open Server in
/-- **What is published shows no history.** Take an orderly run of a server that starts without open
documents and with an empty cache, of any capacity and time to live. What is published because of an
event is what is due: for each document that is asked for, the diagnostics of its current text and
kind at its current version, as they are with an empty cache. It does not matter in which order
documents are validated and files are loaded. After a document was closed, the last list that was
published for it is empty, until it is opened again. -/
theorem published_is_fresh {s₀ : Server} {visits : List Visit} (hrun : Lives s₀ .idle visits)
    (hdocuments : s₀.documents = []) (hcache : s₀.session.cache.entries = [])
    (horderly : Orderly visits) :
    (∀ v ∈ visits, ∀ cache : SelectorCache, cache.entries = [] →
      ∀ p, p ∈ v.published ↔ v.Due cache p) ∧
    ∀ before v later rest uri, visits = before ++ v :: (later ++ rest) →
      v.event = .message (.closed uri) → (∀ w ∈ later, ¬ w.event.Opens uri.text) →
      (((before ++ v :: later).flatMap Visit.published).filter
        (·.uri.text = uri.text)).getLast? = some ⟨uri, none, []⟩ := by
  have hF : ∀ key freshness selectors,
      sourceHistory s₀.session.auditor.settings (asks visits) key freshness selectors →
        ∃ path : Path, key = path.key := by
    rintro _ _ _ ⟨world, t, ht, rfl, _⟩
    cases t with
    | file path => exact ⟨path, rfl⟩
    | remote url => exact absurd ht (horderly.unfetched world url)
  -- every visit is answered, by what all visits before it left
  have hanswered : ∀ v ∈ visits, v.Answered := by
    intro v hv
    refine hrun.answered hF (fun v hv hauditor => ?_) (Kept.idle hdocuments hcache) hv
    rw [← hauditor]
    exact horderly.proper hv
  refine ⟨fun v hv => (hanswered v hv).published, ?_⟩
  rintro before v later rest uri rfl hevent hopens
  rw [← List.cons_append, ← List.append_assoc] at hrun hanswered horderly
  exact getLast?_published hrun.of_append (fun w hw => hanswered w (List.mem_append_left _ hw))
    (fun w hw => horderly.follows w (List.mem_append_left _ hw)) hevent hopens

/-! ### A document that is opened twice -/

/-- A session starts with an empty cache. -/
theorem Session.create_spec {settings : Settings} {lint : Option (Document → List Diagnostic)}
    {tree : FileTree} {remote : Option (String → Except String String)} {s : Session}
    (h : Session.create settings lint tree remote = .ok s) :
    s.cache.entries = [] ∧ s.world = ⟨tree, remote, 0⟩ := by
  unfold Session.create Cache.create at h
  split at h
  · cases h
  · cases hauditor : Auditor.create settings lint with
    | error fault => rw [hauditor] at h; cases h
    | ok auditor =>
      rw [hauditor] at h
      cases h
      exact ⟨rfl, rfl⟩

/-- A server starts without open documents and with an empty cache, and fetches nothing. -/
theorem Server.start_spec {tree : FileTree} {r : Server.StartRequest} {s : Server}
    (h : Server.start tree r = .ok s) :
    s.documents = [] ∧ s.session.cache.entries = [] ∧ s.session.world = ⟨tree, none, 0⟩ := by
  unfold Server.start at h
  cases hsettings : Server.startSettings tree r with
  | error fault => rw [hsettings] at h; cases h
  | ok settings =>
    rw [hsettings] at h
    simp only [bind, Except.bind] at h
    split at h
    · cases h
    · next session hsession =>
      cases h
      exact ⟨rfl, Session.create_spec hsession⟩

theorem Server.react_world (s : Server) (m : Server.Message) :
    (s.react (.message m)).2.session.world = s.session.world := by
  obtain ⟨_, hsession⟩ := s.orders_session m
  show (s.orders m).server.session.world = _
  rw [hsession]

namespace Reopened

open Rewritten

def uri : Uri := ⟨"untitled", none, "draft", none, none⟩

def request : Server.StartRequest := ⟨[], none, .absent⟩

def page : String := "<link rel=stylesheet href='/base.css'><p class='old'>"

/-- A draft links to a file that is rewritten. It is closed and opened again with its first version,
as another text in another language. Then the cache is cleared. -/
def events : List Server.Event :=
  [.message (.opened uri "html" 1 page), .edit fun _ => new, .message (.saved uri),
    .message (.closed uri), .message (.opened uri "css" 1 ".a { }"),
    .message (.command Server.clearCommand)]

/-- Nothing is open but the draft, with one of its texts. -/
def HasDraft (e : Server.Editor) : Prop := ∀ address p, e address = some p →
  p.current.uri = uri ∧ (p.current.text = page ∨ p.current.text = ".a { }")

/-- The draft stays what it is when a text of it is put. -/
theorem HasDraft.put {e : Server.Editor} (h : HasDraft e) (address : String)
    {q : Option Server.Period} (hq : ∀ p, q = some p →
      p.current.uri = uri ∧ (p.current.text = page ∨ p.current.text = ".a { }")) :
    HasDraft (e.put address q) := by
  intro asked p hp
  unfold Server.Editor.put at hp
  split at hp
  · exact hq p hp
  · exact h asked p hp

/-- The draft asks for no other file. It has no place on disk, so it has no workspace. -/
theorem asked_eq (s : Server) {d : OpenDocument} (huri : d.uri = uri)
    (htext : d.text = page ∨ d.text = ".a { }") : ∀ t ∈ s.asked d, t = .file base := by
  have hlinks : ∀ text ∈ [page, ".a { }"],
      ∀ t ∈ (Markup.stylesheetLinks (.ofText text.toList)).filterMap
      fun href => LinkTarget.ofHref? href none none, t = .file base := by decide +kernel
  have hplace : d.uri.filePath? = none := by rw [huri]; decide +kernel
  have hroot : s.rootOf d.uri = none := by rw [Server.rootOf, hplace]; rfl
  have hdir : (Server.toDocument d).dir = none := by
    show d.uri.filePath?.bind Path.parent? = none
    rw [hplace]
    rfl
  intro t ht
  -- without a place there is neither a directory nor a workspace, only the links
  unfold Server.asked Auditor.asked at ht
  rw [hroot] at ht
  split at ht
  · have hsource := (Audit.mem_asked_iff.mp ht).1
    rw [Audit.sources, Audit.gathered, List.map_nil, List.append_nil, Audit.linkTargets,
      hdir] at hsource
    split at hsource
    · exact hlinks d.text (by simpa using htext) t hsource
    · cases hsource
  · cases ht

/-- The only edit of a run rewrites the file. -/
theorem world_of_mem_visits {s : Server} {e : Server.Editor} {events : List Server.Event}
    (hedits : ∀ change, .edit change ∈ events → change = fun _ => new)
    (hworld : (s.session.world.tree = old ∨ s.session.world.tree = new) ∧
      s.session.world.remote = none)
    {v : Server.Visit} (hv : v ∈ s.visits e events) :
    (v.server.session.world.tree = old ∨ v.server.session.world.tree = new) ∧
      v.server.session.world.remote = none := by
  induction events generalizing s e with
  | nil => cases hv
  | cons event events ih =>
    rcases List.mem_cons.mp hv with rfl | hv
    · exact hworld
    · refine ih (fun change hmem => hedits change (List.mem_cons_of_mem _ hmem)) ?_ hv
      cases event with
      | message m => rw [s.react_world m]; exact hworld
      | edit change =>
        obtain rfl := hedits change List.mem_cons_self
        exact ⟨.inr rfl, hworld.2⟩
      | advance ms => exact hworld

/-- The run keeps to the order the theorem asks for. -/
theorem orderly {s : Server} (h : Server.start old request = .ok s) :
    Server.Orderly (s.visits .idle events) := by
  have hworld : ∀ v ∈ s.visits .idle events,
      (v.server.session.world.tree = old ∨ v.server.session.world.tree = new) ∧
        v.server.session.world.remote = none := by
    intro v hv
    refine world_of_mem_visits (fun change hmem => ?_) ?_ hv
    · simpa [events] using hmem
    · rw [(Server.start_spec h).2.2]
      exact ⟨.inl rfl, rfl⟩
  have hvisits : ∀ v ∈ s.visits .idle events, v.event.Follows v.editor ∧
      v.event.KeepsVersions v.editor ∧ (∀ uri', v.event.uri? = some uri' → uri' = uri) ∧
      HasDraft v.next := by
    have hopened : HasDraft (Server.Editor.after s.session.auditor.settings .idle
        (.message (.opened uri "html" 1 page))) :=
      HasDraft.put (fun _ _ hp => by cases hp) uri.text
        fun p hp => by cases hp; exact ⟨rfl, .inl rfl⟩
    have hclosed := hopened.put uri.text (q := none) fun _ hp => nomatch hp
    have hreopened : ∀ kind, HasDraft (Server.Editor.put _ uri.text
        (some ⟨⟨uri, 1, ".a { }", kind⟩, []⟩)) := fun kind =>
      hclosed.put uri.text fun p hp => by cases hp; exact ⟨rfl, .inr rfl⟩
    intro v hv
    simp only [events, Server.visits, List.mem_cons, List.not_mem_nil, or_false] at hv
    rcases hv with rfl | rfl | rfl | rfl | rfl | rfl
    · exact ⟨rfl, trivial, by simp [Server.Event.uri?], hopened⟩
    · exact ⟨trivial, trivial, by simp [Server.Event.uri?], hopened⟩
    · exact ⟨trivial, trivial, by simp [Server.Event.uri?], hopened⟩
    · exact ⟨rfl, trivial, by simp [Server.Event.uri?], hclosed⟩
    · exact ⟨rfl, trivial, by simp [Server.Event.uri?], hreopened _⟩
    · exact ⟨trivial, trivial, by simp [Server.Event.uri?], hreopened _⟩
  refine ⟨fun v hv => (hvisits v hv).1, fun v hv => (hvisits v hv).2.1, ?_, ?_, ?_⟩
  · intro v hv uri' huri
    rw [(hvisits v hv).2.2.1 uri' huri]
    decide
  · refine sourcesTell none ?_ ?_
    · rintro _ t ⟨v, hv, rfl, _⟩
      exact hworld v hv
    · rintro _ path ⟨v, hv, rfl, address, p, _, hp, hpath⟩
      obtain ⟨huri, htext⟩ := (hvisits v hv).2.2.2 address p hp
      exact LinkTarget.file.inj (asked_eq v.server huri htext _ hpath)
  · rintro _ url ⟨v, hv, rfl, address, p, _, hp, hurl⟩
    obtain ⟨huri, htext⟩ := (hvisits v hv).2.2.2 address p hp
    cases asked_eq v.server huri htext _ hurl

theorem exists_start : ∃ s, Server.start old request = .ok s := by
  have hsome : (Server.start old request).toOption.isSome = true := by decide +kernel
  cases hstart : Server.start old request with
  | error fault => rw [hstart] at hsome; cases hsome
  | ok s => exact ⟨s, rfl⟩

end Reopened

open Reopened in
theorem published_is_fresh_reopened :
    ∃ s₀, Server.start Rewritten.old request = .ok s₀ ∧ Server.Orderly (s₀.visits .idle events) ∧
      (∀ v ∈ s₀.visits .idle events, ∀ cache : SelectorCache, cache.entries = [] →
        ∀ p, p ∈ v.published ↔ v.Due cache p) ∧
      ((((s₀.visits .idle events).take 4).flatMap Server.Visit.published).filter
        (·.uri.text = uri.text)).getLast? = some ⟨uri, none, []⟩ := by
  obtain ⟨s₀, hstart⟩ := exists_start
  obtain ⟨hdocuments, hcache, _⟩ := Server.start_spec hstart
  obtain ⟨hdue, hclosed⟩ := published_is_fresh (s₀.lives_visits .idle events) hdocuments hcache
    (orderly hstart)
  exact ⟨s₀, hstart, orderly hstart, hdue,
    hclosed [_, _, _] _ [] [_, _] uri rfl rfl fun _ hw => absurd hw List.not_mem_nil⟩

/-! ### Runs that are not orderly -/

namespace Server

/-- If one document is to be validated, it is published with what the cache gives. -/
theorem react_of_validate_eq {s : Server} {m : Message} {d : OpenDocument}
    (hvalidate : (s.orders m).validate = [d]) (hpublished : (s.orders m).published = []) :
    (s.react (.message m)).1 =
      [(s.orders m).server.freshPublication (s.orders m).server.session.cache d] := by
  simp only [react, handle, hvalidate, publishAll, Plan.run_bind, Plan.run_pure, Orders.finish,
    hpublished, List.nil_append]
  rfl

/-- The number of diagnostics, before they are sorted. -/
theorem length_freshPublication {s : Server} {d : OpenDocument} (cache : SelectorCache)
    (hlint : s.session.auditor.lint = none)
    (hcovers : s.session.auditor.covers (toDocument d) (s.rootOf d.uri) = true)
    (hkind : d.kind ≠ .style) :
    (s.freshPublication cache d).diagnostics.length =
      (s.session.auditor.referenceDiagnostics (toDocument d) ((s.session.audit .never).collect
        (toDocument d) (s.rootOf d.uri) ((s.session.audit .never).start cache)).1).length := by
  have hdone := (Plan.runs_run (s.session.audit .never) (s.session.auditor.plan s.session.world
    (s.session.audit .never).addFiles (toDocument d) (s.rootOf d.uri))
      ((s.session.audit .never).start cache)).not_cancelled rfl rfl
  rw [freshPublication, publication, List.length_map, freshDiagnostics,
    Auditor.validate_eq_finish hcovers hkind hdone]
  exact (Auditor.finish_spec hlint _ _).2.length_eq

end Server

namespace Stale

open Rewritten

/-- A server without open documents. -/
def start (tree : FileTree) (settings : Settings) : Server where
  session := ⟨⟨settings, builtInSet, none⟩, ⟨tree, none, 0⟩, ⟨[], 300, 1800000⟩⟩
  folders := []
  documents := []

/-- A page that uses a name of the stylesheet it links to. -/
def draft : OpenDocument := ⟨Reopened.uri, 1, Reopened.page, .markup⟩

/-- The page is open, and the stylesheet was rewritten, with two times of change before 1970. -/
def aged : Server :=
  (((start (tree ".old { }" (-5000)) {}).react
    (.message (.opened draft.uri "html" draft.version draft.text))).2.react
      (.edit fun _ => tree ".new { }" (-3000))).2

/-- Two directories whose names are no text. Each has a stylesheet. -/
def directories : FileTree where
  files := [([[0x77], [0xFE], Text.utf8 "a.css".toList], ⟨.text ".old { }", 1000⟩),
    ([[0x77], [0xFF], Text.utf8 "a.css".toList], ⟨.text ".new { }", 1000⟩)]
  directories := [[[0x77]], [[0x77], [0xFE]], [[0x77], [0xFF]]]
  workingDirectory := []

/-- A page in one of the directories that uses a name of the stylesheet there. -/
def pageIn (path : String) : OpenDocument :=
  ⟨⟨"file", some .blank, path, none, none⟩, 1,
    "<link rel=stylesheet href='a.css'><p class='old'>", .markup⟩

def first : OpenDocument := pageIn "/w/%FE/page.html"

def second : OpenDocument := pageIn "/w/%FF/page.html"

/-- The page in the first directory is open. Files of a workspace do not count. -/
def paired : Server :=
  ((start directories { workspaceScan := false }).react
    (.message (.opened first.uri "html" first.version first.text))).2

end Stale

open Stale Server in
/-- A stylesheet that changes before 1970 has the same time before and after the change. The
stylesheets of two directories whose names are no text share a key. In both cases the name that a
page uses is gone, and yet no diagnostic is published. -/
theorem published_is_stale :
    (aged.react (.message (.saved draft.uri))).1.map (fun p => p.diagnostics.length) = [0] ∧
    (aged.freshPublication ⟨[], 300, 1800000⟩ draft).diagnostics.length = 1 ∧
    (paired.react (.message (.opened second.uri "html" second.version second.text))).1.map
      (fun p => p.diagnostics.length) = [0] ∧
    (paired.freshPublication ⟨[], 300, 1800000⟩ second).diagnostics.length = 1 := by
  have hsaved : (aged.orders (.saved draft.uri)).validate = [draft] := by decide +kernel
  have hopened : (paired.orders (.opened second.uri "html" second.version second.text)).validate =
      [second] := by decide +kernel
  have haged : aged.session.auditor.lint = none := by
    rw [aged, (reacts_react _ _).auditor_eq, (reacts_react _ _).auditor_eq]
    rfl
  have hpaired : paired.session.auditor.lint = none := by
    rw [paired, (reacts_react _ _).auditor_eq]
    rfl
  rw [react_of_validate_eq hsaved rfl, react_of_validate_eq hopened rfl]
  simp only [List.map_cons, List.map_nil]
  -- diagnostics are counted before they are sorted
  rw [length_freshPublication _ (by rw [orders_auditor]; exact haged)
    (by decide +kernel) (by decide),
    length_freshPublication _ haged (by decide +kernel) (by decide),
    length_freshPublication _ (by rw [orders_auditor]; exact hpaired)
      (by decide +kernel) (by decide),
    length_freshPublication _ hpaired (by decide +kernel) (by decide)]
  refine ⟨?_, ?_, ?_, ?_⟩
  all_goals decide +kernel

end StyleAudit
