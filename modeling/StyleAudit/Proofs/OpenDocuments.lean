import Mathlib.Data.List.TakeDrop
import StyleAudit.Proofs.SourceHistory
import StyleAudit.Server.Run

/-!
# The open documents of a server

The selectors of a document are cached under its address and version only, and an editor may use the
same version again after it has closed a document. This module says what the cache of a server holds
for the documents that are open, and that each event keeps it so.

* **`Uri.text_ne_key`**: the address of a document is not the key of a file.
* **`Editor.declares`** is what the open documents declare, under every version that they had since
  they were opened. **`Kept`** says that the cache holds nothing else, besides what files held.
* **`Kept.put`** stores a document, **`Kept.close`** removes one: what it declared goes from the
  ledger, and its key goes from the cache.
* **`Kept.orders`** is about reading a message: the documents that are to be validated are those
  that it asks for.
* **`Kept.validates`** is about the validations: side by side or one after another, they give what
  an empty cache gives, and the cache stays as it should.
* **`Kept.reacts`** is about one event: what is published is what is due.
-/

namespace StyleAudit

/-! ### Keys -/

/-- The address of a document is not the key of a file. Its scheme ends at its first colon. -/
theorem Uri.text_ne_key {uri : Uri} (hcolon : ':' ∉ uri.scheme.toList) (hscheme : uri.scheme ≠ "fs")
    (path : Path) : uri.text ≠ path.key := by
  intro heq
  obtain ⟨rest, hrest⟩ : ∃ rest, uri.text.toList = uri.scheme.toList ++ ':' :: rest := by
    simp only [Uri.text, String.toList_append, List.append_assoc]
    exact ⟨_, rfl⟩
  have hkey : path.key.toList = ['f', 's'] ++ ':' :: '/' :: '/' :: path.text.toList := by
    simp [Path.key]
  rw [← heq, hrest] at hkey
  -- both schemes end at the first colon
  have hends : ∀ scheme rest : List Char, ':' ∉ scheme →
      (scheme ++ ':' :: rest).takeWhile (fun c => decide (c ≠ ':')) = scheme := by
    intro scheme rest hcolon
    rw [List.takeWhile_append_of_pos]
    · simp
    · intro c hc
      rw [decide_eq_true_eq]
      rintro rfl
      exact hcolon hc
  have hfirst := congrArg (List.takeWhile fun c => decide (c ≠ ':')) hkey
  rw [hends _ _ hcolon, hends _ _ (by decide)] at hfirst
  exact hscheme (String.toList_injective hfirst)

namespace Server

/-! ### Lookups -/

/-- Closing a document removes it and no other. -/
theorem lookup_without (documents : List (String × OpenDocument)) (uri : Uri) (address : String) :
    (without documents uri).lookup address =
      if address = uri.text then none else documents.lookup address := by
  induction documents with
  | nil => simp [without]
  | cons entry documents ih =>
    obtain ⟨key, d⟩ := entry
    rw [without] at ih
    by_cases hkey : key = uri.text
    · rw [without, List.filter_cons_of_neg (by simpa using hkey), ih]
      by_cases haddress : address = uri.text
      · rw [if_pos haddress, if_pos haddress]
      · rw [if_neg haddress, if_neg haddress, List.lookup_cons, hkey, beq_false_of_ne haddress]
    · rw [without, List.filter_cons_of_pos (by simpa using hkey), List.lookup_cons,
        List.lookup_cons, ih]
      by_cases haddress : address = key
      · simp [haddress, hkey]
      · rw [beq_false_of_ne haddress]

/-- Storing a document replaces the one at its address and no other. -/
theorem lookup_store (s : Server) (d : OpenDocument) (address : String) :
    (s.store d).documents.lookup address =
      if address = d.uri.text then some d else s.documents.lookup address := by
  rw [store, List.lookup_append, lookup_without]
  by_cases haddress : address = d.uri.text
  · simp [haddress]
  · rw [if_neg haddress, List.lookup_cons, beq_false_of_ne haddress]
    simp [haddress]

/-! ### The cache in a run -/

/-- What the open documents declare, under the versions that they had since they were opened. -/
def Editor.declares (e : Editor) : Ledger := fun key version selectors =>
  ∃ p, e key = some p ∧ ∃ text, (version, text) ∈ p.texts ∧
    selectors = (toDocument { p.current with text }).selectors

/-- What the cache may hold: what files held, by the ledger `F`, and what the open documents
declare. -/
def Editor.ledger (e : Editor) (F : Ledger) : Ledger := fun key freshness selectors =>
  F key freshness selectors ∨ e.declares key freshness selectors

/-- What is known of a document that is open at an address. -/
structure Period.Sound (address : String) (p : Period) : Prop where
  address_eq : p.current.uri.text = address
  /-- Versions tell texts. -/
  versions : ∀ t ∈ p.texts, ∀ t' ∈ p.texts, t.1 = t'.1 → t.2 = t'.2
  not_file : ∀ path : Path, address ≠ path.key

/-- A change to a version that the document had is to the text of that version. -/
theorem Period.Sound.change {p : Period} {uri : Uri} (h : p.Sound uri.text) {version : Int}
    {text : String} (hversions : ∀ earlier ∈ p.texts, earlier.1 = version → earlier.2 = text) :
    (p.change uri version text).Sound uri.text := by
  refine ⟨rfl, ?_, h.not_file⟩
  intro t ht t' ht' hsame
  rcases List.mem_cons.mp ht with rfl | ht <;> rcases List.mem_cons.mp ht' with rfl | ht'
  · rfl
  · exact (hversions t' ht' hsame.symm).symm
  · exact hversions t ht hsame
  · exact h.versions t ht t' ht' hsame

/-- `Kept F s e`: the server has the documents of the editor, and its cache holds only what it
may. -/
structure Kept (F : Ledger) (s : Server) (e : Editor) : Prop where
  documents : ∀ address, s.documents.lookup address = (e address).map Period.current
  /-- No address has two documents. -/
  found : ∀ entry ∈ s.documents, s.documents.lookup entry.1 = some entry.2
  periods : ∀ address p, e address = some p → p.Sound address
  cache : s.session.cache.Holds (e.ledger F)

namespace Kept

variable {F : Ledger} {s : Server} {e : Editor}

/-- A server that was just started keeps to any ledger. -/
theorem idle (hdocuments : s.documents = []) (hcache : s.session.cache.entries = []) :
    Kept F s .idle where
  documents address := by rw [hdocuments]; rfl
  found entry hentry := by rw [hdocuments] at hentry; cases hentry
  periods address p hp := by cases hp
  cache := Cache.holds_of_entries_nil hcache

/-- Another cache that agrees with the ledger will do. -/
theorem withCache (h : Kept F s e) {cache : SelectorCache}
    (hcache : cache.Holds (e.ledger F)) : Kept F (s.withCache cache) e :=
  ⟨h.documents, h.found, h.periods, hcache⟩

/-- A document is stored that was closed before, or had the same kind and all texts of the period so
far. -/
theorem put (h : Kept F s e) {p : Period} (hp : p.Sound p.current.uri.text)
    (hold : ∀ old, e p.current.uri.text = some old →
      old.current.kind = p.current.kind ∧ old.texts ⊆ p.texts) :
    Kept F (s.store p.current) (e.put p.current.uri.text (some p)) where
  documents address := by
    rw [lookup_store, Editor.put]
    split
    · rfl
    · exact h.documents address
  found entry hentry := by
    rw [lookup_store]
    rcases List.mem_append.mp hentry with hentry | hentry
    · obtain ⟨hmem, hne⟩ := List.mem_filter.mp hentry
      rw [if_neg (of_decide_eq_true hne)]
      exact h.found entry hmem
    · rw [List.mem_singleton.mp hentry]
      exact if_pos rfl
  periods address p' hp' := by
    unfold Editor.put at hp'
    split at hp'
    · next haddress =>
      rw [haddress, ← Option.some.inj hp']
      exact hp
    · exact h.periods address p' hp'
  cache := by
    intro entry hentry
    refine (h.cache entry hentry).imp_right ?_
    -- what was declared by a text of this period still is, since texts are only added
    rintro ⟨old, hopen, text, htext, hselectors⟩
    by_cases hkey : entry.key = p.current.uri.text
    · rw [hkey] at hopen
      obtain ⟨hkind, htexts⟩ := hold old hopen
      refine ⟨p, by rw [hkey, Editor.put_self], text, htexts htext, ?_⟩
      rw [hselectors]
      exact Document.selectors_congr rfl hkind
    · exact ⟨old, (e.put_of_ne _ hkey).trans hopen, text, htext, hselectors⟩

/-- A document is closed: nothing that it declared stays in the cache. -/
theorem close (h : Kept F s e) (uri : Uri) :
    Kept F { s.withCache (s.session.cache.delete uri.text).2 with
      documents := without s.documents uri } (e.put uri.text none) where
  documents address := by
    rw [lookup_without, Editor.put]
    split
    · rfl
    · exact h.documents address
  found entry hentry := by
    obtain ⟨hmem, hne⟩ := List.mem_filter.mp hentry
    rw [lookup_without, if_neg (of_decide_eq_true hne)]
    exact h.found entry hmem
  periods address p hp := by
    unfold Editor.put at hp
    split at hp
    · cases hp
    · exact h.periods address p hp
  cache := by
    intro entry hentry
    -- the entries of the closed document are gone, so the others belong to other addresses
    obtain ⟨hmem, hkey⟩ := List.mem_filter.mp hentry
    refine (h.cache entry hmem).imp_right ?_
    rintro ⟨p, hopen, hdeclared⟩
    exact ⟨p, (e.put_of_ne _ (of_decide_eq_true hkey)).trans hopen, hdeclared⟩

end Kept

/-! ### Validations -/

/-- The sources that the validation of an open document asks for. -/
def asked (s : Server) (d : OpenDocument) : List LinkTarget :=
  s.session.auditor.asked s.session.world (toDocument d) (s.rootOf d.uri)

/-- The diagnostics of an open document, read off its sources. -/
def verdict (s : Server) (d : OpenDocument) : List Diagnostic :=
  s.session.auditor.verdict s.session.world (toDocument d) (s.rootOf d.uri)

/-- `s.HasSources F d`: the sources of an open document are files, the ledger `F` has what they hold
now, and keys tell them. -/
structure HasSources (s : Server) (F : Ledger) (d : OpenDocument) : Prop where
  files : ∀ t ∈ s.asked d, ∃ path, t = .file path
  agree : ∀ t ∈ s.asked d, (s.session.audit .never).Agrees F t
  keys : ∀ path path', .file path ∈ s.asked d → .file path' ∈ s.asked d → path.key = path'.key →
    path = path'

namespace Kept

variable {F : Ledger} {s : Server} {e : Editor}

/-- A validation gives what the sources have. -/
theorem validation_yields (h : Kept F s e)
    (hF : ∀ key freshness selectors, F key freshness selectors → ∃ path : Path, key = path.key)
    {address : String} {p : Period} (hopen : e address = some p)
    (hsources : s.HasSources F p.current) {load : Audit.BatchLoader}
    (hload : (s.session.audit .never).Interleaves load) (cancelled : Bool) :
    (s.validation load p.current).Yields (e.ledger F)
      (fun c found => c = false → found = s.verdict p.current) cancelled := by
  have hp := h.periods address p hopen
  refine Auditor.plan_yields hload (fun t ht => ?_) hsources.keys (fun selectors => ?_) cancelled
  · obtain ⟨path, rfl⟩ := hsources.files t ht
    refine (hsources.agree _ ht).or ?_
    rintro freshness selectors ⟨q, hq, _⟩
    exact (h.periods path.key q hq).not_file path rfl
  · have hkey : (toDocument p.current).key = address := hp.address_eq
    rw [hkey]
    constructor
    · rintro (hfile | ⟨q, hq, text, htext, rfl⟩)
      · obtain ⟨path, hpath⟩ := hF _ _ _ hfile
        exact absurd hpath (hp.not_file path)
      · obtain rfl := Option.some.inj (hopen.symm.trans hq)
        -- the version was given to the current text, and to no other in this period
        have hsame := hp.versions _ htext _ List.mem_cons_self rfl
        exact Document.selectors_congr hsame rfl
    · rintro rfl
      exact .inr ⟨p, hopen, p.current.text, List.mem_cons_self, rfl⟩

/-- With any cache that is as it should be, also an empty one, the diagnostics are those that the
sources call for. -/
theorem freshDiagnostics_eq (h : Kept F s e)
    (hF : ∀ key freshness selectors, F key freshness selectors → ∃ path : Path, key = path.key)
    {address : String} {p : Period} (hopen : e address = some p)
    (hsources : s.HasSources F p.current) {cache : SelectorCache}
    (hcache : cache.Holds (e.ledger F)) :
    s.freshDiagnostics cache p.current = s.verdict p.current := by
  let a := s.session.audit .never
  have hruns : (s.validation a.addFiles p.current).Runs a (a.start cache) _ := Plan.runs_run ..
  have hyields := h.validation_yields hF hopen hsources a.interleaves_addFiles false
  exact (hyields.runs hcache hruns).2 (hruns.not_cancelled rfl rfl)

/-- The documents that are to be validated are published with what their sources call for, in some
order. The validations may run side by side. -/
theorem validates (h : Kept F s e)
    (hF : ∀ key freshness selectors, F key freshness selectors → ∃ path : Path, key = path.key)
    {ds : List OpenDocument}
    (hds : ∀ d ∈ ds, ∃ address p, e address = some p ∧ p.current = d ∧ s.HasSources F d)
    {load : OpenDocument → Audit.BatchLoader}
    (hload : ∀ d, (s.session.audit .never).Interleaves (load d)) {places : Nat}
    {t : Plan (List Publication)}
    (hweaves : Weaves places (fun published d found => published ++ [publication d found])
      (ds.map fun d => .waiting d (s.validation (load d) d)) [] t)
    {published : List Publication} {p : Progress} (hruns : t.Runs (s.session.audit .never)
      ((s.session.audit .never).start s.session.cache) (published, p)) :
    Kept F (s.withCache p.cache) e ∧
      ∀ pub, pub ∈ published ↔ ∃ d ∈ ds, pub = publication d (s.verdict d) := by
  -- each validation yields its verdict, whatever the others store meanwhile
  have hjobs : ∀ job ∈ ds.map fun d => Job.waiting d (s.validation (load d) d),
      job.plan.Yields (e.ledger F) (fun c found => c = false →
        found = s.verdict job.name) false := by
    intro job hjob
    obtain ⟨d, hd, rfl⟩ := List.mem_map.mp hjob
    obtain ⟨address, p, hopen, rfl, hsources⟩ := hds d hd
    exact h.validation_yields hF hopen hsources (hload _) false
  have hyields := hweaves.yields (R := fun d c found => c = false → found = s.verdict d)
    (fun _ _ _ hnot => nomatch hnot) hjobs
  obtain ⟨hcache, taken, hnames, htaken, hpublished⟩ := hyields.runs h.cache hruns
  have hdone : p.cancelled = false := hruns.not_cancelled rfl rfl
  refine ⟨h.withCache hcache, fun pub => ?_⟩
  -- what was taken are the validations, each with its verdict
  have hlist : published = taken.map fun e => publication e.1 (s.verdict e.1) := by
    have hall : published = taken.map fun e => publication e.1 e.2 := by
      refine hpublished.trans ?_
      rw [List.map_eq_flatMap, List.flatMap_def]
      simp
    rw [hall]
    exact List.map_congr_left fun e he => congrArg _ (htaken e he hdone)
  have hmem : ∀ d, d ∈ taken.map Prod.fst ↔ d ∈ ds := by
    intro d
    rw [hnames.mem_iff]
    simp [Job.waiting]
  rw [hlist]
  simp only [← hmem, List.mem_map]
  constructor
  · rintro ⟨e, he, rfl⟩
    exact ⟨e.1, ⟨e, he, rfl⟩, rfl⟩
  · rintro ⟨_, ⟨e, he, rfl⟩, rfl⟩
    exact ⟨e, he, rfl⟩

end Kept

/-! ### Messages -/

/-- `o.Read F s e event`: the orders of a server `s` about an event that leaves the editor `e` are
as they should be. -/
structure Orders.Read (o : Orders) (F : Ledger) (s : Server) (e : Editor) (event : Event) :
    Prop where
  kept : Kept F o.server e
  /-- Only the cache and the documents differ. -/
  server : ∃ cache documents,
    o.server = { s with session := { s.session with cache }, documents }
  validate : ∀ d, d ∈ o.validate ↔
    ∃ address p, event.AsksFor address ∧ e address = some p ∧ p.current = d
  published : ∀ pub, pub ∈ o.published ↔
    ∃ uri, event = .message (.closed uri) ∧ pub = ⟨uri, none, []⟩

namespace Kept

variable {F : Ledger} {s s' : Server} {e : Editor} {event : Event}

/-- An event that asks for one document, which the server has by then. -/
theorem read_ordersFor (h : Kept F s' e) {uri : Uri}
    (hserver : ∃ cache documents, s' = { s with session := { s.session with cache }, documents })
    (hasks : ∀ address, event.AsksFor address ↔ uri.text = address)
    (hclosed : ∀ uri, event ≠ .message (.closed uri)) : (s'.ordersFor uri).Read F s e event where
  kept := h
  server := hserver
  validate d := by
    simp only [ordersFor, h.documents uri.text, Option.mem_toList, Option.map_eq_some_iff, hasks]
    constructor
    · rintro ⟨p, hp, rfl⟩
      exact ⟨_, p, rfl, hp, rfl⟩
    · rintro ⟨_, p, rfl, hp, rfl⟩
      exact ⟨p, hp, rfl⟩
  published pub := by
    simp [ordersFor, hclosed]

/-- An event that asks for nothing. -/
theorem read_nothing (h : Kept F s e) (hasks : ∀ address, ¬ event.AsksFor address)
    (hclosed : ∀ uri, event ≠ .message (.closed uri)) {error : Option Error} :
    Orders.Read { server := s, error } F s e event where
  kept := h
  server := ⟨_, _, rfl⟩
  validate d := by simp [hasks]
  published pub := by simp [hclosed]

/-- Opening a document begins a period with its text. -/
theorem read_opened (h : Kept F s e) {uri : Uri} {language : String} {version : Int} {text : String}
    (hopen : e uri.text = none) (hkey : ∀ path : Path, uri.text ≠ path.key) :
    (s.orders (.opened uri language version text)).Read F s
      (e.after s.session.auditor.settings (.message (.opened uri language version text)))
      (.message (.opened uri language version text)) := by
  let p : Period := ⟨⟨uri, version, text, kindOf s.session.auditor.settings uri language⟩, []⟩
  have hp : p.Sound p.current.uri.text := by
    refine ⟨rfl, ?_, hkey⟩
    intro t ht t' ht' _
    rw [List.mem_singleton.mp ht, List.mem_singleton.mp ht']
  have hput := h.put hp fun old hold => by cases hopen.symm.trans hold
  exact hput.read_ordersFor ⟨_, _, rfl⟩ (fun _ => Iff.rfl) fun _ heq => by cases heq

/-- A change adds a text to the period of its document; a change without texts does nothing. -/
theorem read_changed (h : Kept F s e) {uri : Uri} {version : Int} {texts : List String}
    (hopen : (e uri.text).isSome)
    (hversions : (Event.message (.changed uri version texts)).KeepsVersions e) :
    (s.orders (.changed uri version texts)).Read F s
      (e.after s.session.auditor.settings (.message (.changed uri version texts)))
      (.message (.changed uri version texts)) := by
  obtain ⟨old, hold⟩ := Option.isSome_iff_exists.mp hopen
  cases hlast : texts.getLast? with
  | none =>
    have hnil : texts = [] := List.getLast?_eq_none_iff.mp hlast
    simp only [orders, Editor.after, hlast]
    refine h.read_nothing ?_ fun _ heq => by cases heq
    rintro _ ⟨hne, _⟩
    exact hne hnil
  | some text =>
    let p := old.change uri version text
    have hne : texts ≠ [] := fun hnil => by rw [hnil] at hlast; cases hlast
    have hkind : s.kindAfterChange uri = old.current.kind := by
      rw [kindAfterChange, h.documents uri.text, hold]
      rfl
    have hp : p.Sound p.current.uri.text :=
      (h.periods uri.text old hold).change (hversions text hlast old hold)
    have hput := h.put hp fun old' hold' => by
      obtain rfl := Option.some.inj (hold.symm.trans hold')
      exact ⟨rfl, List.subset_cons_self _ _⟩
    simp only [orders, Editor.after, hlast, hold, hkind]
    exact hput.read_ordersFor ⟨_, _, rfl⟩ (fun _ => and_iff_right hne) fun _ heq => by cases heq

/-- Closing a document ends its period, and nothing of it is kept. -/
theorem read_closed (h : Kept F s e) (uri : Uri) :
    (s.orders (.closed uri)).Read F s
      (e.after s.session.auditor.settings (.message (.closed uri))) (.message (.closed uri)) where
  kept := h.close uri
  server := ⟨_, _, rfl⟩
  validate d := by simp [orders, Event.AsksFor]
  published pub := by
    simp only [orders, List.mem_singleton]
    constructor
    · exact fun hpub => ⟨uri, rfl, hpub⟩
    · rintro ⟨uri', hevent, rfl⟩
      cases hevent
      rfl

/-- The clearing command empties the cache and validates what is open; any other does nothing. -/
theorem read_command (h : Kept F s e) (name : String) :
    (s.orders (.command name)).Read F s e (.message (.command name)) := by
  by_cases hname : name = clearCommand
  · simp only [orders, if_pos hname]
    refine ⟨h.withCache (Cache.holds_of_entries_nil rfl), ⟨_, _, rfl⟩, fun d => ?_, fun pub => ?_⟩
    · simp only [Event.AsksFor, hname, true_and, List.mem_map]
      constructor
      · rintro ⟨entry, hentry, rfl⟩
        have hlookup := h.found entry hentry
        rw [h.documents entry.1] at hlookup
        obtain ⟨p, hp, hcurrent⟩ := Option.map_eq_some_iff.mp hlookup
        exact ⟨entry.1, p, hp, hcurrent⟩
      · rintro ⟨address, p, hp, rfl⟩
        -- the server has what is open, under its address
        have hlookup : s.documents.lookup address = some p.current := by
          rw [h.documents address, hp]
          rfl
        obtain ⟨_, _, hdocuments, _⟩ := List.lookup_eq_some_iff.mp hlookup
        exact ⟨(address, p.current), by rw [hdocuments]; simp, rfl⟩
    · simp
  · simp only [orders, if_neg hname]
    refine h.read_nothing ?_ fun _ heq => by cases heq
    exact fun _ => hname

/-- Reading a message. -/
theorem orders (h : Kept F s e) {m : Message} (hfollows : (Event.message m).Follows e)
    (hversions : (Event.message m).KeepsVersions e)
    (hkeys : ∀ uri, (Event.message m).uri? = some uri → ∀ path : Path, uri.text ≠ path.key) :
    (s.orders m).Read F s (e.after s.session.auditor.settings (.message m)) (.message m) := by
  cases m with
  | opened uri language version text => exact h.read_opened hfollows (hkeys uri rfl)
  | changed uri version texts => exact h.read_changed hfollows hversions
  | saved uri =>
    exact h.read_ordersFor ⟨_, _, rfl⟩ (fun _ => Iff.rfl) fun _ heq => by cases heq
  | closed uri => exact h.read_closed uri
  | command name => exact h.read_command name

end Kept

/-! ### One event -/

/-- `v.Proper F`: an event is in order, and the ledger `F` is right about the sources it asks
for. -/
structure Visit.Proper (v : Visit) (F : Ledger) : Prop where
  follows : v.event.Follows v.editor
  versions : v.event.KeepsVersions v.editor
  keys : ∀ uri, v.event.uri? = some uri → ∀ path : Path, uri.text ≠ path.key
  sources : ∀ address p, v.event.AsksFor address → v.next address = some p →
    v.server.HasSources F p.current

/-- An event that is in order: what is published is what is due, and the cache stays as it
should. -/
theorem Kept.reacts {F : Ledger} {v : Visit} (h : Kept F v.server v.editor)
    (hF : ∀ key freshness selectors, F key freshness selectors → ∃ path : Path, key = path.key)
    (hv : v.Proper F) {s' : Server} (hreacts : v.server.Reacts v.event (v.published, s')) :
    Kept F s' v.next ∧ ∀ cache : SelectorCache, cache.entries = [] →
      ∀ pub, pub ∈ v.published ↔ v.Due cache pub := by
  obtain ⟨s, e, event, published⟩ := v
  obtain ⟨hfollows, hversions, hkeys, hsources⟩ := hv
  cases event with
  | edit change =>
    cases hreacts
    refine ⟨⟨h.documents, h.found, h.periods, h.cache⟩, fun cache _ pub => ?_⟩
    simp [Visit.Due, Event.AsksFor]
  | advance ms =>
    cases hreacts
    refine ⟨⟨h.documents, h.found, h.periods, h.cache⟩, fun cache _ pub => ?_⟩
    simp [Visit.Due, Event.AsksFor]
  | message m =>
    let o := s.orders m
    let next := e.after s.session.auditor.settings (.message m)
    obtain ⟨effects, ⟨load, t, found, p, hload, hweaves, hruns, heffects⟩, hpublished⟩ := hreacts
    obtain ⟨rfl, hserver⟩ := Prod.mk.inj heffects
    obtain rfl : s' = o.server.withCache p.cache := hserver
    obtain rfl : published = o.published ++ found := hpublished
    have hread : o.Read F s next (.message m) := h.orders hfollows hversions hkeys
    -- a message changes neither the sources nor the folders
    obtain ⟨_, _, hsame⟩ := hread.server
    have hsources' : ∀ address p, (Event.message m).AsksFor address → next address = some p →
        o.server.HasSources F p.current := by
      intro address p hasks hp
      have hd := hsources address p hasks hp
      rw [hsame]
      exact ⟨hd.files, hd.agree, hd.keys⟩
    have hds : ∀ d ∈ o.validate, ∃ address p, next address = some p ∧ p.current = d ∧
        o.server.HasSources F d := by
      intro d hd
      obtain ⟨address, p, hasks, hp, rfl⟩ := (hread.validate d).mp hd
      exact ⟨address, p, hp, rfl, hsources' address p hasks hp⟩
    obtain ⟨hkept, hmem⟩ := hread.kept.validates hF hds hload hweaves hruns
    refine ⟨hkept, fun cache hcache pub => ?_⟩
    -- the verdict of the server is that of a fresh one, by the same sources
    have hfresh : ∀ address p, (Event.message m).AsksFor address → next address = some p →
        publication p.current (o.server.verdict p.current) =
          s.freshPublication cache p.current := by
      intro address p hasks hp
      rw [← hread.kept.freshDiagnostics_eq hF hp (hsources' address p hasks hp)
        (Cache.holds_of_entries_nil hcache), hsame]
      rfl
    show pub ∈ o.published ++ found ↔ _
    rw [List.mem_append, hread.published pub, hmem pub, or_comm]
    refine or_congr_left ⟨?_, ?_⟩
    · rintro ⟨d, hd, rfl⟩
      obtain ⟨address, p, hasks, hp, rfl⟩ := (hread.validate d).mp hd
      exact ⟨address, p, hasks, hp, hfresh address p hasks hp⟩
    · rintro ⟨address, p, hasks, hp, rfl⟩
      exact ⟨p.current, (hread.validate _).mpr ⟨address, p, hasks, hp, rfl⟩,
        (hfresh address p hasks hp).symm⟩

end Server

end StyleAudit
