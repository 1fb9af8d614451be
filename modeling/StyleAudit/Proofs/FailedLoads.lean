import StyleAudit.Proofs.Coherence
import StyleAudit.Proofs.Evictions

/-!
# Loads that fail

A load first asks the cache, and the question alone changes it: an expired entry goes, a live one is
counted and moved, a stale one goes after it was counted. Only then the size of the file is checked,
the file read or the address fetched. Whatever fails of this, the entry of the source is gone, and
all other entries are as they were.

* **`Cache.getFresh_cases`**: a lookup either takes its key out of the cache or hits.
* **`Audit.Ends`** lists all that a load can come to, and **`Audit.load_ends`** says that each load
  comes to one of these ends.
* **`Audit.Stores`** is what a load may store: the source was there, of a size within the limit.
  **`Audit.Ends.holds`** is about the entries after one load, and **`Audit.holds_loadAll`** about
  those after any number of loads, in worlds and with limits that change between them.
-/

namespace StyleAudit

/-! ### Lookups that miss -/

/-- A lookup either misses, and the key is gone, whether its entry was absent, expired or stale; or
it hits an entry of the freshness that was asked for. -/
theorem Cache.getFresh_cases {α : Type} (c : Cache α) (now : Nat) (key : String) (freshness : Int) :
    c.getFresh now key freshness = (none, c.erase key) ∨
      ∃ e ∈ c.entries, e.key = key ∧ e.freshness = freshness ∧
        c.getFresh now key freshness = (some e.value, c.push (e.touch now)) := by
  unfold getFresh get
  cases hfind : c.find? key with
  | none =>
    have habsent : ¬∃ e ∈ c.entries, e.key = key := by
      rintro ⟨e, hmem, hkey⟩
      have hnone := List.find?_eq_none.mp hfind e hmem
      exact hnone (decide_eq_true hkey)
    left
    simp only [erase_of_not_mem habsent]
  | some e =>
    obtain ⟨hmem, rfl⟩ := find?_eq_some hfind
    by_cases halive : c.alive now e = true
    · simp only [halive, if_true]
      by_cases hfresh : e.freshness = freshness
      · right
        exact ⟨e, hmem, rfl, hfresh, by rw [if_pos hfresh]⟩
      · -- the entry was moved to the end before it goes
        left
        rw [if_neg hfresh, show e.key = (e.touch now).key from rfl, erase_push]
    · left
      simp only [halive, Bool.false_eq_true, if_false]

/-- The two outcomes of asking the cache for a source. -/
theorem Progress.ask_cases (p : Progress) (now : Nat) (key : String) (freshness : Int) :
    p.ask now key freshness = (none, { p with cache := p.cache.erase key }) ∨
      ∃ e ∈ p.cache.entries, e.key = key ∧ e.freshness = freshness ∧
        p.ask now key freshness = (some e.value,
          { p with cache := p.cache.push (e.touch now) }) := by
  unfold Progress.ask
  rcases p.cache.getFresh_cases now key freshness with hmiss | ⟨e, hmem, hkey, hfresh, hhit⟩
  · left
    rw [hmiss]
  · right
    exact ⟨e, hmem, hkey, hfresh, by rw [hhit]⟩

namespace Audit

/-! ### What a load comes to -/

def load (a : Audit) (target : LinkTarget) (p : Progress) :
    Except Error (List Selector) × Progress :=
  match target with
  | .file path => a.loadFile path p
  | .remote url => a.loadRemote url p

/-- `a.Ends target cache result cache'`: from `cache`, the load of a source may come to `result` and
leave `cache'`. -/
inductive Ends (a : Audit) (target : LinkTarget) (cache : SelectorCache) :
    Except Error (List Selector) → SelectorCache → Prop
  /-- The file cannot be looked up, and the cache is not asked. -/
  | lost (error : Error) : a.freshness? target = none → a.sourceResult target = .error error →
      Ends a target cache (.error error) cache
  | hit (e : Cache.Entry (List Selector)) : e ∈ cache.entries → e.key = target.key →
      a.freshness? target = some e.freshness →
      Ends a target cache (.ok e.value) (cache.push (e.touch a.world.now))
  /-- The cache does not have the source, and it cannot be had otherwise. -/
  | failed (freshness : Int) (error : Error) : a.freshness? target = some freshness →
      a.sourceResult target = .error error →
      Ends a target cache (.error error) (cache.erase target.key)
  | stored (freshness : Int) (selectors : List Selector) : a.freshness? target = some freshness →
      a.sourceResult target = .ok selectors →
      Ends a target cache (.ok selectors)
        ((cache.erase target.key).set a.world.now a.world.now target.key freshness selectors)

variable (a : Audit) (p : Progress)

/-- Every load of a file ends in one of the four ways. -/
theorem loadFile_ends (path : Path) :
    a.Ends (.file path) p.cache (a.loadFile path p).1 (a.loadFile path p).2.cache := by
  unfold loadFile filePlan
  rw [Plan.run_bind, Plan.run_call]
  cases hstat : a.world.tree.stat path with
  | error fault =>
    refine .lost _ ?_ ?_
    · simp only [freshness?, hstat, Except.toOption, Option.map_none]
    · simp only [sourceResult, fileResult, hstat]
  | ok stat =>
    have hfreshness : a.freshness? (.file path) = some stat.modified := by
      simp only [freshness?, hstat, Except.toOption, Option.map_some]
    simp only [Plan.run_bind, Plan.run_ask]
    rcases (a.call (.stat path) p).ask_cases a.world.now path.key stat.modified with
      hmiss | ⟨e, hmem, hkey, hfresh, hhit⟩
    · -- nothing usable was kept, so the file is read as if there were no cache
      rw [hmiss]
      simp only
      by_cases hsize : a.settings.maxFileSize < stat.size
      · rw [if_pos hsize]
        refine .failed stat.modified _ hfreshness ?_
        simp only [sourceResult, fileResult, hstat, if_pos hsize]
      · rw [if_neg hsize, Plan.run_bind, Plan.run_call]
        cases hread : a.world.tree.read path with
        | error fault =>
          refine .failed stat.modified _ hfreshness ?_
          simp only [sourceResult, fileResult, hstat, if_neg hsize, hread]
        | ok text =>
          refine .stored stat.modified _ hfreshness ?_
          simp only [sourceResult, fileResult, hstat, if_neg hsize, hread]
    · rw [hhit]
      exact .hit e hmem hkey (hfresh ▸ hfreshness)

/-- A fetch ends in one of the same ways; its freshness is never lost. -/
theorem loadRemote_ends (url : String) :
    a.Ends (.remote url) p.cache (a.loadRemote url p).1 (a.loadRemote url p).2.cache := by
  unfold loadRemote remotePlan
  rw [Plan.run_bind, Plan.run_ask]
  rcases p.ask_cases a.world.now url remoteFreshness with hmiss | ⟨e, hmem, hkey, hfresh, hhit⟩
  · rw [hmiss]
    simp only
    cases hremote : a.world.remote with
    | none =>
      refine .failed remoteFreshness _ rfl ?_
      simp only [sourceResult, remoteResult, hremote]
    | some answer =>
      simp only [Plan.run_bind, Plan.run_call]
      cases hanswer : answer url with
      | error reason =>
        refine .failed remoteFreshness _ rfl ?_
        simp only [sourceResult, remoteResult, hremote, hanswer]
      | ok text =>
        refine .stored remoteFreshness _ rfl ?_
        simp only [sourceResult, remoteResult, hremote, hanswer]
  · rw [hhit]
    exact .hit e hmem hkey (congrArg some hfresh.symm)

/-- Whatever the target, a load ends in one of the four ways. -/
theorem load_ends (target : LinkTarget) :
    a.Ends target p.cache (a.load target p).1 (a.load target p).2.cache := by
  cases target with
  | file path => exact a.loadFile_ends p path
  | remote url => exact a.loadRemote_ends p url

/-! ### What a load stores -/

variable {a} {target : LinkTarget} {cache cache' : SelectorCache}

/-- `a.Stores target key freshness selectors`: the load of a source may store the selectors under
the key, with the freshness. -/
structure Stores (a : Audit) (target : LinkTarget) (key : String) (freshness : Int)
    (selectors : List Selector) : Prop where
  key : key = target.key
  freshness : a.freshness? target = some freshness
  selectors : a.sourceResult target = .ok selectors
  /-- If the source is a file, its size is within the limit. -/
  fits : ∀ path stat, target = .file path → a.world.tree.stat path = .ok stat →
    stat.size ≤ a.settings.maxFileSize

/-- Why a file that can be looked up gives no selectors. -/
theorem error_of_fileResult {path : Path} {stat : FileStat} {error : Error}
    (hstat : a.world.tree.stat path = .ok stat) (h : a.fileResult path = .error error) :
    (a.settings.maxFileSize < stat.size ∧
      error = .tooLarge path.text stat.size a.settings.maxFileSize) ∨
    (stat.size ≤ a.settings.maxFileSize ∧ ∃ fault, a.world.tree.read path = .error fault ∧
      error = .file path.text fault.message) := by
  simp only [fileResult, hstat] at h
  split at h
  · next hsize =>
    cases h
    exact .inl ⟨hsize, rfl⟩
  · next hsize =>
    cases hread : a.world.tree.read path with
    | error fault =>
      rw [hread] at h
      cases h
      exact .inr ⟨Nat.le_of_not_lt hsize, fault, rfl, rfl⟩
    | ok text =>
      rw [hread] at h
      cases h

/-- A file that gives selectors is not too large. -/
theorem size_le_of_fileResult {path : Path} {stat : FileStat} {selectors : List Selector}
    (hstat : a.world.tree.stat path = .ok stat) (h : a.fileResult path = .ok selectors) :
    stat.size ≤ a.settings.maxFileSize := by
  simp only [fileResult, hstat] at h
  split at h
  · cases h
  · next hsize => exact Nat.le_of_not_lt hsize

/-- What holds of the entries before a load holds of those after it, but for what the load
stores. -/
theorem Ends.holds {L : Ledger} {result : Except Error (List Selector)}
    (h : a.Ends target cache result cache') (hcache : cache.Holds L) :
    cache'.Holds fun key freshness selectors =>
      L key freshness selectors ∨ a.Stores target key freshness selectors := by
  have hbefore : cache.Holds fun key freshness selectors =>
      L key freshness selectors ∨ a.Stores target key freshness selectors :=
    fun e he => .inl (hcache e he)
  cases h with
  | lost error => exact hbefore
  | hit e hmem => exact hbefore.push (hbefore e hmem)
  | failed freshness error => exact hbefore.erase target.key
  | stored freshness selectors hfreshness hresult =>
    refine (hbefore.erase target.key).set a.world.now a.world.now
      (.inr ⟨rfl, hfreshness, hresult, ?_⟩)
    -- only a file within the size limit comes this far
    rintro path stat rfl hstat
    exact size_le_of_fileResult hstat hresult

/-- A load that fails takes the entry of its source out of the cache at most. -/
theorem Ends.sublist_of_error {error : Error} (h : a.Ends target cache (.error error) cache') :
    cache'.entries.Sublist cache.entries := by
  cases h with
  | lost => exact List.Sublist.refl _
  | failed => exact List.filter_sublist

/-- The cache after one load after another, each in the world and with the limits of its own
time. -/
def loadAll (cache : SelectorCache) : List (Audit × LinkTarget) → SelectorCache
  | [] => cache
  | (a, target) :: loads => loadAll (a.load target (a.start cache)).2.cache loads

/-- Running any loads keeps what the cache held, and adds what those loads store. -/
theorem holds_loadAll {L : Ledger} (hcache : cache.Holds L) (loads : List (Audit × LinkTarget)) :
    (loadAll cache loads).Holds fun key freshness selectors =>
      L key freshness selectors ∨ ∃ load ∈ loads, load.1.Stores load.2 key freshness selectors := by
  induction loads generalizing cache L with
  | nil => exact fun e he => .inl (hcache e he)
  | cons load loads ih =>
    intro e he
    have hfirst := (load.1.load_ends (load.1.start cache) load.2).holds hcache
    rcases ih hfirst e he with (hbefore | hstores) | ⟨later, hlater, hstores⟩
    · exact .inl hbefore
    · exact .inr ⟨load, List.mem_cons_self, hstores⟩
    · exact .inr ⟨later, List.mem_cons_of_mem load hlater, hstores⟩

end Audit

/-! ### The result -/

/-- **Loads that fail leave nothing behind.** Take any cache, world and limits.

If the load of a file fails because the file cannot be looked up, the cache is as it was. If it
fails because the file is too large or cannot be read, the entry of the file is gone, if there was
one, and all else is as it was. If the load of an address fails, the entry of the address is gone,
and all else is as it was. So a load that fails adds no entry and counts no use of one.

After any number of loads, also with changes of the world and the limits between them, an entry that
was not there before was stored by a load that found its source, and no file that was too large
then. -/
theorem failed_loads_leave_cache_clean (a : Audit) (p : Progress) :
    (∀ path error, (a.loadFile path p).1 = .error error →
      ((∃ fault, a.world.tree.stat path = .error fault ∧ error = .file path.text fault.message) ∧
        (a.loadFile path p).2.cache = p.cache) ∨
      ((∃ stat, a.world.tree.stat path = .ok stat ∧
        (a.settings.maxFileSize < stat.size ∧
            error = .tooLarge path.text stat.size a.settings.maxFileSize ∨
          stat.size ≤ a.settings.maxFileSize ∧ ∃ fault, a.world.tree.read path = .error fault ∧
            error = .file path.text fault.message)) ∧
        (a.loadFile path p).2.cache = p.cache.erase path.key)) ∧
    (∀ url error, (a.loadRemote url p).1 = .error error →
      (a.loadRemote url p).2.cache = p.cache.erase url) ∧
    (∀ target error, (a.load target p).1 = .error error →
      (a.load target p).2.cache.entries.Sublist p.cache.entries) ∧
    ∀ loads, ∀ e ∈ (Audit.loadAll p.cache loads).entries,
      (∃ old ∈ p.cache.entries,
        old.key = e.key ∧ old.freshness = e.freshness ∧ old.value = e.value) ∨
      ∃ load ∈ loads, load.1.Stores load.2 e.key e.freshness e.value := by
  refine ⟨fun path error herror => ?_, fun url error herror => ?_, fun target error herror => ?_,
    fun loads => ?_⟩
  · have hends := a.loadFile_ends p path
    rw [herror] at hends
    generalize (a.loadFile path p).2.cache = after at hends ⊢
    -- a failed load was neither a hit nor stored
    cases hends with
    | lost _ hlost hresult =>
      left
      cases hstat : a.world.tree.stat path with
      | ok stat =>
        simp only [Audit.freshness?, hstat, Except.toOption, Option.map_some] at hlost
        exact absurd hlost (by simp)
      | error fault =>
        simp only [Audit.sourceResult, Audit.fileResult, hstat] at hresult
        exact ⟨⟨fault, rfl, (Except.error.inj hresult).symm⟩, rfl⟩
    | failed freshness _ hfound hresult =>
      right
      cases hstat : a.world.tree.stat path with
      | error fault =>
        simp only [Audit.freshness?, hstat, Except.toOption, Option.map_none] at hfound
        exact absurd hfound (by simp)
      | ok stat => exact ⟨⟨stat, rfl, Audit.error_of_fileResult hstat hresult⟩, rfl⟩
  · have hends := a.loadRemote_ends p url
    rw [herror] at hends
    generalize (a.loadRemote url p).2.cache = after at hends ⊢
    cases hends with
    | lost _ hlost => exact absurd hlost (by simp [Audit.freshness?])
    | failed => rfl
  · have hends := a.load_ends p target
    rw [herror] at hends
    exact hends.sublist_of_error
  · -- the ledger here is what the cache held at the start
    exact Audit.holds_loadAll (L := fun key freshness selectors => ∃ old ∈ p.cache.entries,
      old.key = key ∧ old.freshness = freshness ∧ old.value = selectors)
      (fun e he => ⟨e, he, rfl, rfl, rfl⟩) loads

namespace StaleEntries

/-- A file that has grown over the limit and one that is no text any more. -/
def audit : Audit where
  settings := { maxFileSize := 3 }
  world := ⟨⟨[(.ofTexts ["large.css"], ⟨.text ".a\x7b\x7d", 8⟩),
    (.ofTexts ["image.css"], ⟨.bytes 2, 8⟩)], [], []⟩, none, 50⟩
  interrupt := .never

/-- Both were kept before, and an address after them, which has expired by now. -/
def cache : SelectorCache :=
  ⟨[⟨(Path.ofText "/large.css").key, 7, [], 20, 2⟩, ⟨(Path.ofText "/image.css").key, 7, [], 20, 1⟩,
    ⟨"https://a/b.css", -1, [], 25, 4⟩, ⟨"untitled:1", 3, [], 30, 1⟩], 10, 24⟩

end StaleEntries

open StaleEntries in
/-- The file that is too large has a stale entry, the one that is no text too, and the entry of the
address has expired. Each load takes out one entry. -/
theorem failed_loads_leave_cache_clean_stale_entries :
    let p := audit.start cache
    (audit.loadFile (.ofText "/large.css") p).1 = .error (.tooLarge "/large.css" 4 3) ∧
      (audit.loadFile (.ofText "/large.css") p).2.cache.entries = cache.entries.eraseIdx 0 ∧
      (audit.loadFile (.ofText "/image.css") p).2.cache.entries = cache.entries.eraseIdx 1 ∧
      (audit.loadRemote "https://a/b.css" p).2.cache.entries = cache.entries.eraseIdx 2 := by
  intro p
  obtain ⟨hfile, hremote, _⟩ := failed_loads_leave_cache_clean audit p
  have hlarge : (audit.loadFile (.ofText "/large.css") p).1 = .error (.tooLarge "/large.css" 4 3) :=
    rfl
  have himage : (audit.loadFile (.ofText "/image.css") p).1 =
      .error (.file "/image.css" FileFault.notText.message) := rfl
  have haddress : (audit.loadRemote "https://a/b.css" p).1 =
      .error (.fetch "https://a/b.css" "remote stylesheets are disabled") := rfl
  refine ⟨hlarge, ?_, ?_, ?_⟩
  · rcases hfile _ _ hlarge with ⟨⟨_, _, hother⟩, _⟩ | ⟨_, hcache⟩
    · cases hother
    · rw [hcache]
      rfl
  · rcases hfile _ _ himage with ⟨⟨fault, hstat, _⟩, _⟩ | ⟨_, hcache⟩
    · cases hstat
    · rw [hcache]
      rfl
  · rw [hremote _ _ haddress]
    rfl

end StyleAudit
