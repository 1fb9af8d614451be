import StyleAudit.Proofs.IdealCache
import StyleAudit.Proofs.StableSort

/-!
# The entries of a cache stand in the order of their use

Each operation of a cache takes entries out and puts them back in its own way: a sweep, a ranked
removal, an overwrite, a move to the end, a removal after a use that was counted. Whatever the
history, the entries fit, none was used in the future, and they stand in the order of their last
use.

* **`Timed.WellKept`** is the invariant. **`WellKept.sublist`** and **`WellKept.push`** are the two
  changes that all operations come down to: entries go, or one goes to the end as used just now.
* **`evict_cases`** says why a new key fits: it replaces its own entry, there is room, or at least
  one entry goes.
* **`WellKept.step`** is about one operation and **`WellKept.of_mem_states`** about a history.
* **`Timed.Counted`** is about the counts of uses. They are words and wrap, but not before there
  were as many operations as a word has values (`Counted.step`).
* **`filter_mergeSort_rankLe`**: among entries that were used equally often, the order of eviction
  is the order in which they stand.
-/

namespace StyleAudit

namespace Cache

open scoped List

variable {α : Type}

/-! ### Sizes -/

theorem size_erase_lt {c : Cache α} {key : String} (h : (c.find? key).isSome) :
    (c.erase key).size < c.size := by
  obtain ⟨e, he⟩ := Option.isSome_iff_exists.mp h
  obtain ⟨hmem, hkey⟩ := find?_eq_some he
  refine List.length_filter_lt_length_iff_exists.mpr ⟨e, hmem, ?_⟩
  simp [hkey]

/-- Pushing an entry for a key that is there does not make the cache larger. -/
theorem size_push_le {c : Cache α} {e : Entry α} (h : (c.find? e.key).isSome) :
    (c.push e).size ≤ c.size := by
  have hlt := size_erase_lt h
  have hpush : (c.push e).size = (c.erase e.key).size + 1 := List.length_append
  omega

theorem size_push_le_succ (c : Cache α) (e : Entry α) : (c.push e).size ≤ c.size + 1 := by
  have hpush : (c.push e).size = (c.erase e.key).size + 1 := List.length_append
  have hle : (c.erase e.key).size ≤ c.size := List.length_filter_le _ _
  omega

theorem size_sweep_le (c : Cache α) (now : Nat) : (c.sweep now).size ≤ c.size :=
  List.length_filter_le _ _

/-- If anything is to go and there are entries, at least one goes. -/
theorem exists_mem_lowest {c : Cache α} {count : Nat} (hcount : 0 < count)
    (hentries : c.entries ≠ []) : ∃ e ∈ c.entries, e.key ∈ c.lowest count := by
  cases hsorted : c.entries.mergeSort Entry.rankLe with
  | nil =>
    have hperm := List.mergeSort_perm c.entries Entry.rankLe
    rw [hsorted] at hperm
    exact absurd hperm.symm.eq_nil hentries
  | cons e sorted =>
    obtain ⟨n, rfl⟩ : ∃ n, count = n + 1 := ⟨count - 1, by omega⟩
    refine ⟨e, ?_, ?_⟩
    · rw [← @List.mem_mergeSort _ Entry.rankLe, hsorted]
      exact List.mem_cons_self
    · rw [lowest, hsorted, List.take_succ_cons, List.map_cons]
      exact List.mem_cons_self

theorem evict_maxEntries (c : Cache α) (now : Nat) (key : String) :
    (c.evict now key).maxEntries = c.maxEntries := by
  simp only [evict]
  split <;> rfl

/-- Why a new key fits: its own entry is replaced, or there is room left. -/
theorem evict_cases {c : Cache α} (hfits : c.size ≤ c.maxEntries) (hcapacity : 1 ≤ c.maxEntries)
    (now : Nat) (key : String) :
    ((c.evict now key).find? key).isSome ∧ (c.evict now key).size ≤ c.maxEntries ∨
      (c.evict now key).size < c.maxEntries := by
  have hsweep := c.size_sweep_le now
  simp only [evict]
  split
  · next hroom =>
    rcases Bool.or_eq_true_iff.mp hroom with hfound | hlt
    · exact .inl ⟨hfound, by omega⟩
    · exact .inr (of_decide_eq_true hlt)
  · next hfull =>
    rw [Bool.not_eq_true, Bool.or_eq_false_iff, decide_eq_false_iff_not, Nat.not_lt] at hfull
    have hmax : (c.sweep now).maxEntries = c.maxEntries := rfl
    -- the cache is full, so at least one entry is to go
    have hcount : 0 < (c.sweep now).excess := by
      unfold excess
      omega
    have hentries : (c.sweep now).entries ≠ [] := by
      refine List.ne_nil_of_length_pos ?_
      change 0 < (c.sweep now).size
      omega
    obtain ⟨e, hmem, hvictim⟩ := exists_mem_lowest hcount hentries
    refine .inr (Nat.lt_of_lt_of_le (m := (c.sweep now).size) ?_ (by omega))
    refine List.length_filter_lt_length_iff_exists.mpr ⟨e, hmem, ?_⟩
    simpa using hvictim

/-! ### Lookups -/

/-- The three outcomes of a lookup: no entry, an entry that has expired, or a live one. -/
theorem get_cases (c : Cache α) (now : Nat) (key : String) :
    c.get now key = (none, c) ∨ c.get now key = (none, c.erase key) ∨
      ∃ e ∈ c.entries, e.key = key ∧ c.get now key = (some e, c.push (e.touch now)) := by
  unfold get
  cases hfind : c.find? key with
  | none => exact .inl rfl
  | some e =>
    obtain ⟨hmem, hkey⟩ := find?_eq_some hfind
    refine .inr ?_
    simp only
    split
    · exact .inr ⟨e, hmem, hkey, rfl⟩
    · exact .inl rfl

/-! ### The invariant -/

/-- `s.WellKept`: the entries fit, none was used in the future, and they stand in the order of their
last use. -/
structure Timed.WellKept (s : Timed α) : Prop where
  fits : s.cache.size ≤ s.cache.maxEntries
  past : ∀ e ∈ s.cache.entries, e.lastAccess ≤ s.now
  ordered : s.cache.entries.Pairwise fun e e' => e.lastAccess ≤ e'.lastAccess

namespace Timed.WellKept

variable {s : Timed α}

/-- Entries may go. -/
theorem sublist (h : s.WellKept) {c : Cache α} (hsub : c.entries <+ s.cache.entries)
    (hmax : c.maxEntries = s.cache.maxEntries) : WellKept { s with cache := c } where
  fits := by
    show c.size ≤ c.maxEntries
    rw [hmax]
    exact hsub.length_le.trans h.fits
  past := fun e he => h.past e (hsub.subset he)
  ordered := h.ordered.sublist hsub

theorem erase (h : s.WellKept) (key : String) : WellKept { s with cache := s.cache.erase key } :=
  h.sublist List.filter_sublist rfl

theorem advance (h : s.WellKept) {now : Nat} (hclock : s.now ≤ now) : WellKept { s with now } :=
  ⟨h.fits, fun e he => (h.past e he).trans hclock, h.ordered⟩

/-- An entry that is used right now goes to the end. -/
theorem push (h : s.WellKept) {e : Entry α} (hnow : e.lastAccess = s.now)
    (hfits : (s.cache.push e).size ≤ s.cache.maxEntries) :
    WellKept { s with cache := s.cache.push e } := by
  have herased := h.erase e.key
  -- what is not the new entry was there before
  have hmem : ∀ e' ∈ (s.cache.push e).entries, e' ∈ (s.cache.erase e.key).entries ∨ e' = e := by
    intro e' he'
    exact (List.mem_append.mp he').imp_right List.mem_singleton.mp
  refine ⟨hfits, fun e' he' => ?_, ?_⟩
  · rcases hmem e' he' with hold | rfl
    · exact herased.past e' hold
    · exact hnow.le
  · -- no entry was used after now
    refine List.pairwise_append.mpr ⟨herased.ordered, List.pairwise_singleton _ _, ?_⟩
    intro e' he' _ hlast
    rw [List.mem_singleton.mp hlast, hnow]
    exact herased.past e' he'

/-- A use of an entry. -/
theorem touch (h : s.WellKept) {e : Entry α} (he : e ∈ s.cache.entries) :
    WellKept { s with cache := s.cache.push (e.touch s.now) } := by
  have hfound : (s.cache.find? (e.touch s.now).key).isSome := by
    unfold find?
    rw [List.find?_isSome]
    exact ⟨e, he, decide_eq_true rfl⟩
  exact h.push rfl ((size_push_le hfound).trans h.fits)

/-- Reading keeps the cache well kept: a hit moves to the end with the time of now. -/
theorem get (h : s.WellKept) (key : String) :
    WellKept { s with cache := (s.cache.get s.now key).2 } := by
  rcases s.cache.get_cases s.now key with hget | hget | ⟨e, he, _, hget⟩
  · rw [hget]
    exact h
  · rw [hget]
    exact h.erase key
  · rw [hget]
    exact h.touch he

/-- An entry of another freshness is used and then goes. -/
theorem getFresh (h : s.WellKept) (key : String) (freshness : Int) :
    WellKept { s with cache := (s.cache.getFresh s.now key freshness).2 } := by
  have hget := h.get key
  unfold Cache.getFresh
  cases hres : s.cache.get s.now key with
  | mk hit c =>
    rw [hres] at hget
    cases hit with
    | none => exact hget
    | some e =>
      simp only
      split
      · exact hget
      · exact hget.erase key

/-- Room is made at one time, and the new entry is stored at a later one. -/
theorem set (h : s.WellKept) (hcapacity : 1 ≤ s.cache.maxEntries) {stored : Nat}
    (hclock : s.now ≤ stored) (key : String) (freshness : Int) (value : α) :
    WellKept ⟨stored, s.cache.set s.now stored key freshness value⟩ := by
  have hmax := s.cache.evict_maxEntries s.now key
  have hroom : WellKept { s with cache := s.cache.evict s.now key } :=
    h.sublist (evict_sublist ..) hmax
  refine (hroom.advance hclock).push (e := ⟨key, freshness, value, stored, 1⟩) rfl ?_
  show _ ≤ (s.cache.evict s.now key).maxEntries
  rw [hmax]
  rcases evict_cases h.fits hcapacity s.now key with ⟨hfound, hfits⟩ | hlt
  · exact (size_push_le hfound).trans hfits
  · exact (size_push_le_succ _ _).trans hlt

end Timed.WellKept

/-! ### Histories -/

/-- The states that a history goes through, the first and the last one included. -/
def Timed.states (s : Timed α) : List (Op α) → List (Timed α)
  | [] => [s]
  | op :: ops => s :: states (s.step op).2 ops

/-- A clock that is never set back in a history. -/
def Timed.Forward (s : Timed α) (ops : List (Op α)) : Prop :=
  (s.states ops).IsChain fun s s' => s.now ≤ s'.now

instance (s : Timed α) (ops : List (Op α)) : Decidable (s.Forward ops) :=
  inferInstanceAs (Decidable (List.IsChain _ _))

theorem Timed.states_eq_cons (s : Timed α) (ops : List (Op α)) :
    ∃ more, s.states ops = s :: more := by
  cases ops with
  | nil => exact ⟨[], rfl⟩
  | cons op ops => exact ⟨_, rfl⟩

/-- A run of a clock that goes forward does so in its first step and after it. -/
theorem Timed.forward_cons {s : Timed α} {op : Op α} {ops : List (Op α)}
    (h : s.Forward (op :: ops)) : s.now ≤ (s.step op).2.now ∧ (s.step op).2.Forward ops := by
  unfold Forward at h ⊢
  rw [states] at h
  obtain ⟨more, hmore⟩ := (s.step op).2.states_eq_cons ops
  rw [hmore] at h ⊢
  exact List.isChain_cons_cons.mp h

/-- No operation changes the capacity. -/
theorem Timed.step_maxEntries (s : Timed α) (op : Op α) :
    (s.step op).2.cache.maxEntries = s.cache.maxEntries := by
  have hget : ∀ key, (s.cache.get s.now key).2.maxEntries = s.cache.maxEntries := by
    intro key
    rcases s.cache.get_cases s.now key with hget | hget | ⟨e, _, _, hget⟩
    · rw [hget]
    · rw [hget]
      rfl
    · rw [hget]
      rfl
  cases op with
  | set key freshness value pause => exact s.cache.evict_maxEntries s.now key
  | get key => exact hget key
  | getFresh key freshness =>
    rw [← hget key]
    simp only [step, getFresh]
    cases s.cache.get s.now key with
    | mk hit c =>
      cases hit with
      | none => rfl
      | some e =>
        simp only
        split <;> rfl
  | delete key => rfl
  | clear => rfl
  | advance ms => rfl

/-- What one operation keeps. -/
theorem Timed.WellKept.step {s : Timed α} (h : s.WellKept) (hcapacity : 1 ≤ s.cache.maxEntries)
    {op : Op α} (hclock : s.now ≤ (s.step op).2.now) : (s.step op).2.WellKept := by
  cases op with
  | set key freshness value pause => exact h.set hcapacity hclock key freshness value
  | get key => exact h.get key
  | getFresh key freshness => exact h.getFresh key freshness
  | delete key => exact h.erase key
  | clear => exact h.sublist (List.nil_sublist _) rfl
  | advance ms => exact h.advance hclock

/-- What a history keeps. -/
theorem Timed.WellKept.of_mem_states {s : Timed α} (h : s.WellKept)
    (hcapacity : 1 ≤ s.cache.maxEntries) {ops : List (Op α)} (hforward : s.Forward ops)
    {s' : Timed α} (hs' : s' ∈ s.states ops) :
    s'.WellKept ∧ s'.cache.maxEntries = s.cache.maxEntries := by
  induction ops generalizing s with
  | nil =>
    rw [List.mem_singleton.mp hs']
    exact ⟨h, rfl⟩
  | cons op ops ih =>
    rcases List.mem_cons.mp hs' with rfl | hrest
    · exact ⟨h, rfl⟩
    · obtain ⟨hclock, hlater⟩ := Timed.forward_cons hforward
      have hmax := s.step_maxEntries op
      obtain ⟨hkept, hsame⟩ := ih (h.step hcapacity hclock) (by omega) hlater hrest
      exact ⟨hkept, hsame.trans hmax⟩

/-! ### Counts -/

/-- `s.Counted n`: each entry was used at least once, and not more than `n` times. -/
def Timed.Counted (n : Nat) (s : Timed α) : Prop :=
  ∀ e ∈ s.cache.entries, 1 ≤ e.accessCount.toNat ∧ e.accessCount.toNat ≤ n

namespace Timed.Counted

variable {s : Timed α} {n : Nat}

/-- Whatever happens to the other entries, one entry is added. -/
theorem push (h : s.Counted n) {now : Nat} {c : Cache α} (hsub : c.entries <+ s.cache.entries)
    {e : Entry α} (hcount : 1 ≤ e.accessCount.toNat ∧ e.accessCount.toNat ≤ n + 1) :
    Counted (n + 1) ⟨now, c.push e⟩ := by
  intro e' he'
  rcases List.mem_append.mp he' with hold | hnew
  · obtain ⟨hpos, hle⟩ := h e' (hsub.subset (List.mem_filter.mp hold).1)
    exact ⟨hpos, by omega⟩
  · rw [List.mem_singleton.mp hnew]
    exact hcount

/-- Entries may go. -/
theorem sublist (h : s.Counted n) {now : Nat} {c : Cache α}
    (hsub : c.entries <+ s.cache.entries) : Counted (n + 1) ⟨now, c⟩ := by
  intro e he
  obtain ⟨hpos, hle⟩ := h e (hsub.subset he)
  exact ⟨hpos, by omega⟩

/-- One more use is counted as one more, as long as the word does not wrap. -/
theorem touch (h : s.Counted n) (hn : n + 1 < timeModulus) {e : Entry α}
    (he : e ∈ s.cache.entries) (now : Nat) :
    1 ≤ (e.touch now).accessCount.toNat ∧ (e.touch now).accessCount.toNat ≤ n + 1 := by
  obtain ⟨_, hle⟩ := h e he
  have hsum : (e.touch now).accessCount.toNat = e.accessCount.toNat + 1 := by
    show (e.accessCount + 1).toNat = _
    rw [UInt64.toNat_add, show UInt64.toNat 1 = 1 from rfl]
    exact Nat.mod_eq_of_lt (by unfold timeModulus at hn; omega)
  omega

/-- Every operation counts at most one access, and none is lost. -/
theorem step (h : s.Counted n) (hn : n + 1 < timeModulus) (op : Op α) :
    (s.step op).2.Counted (n + 1) := by
  cases op with
  | set key freshness value pause =>
    exact h.push (evict_sublist ..) ⟨Nat.le_refl 1, Nat.le_add_left 1 n⟩
  | get key =>
    simp only [Timed.step]
    rcases s.cache.get_cases s.now key with hget | hget | ⟨e, he, _, hget⟩
    · exact h.sublist (by rw [hget])
    · exact h.sublist (by rw [hget]; exact List.filter_sublist)
    · rw [hget]
      exact h.push (.refl _) (h.touch hn he s.now)
  | getFresh key freshness =>
    simp only [Timed.step, Cache.getFresh]
    rcases s.cache.get_cases s.now key with hget | hget | ⟨e, he, rfl, hget⟩
    · exact h.sublist (by rw [hget])
    · exact h.sublist (by rw [hget]; exact List.filter_sublist)
    · rw [hget]
      by_cases hfresh : e.freshness = freshness
      · simp only [if_pos hfresh]
        exact h.push (.refl _) (h.touch hn he s.now)
      · -- the entry that was just used goes again
        simp only [if_neg hfresh]
        rw [show e.key = (e.touch s.now).key from rfl, erase_push]
        exact h.sublist List.filter_sublist
  | delete key => exact h.sublist List.filter_sublist
  | clear => exact h.sublist (List.nil_sublist _)
  | advance ms => exact h.sublist (.refl _)

/-- Counts do not wrap in a history that is shorter than a word can count. -/
theorem of_mem_states (h : s.Counted n) {ops : List (Op α)}
    (hlength : n + ops.length < timeModulus) {s' : Timed α} (hs' : s' ∈ s.states ops) :
    ∀ e ∈ s'.cache.entries, 1 ≤ e.accessCount.toNat := by
  induction ops generalizing s n with
  | nil =>
    rw [List.mem_singleton.mp hs']
    exact fun e he => (h e he).1
  | cons op ops ih =>
    rw [List.length_cons] at hlength
    rcases List.mem_cons.mp hs' with rfl | hrest
    · exact fun e he => (h e he).1
    · exact ih (h.step (by omega) op) (by omega) hrest

end Timed.Counted

/-! ### Ranks -/

/-- Entries are ranked by their access count, and by their time within one count. -/
theorem Entry.rankLe_iff {a b : Entry α} : a.rankLe b = true ↔
    a.accessCount < b.accessCount ∨
      a.accessCount = b.accessCount ∧ a.lastAccess ≤ b.lastAccess := by
  simp [Entry.rankLe]

theorem Entry.rankLe_trans (a b c : Entry α) (hab : a.rankLe b = true) (hbc : b.rankLe c = true) :
    a.rankLe c = true := by
  simp only [Entry.rankLe_iff, UInt64.lt_iff_toNat_lt, ← UInt64.toNat_inj] at hab hbc ⊢
  omega

theorem Entry.rankLe_total (a b : Entry α) : (a.rankLe b || b.rankLe a) = true := by
  simp only [Bool.or_eq_true, Entry.rankLe_iff, UInt64.lt_iff_toNat_lt, ← UInt64.toNat_inj]
  omega

/-- Entries that were used equally often are evicted in the order in which they stand. -/
theorem filter_mergeSort_rankLe {entries : List (Entry α)}
    (hordered : entries.Pairwise fun e e' => e.lastAccess ≤ e'.lastAccess) (n : UInt64) :
    (entries.mergeSort Entry.rankLe).filter (·.accessCount = n) =
      entries.filter (·.accessCount = n) := by
  have hranked : (entries.filter (·.accessCount = n)).Pairwise fun e e' => e.rankLe e' = true := by
    refine (hordered.sublist List.filter_sublist).imp_of_mem ?_
    intro e e' he he' hle
    have hcount : e.accessCount = n := by simpa using (List.mem_filter.mp he).2
    have hcount' : e'.accessCount = n := by simpa using (List.mem_filter.mp he').2
    exact Entry.rankLe_iff.mpr (.inr ⟨hcount.trans hcount'.symm, hle⟩)
  exact Sorting.filter_mergeSort_of_pairwise Entry.rankLe_trans Entry.rankLe_total hranked

end Cache

open Cache in
/-- **The representation of a cache.** Take a cache of any capacity and any time to live, and a
history of operations in which the clock, which may start at any time, is never set back, not even
while a value is being stored. In every state of the history the cache holds no more than its
capacity, no entry was used in the future, and the entries stand in the order of their last use. So
entries that were used equally often are evicted in the order in which they stand, the least
recently used one first. Uses are counted in a word of 64 bits: as long as there were fewer
operations than it can count, each entry was used at least once. -/
theorem cache_entries_well_kept {α : Type} {maxEntries : Nat} (hcapacity : 1 ≤ maxEntries)
    (ttl start : Nat) (ops : List (Op α)) :
    ∃ c : Cache α, Cache.create maxEntries ttl = .ok c ∧
      (Timed.Forward ⟨start, c⟩ ops → ∀ s ∈ Timed.states ⟨start, c⟩ ops,
        s.cache.size ≤ maxEntries ∧
        (∀ e ∈ s.cache.entries, e.lastAccess ≤ s.now) ∧
        (s.cache.entries.Pairwise fun e e' => e.lastAccess ≤ e'.lastAccess) ∧
        (∀ n, (s.cache.entries.mergeSort Entry.rankLe).filter (·.accessCount = n) =
          s.cache.entries.filter (·.accessCount = n)) ∧
        (ops.length < UInt64.size → ∀ e ∈ s.cache.entries, 1 ≤ e.accessCount)) := by
  refine ⟨⟨[], maxEntries, ttl % timeModulus⟩, if_neg (by omega), fun hforward s hs => ?_⟩
  have hstart : Timed.WellKept (⟨start, ⟨[], maxEntries, ttl % timeModulus⟩⟩ : Timed α) :=
    ⟨Nat.zero_le _, List.forall_mem_nil _, List.Pairwise.nil⟩
  obtain ⟨hkept, hmax⟩ := hstart.of_mem_states hcapacity hforward hs
  have hfits := hkept.fits
  rw [hmax] at hfits
  refine ⟨hfits, hkept.past, hkept.ordered, filter_mergeSort_rankLe hkept.ordered, ?_⟩
  -- a count wraps only after as many operations as a word can count
  intro hlength e he
  have hnone : Timed.Counted 0 (⟨start, ⟨[], maxEntries, ttl % timeModulus⟩⟩ : Timed α) :=
    List.forall_mem_nil _
  exact UInt64.le_iff_toNat_le.mpr
    (hnone.of_mem_states (by rw [Nat.zero_add]; exact hlength) hs e he)

open Cache in
/-- Room for two: one key is used again, and a third one drives out the other; storing it takes a
while. Then the first is asked for with another freshness, after a use that still counted. -/
theorem cache_entries_well_kept_two_places :
    let ops : List (Op Nat) := [.set "a" 1 10 0, .advance 3, .set "b" 2 20 0, .advance 4, .get "a",
      .set "c" 3 30 2, .advance 5, .getFresh "a" 7, .get "c"]
    1 ≤ 2 ∧ ops.length < UInt64.size ∧
      ∃ c : Cache Nat, Cache.create 2 60 = .ok c ∧ Timed.Forward ⟨100, c⟩ ops ∧
      (∀ s ∈ Timed.states ⟨100, c⟩ ops, s.cache.size ≤ 2 ∧
        (s.cache.entries.Pairwise fun e e' => e.lastAccess ≤ e'.lastAccess) ∧
        ∀ e ∈ s.cache.entries, 1 ≤ e.accessCount) ∧
      (Timed.states ⟨100, c⟩ ops).map (fun s => s.cache.entries.map Entry.key) =
        [[], ["a"], ["a"], ["a", "b"], ["a", "b"], ["b", "a"], ["a", "c"], ["a", "c"], ["c"],
          ["c"]] := by
  intro ops
  have hcapacity : 1 ≤ 2 := by decide
  have hlength : ops.length < UInt64.size := by decide
  obtain ⟨c, hcreate, hkept⟩ := cache_entries_well_kept (α := Nat) hcapacity 60 100 ops
  obtain rfl : c = ⟨[], 2, 60⟩ := Except.ok.inj (hcreate.symm.trans (by decide))
  have hforward : Timed.Forward ⟨100, ⟨[], 2, 60⟩⟩ ops := by decide +kernel
  refine ⟨hcapacity, hlength, _, hcreate, hforward, fun s hs => ?_, ?_⟩
  · obtain ⟨hsize, _, hordered, _, hcounted⟩ := hkept hforward s hs
    exact ⟨hsize, hordered, hcounted hlength⟩
  · simp [ops, Timed.states, Timed.step, Cache.set, Cache.get, getFresh, evict, sweep, alive,
      excess, size, lowest, Entry.rankLe, List.mergeSort, List.MergeSort.Internal.splitInTwo, find?,
      push, erase, Entry.touch, later, timeModulus]

end StyleAudit
