import Mathlib.Data.Prod.Lex
import StyleAudit.Audit.Basic
import StyleAudit.Proofs.CacheOrder

/-!
# Which entries a cache lets go

An entry goes because it was not used for too long, or because a new key needs its place. This
module says which entries these are, in any state that a history of operations leads to.

* **`Timed.Built`** is what the history leaves alone: keys are distinct, and capacity and time to
  live are those of the start. **`Timed.step_cases`** says once what an operation does to the
  entries.
* **`Entry.rank`** orders entries by how often and when they were used, and by where they stand.
  **`rank_lt_of_zipIdxLE`**: this is the order in which they are sorted. **`filter_survives`** cuts
  the live entries in two by it.
* **`HonoursTtl`** is about time. Times are words of 64 bits, so a time to live is cut down to one.
  What is left is honoured (`honoursTtl_self`), and nothing else is (`le_iff_of_honoursTtl`).
-/

namespace StyleAudit

namespace Cache

open scoped List

variable {α : Type}

/-! ### States of a history -/

/-- What every operation preserves holds in every state of a run. -/
theorem Timed.forall_mem_states {P : Timed α → Prop} (hstep : ∀ s op, P s → P (s.step op).2)
    {s : Timed α} (h : P s) (ops : List (Op α)) : ∀ s' ∈ s.states ops, P s' := by
  induction ops generalizing s with
  | nil =>
    intro s' hs'
    rw [List.mem_singleton.mp hs']
    exact h
  | cons op ops ih =>
    intro s' hs'
    rcases List.mem_cons.mp hs' with rfl | hrest
    · exact h
    · exact ih (hstep s op h) s' hrest

/-- `c.DropsTo c'`: some entries go and nothing else changes. -/
structure DropsTo (c c' : Cache α) : Prop where
  entries : c'.entries <+ c.entries
  maxEntries : c'.maxEntries = c.maxEntries
  ttl : c'.ttl = c.ttl

/-- Whatever an operation does, some entries go and at most one is put to the end. -/
theorem Timed.step_cases (s : Timed α) (op : Op α) :
    ∃ c, s.cache.DropsTo c ∧
      ((s.step op).2.cache = c ∨ ∃ e, (s.step op).2.cache = c.push e) := by
  have hsame : s.cache.DropsTo s.cache := ⟨.refl _, rfl, rfl⟩
  have herase : ∀ key, s.cache.DropsTo (s.cache.erase key) := fun key =>
    ⟨List.filter_sublist, rfl, rfl⟩
  cases op with
  | set key freshness value pause =>
    exact ⟨s.cache.evict s.now key, ⟨evict_sublist .., evict_maxEntries .., evict_ttl ..⟩,
      .inr ⟨_, rfl⟩⟩
  | get key =>
    simp only [step]
    rcases s.cache.get_cases s.now key with hget | hget | ⟨e, _, _, hget⟩
    · exact ⟨_, hsame, .inl (by rw [hget])⟩
    · exact ⟨_, herase key, .inl (by rw [hget])⟩
    · exact ⟨_, hsame, .inr ⟨e.touch s.now, by rw [hget]⟩⟩
  | getFresh key freshness =>
    simp only [step, getFresh]
    rcases s.cache.get_cases s.now key with hget | hget | ⟨e, _, rfl, hget⟩
    · exact ⟨_, hsame, .inl (by rw [hget])⟩
    · exact ⟨_, herase key, .inl (by rw [hget])⟩
    · rw [hget]
      by_cases hfresh : e.freshness = freshness
      · exact ⟨_, hsame, .inr ⟨e.touch s.now, by simp only [if_pos hfresh]⟩⟩
      · -- the entry that was just put to the end goes again
        refine ⟨_, herase e.key, .inl ?_⟩
        simp only [if_neg hfresh]
        exact erase_push s.cache (e.touch s.now)
  | delete key => exact ⟨_, herase key, .inl rfl⟩
  | clear => exact ⟨s.cache.clear, ⟨List.nil_sublist _, rfl, rfl⟩, .inl rfl⟩
  | advance ms => exact ⟨_, hsame, .inl rfl⟩

/-- `s.Built maxEntries ttl`: the state of a cache with this capacity and time to live. No key has
two entries. -/
structure Timed.Built (maxEntries ttl : Nat) (s : Timed α) : Prop where
  keys : (s.cache.entries.map Entry.key).Nodup
  maxEntries : s.cache.maxEntries = maxEntries
  ttl : s.cache.ttl = ttl

/-- Every operation keeps the settings of the cache and the keys apart. -/
theorem Timed.Built.step {maxEntries ttl : Nat} {s : Timed α} (h : s.Built maxEntries ttl)
    (op : Op α) : (s.step op).2.Built maxEntries ttl := by
  obtain ⟨c, hc, hstep⟩ := s.step_cases op
  have hkeys : (c.entries.map Entry.key).Nodup := h.keys.sublist (hc.entries.map _)
  rcases hstep with heq | ⟨e, heq⟩
  · exact ⟨heq ▸ hkeys, heq ▸ hc.maxEntries.trans h.maxEntries, heq ▸ hc.ttl.trans h.ttl⟩
  · exact ⟨heq ▸ nodup_push hkeys e, heq ▸ hc.maxEntries.trans h.maxEntries,
      heq ▸ hc.ttl.trans h.ttl⟩

theorem Timed.built_of_mem_states {maxEntries ttl start : Nat} {ops : List (Op α)} {s : Timed α}
    (hs : s ∈ Timed.states ⟨start, ⟨[], maxEntries, ttl⟩⟩ ops) : s.Built maxEntries ttl :=
  Timed.forall_mem_states (fun _ op h => h.step op) ⟨List.nodup_nil, rfl, rfl⟩ ops s hs

/-! ### Ranks -/

/-- The rank of an entry and its position: first how often it was used, then when it was last used,
then where it stands. -/
def Entry.rank (placed : Entry α × Nat) : Nat ×ₗ Nat ×ₗ Nat :=
  toLex (placed.1.accessCount.toNat, toLex (placed.1.lastAccess, placed.2))

/-- Ranks compare access counts, then times, then places. -/
theorem Entry.rank_lt_iff {a b : Entry α × Nat} : Entry.rank a < Entry.rank b ↔
    a.1.accessCount < b.1.accessCount ∨ a.1.accessCount = b.1.accessCount ∧
      (a.1.lastAccess < b.1.lastAccess ∨ a.1.lastAccess = b.1.lastAccess ∧ a.2 < b.2) := by
  unfold Entry.rank
  rw [Prod.Lex.toLex_lt_toLex, Prod.Lex.toLex_lt_toLex, UInt64.lt_iff_toNat_lt, ← UInt64.toNat_inj]

/-- Sorting by use, with equals in the order in which they stand, is sorting by rank. -/
theorem rank_lt_of_zipIdxLE {a b : Entry α × Nat} (h : List.zipIdxLE Entry.rankLe a b = true)
    (hplace : a.2 ≠ b.2) : Entry.rank a < Entry.rank b := by
  simp only [Entry.rank_lt_iff, UInt64.lt_iff_toNat_lt, ← UInt64.toNat_inj]
  unfold List.zipIdxLE at h
  -- the sorting compares both ways before it looks at the places
  split at h
  · next hab =>
    simp only [Entry.rankLe_iff, UInt64.lt_iff_toNat_lt, ← UInt64.toNat_inj] at hab
    split at h
    · next hba =>
      simp only [Entry.rankLe_iff, UInt64.lt_iff_toNat_lt, ← UInt64.toNat_inj] at hba
      have hle : a.2 ≤ b.2 := of_decide_eq_true h
      omega
    · next hba =>
      simp only [Entry.rankLe_iff, UInt64.lt_iff_toNat_lt, ← UInt64.toNat_inj] at hba
      omega
  · exact absurd h Bool.false_ne_true

/-- The entries with their positions, the lowest rank first. -/
def ranked (c : Cache α) : List (Entry α × Nat) :=
  c.entries.zipIdx.mergeSort (List.zipIdxLE Entry.rankLe)

theorem ranked_perm (c : Cache α) : c.ranked ~ c.entries.zipIdx := List.mergeSort_perm _ _

/-- The keys to go are those ranked first. -/
theorem lowest_eq (c : Cache α) (count : Nat) :
    c.lowest count = (c.ranked.take count).map fun placed => placed.1.key := by
  unfold lowest ranked
  rw [← List.mergeSort_zipIdx, ← List.map_take, List.map_map]
  rfl

/-- Ranks grow strictly, and no two entries have the same key. -/
theorem pairwise_ranked {c : Cache α} (hkeys : (c.entries.map Entry.key).Nodup) :
    c.ranked.Pairwise fun a b => Entry.rank a < Entry.rank b ∧ a.1.key ≠ b.1.key := by
  have hsorted := List.pairwise_mergeSort (List.zipIdxLE_trans Entry.rankLe_trans)
    (List.zipIdxLE_total Entry.rankLe_total) c.entries.zipIdx
  have hplaces : (c.ranked.map Prod.snd).Nodup := by
    refine (c.ranked_perm.map Prod.snd).nodup_iff.mpr ?_
    rw [List.zipIdx_map_snd]
    exact List.nodup_range'
  have hnames : (c.ranked.map fun placed => placed.1.key).Nodup := by
    refine (c.ranked_perm.map _).nodup_iff.mpr ?_
    have hmap := List.map_map (g := Entry.key) (f := Prod.fst) (l := c.entries.zipIdx)
    rw [List.zipIdx_map_fst] at hmap
    exact hmap ▸ hkeys
  -- equal ranks would need equal places, and no two entries share one
  have hdistinct := (List.pairwise_map.mp hplaces).and (List.pairwise_map.mp hnames)
  refine (hsorted.and hdistinct).imp ?_
  intro a b h
  exact ⟨rank_lt_of_zipIdxLE h.1 h.2.1, h.2.2⟩

/-! ### Making room -/

theorem find?_isSome_iff {c : Cache α} {key : String} :
    (c.find? key).isSome = true ↔ ∃ e ∈ c.entries, e.key = key := by
  unfold find?
  rw [List.find?_isSome]
  simp

/-- Whether the key of an entry is none of the `count` that go. -/
def survives (c : Cache α) (count : Nat) (e : Entry α) : Bool := !(c.lowest count).contains e.key

/-- The entries that survive are those behind the lowest in the order of ranks. -/
theorem filter_survives_perm {c : Cache α} (hkeys : (c.entries.map Entry.key).Nodup) (count : Nat) :
    c.entries.zipIdx.filter (c.survives count ∘ Prod.fst) ~ c.ranked.drop count := by
  have hsplit := pairwise_ranked hkeys
  rw [← List.take_append_drop count c.ranked, List.pairwise_append] at hsplit
  -- keys are distinct, so exactly the entries ranked first lose their key
  have hfront : (c.ranked.take count).filter (c.survives count ∘ Prod.fst) = [] := by
    refine List.filter_eq_nil_iff.mpr fun placed hplaced => ?_
    have hmem : placed.1.key ∈ c.lowest count := by
      rw [lowest_eq]
      exact List.mem_map_of_mem hplaced
    simpa [survives] using hmem
  have hback : (c.ranked.drop count).filter (c.survives count ∘ Prod.fst) =
      c.ranked.drop count := by
    refine List.filter_eq_self.mpr fun placed hplaced => ?_
    have hmem : placed.1.key ∉ c.lowest count := by
      rw [lowest_eq]
      intro hvictim
      obtain ⟨victim, hin, hkey⟩ := List.mem_map.mp hvictim
      exact (hsplit.2.2 victim hin placed hplaced).2 hkey
    simpa [survives] using hmem
  refine (c.ranked_perm.symm.filter _).trans ?_
  conv_lhs => rw [← List.take_append_drop count c.ranked]
  rw [List.filter_append, hfront, hback, List.nil_append]

/-- The entries are cut in two: what goes, and what stays as it stands. -/
theorem filter_survives {c : Cache α} (hkeys : (c.entries.map Entry.key).Nodup) {count : Nat}
    (hcount : count ≤ c.size) :
    ∃ removed kept : List (Entry α × Nat),
      removed ++ kept ~ c.entries.zipIdx ∧ kept <+ c.entries.zipIdx ∧ removed.length = count ∧
      (∀ r ∈ removed, ∀ k ∈ kept, Entry.rank r < Entry.rank k) ∧
      c.entries.filter (c.survives count) = kept.map Prod.fst := by
  have hkept := filter_survives_perm hkeys count
  have hsplit := pairwise_ranked hkeys
  rw [← List.take_append_drop count c.ranked, List.pairwise_append] at hsplit
  refine ⟨c.ranked.take count, c.entries.zipIdx.filter (c.survives count ∘ Prod.fst), ?_,
    List.filter_sublist, ?_, ?_, ?_⟩
  · refine (hkept.append_left _).trans ?_
    rw [List.take_append_drop]
    exact c.ranked_perm
  · have hlength : c.ranked.length = c.size := by
      rw [c.ranked_perm.length_eq, List.length_zipIdx]
      rfl
    rw [List.length_take]
    omega
  · intro r hr k hk
    exact (hsplit.2.2 r hr k (hkept.mem_iff.mp hk)).1
  · rw [← List.filter_map, List.zipIdx_map_fst]

theorem erase_of_not_mem {c : Cache α} {key : String} (h : ¬∃ e ∈ c.entries, e.key = key) :
    c.erase key = c := by
  unfold erase
  rw [List.filter_eq_self.mpr]
  intro e he
  simpa using fun heq => h ⟨e, he, heq⟩

/-- Whether a key can be stored without driving out a live entry. -/
def Fits (c : Cache α) (now : Nat) (key : String) : Prop :=
  (∃ e ∈ (c.sweep now).entries, e.key = key) ∨ (c.sweep now).size < c.maxEntries

/-- With room for the key only expired entries go. -/
theorem evict_of_fits {c : Cache α} {now : Nat} {key : String} (h : c.Fits now key) :
    c.evict now key = c.sweep now := by
  refine if_pos ?_
  rw [Bool.or_eq_true, find?_isSome_iff, decide_eq_true_iff]
  exact h

/-- Without room the lowest ranked of the live entries go. -/
theorem entries_evict_of_full {c : Cache α} {now : Nat} {key : String} (h : ¬c.Fits now key) :
    (c.evict now key).entries =
      (c.sweep now).entries.filter ((c.sweep now).survives (c.sweep now).excess) := by
  refine congrArg Cache.entries (if_neg ?_)
  rw [Bool.or_eq_true, find?_isSome_iff, decide_eq_true_iff]
  exact h

end Cache

open Cache in
open scoped List in
/-- **Eviction.** Take any state of a cache and any entry to be stored; room is made for it at any
time, and it is stored at any time. If its key is alive or there is room, the live entries of other
keys stay and the new one comes last. If not, the live entries are cut in two. As many go as the
rule says, and each of them has a lower rank than each one that stays. The others stay in order,
unchanged, and the new one comes last. -/
theorem set_evicts_lowest_ranked {α : Type} {maxEntries : Nat} (hcapacity : 1 ≤ maxEntries)
    (ttl start : Nat) (ops : List (Op α)) :
    ∃ c : Cache α, Cache.create maxEntries ttl = .ok c ∧
      ∀ s ∈ Timed.states ⟨start, c⟩ ops, ∀ (swept stored : Nat) (key : String) (freshness : Int)
        (value : α),
        let live := s.cache.entries.filter (s.cache.alive swept)
        let after := (s.cache.set swept stored key freshness value).entries
        let new : Entry α := ⟨key, freshness, value, stored, 1⟩
        ((∃ e ∈ live, e.key = key) ∨ live.length < maxEntries →
          after = live.filter (·.key ≠ key) ++ [new]) ∧
        (¬((∃ e ∈ live, e.key = key) ∨ live.length < maxEntries) →
          ∃ removed kept : List (Entry α × Nat),
            removed ++ kept ~ live.zipIdx ∧ kept <+ live.zipIdx ∧
            removed.length = max (live.length / 5) (live.length + 1 - maxEntries) ∧
            (∀ r ∈ removed, ∀ k ∈ kept, Entry.rank r < Entry.rank k) ∧
            after = kept.map Prod.fst ++ [new]) := by
  refine ⟨⟨[], maxEntries, ttl % timeModulus⟩, if_neg (by omega), ?_⟩
  intro s hs swept stored key freshness value live after new
  have hbuilt := Timed.built_of_mem_states hs
  obtain rfl := hbuilt.maxEntries
  show (s.cache.Fits swept key → _) ∧ (¬s.cache.Fits swept key → _)
  have hafter : after = ((s.cache.evict swept key).erase key).entries ++ [new] := rfl
  refine ⟨fun hfits => ?_, fun hfull => ?_⟩
  · rw [hafter, evict_of_fits hfits]
    rfl
  · have hkeys : ((s.cache.sweep swept).entries.map Entry.key).Nodup :=
      hbuilt.keys.sublist (List.filter_sublist.map _)
    obtain ⟨hnew, hlarge⟩ := not_or.mp hfull
    have hcount : (s.cache.sweep swept).excess ≤ (s.cache.sweep swept).size := by
      show max ((s.cache.sweep swept).size / 5)
          ((s.cache.sweep swept).size + 1 - s.cache.maxEntries) ≤ _
      omega
    obtain ⟨removed, kept, hall, hsub, hlength, hlower, hkept⟩ := filter_survives hkeys hcount
    rw [← entries_evict_of_full hfull] at hkept
    -- the key is not alive, so storing it replaces nothing
    have hother : ¬∃ e ∈ (s.cache.evict swept key).entries, e.key = key := by
      rintro ⟨e, he, hkey⟩
      rw [entries_evict_of_full hfull] at he
      exact hnew ⟨e, (List.mem_filter.mp he).1, hkey⟩
    refine ⟨removed, kept, hall, hsub, hlength, hlower, ?_⟩
    rw [hafter, erase_of_not_mem hother, hkept]

open Cache in
/-- Ten keys in a cache for ten, three of them used twice. An eleventh key drives out a fifth of
them. -/
theorem set_evicts_lowest_ranked_ten_keys :
    let ops : List (Op Nat) := ["a", "b", "c", "d", "e", "f", "g", "h", "i", "j"].map
        (.set · 0 0 0) ++
      [.get "d", .advance 1, .get "a", .get "f"]
    1 ≤ 10 ∧ ∃ c : Cache Nat, Cache.create 10 60 = .ok c ∧ ∃ s ∈ Timed.states ⟨100, c⟩ ops,
      s.cache.entries.map Entry.key = ["b", "c", "e", "g", "h", "i", "j", "d", "a", "f"] ∧
      ∃ removed kept : List (Entry Nat × Nat), removed.length = 2 ∧
        (∀ r ∈ removed, ∀ k ∈ kept, Entry.rank r < Entry.rank k) ∧
        (s.cache.set 101 102 "k" 0 0).entries = kept.map Prod.fst ++ [⟨"k", 0, 0, 102, 1⟩] := by
  intro ops
  have hcapacity : 1 ≤ 10 := by decide
  obtain ⟨c, hcreate, hset⟩ := set_evicts_lowest_ranked (α := Nat) hcapacity 60 100 ops
  obtain rfl : c = ⟨[], 10, 60⟩ := Except.ok.inj (hcreate.symm.trans (by decide))
  have hlast := List.getLast_mem (l := Timed.states ⟨100, ⟨[], 10, 60⟩⟩ ops) (List.cons_ne_nil _ _)
  obtain ⟨removed, kept, _, _, hlength, hlower, hafter⟩ :=
    (hset _ hlast 101 102 "k" 0 0).2 (by decide +kernel)
  refine ⟨hcapacity, _, hcreate, _, hlast, by decide +kernel, removed, kept, ?_, hlower, hafter⟩
  rw [hlength]
  decide +kernel

namespace Cache

variable {α : Type}

/-! ### Time to live -/

/-- `c.HonoursTtl ttl`: whatever is done with the cache, an entry is found, and is left by a sweep,
as long as no more than `ttl` milliseconds have passed since its last use. -/
def HonoursTtl (c : Cache α) (ttl : Nat) : Prop :=
  ∀ (start : Nat) (ops : List (Op α)), ∀ s ∈ Timed.states ⟨start, c⟩ ops, ∀ e ∈ s.cache.entries,
    ∀ now < timeModulus,
      ((s.cache.get now e.key).1.isSome = true ↔ now - e.lastAccess ≤ ttl) ∧
      (e ∈ (s.cache.sweep now).entries ↔ now - e.lastAccess ≤ ttl)

theorem alive_iff {c : Cache α} {now : Nat} {e : Entry α} :
    c.alive now e = true ↔ now - e.lastAccess ≤ c.ttl :=
  decide_eq_true_iff

/-- An entry is found for as long as the time to live says. -/
theorem get_isSome_iff {c : Cache α} (hkeys : (c.entries.map Entry.key).Nodup) {e : Entry α}
    (he : e ∈ c.entries) (now : Nat) :
    (c.get now e.key).1.isSome = true ↔ now - e.lastAccess ≤ c.ttl := by
  rw [← alive_iff]
  unfold get
  rw [find?_of_mem hkeys he]
  cases halive : c.alive now e with
  | true => simp [halive]
  | false => simp [halive]

/-- An entry stays in a sweep for as long as the time to live says. -/
theorem mem_sweep_iff {c : Cache α} {e : Entry α} (he : e ∈ c.entries) (now : Nat) :
    e ∈ (c.sweep now).entries ↔ now - e.lastAccess ≤ c.ttl := by
  unfold sweep
  rw [List.mem_filter, alive_iff]
  exact and_iff_right he

/-- A cache honours the time it was built with. -/
theorem honoursTtl_self (maxEntries ttl : Nat) :
    HonoursTtl (⟨[], maxEntries, ttl⟩ : Cache α) ttl := by
  intro start ops s hs e he now _
  have hbuilt := Timed.built_of_mem_states hs
  obtain rfl := hbuilt.ttl
  exact ⟨get_isSome_iff hbuilt.keys he now, mem_sweep_iff he now⟩

/-- A cache honours no other time to live, as far as the clock can tell. -/
theorem le_iff_of_honoursTtl {maxEntries ttl ttl' : Nat} (value : α)
    (h : HonoursTtl (⟨[], maxEntries, ttl⟩ : Cache α) ttl') {now : Nat} (hnow : now < timeModulus) :
    now ≤ ttl ↔ now ≤ ttl' := by
  -- an entry that is set at time 0
  have hlast := List.getLast_mem (l := Timed.states ⟨0, (⟨[], maxEntries, ttl⟩ : Cache α)⟩
    [.set "key" 0 value 0]) (List.cons_ne_nil _ _)
  have hentry : (⟨"key", 0, value, 0, 1⟩ : Entry α) ∈
      (Timed.step ⟨0, (⟨[], maxEntries, ttl⟩ : Cache α)⟩ (.set "key" 0 value 0)).2.cache.entries :=
    List.mem_append_right _ (List.mem_singleton_self _)
  have hself := (honoursTtl_self maxEntries ttl 0 _ _ hlast _ hentry now hnow).1
  have hother := (h 0 _ _ hlast _ hentry now hnow).1
  exact hself.symm.trans hother

end Cache

open Cache in
/-- **The configured time to live.** It is given in seconds and kept in milliseconds, as a word of
64 bits. A cache honours what is left of it in the word, so it honours the configured time exactly
if that fits. Among times that fit, a longer one lets no entry expire sooner. -/
theorem configured_ttl_honoured_iff (settings : Settings) {maxEntries : Nat}
    (hcapacity : 1 ≤ maxEntries) :
    ∃ c : SelectorCache, Cache.create maxEntries settings.cacheTtl = .ok c ∧
      c.HonoursTtl (settings.cacheTtlSecs * 1000 % timeModulus) ∧
      (c.HonoursTtl (settings.cacheTtlSecs * 1000) ↔ settings.cacheTtlSecs * 1000 < timeModulus) ∧
      ∀ longer : Settings, settings.cacheTtlSecs ≤ longer.cacheTtlSecs →
        longer.cacheTtlSecs * 1000 < timeModulus →
        ∃ c' : SelectorCache, Cache.create maxEntries longer.cacheTtl = .ok c' ∧
          ∀ now e, c.alive now e = true → c'.alive now e = true := by
  have hcreate : ∀ settings : Settings, Cache.create maxEntries settings.cacheTtl =
      .ok (⟨[], maxEntries, settings.cacheTtlSecs * 1000 % timeModulus⟩ : SelectorCache) :=
    fun settings => if_neg (by omega)
  refine ⟨_, hcreate settings, honoursTtl_self _ _, ⟨fun hhonours => ?_, fun hfits => ?_⟩, ?_⟩
  · -- the last time of the clock tells a word from a longer time: it is odd, and a thousand is even
    have hclock : timeModulus - 1 < timeModulus := by decide
    have hlast := (le_iff_of_honoursTtl [] hhonours hclock).mpr
    unfold timeModulus at hlast ⊢
    omega
  · have hself := honoursTtl_self (α := List Selector) maxEntries
      (settings.cacheTtlSecs * 1000 % timeModulus)
    rw [Nat.mod_eq_of_lt hfits] at hself ⊢
    exact hself
  · intro longer hle hfits
    have hms : settings.cacheTtlSecs * 1000 ≤ longer.cacheTtlSecs * 1000 :=
      Nat.mul_le_mul_right 1000 hle
    refine ⟨_, hcreate longer, fun now e => ?_⟩
    rw [alive_iff, alive_iff, Nat.mod_eq_of_lt hfits, Nat.mod_eq_of_lt (hms.trans_lt hfits)]
    exact fun halive => halive.trans hms

open Cache in
/-- The longest time that fits is honoured, one second more is not. -/
theorem configured_ttl_honoured_iff_longest :
    1 ≤ 3 ∧
      (∃ c : SelectorCache, Cache.create 3
        (Settings.cacheTtl { cacheTtlSecs := 18446744073709551 }) =
        .ok c ∧ c.HonoursTtl (18446744073709551 * 1000)) ∧
      ∃ c : SelectorCache, Cache.create 3
        (Settings.cacheTtl { cacheTtlSecs := 18446744073709552 }) =
        .ok c ∧ c.HonoursTtl 384 ∧ ¬c.HonoursTtl (18446744073709552 * 1000) := by
  have hcapacity : 1 ≤ 3 := by decide
  obtain ⟨c, hcreate, _, hlongest, _⟩ :=
    configured_ttl_honoured_iff { cacheTtlSecs := 18446744073709551 } hcapacity
  obtain ⟨c', hcreate', hword, hlonger, _⟩ :=
    configured_ttl_honoured_iff { cacheTtlSecs := 18446744073709552 } hcapacity
  refine ⟨hcapacity, ⟨c, hcreate, hlongest.mpr (by decide)⟩, c', hcreate', hword, ?_⟩
  exact fun hhonours => absurd (hlonger.mp hhonours) (by decide)

open Cache in
/-- After 385 milliseconds an entry is found with a time to live of 18446744073709551 seconds, and
has expired with one second more. -/
theorem longer_ttl_expires_sooner :
    let found (secs : Nat) : Except Error Bool := do
      let c : SelectorCache ← Cache.create 3 (Settings.cacheTtl { cacheTtlSecs := secs })
      return ((c.set 0 0 "key" 1 []).get 385 "key").1.isSome
    385 ≤ 18446744073709552 * 1000 ∧ found 18446744073709551 = .ok true ∧
      found 18446744073709552 = .ok false := by
  decide +kernel

end StyleAudit
