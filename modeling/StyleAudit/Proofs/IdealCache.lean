import Mathlib.Data.Finset.Card
import StyleAudit.Cache.Ideal
import StyleAudit.Proofs.CacheEntries

/-!
# The cache refines an ideal map

A cache forgets: it drops expired entries when it likes, and makes room by dropping others. What it
does answer is what a map without bounds would answer. The two are run side by side over any history
of operations.

* **`Cache.Refines`** relates a cache to the ideal map: each entry stands in the map, with the time
  of its last use. All operations come down to two changes, which keep it: **`Refines.erase`** takes
  a key out of the cache, **`Refines.push`** gives a key the same item on both sides.
* **`Cache.Tracks`** is for histories that set no more keys than fit. Then no entry is ever evicted
  (`Tracks.size_lt`), so each item that is still live has an entry.
* **`Refines.step`** and **`Tracks.step`** are about one operation, `Refines.answers` and
  `Tracks.answers` about a history.
* **`cache_refines_ideal_map`** is the result.
-/

namespace StyleAudit

namespace Cache

open scoped List

variable {α : Type}

/-! ### Entries by key -/

/-- The item that an entry stands for. -/
def Entry.item (e : Entry α) : Item α := ⟨e.freshness, e.value, e.lastAccess⟩

/-- With distinct keys an entry is found by its key. -/
theorem find?_of_mem {c : Cache α} (hnodup : (c.entries.map Entry.key).Nodup) {e : Entry α}
    (he : e ∈ c.entries) : c.find? e.key = some e := by
  obtain ⟨found, hfound⟩ : ∃ found, c.find? e.key = some found := by
    apply Option.isSome_iff_exists.mp
    unfold find?
    rw [List.find?_isSome]
    exact ⟨e, he, by simp⟩
  obtain ⟨hmem, hkey⟩ := find?_eq_some hfound
  rw [hfound, List.inj_on_of_nodup_map hnodup hmem he hkey]

theorem mem_erase {c : Cache α} {key : String} {e : Entry α} :
    e ∈ (c.erase key).entries ↔ e ∈ c.entries ∧ e.key ≠ key := by
  simp [erase]

/-- A pushed entry is the only one of its key. -/
theorem nodup_push {c : Cache α} (h : (c.entries.map Entry.key).Nodup) (e : Entry α) :
    ((c.push e).entries.map Entry.key).Nodup := by
  have hsub : (c.erase e.key).entries <+ c.entries := List.filter_sublist
  show (((c.erase e.key).entries ++ [e]).map Entry.key).Nodup
  rw [List.map_append, List.map_singleton, List.nodup_append]
  refine ⟨h.sublist (hsub.map _), List.nodup_singleton _, ?_⟩
  intro k hk k' hk'
  obtain ⟨e', he', rfl⟩ := List.mem_map.mp hk
  rw [List.mem_singleton.mp hk']
  exact (mem_erase.mp he').2

/-- Making room drops entries and changes none. -/
theorem evict_sublist (c : Cache α) (now : Nat) (key : String) :
    (c.evict now key).entries <+ c.entries := by
  have hsweep : (c.sweep now).entries <+ c.entries := List.filter_sublist
  simp only [evict]
  split
  · exact hsweep
  · exact List.filter_sublist.trans hsweep

theorem evict_ttl (c : Cache α) (now : Nat) (key : String) : (c.evict now key).ttl = c.ttl := by
  simp only [evict]
  split <;> rfl

/-- A key that was just set is found at once: it has an entry of its own, used right now. -/
theorem get_set_self (c : Cache α) (swept stored : Nat) (key : String) (freshness : Int)
    (value : α) : ((c.set swept stored key freshness value).get stored key).1 =
      some ⟨key, freshness, value, stored, 1⟩ := by
  have hfind : (c.set swept stored key freshness value).find? key =
      some ⟨key, freshness, value, stored, 1⟩ := by
    unfold find? set push
    -- the older entries of the key are gone
    have hnone : ((c.evict swept key).erase key).entries.find? (·.key = key) = none := by
      rw [List.find?_eq_none]
      intro e he
      simpa using (mem_erase.mp he).2
    show (((c.evict swept key).erase key).entries ++ _).find? _ = _
    rw [List.find?_append, hnone]
    simp
  unfold get
  rw [hfind]
  simp [alive]

/-! ### The ideal map -/

/-- An item is live when it is stored and was used within the time to live. -/
theorem Ideal.live?_eq_some {m : Ideal α} {key : String} {item : Item α} :
    m.live? key = some item ↔ m.stored key = some item ∧ m.now - item.lastAccess ≤ m.ttl := by
  unfold Ideal.live?
  rw [Option.filter_eq_some_iff]
  simp

@[simp] theorem Ideal.stored_put_self (m : Ideal α) (key : String) (item : Option (Item α)) :
    (m.put key item).stored key = item := by
  simp [Ideal.put]

theorem Ideal.stored_put_of_ne (m : Ideal α) {key other : String} (h : other ≠ key)
    (item : Option (Item α)) : (m.put key item).stored other = m.stored other := by
  simp [Ideal.put, h]

theorem Ideal.live?_put_of_ne (m : Ideal α) {key other : String} (h : other ≠ key)
    (item : Option (Item α)) : (m.put key item).live? other = m.live? other := by
  unfold Ideal.live?
  rw [m.stored_put_of_ne h]
  rfl

theorem Ideal.put_stored (m : Ideal α) (key : String) : m.put key (m.stored key) = m := by
  simp [Ideal.put]

/-! ### Entries stand in the ideal map -/

/-- `Refines s m`: clocks and times to live agree, keys are distinct, and each entry is what the
ideal map stores under its key. -/
structure Refines (s : Timed α) (m : Ideal α) : Prop where
  now : s.now = m.now
  ttl : s.cache.ttl = m.ttl
  nodup : (s.cache.entries.map Entry.key).Nodup
  stored : ∀ e ∈ s.cache.entries, m.stored e.key = some e.item

namespace Refines

variable {s : Timed α} {m : Ideal α}

/-- Entries may go at any time. -/
theorem sublist (h : Refines s m) {c : Cache α} (hsub : c.entries <+ s.cache.entries)
    (httl : c.ttl = s.cache.ttl) : Refines { s with cache := c } m :=
  ⟨h.now, httl.trans h.ttl, h.nodup.sublist (hsub.map _), fun e he => h.stored e (hsub.subset he)⟩

/-- A key without an entry may have any item. -/
theorem erase (h : Refines s m) (key : String) (item : Option (Item α)) :
    Refines { s with cache := s.cache.erase key } (m.put key item) := by
  have hsub := h.sublist (c := s.cache.erase key) List.filter_sublist rfl
  refine ⟨h.now, h.ttl, hsub.nodup, fun e he => ?_⟩
  obtain ⟨hmem, hne⟩ := mem_erase.mp he
  rw [m.stored_put_of_ne hne]
  exact h.stored e hmem

/-- A key gets the same item on both sides. -/
theorem push (h : Refines s m) (e : Entry α) :
    Refines { s with cache := s.cache.push e } (m.put e.key (some e.item)) := by
  have herased := h.erase e.key (some e.item)
  refine ⟨h.now, h.ttl, nodup_push h.nodup e, fun e' he' => ?_⟩
  rcases List.mem_append.mp he' with hold | hnew
  · exact herased.stored e' hold
  · rw [List.mem_singleton.mp hnew]
    exact m.stored_put_self _ _

/-- Both sides agree on whether an entry is still alive. -/
theorem live?_of_alive (h : Refines s m) {e : Entry α} (he : e ∈ s.cache.entries)
    (halive : s.cache.alive s.now e = true) : m.live? e.key = some e.item := by
  rw [Ideal.live?_eq_some]
  refine ⟨h.stored e he, ?_⟩
  rw [← h.now, ← h.ttl]
  exact of_decide_eq_true halive

/-- An expired entry is expired in the ideal map too. -/
theorem live?_of_not_alive (h : Refines s m) {e : Entry α} (he : e ∈ s.cache.entries)
    (halive : ¬s.cache.alive s.now e = true) : m.live? e.key = none := by
  rw [Option.eq_none_iff_forall_not_mem]
  intro item hitem
  obtain ⟨hstored, hrecent⟩ := Ideal.live?_eq_some.mp hitem
  rw [h.stored e he] at hstored
  obtain rfl := Option.some.inj hstored
  refine halive (decide_eq_true ?_)
  rw [h.now, h.ttl]
  exact hrecent

/-- A touched entry stands for the touched item. -/
theorem item_touch (h : Refines s m) (e : Entry α) : (e.touch s.now).item = m.touched e.item := by
  show (⟨e.freshness, e.value, s.now⟩ : Item α) = ⟨e.freshness, e.value, m.now⟩
  rw [h.now]

/-- A missing key may have any item in the ideal map. -/
theorem of_find?_none (h : Refines s m) {key : String} (hnone : s.cache.find? key = none)
    (item : Option (Item α)) : Refines s (m.put key item) := by
  have hsame : s.cache.erase key = s.cache := by
    unfold Cache.erase
    rw [List.filter_eq_self.mpr]
    intro e he
    unfold find? at hnone
    rw [List.find?_eq_none] at hnone
    simpa using hnone e he
  have herased := h.erase key item
  rw [hsame] at herased
  exact herased

end Refines

/-! ### What an operation does to both sides -/

/-- `Moves s m op r i`: the operation takes the cache of `s` to `r` and the ideal map `m` to `i`. -/
inductive Moves (s : Timed α) (m : Ideal α) :
    Op α → Option (Int × α) × Timed α → Option (Int × α) × Ideal α → Prop
  /-- Neither side answers. -/
  | miss {op : Op α} : Moves s m op (none, s) (none, m)
  /-- Only the ideal map still has the key. -/
  | lost {op : Op α} {key : String} (item : Option (Item α)) (answer : Option (Int × α)) :
      s.cache.find? key = none → m.live? key ≠ none →
      Moves s m op (none, s) (answer, m.put key item)
  /-- The key is gone on both sides: removed, stale or expired. -/
  | gone {op : Op α} {key : String} {item : Option (Item α)} :
      (m.put key item).live? key = none →
      Moves s m op (none, { s with cache := s.cache.erase key }) (none, m.put key item)
  /-- Both sides answer from the same entry. -/
  | hit {op : Op α} {e : Entry α} : e ∈ s.cache.entries →
      Moves s m op (some (e.freshness, e.value), { s with cache := s.cache.push (e.touch s.now) })
        (some (e.freshness, e.value), m.put e.key (some (m.touched e.item)))
  | set (key : String) (freshness : Int) (value : α) (pause : Nat) :
      Moves s m (.set key freshness value pause)
        (none, ⟨later s.now pause, s.cache.set s.now (later s.now pause) key freshness value⟩)
        (none, (m.advance pause).put key (some ⟨freshness, value, m.now + pause⟩))
  | clear : Moves s m .clear (none, { s with cache := s.cache.clear })
      (none, { m with stored := fun _ => none })
  | advance (ms : Nat) : Moves s m (.advance ms) (none, { s with now := later s.now ms })
      (none, m.advance ms)

theorem erase_push (c : Cache α) (e : Entry α) : (c.push e).erase e.key = c.erase e.key := by
  simp [erase, push, List.filter_append]

/-- The three outcomes of a lookup in the cache: no entry, an entry that has expired, or a live
entry, which the ideal map has as well. -/
theorem Refines.get_cases {s : Timed α} {m : Ideal α} (h : Refines s m) (key : String) :
    (s.cache.find? key = none ∧ s.cache.get s.now key = (none, s.cache)) ∨
    (m.live? key = none ∧ s.cache.get s.now key = (none, s.cache.erase key)) ∨
    ∃ e ∈ s.cache.entries, e.key = key ∧ m.live? key = some e.item ∧
      s.cache.get s.now key = (some e, s.cache.push (e.touch s.now)) := by
  unfold get
  cases hfind : s.cache.find? key with
  | none => exact .inl ⟨rfl, rfl⟩
  | some e =>
    obtain ⟨hmem, rfl⟩ := find?_eq_some hfind
    refine .inr ?_
    simp only
    split
    · next halive => exact .inr ⟨e, hmem, rfl, h.live?_of_alive hmem halive, rfl⟩
    · next halive => exact .inl ⟨h.live?_of_not_alive hmem halive, rfl⟩

/-- An expired item of the ideal map is left where it is. -/
theorem Moves.expired {s : Timed α} {m : Ideal α} {op : Op α} {key : String}
    (hlive : m.live? key = none) :
    Moves s m op (none, { s with cache := s.cache.erase key }) (none, m) := by
  have hmoves : Moves s m op (none, { s with cache := s.cache.erase key })
      (none, m.put key (m.stored key)) := by
    apply Moves.gone
    rw [m.put_stored]
    exact hlive
  rw [m.put_stored] at hmoves
  exact hmoves

/-- Reading moves the cache and the ideal map together. -/
theorem Refines.moves_get {s : Timed α} {m : Ideal α} (h : Refines s m) (key : String) :
    Moves s m (.get key) (s.step (.get key)) (m.step (.get key)) := by
  simp only [Timed.step, Ideal.step]
  rcases h.get_cases key with ⟨hnone, hget⟩ | ⟨hlive, hget⟩ | ⟨e, hmem, rfl, hlive, hget⟩
  · rw [hget]
    cases hlive : m.live? key with
    | none => exact .miss
    | some item => exact .lost _ _ hnone (by simp [hlive])
  · rw [hget, hlive]
    exact .expired hlive
  · rw [hget, hlive]
    exact .hit hmem

/-- Reading by freshness moves the cache and the ideal map together. -/
theorem Refines.moves_getFresh {s : Timed α} {m : Ideal α} (h : Refines s m) (key : String)
    (freshness : Int) :
    Moves s m (.getFresh key freshness) (s.step (.getFresh key freshness))
      (m.step (.getFresh key freshness)) := by
  simp only [Timed.step, Ideal.step, getFresh]
  rcases h.get_cases key with ⟨hnone, hget⟩ | ⟨hlive, hget⟩ | ⟨e, hmem, rfl, hlive, hget⟩
  · rw [hget]
    cases hlive : m.live? key with
    | none => exact .miss
    | some item =>
      show Moves s m _ (none, s) (if item.freshness = freshness then _ else _)
      split
      · exact .lost _ _ hnone (by simp [hlive])
      · exact .lost _ _ hnone (by simp [hlive])
  · rw [hget, hlive]
    exact .expired hlive
  · rw [hget, hlive]
    show Moves s m _ _ (if e.freshness = freshness then _ else _)
    by_cases hfresh : e.freshness = freshness
    · simp only [if_pos hfresh, Option.map_some]
      rw [← hfresh]
      exact .hit hmem
    · -- the touched entry goes again, so it is as if it had only been removed
      simp only [if_neg hfresh, Option.map_none]
      rw [show e.key = (e.touch s.now).key from rfl, erase_push]
      exact .gone (by simp [Ideal.live?])

/-- Every operation moves the cache and the ideal map together. -/
theorem Refines.moves {s : Timed α} {m : Ideal α} (h : Refines s m) (op : Op α) :
    Moves s m op (s.step op) (m.step op) := by
  cases op with
  | set key freshness value pause => exact .set key freshness value pause
  | get key => exact h.moves_get key
  | getFresh key freshness => exact h.moves_getFresh key freshness
  | delete key => exact .gone (by simp [Ideal.live?])
  | clear => exact .clear
  | advance ms => exact .advance ms

/-! ### One operation -/

/-- Time passes on both sides alike, as long as the clock of the cache does not overflow. -/
theorem Refines.advance {s : Timed α} {m : Ideal α} (h : Refines s m) {ms : Nat}
    (htime : s.now + ms < timeModulus) :
    Refines { s with now := later s.now ms } (m.advance ms) := by
  refine ⟨?_, h.ttl, h.nodup, h.stored⟩
  have hlater : later s.now ms = s.now + ms := Nat.mod_eq_of_lt htime
  show later s.now ms = m.now + ms
  rw [hlater, h.now]

/-- What the cache hands back, the ideal map hands back as well. -/
theorem Refines.step {s : Timed α} {m : Ideal α} (h : Refines s m) {op : Op α}
    (htime : s.now + op.elapsed < timeModulus) :
    Refines (s.step op).2 (m.step op).2 ∧
      ∀ hit, (s.step op).1 = some hit → (m.step op).1 = some hit := by
  generalize hr : s.step op = r
  generalize hi : m.step op = i
  have hmoves := h.moves op
  rw [hr, hi] at hmoves
  cases hmoves with
  | miss => exact ⟨h, fun hit hhit => absurd hhit (by simp)⟩
  | lost item answer hnone _ =>
    exact ⟨h.of_find?_none hnone item, fun hit hhit => absurd hhit (by simp)⟩
  | gone => exact ⟨h.erase _ _, fun hit hhit => absurd hhit (by simp)⟩
  | hit =>
    refine ⟨?_, fun hit hhit => hhit⟩
    rw [← h.item_touch]
    exact h.push _
  -- first entries are evicted, then the pause passes, then the entry is stored
  | set key freshness value pause =>
    refine ⟨?_, fun hit hhit => absurd hhit (by simp)⟩
    have hroom : Refines { s with cache := s.cache.evict s.now key } m :=
      h.sublist (evict_sublist ..) (evict_ttl ..)
    have hlater := hroom.advance htime
    have hnow : later s.now pause = m.now + pause := hlater.now
    rw [← hnow]
    exact hlater.push ⟨key, freshness, value, later s.now pause, 1⟩
  | clear =>
    refine ⟨⟨h.now, h.ttl, List.nodup_nil, ?_⟩, fun hit hhit => absurd hhit (by simp)⟩
    intro e he
    exact absurd he List.not_mem_nil
  | advance ms => exact ⟨h.advance htime, fun hit hhit => absurd hhit (by simp)⟩

/-- `Tracks K s m`: the keys of the cache are among `K`, which it has room for, and each live item
of the ideal map has an entry. -/
structure Tracks (K : Finset String) (s : Timed α) (m : Ideal α) : Prop extends Refines s m where
  room : K.card ≤ s.cache.maxEntries
  keys : ∀ e ∈ s.cache.entries, e.key ∈ K
  complete : ∀ key item, m.live? key = some item → ∃ e ∈ s.cache.entries, e.key = key

namespace Tracks

variable {K : Finset String} {s : Timed α} {m : Ideal α}

/-- While there is room, what the cache does not have is not live either. -/
theorem live?_of_find?_none (h : Tracks K s m) {key : String} (hnone : s.cache.find? key = none) :
    m.live? key = none := by
  rw [Option.eq_none_iff_forall_not_mem]
  intro item hitem
  obtain ⟨e, he, rfl⟩ := h.complete key item hitem
  rw [find?_of_mem h.nodup he] at hnone
  exact absurd hnone (by simp)

/-- Erasing what is dead keeps the cache in step with the ideal map. -/
theorem erase (h : Tracks K s m) {key : String} {item : Option (Item α)}
    (hdead : (m.put key item).live? key = none) :
    Tracks K { s with cache := s.cache.erase key } (m.put key item) := by
  refine ⟨h.toRefines.erase key item, h.room, ?_, ?_⟩
  · intro e he
    exact h.keys e (mem_erase.mp he).1
  · intro other item' hlive
    have hne : other ≠ key := by
      rintro rfl
      rw [hdead] at hlive
      exact absurd hlive (by simp)
    rw [m.live?_put_of_ne hne] at hlive
    obtain ⟨e, he, rfl⟩ := h.complete other item' hlive
    exact ⟨e, mem_erase.mpr ⟨he, hne⟩, rfl⟩

/-- Storing an entry under a known key keeps the cache in step with the ideal map. -/
theorem push (h : Tracks K s m) {e : Entry α} (hkey : e.key ∈ K) :
    Tracks K { s with cache := s.cache.push e } (m.put e.key (some e.item)) := by
  refine ⟨h.toRefines.push e, h.room, ?_, ?_⟩
  · intro e' he'
    rcases List.mem_append.mp he' with hold | hnew
    · exact h.keys e' (mem_erase.mp hold).1
    · rw [List.mem_singleton.mp hnew]
      exact hkey
  · intro other item' hlive
    by_cases hne : other = e.key
    · exact ⟨e, List.mem_append_right _ List.mem_cons_self, hne.symm⟩
    · rw [m.live?_put_of_ne hne] at hlive
      obtain ⟨e', he', rfl⟩ := h.complete other item' hlive
      exact ⟨e', List.mem_append_left _ (mem_erase.mpr ⟨he', hne⟩), rfl⟩

/-- What has expired for the cache has expired for the ideal map. -/
theorem sweep (h : Tracks K s m) : Tracks K { s with cache := s.cache.sweep s.now } m := by
  refine ⟨h.toRefines.sublist List.filter_sublist rfl, h.room, ?_, ?_⟩
  · intro e he
    exact h.keys e (List.mem_filter.mp he).1
  · intro key item hlive
    obtain ⟨e, he, rfl⟩ := h.complete key item hlive
    refine ⟨e, List.mem_filter.mpr ⟨he, ?_⟩, rfl⟩
    by_contra hdead
    rw [h.live?_of_not_alive he hdead] at hlive
    exact absurd hlive (by simp)

/-- A key of `K` without an entry fits: the keys of the entries are others of `K`. -/
theorem size_lt (h : Tracks K s m) {key : String} (hkey : key ∈ K)
    (hnone : s.cache.find? key = none) : s.cache.size < s.cache.maxEntries := by
  have hsubset : (s.cache.entries.map Entry.key).toFinset ⊆ K.erase key := by
    intro k hk
    obtain ⟨e, he, rfl⟩ := List.mem_map.mp (List.mem_toFinset.mp hk)
    refine Finset.mem_erase.mpr ⟨?_, h.keys e he⟩
    rintro rfl
    rw [find?_of_mem h.nodup he] at hnone
    exact absurd hnone (by simp)
  have hcard := Finset.card_le_card hsubset
  rw [List.toFinset_card_of_nodup h.nodup, List.length_map, Finset.card_erase_of_mem hkey] at hcard
  have hpos : 0 < K.card := Finset.card_pos.mpr ⟨key, hkey⟩
  have hroom := h.room
  unfold size
  omega

/-- With room for all keys, making room only sweeps. -/
theorem evict (h : Tracks K s m) {key : String} (hkey : key ∈ K) :
    Tracks K { s with cache := s.cache.evict s.now key } m := by
  have hsweep := h.sweep
  have hsame : s.cache.evict s.now key = s.cache.sweep s.now := by
    simp only [Cache.evict]
    rw [if_pos]
    rw [Bool.or_eq_true, decide_eq_true_iff]
    cases hfind : (s.cache.sweep s.now).find? key with
    | some e => exact .inl rfl
    | none => exact .inr (hsweep.size_lt hkey hfind)
  rw [hsame]
  exact hsweep

/-- What is live later is live now. -/
theorem advance (h : Tracks K s m) {ms : Nat} (htime : s.now + ms < timeModulus) :
    Tracks K { s with now := later s.now ms } (m.advance ms) := by
  refine ⟨h.toRefines.advance htime, h.room, h.keys, ?_⟩
  intro key item hlive
  obtain ⟨hstored, hrecent⟩ := Ideal.live?_eq_some.mp hlive
  refine h.complete key item (Ideal.live?_eq_some.mpr ⟨hstored, ?_⟩)
  change m.now + ms - item.lastAccess ≤ m.ttl at hrecent
  omega

/-- As long as all keys fit, both sides hand back the same. -/
theorem step (h : Tracks K s m) {op : Op α} (htime : s.now + op.elapsed < timeModulus)
    (hkeys : ∀ key ∈ op.keySet?, key ∈ K) :
    Tracks K (s.step op).2 (m.step op).2 ∧ (s.step op).1 = (m.step op).1 := by
  have hrefines := (h.toRefines.step htime).1
  generalize hr : s.step op = r at hrefines
  generalize hi : m.step op = i at hrefines
  have hmoves := h.toRefines.moves op
  rw [hr, hi] at hmoves
  cases hmoves with
  | miss => exact ⟨h, rfl⟩
  -- while there is room nothing live is lost
  | lost item answer hnone hlive => exact absurd (h.live?_of_find?_none hnone) hlive
  | gone hdead => exact ⟨h.erase hdead, rfl⟩
  | @hit _ e he =>
    refine ⟨?_, rfl⟩
    rw [← h.item_touch]
    exact h.push (e := e.touch s.now) (h.keys e he)
  | set key freshness value pause =>
    have hkey : key ∈ K := hkeys key rfl
    have hlater := (h.evict hkey).advance htime
    have hnow : later s.now pause = m.now + pause := hlater.now
    refine ⟨?_, rfl⟩
    rw [← hnow]
    exact hlater.push (e := ⟨key, freshness, value, later s.now pause, 1⟩) hkey
  | clear =>
    refine ⟨⟨hrefines, h.room, ?_, ?_⟩, rfl⟩
    · intro e he
      exact absurd he List.not_mem_nil
    · intro key item hlive
      exact absurd hlive (by simp [Ideal.live?])
  | advance ms => exact ⟨h.advance htime, rfl⟩

end Tracks

/-! ### Histories -/

/-- All the time that passes in a history. -/
def totalElapsed : List (Op α) → Nat
  | [] => 0
  | op :: ops => op.elapsed + totalElapsed ops

/-- The keys that a history sets. -/
def keysSet (ops : List (Op α)) : Finset String := (ops.filterMap Op.keySet?).toFinset

/-- The clock moves by no more than the operation takes. -/
theorem Timed.step_now_le (s : Timed α) (op : Op α) : (s.step op).2.now ≤ s.now + op.elapsed := by
  cases op with
  | advance ms => exact Nat.mod_le _ _
  | set key freshness value pause => exact Nat.mod_le _ _
  | _ => exact Nat.le_add_right _ _

/-- Over a whole run every hit of the cache is a hit of the ideal map. -/
theorem Refines.answers {s : Timed α} {m : Ideal α} (h : Refines s m) {ops : List (Op α)}
    (htime : s.now + totalElapsed ops < timeModulus) :
    List.Forall₂ (fun answer ideal => ∀ hit, answer = some hit → ideal = some hit)
      (s.answers ops) (m.answers ops) := by
  induction ops generalizing s m with
  | nil => exact .nil
  | cons op ops ih =>
    have hsum : totalElapsed (op :: ops) = op.elapsed + totalElapsed ops := rfl
    have hop : s.now + op.elapsed < timeModulus := by omega
    obtain ⟨hnext, hhit⟩ := h.step hop
    have hnow := s.step_now_le op
    exact .cons hhit (ih hnext (by omega))

/-- With room for all keys, the answers of a run are those of the ideal map. -/
theorem Tracks.answers {K : Finset String} {s : Timed α} {m : Ideal α} (h : Tracks K s m)
    {ops : List (Op α)} (htime : s.now + totalElapsed ops < timeModulus)
    (hkeys : keysSet ops ⊆ K) : s.answers ops = m.answers ops := by
  induction ops generalizing s m with
  | nil => rfl
  | cons op ops ih =>
    have hsum : totalElapsed (op :: ops) = op.elapsed + totalElapsed ops := rfl
    have hfirst : ∀ key ∈ op.keySet?, key ∈ K := by
      intro key hkey
      apply hkeys
      rw [keysSet, List.mem_toFinset, List.mem_filterMap]
      exact ⟨op, List.mem_cons_self, hkey⟩
    have hrest : keysSet ops ⊆ K := by
      intro key hkey
      apply hkeys
      rw [keysSet, List.mem_toFinset, List.mem_filterMap] at hkey ⊢
      obtain ⟨op', hop', hkey'⟩ := hkey
      exact ⟨op', List.mem_cons_of_mem op hop', hkey'⟩
    have hop : s.now + op.elapsed < timeModulus := by omega
    obtain ⟨hnext, hsame⟩ := h.step hop hfirst
    have hnow := s.step_now_le op
    show (s.step op).1 :: _ = (m.step op).1 :: _
    rw [hsame, ih hnext (by omega) hrest]

/-- However a history ends, a lookup right after a key was set finds it. -/
theorem Timed.getLast?_answers_set_get (s : Timed α) (ops : List (Op α)) (key : String)
    (freshness : Int) (value : α) (pause : Nat) :
    (s.answers (ops ++ [.set key freshness value pause, .get key])).getLast? =
      some (some (freshness, value)) := by
  induction ops generalizing s with
  | nil =>
    let stored := later s.now pause
    show some (((s.cache.set s.now stored key freshness value).get stored key).1.map _) = _
    rw [get_set_self]
    rfl
  | cons op ops ih =>
    rw [List.cons_append, Timed.answers, List.getLast?_cons, ih]
    rfl

end Cache

open Cache in
/-- **The cache refines an ideal map.** Take a cache of any capacity and any time to live, and a
history in which the clock does not overflow and which may take time to store a value. Each lookup
that hits in the cache hits in the ideal map, with the same freshness and value. A lookup right
after its key was set hits. And if no more keys are set than there is room for, all lookups have the
same result. -/
theorem cache_refines_ideal_map {α : Type} {maxEntries ttl : Nat} (hcapacity : 1 ≤ maxEntries)
    (httl : ttl < timeModulus) (ops : List (Op α)) (htime : totalElapsed ops < timeModulus) :
    ∃ c : Cache α, Cache.create maxEntries ttl = .ok c ∧
      List.Forall₂ (fun answer ideal => ∀ hit, answer = some hit → ideal = some hit)
        (Timed.answers ⟨0, c⟩ ops) ((Ideal.start ttl).answers ops) ∧
      (∀ key freshness value pause,
        (Timed.answers ⟨0, c⟩ (ops ++ [.set key freshness value pause, .get key])).getLast? =
          some (some (freshness, value))) ∧
      ((keysSet ops).card ≤ maxEntries →
        Timed.answers ⟨0, c⟩ ops = (Ideal.start ttl).answers ops) := by
  refine ⟨⟨[], maxEntries, ttl⟩, ?_, ?_⟩
  · unfold Cache.create
    rw [if_neg (by omega), Nat.mod_eq_of_lt httl]
  · have hstart : Refines (⟨0, ⟨[], maxEntries, ttl⟩⟩ : Timed α) (Ideal.start ttl) :=
      ⟨rfl, rfl, List.nodup_nil, fun e he => absurd he List.not_mem_nil⟩
    have hbound : 0 + totalElapsed ops < timeModulus := by omega
    refine ⟨hstart.answers hbound, fun key freshness value pause => ?_,
      fun hroom => ?_⟩
    · exact Timed.getLast?_answers_set_get _ ops key freshness value pause
    · have htracks : Tracks (keysSet ops) (⟨0, ⟨[], maxEntries, ttl⟩⟩ : Timed α)
          (Ideal.start ttl) := by
        refine ⟨hstart, hroom, fun e he => absurd he List.not_mem_nil, ?_⟩
        intro key item hlive
        exact absurd hlive (by simp [Ideal.live?, Ideal.start])
      exact htracks.answers hbound (Finset.Subset.refl _)

open Cache in
/-- Two keys with room for both: a use keeps one of them alive, the other one expires, and a lookup
for another freshness removes the first. -/
theorem cache_refines_ideal_map_two_keys :
    let ops : List (Op Nat) := [.set "a" 1 10 0, .set "b" 2 20 1, .advance 5, .get "a", .advance 6,
      .getFresh "a" 1, .get "b", .getFresh "a" 3, .get "a"]
    1 ≤ 2 ∧ 10 < timeModulus ∧ totalElapsed ops < timeModulus ∧ (keysSet ops).card ≤ 2 ∧
      ∃ c : Cache Nat, Cache.create 2 10 = .ok c ∧ Timed.answers ⟨0, c⟩ ops =
        [none, none, none, some (1, 10), none, some (1, 10), none, none, none] := by
  intro ops
  have hcapacity : 1 ≤ 2 := by decide
  have httl : 10 < timeModulus := by decide
  have htime : totalElapsed ops < timeModulus := by decide
  have hkeys : (keysSet ops).card ≤ 2 := by decide
  obtain ⟨c, hcreate, _, _, hsame⟩ := cache_refines_ideal_map hcapacity httl ops htime
  refine ⟨hcapacity, httl, htime, hkeys, c, hcreate, ?_⟩
  rw [hsame hkeys]
  decide

-- with room for one key only, the second one drives out the first
open Cache in
example :
    let ops : List (Op Nat) := [.set "a" 1 10 0, .set "b" 2 20 0, .get "a", .get "b"]
    Timed.answers ⟨0, ⟨[], 1, 10⟩⟩ ops = [none, none, none, some (2, 20)] ∧
      (Ideal.start 10).answers ops = [none, none, some (1, 10), some (2, 20)] := by
  decide +kernel

end StyleAudit
