import StyleAudit.Cache

/-!
# What the operations of a cache keep

A fact about stored values that holds of every entry keeps holding: no operation of the cache
changes the key, the freshness or the value of an entry. Entries are only touched, moved and
dropped, and `Cache.set` adds the one entry it is given.

* **`Cache.Holds`** says that a relation between key, freshness and value holds of all entries.
* **`Cache.Holds.getFresh`** / **`Cache.getFresh_hit`** look at a lookup: what stays is as before,
  and a hit is the value of an entry with the key and the freshness that were asked for.
* **`Cache.Holds.set`** looks at a store: sweeping and evicting drop entries, so only the new
  entry has to be checked.

Nothing here depends on the time, the capacity or the time to live.
-/

namespace StyleAudit.Cache

variable {α : Type}

/-- `c.Holds P`: the relation `P` holds between key, freshness and value of each entry. -/
def Holds (P : String → Int → α → Prop) (c : Cache α) : Prop :=
  ∀ e ∈ c.entries, P e.key e.freshness e.value

variable {P : String → Int → α → Prop} {c : Cache α}

/-! ### Dropping entries -/

/-- A cache whose entries all come from `c` keeps what holds of `c`. -/
theorem Holds.of_subset {c' : Cache α} (h : c.Holds P) (hsub : ∀ e ∈ c'.entries, e ∈ c.entries) :
    c'.Holds P := by
  intro e he
  exact h e (hsub e he)

theorem holds_of_entries_nil (h : c.entries = []) : c.Holds P := by
  intro e he
  rw [h] at he
  exact absurd he List.not_mem_nil

theorem Holds.clear (_h : c.Holds P) : c.clear.Holds P :=
  holds_of_entries_nil rfl

theorem Holds.erase (h : c.Holds P) (key : String) : (c.erase key).Holds P :=
  h.of_subset fun _ he => (List.mem_filter.mp he).1

theorem Holds.delete (h : c.Holds P) (key : String) : (c.delete key).2.Holds P :=
  h.erase key

theorem Holds.sweep (h : c.Holds P) (now : Nat) : (c.sweep now).Holds P :=
  h.of_subset fun _ he => (List.mem_filter.mp he).1

/-- Making room only drops entries: the expired ones and, when a new key does not fit, those of
lowest rank. -/
theorem Holds.evict (h : c.Holds P) (now : Nat) (key : String) : (c.evict now key).Holds P := by
  have hsweep := h.sweep now
  simp only [Cache.evict]
  split
  · exact hsweep
  · exact hsweep.of_subset fun _ he => (List.mem_filter.mp he).1

/-! ### Storing and looking up -/

/-- Pushing an entry adds that entry and nothing else. -/
theorem Holds.push (h : c.Holds P) {e : Entry α} (he : P e.key e.freshness e.value) :
    (c.push e).Holds P := by
  intro e' he'
  rcases List.mem_append.mp he' with hold | hnew
  · exact h.erase e.key e' hold
  · rw [List.mem_singleton.mp hnew]
    exact he

/-- Storing keeps what holds of the old entries, and of the new one if it holds of it. -/
theorem Holds.set (h : c.Holds P) (swept stored : Nat) {key : String} {freshness : Int} {value : α}
    (hnew : P key freshness value) : (c.set swept stored key freshness value).Holds P :=
  (h.evict swept key).push hnew

/-- A found entry is one of the cache and has the key that was asked for. -/
theorem find?_eq_some {key : String} {e : Entry α} (h : c.find? key = some e) :
    e ∈ c.entries ∧ e.key = key := by
  refine ⟨List.mem_of_find?_eq_some h, ?_⟩
  simpa using List.find?_some h

/-- The entry that a lookup gives is an entry of the cache under the key. -/
theorem get_hit {now : Nat} {key : String} {e : Entry α} (h : (c.get now key).1 = some e) :
    e ∈ c.entries ∧ e.key = key := by
  unfold Cache.get at h
  cases hfind : c.find? key with
  | none => rw [hfind] at h; exact absurd h (by simp)
  | some found =>
    rw [hfind] at h
    simp only at h
    split at h
    · rw [← Option.some.inj h]
      exact find?_eq_some hfind
    · exact absurd h (by simp)

/-- A lookup touches the entry it finds, or drops it, and leaves the others alone. -/
theorem Holds.get (h : c.Holds P) (now : Nat) (key : String) : (c.get now key).2.Holds P := by
  unfold Cache.get
  cases hfind : c.find? key with
  | none => exact h
  | some found =>
    simp only
    split
    · -- touching changes neither key nor freshness nor value
      exact h.push (h found (find?_eq_some hfind).1)
    · exact h.erase key

/-- An entry of another freshness goes as well. -/
theorem Holds.getFresh (h : c.Holds P) (now : Nat) (key : String) (freshness : Int) :
    (c.getFresh now key freshness).2.Holds P := by
  unfold Cache.getFresh
  have hget := h.get now key
  cases hres : c.get now key with
  | mk hit c' =>
    rw [hres] at hget
    cases hit with
    | none => exact hget
    | some e =>
      simp only
      -- an entry with another freshness goes
      split
      · exact hget
      · exact hget.erase key

/-- A hit is the value of an entry with the key and the freshness that were asked for. -/
theorem getFresh_hit (h : c.Holds P) {now : Nat} {key : String} {freshness : Int} {value : α}
    (hhit : (c.getFresh now key freshness).1 = some value) : P key freshness value := by
  unfold Cache.getFresh at hhit
  cases hres : c.get now key with
  | mk hit c' =>
    rw [hres] at hhit
    cases hit with
    | none => exact absurd hhit (by simp)
    | some e =>
      simp only at hhit
      -- a hit has the freshness that was asked for
      split at hhit
      · next hfresh =>
        have hgot : (c.get now key).1 = some e := by rw [hres]
        obtain ⟨hmem, hkey⟩ := get_hit hgot
        have hP := h e hmem
        rw [hkey, hfresh, Option.some.inj hhit] at hP
        exact hP
      · exact absurd hhit (by simp)

end StyleAudit.Cache
