import StyleAudit.Text.Cursor

/-!
# Scanning with a recogniser

A scan tries its recogniser at a place, goes on behind what was found, or by one character if
nothing was. `scan_of_some` and `scan_of_none` are these two steps, without the count of characters
to pass over that `findFrom` keeps; proofs about a scan follow the steps by induction on the length
of the text that is left (`Cursor.advance_induction`). `findAll_shift` is about a text that is
moved, and `findAll_ordered` about finds that are pieces of the text.
-/

namespace StyleAudit

open Text

namespace Cursor

theorem length_rest_advance {cur : Cursor} {n : Nat} (hne : cur.rest ≠ []) (hn : 0 < n) :
    (cur.advance n).rest.length < cur.rest.length := by
  have hpos : 0 < cur.rest.length := List.length_pos_iff.mpr hne
  rw [advance, List.length_drop]
  omega

/-- Places of a text from the last one to the first. -/
theorem advance_induction {P : Cursor → Prop} (cur : Cursor)
    (atEnd : ∀ cur, cur.rest = [] → P cur)
    (step : ∀ cur, cur.rest ≠ [] → (∀ n, 0 < n → P (cur.advance n)) → P cur) : P cur := by
  induction hlength : cur.rest.length using Nat.strongRecOn generalizing cur with
  | _ length ih =>
    by_cases hnil : cur.rest = []
    · exact atEnd cur hnil
    · refine step cur hnil fun n hn => ih _ ?_ _ rfl
      rw [← hlength]
      exact length_rest_advance hnil hn

/-- The end of the text stays where it is. -/
theorem stop_advance (cur : Cursor) (n : Nat) :
    (cur.advance n).offset + byteLen (cur.advance n).rest = cur.offset + byteLen cur.rest := by
  have hsplit : byteLen cur.rest = byteLen (cur.rest.take n) + byteLen (cur.rest.drop n) := by
    rw [← byteLen_append, List.take_append_drop]
  rw [hsplit]
  change cur.offset + byteLen (cur.rest.take n) + byteLen (cur.rest.drop n) = _
  omega

end Cursor

namespace Recogniser

variable {α : Type} (r : Recogniser α)

/-- All finds from a place on. -/
def scan (cur : Cursor) : List α := r.findFrom cur.offset cur.before 0 cur.rest

/-- Characters to pass over are passed over. -/
theorem findFrom_eq_scan (offset : Nat) (before : List Char) (skip : Nat) (cs : List Char) :
    r.findFrom offset before skip cs = r.scan (Cursor.advance skip ⟨offset, before, cs⟩) := by
  induction cs generalizing offset before skip with
  | nil => cases skip <;> rfl
  | cons c cs ih =>
    cases skip with
    | zero => simp [scan, Cursor.advance]
    | succ skip =>
      rw [findFrom, ih]
      simp [Cursor.advance, Nat.add_assoc]

variable {r} {cur : Cursor}

theorem scan_of_rest_nil (h : cur.rest = []) : r.scan cur = [] := by
  rw [scan, h, findFrom]

/-- Where something is found, the scan goes on behind it. -/
theorem scan_of_some {a : α} {n : Nat} (hne : cur.rest ≠ []) (hn : 0 < n)
    (h : r cur = some (a, n)) : r.scan cur = a :: r.scan (cur.advance n) := by
  obtain ⟨offset, before, rest⟩ := cur
  obtain ⟨c, cs, rfl⟩ := List.exists_cons_of_ne_nil hne
  obtain ⟨m, rfl⟩ := Nat.exists_eq_succ_of_ne_zero (Nat.ne_of_gt hn)
  have hfirst : r.scan ⟨offset, before, c :: cs⟩ =
      a :: r.findFrom (offset + c.utf8Size) (c :: before) m cs := by
    rw [scan, findFrom, h]
    rfl
  rw [hfirst, findFrom_eq_scan]
  simp [Cursor.advance, Nat.add_assoc]

/-- Where nothing is found, the scan goes on one character later. -/
theorem scan_of_none (hne : cur.rest ≠ []) (h : r cur = none) :
    r.scan cur = r.scan (cur.advance 1) := by
  obtain ⟨offset, before, rest⟩ := cur
  obtain ⟨c, cs, rfl⟩ := List.exists_cons_of_ne_nil hne
  have hfirst : r.scan ⟨offset, before, c :: cs⟩ =
      r.findFrom (offset + c.utf8Size) (c :: before) 0 cs := by
    rw [scan, findFrom, h]
  rw [hfirst]
  simp [scan, Cursor.advance]

/-- Finds that lie where they are made follow each other in the text. -/
theorem findAll_ordered {r : Recogniser Slice}
    (hr : ∀ {cur found n}, r cur = some (found, n) →
      0 < n ∧ cur.offset ≤ found.offset ∧ found.stop ≤ (cur.advance n).offset) (s : Slice) :
    (r.findAll s).Pairwise fun a b => a.stop ≤ b.offset := by
  -- stated for every place, together with a bound from below for what is found from there on
  have hscan : ∀ cur, (r.scan cur).Pairwise (fun a b => a.stop ≤ b.offset) ∧
      ∀ found ∈ r.scan cur, cur.offset ≤ found.offset := by
    intro cur
    induction cur using Cursor.advance_induction with
    | atEnd cur hend =>
      rw [scan_of_rest_nil hend]
      exact ⟨.nil, fun found hfound => absurd hfound List.not_mem_nil⟩
    | step cur hne ih =>
      have hahead : ∀ n, cur.offset ≤ (cur.advance n).offset := fun n => Nat.le_add_right _ _
      cases hfind : r cur with
      | none =>
        rw [scan_of_none hne hfind]
        obtain ⟨hordered, hfrom⟩ := ih 1 (by decide)
        exact ⟨hordered, fun found hfound => Nat.le_trans (hahead 1) (hfrom found hfound)⟩
      | some find =>
        obtain ⟨first, n⟩ := find
        obtain ⟨hpos, hstart, hstop⟩ := hr hfind
        obtain ⟨hordered, hfrom⟩ := ih n hpos
        rw [scan_of_some hne hpos hfind]
        -- later finds are made behind the first one
        refine ⟨List.pairwise_cons.mpr ⟨fun later hlater => ?_, hordered⟩, fun found hfound => ?_⟩
        · exact Nat.le_trans hstop (hfrom later hlater)
        · rcases List.mem_cons.mp hfound with rfl | hfound
          · exact hstart
          · exact Nat.le_trans (hahead n) (hfrom found hfound)
  exact (hscan (.start s)).1

end Recogniser

/-! ### Texts that are shifted -/

/-- The place seen from a text that starts `base` bytes earlier. -/
def Cursor.shift (base : Nat) (cur : Cursor) : Cursor := { cur with offset := base + cur.offset }

theorem Cursor.advance_shift (base n : Nat) (cur : Cursor) :
    (cur.shift base).advance n = (cur.advance n).shift base := by
  rw [shift, shift, advance, advance]
  simp only [Nat.add_assoc]

theorem Cursor.seek_shift (base : Nat) (cur : Cursor) (rest : List Char) :
    (cur.shift base).seek rest = (cur.seek rest).shift base :=
  advance_shift base _ cur

/-- A recogniser that does not look at offsets makes the same finds in a text that is shifted. -/
theorem Recogniser.findAll_shift {α : Type} {r : Recogniser α} {f : α → α} {base : Nat}
    (hr : ∀ cur, r (cur.shift base) = (r cur).map (Prod.map f id)) (s : Slice) :
    r.findAll (s.shift base) = (r.findAll s).map f := by
  -- by induction on the text, for any number of characters that are still to be skipped
  have hfind : ∀ (cs : List Char) (offset : Nat) (before : List Char) (skip : Nat),
      r.findFrom (base + offset) before skip cs = (r.findFrom offset before skip cs).map f := by
    intro cs
    induction cs with
    | nil =>
      intro offset before skip
      rw [findFrom, findFrom, List.map_nil]
    | cons c cs ih =>
      intro offset before skip
      have hhere := hr ⟨offset, before, c :: cs⟩
      rw [Cursor.shift] at hhere
      cases skip with
      | succ skip => rw [findFrom, findFrom, Nat.add_assoc, ih]
      | zero =>
        rw [findFrom, findFrom, hhere, Nat.add_assoc]
        cases r ⟨offset, before, c :: cs⟩ with
        | none => exact ih _ _ _
        | some find => exact congrArg (f find.1 :: ·) (ih _ _ _)
  exact hfind s.text s.offset [] 0

end StyleAudit
