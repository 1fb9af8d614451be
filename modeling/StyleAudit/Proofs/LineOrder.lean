import StyleAudit.Proofs.BytePlaces
import StyleAudit.Proofs.LinePositions

/-!
# Offsets and positions are in the same order

A line index is searched by the starts of lines, but what it answers can be said of the bytes alone:
the line is the number of line feeds before an offset, and the column the number of bytes after the
last of them. That is `positionAfter` the bytes up to the offset.

* **`positionAfter_take_of_split`**: within a character of several bytes there is no line feed, so
  bytes and characters count the same lines.
* **`LineIndex.position?_eq`** is the answer for every offset and origin.
* **`LineIndex.position?_of_offset?`**: a column that would spill into the next line has no offset.
  Hence the two directions are inverse to each other (**`LineIndex.position?_eq_some_iff`**).
* **`positionAfter_before`**: more bytes end at a later position.
* **`line_index_order_bijection`** puts these together.
-/

namespace StyleAudit

open Text

/-- `p.Before q`: `p` is on an earlier line than `q`, or before it on the same line. -/
def Position.Before (p q : Position) : Prop := p.line < q.line ∨ p.line = q.line ∧ p.col < q.col

instance (p q : Position) : Decidable (p.Before q) := inferInstanceAs (Decidable (_ ∨ _))

theorem Position.Before.asymm {p q : Position} (h : p.Before q) : ¬ q.Before p := by
  unfold Before at h ⊢
  omega

/-- The position in numbers that start at `origin`. -/
def Position.countedFrom (origin : Nat) (p : Position) : Position :=
  ⟨p.line + origin, p.col + origin⟩

/-- Counting from another origin does not change the order of positions. -/
theorem Position.countedFrom_before_iff {origin : Nat} {p q : Position} :
    (p.countedFrom origin).Before (q.countedFrom origin) ↔ p.Before q := by
  show p.line + origin < q.line + origin ∨
    p.line + origin = q.line + origin ∧ p.col + origin < q.col + origin ↔
      p.line < q.line ∨ p.line = q.line ∧ p.col < q.col
  omega

namespace Bytes

/-! ### Lines of bytes -/

/-- The position just after some bytes. -/
def positionAfter (bytes : List Char) : Position := ⟨bytes.count '\n', (lastLine bytes).length⟩

theorem length_lastLine (bytes : List Char) :
    (earlierLines bytes).length + (lastLine bytes).length = bytes.length := by
  rw [← List.length_append, earlierLines_append_lastLine]

/-- More text puts the position further on. -/
theorem positionAfter_before (bytes : List Char) {more : List Char} (hmore : more ≠ []) :
    (positionAfter bytes).Before (positionAfter (bytes ++ more)) := by
  unfold Position.Before positionAfter
  simp only [List.count_append]
  by_cases hfeed : '\n' ∈ more
  · have hcount := List.count_pos_iff.mpr hfeed
    omega
  · -- without a line feed the last line only gets longer
    have hcount := List.count_eq_zero.mpr hfeed
    have hlength := length_lastLine bytes
    have hlength' := length_lastLine (bytes ++ more)
    have hpos := List.length_pos_iff.mpr hmore
    rw [earlierLines_append, if_neg hfeed, List.length_append] at hlength'
    omega

/-- Positions inside one text follow the order of the offsets. -/
theorem positionAfter_take_before {bytes : List Char} {o o' : Nat} (h : o < o')
    (hle : o' ≤ bytes.length) :
    (positionAfter (bytes.take o)).Before (positionAfter (bytes.take o')) := by
  have hsplit : bytes.take o' = bytes.take o ++ (bytes.drop o).take (o' - o) := by
    rw [← List.take_add, show o + (o' - o) = o' by omega]
  rw [hsplit]
  apply positionAfter_before
  apply List.ne_nil_of_length_pos
  rw [List.length_take, List.length_drop]
  omega

/-- No character but the line feed has the byte of a line feed. -/
theorem feed_mem_encode_iff {c : Char} : '\n' ∈ encode [c] ↔ c = '\n' := by
  by_cases hc : c.utf8Size = 1
  · rw [encode_cons_of_utf8Size hc]
    show '\n' ∈ [c] ↔ _
    rw [List.mem_singleton, eq_comm]
  · refine iff_of_false (fun hmem => utf8Size_ne_of_mem_encode hc hmem (by decide)) ?_
    rintro rfl
    exact hc (by decide)

/-- Lines may be counted in bytes or in characters. -/
theorem count_encode (cs : List Char) : (encode cs).count '\n' = cs.count '\n' := by
  induction cs with
  | nil => rfl
  | cons c cs ih =>
    rw [← List.singleton_append, encode_append, List.count_append, List.count_append, ih]
    congr 1
    by_cases hc : c = '\n'
    · subst hc
      rw [encode_cons_of_utf8Size (by decide)]
      rfl
    · rw [List.count_eq_zero.mpr (mt feed_mem_encode_iff.mp hc), List.count_singleton]
      simp [hc]

/-- The last line begins at the same place in bytes and in characters. -/
theorem earlierLines_encode (cs : List Char) :
    earlierLines (encode cs) = encode (earlierLines cs) := by
  induction cs using List.reverseRecOn with
  | nil => rfl
  | append_singleton cs c ih =>
    rw [encode_append, earlierLines_snoc]
    by_cases hc : c = '\n'
    · subst hc
      rw [if_pos rfl, encode_append, encode_cons_of_utf8Size (by decide)]
      show earlierLines (encode cs ++ ['\n']) = _
      rw [earlierLines_snoc, if_pos rfl]
      rfl
    · rw [if_neg hc, earlierLines_append, if_neg (mt feed_mem_encode_iff.mp hc), ih]

/-- The bytes up to an offset are those of some characters, and some of the next one. -/
theorem take_encode_of_split {before after : List Char} {c : Char} {offset : Nat}
    (hle : byteLen before ≤ offset) (hlt : offset < byteLen before + c.utf8Size) :
    ∃ part, (encode (before ++ c :: after)).take offset = encode before ++ part ∧
      part.length = offset - byteLen before ∧ '\n' ∉ part := by
  have hlength : (encode [c]).length = c.utf8Size := by
    rw [length_encode, byteLen_cons, byteLen_nil, Nat.add_zero]
  refine ⟨(encode [c]).take (offset - byteLen before), ?_, ?_, ?_⟩
  · rw [encode_append, ← List.singleton_append, encode_append, List.take_append, length_encode,
      List.take_of_length_le (by rw [length_encode]; exact hle),
      List.take_append_of_le_length (by omega)]
  · rw [List.length_take, hlength]
    omega
  · -- a line feed is one byte, so that nothing of it stands before the offset
    intro hmem
    obtain rfl := feed_mem_encode_iff.mp (List.mem_of_mem_take hmem)
    have hzero : offset - byteLen before = 0 := by
      have hsize : '\n'.utf8Size = 1 := by decide
      omega
    rw [hzero] at hmem
    exact absurd hmem List.not_mem_nil

/-- Inside a character the line is that of the character and the column counts its bytes. -/
theorem positionAfter_take_of_split {before after : List Char} {c : Char} {offset : Nat}
    (hle : byteLen before ≤ offset) (hlt : offset < byteLen before + c.utf8Size) :
    positionAfter ((encode (before ++ c :: after)).take offset) =
      ⟨before.count '\n', offset - byteLen (earlierLines before)⟩ := by
  obtain ⟨part, htake, hlength, hfeed⟩ := @take_encode_of_split before after c offset hle hlt
  have hline := length_lastLine (encode before ++ part)
  rw [earlierLines_append, if_neg hfeed, earlierLines_encode, List.length_append, length_encode,
    length_encode] at hline
  rw [htake, positionAfter, List.count_append, count_encode, List.count_eq_zero.mpr hfeed]
  congr 1
  omega

end Bytes

open Bytes

namespace LineIndex

/-! ### From offsets to positions -/

/-- Line and column are counted from the origin. -/
theorem position?_countedFrom (text : List Char) (origin offset : Nat) :
    ({ ofText text with origin } : LineIndex).position? offset =
      ((ofText text).position? offset).map (Position.countedFrom origin) := by
  unfold position?
  by_cases h : offset < byteLen text
  · simp [ofText, h, Position.countedFrom]
  · simp [ofText, h]

/-- The bytes before an offset say where it is. -/
theorem position?_eq (text : List Char) (origin offset : Nat) :
    ({ ofText text with origin } : LineIndex).position? offset =
      if offset < byteLen text then
        some ((positionAfter ((encode text).take offset)).countedFrom origin)
      else none := by
  rw [position?_countedFrom]
  split
  · next h =>
    obtain ⟨before, c, after, rfl, hle, hlt⟩ := exists_split_of_lt_byteLen h
    rw [position?_of_split hle hlt, positionAfter_take_of_split hle hlt, Option.map_some]
  · next h =>
    have hnone : (ofText text).position? offset = none := if_neg h
    rw [hnone, Option.map_none]

/-! ### From positions to offsets -/

theorem pairwise_lineStartsFrom (offset : Nat) (cs : List Char) :
    (lineStartsFrom offset cs).Pairwise (· < ·) := by
  induction cs generalizing offset with
  | nil => exact List.Pairwise.nil
  | cons c cs ih =>
    unfold lineStartsFrom
    split
    · exact List.pairwise_cons.mpr ⟨fun next hnext => (bounds_of_mem_lineStartsFrom hnext).1, ih _⟩
    · exact ih _

theorem pairwise_starts (text : List Char) : (ofText text).starts.Pairwise (· < ·) :=
  List.pairwise_cons.mpr
    ⟨fun _ hnext => (bounds_of_mem_lineStartsFrom hnext).1, pairwise_lineStartsFrom 0 text⟩

theorem le_size_of_mem_starts {text : List Char} {start : Nat} (h : start ∈ (ofText text).starts) :
    start ≤ byteLen text := by
  rcases List.mem_cons.mp h with rfl | h
  · exact Nat.zero_le _
  · have hbounds := bounds_of_mem_lineStartsFrom h
    omega

/-- A number counted from the origin is at least the origin. -/
theorem fromOrigin_eq_some_iff {index : LineIndex} {n m : Nat} :
    index.fromOrigin n = some m ↔ n = m + index.origin := by
  unfold fromOrigin
  split
  · rw [Option.some.injEq]
    omega
  · refine iff_of_false (by simp) ?_
    omega

/-- A position that has an offset lies between the start of its line and that of the next one. -/
theorem offset?_eq_some_iff {index : LineIndex} {line col offset : Nat} :
    index.offset? line col = some offset ↔ ∃ number start, line = number + index.origin ∧
      index.starts[number]? = some start ∧ start ≤ offset ∧ col = offset - start + index.origin ∧
      offset < index.starts[number + 1]?.getD index.size := by
  simp only [offset?, Option.bind_eq_bind, Option.bind_eq_some_iff, fromOrigin_eq_some_iff,
    Option.ite_none_right_eq_some, Option.some.injEq]
  constructor
  · rintro ⟨number, hline, bytes, hcol, start, hstart, hnext, rfl⟩
    refine ⟨number, start, hline, hstart, Nat.le_add_right start bytes, ?_, hnext⟩
    omega
  · rintro ⟨number, start, hline, hstart, hle, hcol, hnext⟩
    have hback : start + (offset - start) = offset := by omega
    exact ⟨number, hline, offset - start, hcol, start, hstart, hback.symm ▸ hnext, hback⟩

/-- The search stops at the line whose start is the last one not beyond the offset. -/
theorem lineOf_eq {offset first start : Nat} {starts : List Nat} {number : Nat} (passed : Nat)
    (hsorted : (first :: starts).Pairwise (· < ·))
    (hstart : (first :: starts)[number]? = some start)
    (hle : start ≤ offset)
    (hnext : ∀ next, (first :: starts)[number + 1]? = some next → offset < next) :
    lineOf offset passed first starts = (passed + number, start) := by
  induction starts generalizing first number passed with
  | nil =>
    cases number with
    | zero =>
      obtain rfl : first = start := by simpa using hstart
      rfl
    | succ number => simp at hstart
  | cons next starts ih =>
    cases number with
    | zero =>
      obtain rfl : first = start := by simpa using hstart
      rw [lineOf, if_neg (Nat.not_le.mpr (hnext next rfl)), Nat.add_zero]
    | succ number =>
      have hlater := (List.pairwise_cons.mp hsorted).2
      rw [List.getElem?_cons_succ] at hstart
      -- the next start is the one looked for, or before it
      have hpassed : next ≤ offset := by
        rcases List.mem_cons.mp (List.mem_of_getElem? hstart) with rfl | hmem
        · exact hle
        · exact ((List.pairwise_cons.mp hlater).1 start hmem).le.trans hle
      rw [lineOf, if_pos hpassed, ih (passed + 1) hlater hstart fun next' h => hnext next' h]
      congr 1
      omega

/-- An offset found for a position has that position. -/
theorem position?_of_offset? {text : List Char} {origin line col offset : Nat}
    (h : ({ ofText text with origin } : LineIndex).offset? line col = some offset) :
    ({ ofText text with origin } : LineIndex).position? offset = some ⟨line, col⟩ := by
  obtain ⟨number, start, rfl, hstart, hle, rfl, hnext⟩ := offset?_eq_some_iff.mp h
  have hsize : offset < byteLen text := by
    cases hlast : (ofText text).starts[number + 1]? with
    | none =>
      rw [hlast, Option.getD_none] at hnext
      exact hnext
    | some next =>
      rw [hlast, Option.getD_some] at hnext
      exact hnext.trans_le (le_size_of_mem_starts (List.mem_of_getElem? hlast))
  -- the search comes to the line that the position names
  have hline : lineOf offset 0 0 (lineStartsFrom 0 text) = (0 + number, start) := by
    refine lineOf_eq 0 (pairwise_starts text) hstart hle fun next hlast => ?_
    have hfound : (ofText text).starts[number + 1]? = some next := hlast
    rw [hfound, Option.getD_some] at hnext
    exact hnext
  show (if offset < byteLen text then _ else none) = _
  rw [if_pos hsize, hline, Nat.zero_add]

/-- The two directions of an index are inverse to each other. -/
theorem position?_eq_some_iff {text : List Char} {origin line col offset : Nat} :
    ({ ofText text with origin } : LineIndex).position? offset = some ⟨line, col⟩ ↔
      ({ ofText text with origin } : LineIndex).offset? line col = some offset := by
  refine ⟨fun h => ?_, position?_of_offset?⟩
  have hsize : offset < byteLen text := by
    by_contra hout
    rw [position?_eq, if_neg hout] at h
    cases h
  obtain ⟨before, c, after, rfl, hle, hlt⟩ := exists_split_of_lt_byteLen hsize
  rw [position?_countedFrom, position?_of_split hle hlt, Option.map_some, Option.some.injEq,
    Position.countedFrom, Position.mk.injEq] at h
  obtain ⟨rfl, rfl⟩ := h
  exact offset?_of_split hle hlt origin

/-! ### Order -/

section Order

variable {text : List Char} {origin offset offset' : Nat} {p q : Position}

/-- The position of an offset is read off the bytes before it. -/
theorem of_position?_eq_some
    (h : ({ ofText text with origin } : LineIndex).position? offset = some p) :
    offset < byteLen text ∧
      p = (positionAfter ((encode text).take offset)).countedFrom origin := by
  rw [position?_eq, Option.ite_none_right_eq_some, Option.some.injEq] at h
  exact ⟨h.1, h.2.symm⟩

/-- A later offset has a later position. -/
theorem before_of_lt (h : ({ ofText text with origin } : LineIndex).position? offset = some p)
    (h' : ({ ofText text with origin } : LineIndex).position? offset' = some q)
    (hlt : offset < offset') : p.Before q := by
  obtain ⟨_, rfl⟩ := of_position?_eq_some h
  obtain ⟨hsize, rfl⟩ := of_position?_eq_some h'
  rw [Position.countedFrom_before_iff]
  refine positionAfter_take_before hlt ?_
  rw [length_encode]
  omega

/-- Offsets and positions are ordered alike. -/
theorem lt_iff_before (h : ({ ofText text with origin } : LineIndex).position? offset = some p)
    (h' : ({ ofText text with origin } : LineIndex).position? offset' = some q) :
    offset < offset' ↔ p.Before q := by
  refine ⟨before_of_lt h h', fun hbefore => ?_⟩
  rcases Nat.lt_trichotomy offset offset' with hlt | rfl | hlt
  · exact hlt
  · -- one offset has one position
    obtain rfl := Option.some.inj (h.symm.trans h')
    exact absurd hbefore hbefore.asymm
  · exact absurd hbefore (before_of_lt h' h hlt).asymm

end Order

end LineIndex

/-- The index of a text gives each byte a position and nothing else: the line feeds before it and
the bytes since the last of them, both counted from the origin, in numbers of 32 bits. The positions
it gives are those that it finds an offset for, and they are in the order of the offsets. -/
theorem line_index_order_bijection {text : List Char} {origin : Nat} (horigin : origin ≤ 1)
    (hsize : byteLen text < 2 ^ 32 - 1) :
    ∃ index, LineIndex.withOrigin text origin = .ok index ∧
      (∀ offset, (index.position? offset).isSome = true ↔ offset < byteLen text) ∧
      (∀ offset p, index.position? offset = some p →
        p.line = ((encode text).take offset).count '\n' + origin ∧
        p.col = (lastLine ((encode text).take offset)).length + origin ∧
        p.line < 2 ^ 32 ∧ p.col < 2 ^ 32) ∧
      (∀ start ∈ index.starts, start < 2 ^ 32) ∧
      (∀ offset line col, index.position? offset = some ⟨line, col⟩ ↔
        index.offset? line col = some offset) ∧
      (∀ offset offset' p q, index.position? offset = some p → index.position? offset' = some q →
        (offset < offset' ↔ p.Before q)) := by
  refine ⟨{ LineIndex.ofText text with origin }, if_pos horigin, ?_, ?_, ?_, ?_, ?_⟩
  · intro offset
    rw [LineIndex.position?_eq]
    split <;> simp_all
  · intro offset p hp
    obtain ⟨hlt, rfl⟩ := LineIndex.of_position?_eq_some hp
    -- neither number is larger than the offset, and the origin is at most 1
    have hlength : ((encode text).take offset).length ≤ offset := List.length_take_le _ _
    have hcount := @List.count_le_length _ _ '\n' ((encode text).take offset)
    have hline := length_lastLine ((encode text).take offset)
    refine ⟨rfl, rfl, ?_, ?_⟩
    · show ((encode text).take offset).count '\n' + origin < 2 ^ 32
      omega
    · show (lastLine ((encode text).take offset)).length + origin < 2 ^ 32
      omega
  · -- a line may start at the very end of the text, not behind it
    intro start hstart
    have hle := LineIndex.le_size_of_mem_starts hstart
    omega
  · exact fun offset line col => LineIndex.position?_eq_some_iff
  · exact fun offset offset' p q hp hq => LineIndex.lt_iff_before hp hq

theorem line_index_order_bijection_wide_char :
    (1 : Nat) ≤ 1 ∧ byteLen "a\n\né\n".toList < 2 ^ 32 - 1 ∧
    ∃ index, LineIndex.withOrigin "a\n\né\n".toList 1 = .ok index ∧
      index.offset? 2 1 = some 2 ∧ index.position? 2 = some ⟨2, 1⟩ ∧
      index.offset? 3 2 = some 4 ∧ index.position? 4 = some ⟨3, 2⟩ ∧
      (2 < 4 ↔ (⟨2, 1⟩ : Position).Before ⟨3, 2⟩) ∧ ¬ (index.position? 6).isSome = true := by
  have hsize : byteLen "a\n\né\n".toList < 2 ^ 32 - 1 := by decide
  obtain ⟨index, hindex, hdefined, _, _, hinverse, horder⟩ :=
    line_index_order_bijection (Nat.le_refl 1) hsize
  have hempty : index.offset? 2 1 = some 2 := by
    cases hindex
    decide
  have hwithin : index.offset? 3 2 = some 4 := by
    cases hindex
    decide
  have hposition := (hinverse 2 2 1).mpr hempty
  have hposition' := (hinverse 4 3 2).mpr hwithin
  refine ⟨Nat.le_refl 1, hsize, index, hindex, hempty, hposition, hwithin, hposition', ?_, ?_⟩
  · exact horder 2 4 _ _ hposition hposition'
  · rw [hdefined]
    decide

end StyleAudit
