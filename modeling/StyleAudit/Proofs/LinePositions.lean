import Mathlib.Data.List.Induction
import Mathlib.Data.List.TakeWhile
import StyleAudit.Proofs.Slices
import StyleAudit.Text.Utf16

/-!
# Lines and columns of a place

A place between two characters cuts a text in two. The part before it says everything about its
position: the number of its line feeds is the line, and what comes after the last of them
(`lastLine`) is the column, in bytes or in units of UTF-16.

* **`LineIndex.lineOf_append`** is the search for a line: the starts that are not beyond an offset
  are passed, and the last of them is the one that counts.
* **`LineIndex.position?_of_split`** and **`LineIndex.offset?_of_split`** are the two directions for
  bytes. The offset may also lie within a character.
* **`LineIndex.position?_embedded`**: a text that is a piece of another one has the same positions,
  seen from where it starts (**`Position.shift`**).
* **`LineIndex.utf16Position_of_split`** is the position for an editor, whose column is counted
  along the line and never falls back to bytes (`between?_of_split`).
* **`Position.decode?`** reads such a position as an editor does, and **`decode?_of_split`** says
  that it comes back to the place.
-/

namespace StyleAudit

namespace Text

/-! ### The last line -/

/-- The text up to its last line feed. -/
def earlierLines (cs : List Char) : List Char := (cs.reverse.dropWhile fun c => c != '\n').reverse

/-- The text after its last line feed. -/
def lastLine (cs : List Char) : List Char := (cs.reverse.takeWhile fun c => c != '\n').reverse

theorem earlierLines_append_lastLine (cs : List Char) : earlierLines cs ++ lastLine cs = cs := by
  unfold earlierLines lastLine
  rw [← List.reverse_append, List.takeWhile_append_dropWhile, List.reverse_reverse]

/-- A line feed ends the line; any other character leaves the earlier lines. -/
theorem earlierLines_snoc (cs : List Char) (c : Char) :
    earlierLines (cs ++ [c]) = if c = '\n' then cs ++ [c] else earlierLines cs := by
  unfold earlierLines
  rw [List.reverse_append, List.reverse_singleton, List.singleton_append, List.dropWhile_cons]
  by_cases hc : c = '\n'
  · simp [hc]
  · simp [hc]

theorem not_mem_lastLine (cs : List Char) : '\n' ∉ lastLine cs := by
  intro h
  have hpart := List.mem_takeWhile_imp (List.mem_reverse.mp h)
  exact absurd hpart (by decide)

/-- All line feeds are in the earlier lines. -/
theorem count_earlierLines (cs : List Char) : (earlierLines cs).count '\n' = cs.count '\n' := by
  conv_rhs => rw [← earlierLines_append_lastLine cs, List.count_append]
  rw [List.count_eq_zero.mpr (not_mem_lastLine cs), Nat.add_zero]

/-- Earlier lines end with a line feed. -/
theorem getLast?_earlierLines {cs : List Char} {c : Char}
    (h : (earlierLines cs).getLast? = some c) : c = '\n' := by
  unfold earlierLines at h
  rw [List.getLast?_reverse] at h
  have hstop := List.head?_dropWhile_not (fun c => c != '\n') cs.reverse
  rw [h] at hstop
  simpa using hstop

theorem byteLen_earlierLines_le (cs : List Char) :
    byteLen (earlierLines cs) + byteLen (lastLine cs) = byteLen cs := by
  rw [← byteLen_append, earlierLines_append_lastLine]

/-- The lines of a longer text are counted from its last line feed. -/
theorem earlierLines_append (xs ys : List Char) :
    earlierLines (xs ++ ys) = if '\n' ∈ ys then xs ++ earlierLines ys else earlierLines xs := by
  induction ys using List.reverseRecOn with
  | nil => simp
  | append_singleton ys c ih =>
    rw [← List.append_assoc, earlierLines_snoc, earlierLines_snoc, ih]
    by_cases hc : c = '\n'
    · simp [hc]
    · simp [hc, Ne.symm hc]

theorem earlierLines_of_not_mem {cs : List Char} (h : '\n' ∉ cs) : earlierLines cs = [] := by
  have happend := earlierLines_append [] cs
  rw [List.nil_append, if_neg h] at happend
  exact happend

theorem length_le_byteLen (cs : List Char) : cs.length ≤ byteLen cs := by
  induction cs with
  | nil => exact Nat.le_refl 0
  | cons c cs ih =>
    have hpos := c.utf8Size_pos
    rw [List.length_cons, byteLen_cons]
    omega

/-- The character that a byte belongs to. -/
theorem exists_split_of_lt_byteLen {cs : List Char} {offset : Nat} (h : offset < byteLen cs) :
    ∃ before c after, cs = before ++ c :: after ∧ byteLen before ≤ offset ∧
      offset < byteLen before + c.utf8Size := by
  induction cs generalizing offset with
  | nil => exact absurd h (Nat.not_lt_zero _)
  | cons d cs ih =>
    by_cases hd : offset < d.utf8Size
    · exact ⟨[], d, cs, rfl, Nat.zero_le _, by simpa using hd⟩
    · rw [byteLen_cons] at h
      have hrest : offset - d.utf8Size < byteLen cs := by omega
      obtain ⟨before, c, after, rfl, hle, hlt⟩ := ih hrest
      refine ⟨d :: before, c, after, rfl, ?_, ?_⟩
      · rw [byteLen_cons]
        omega
      · rw [byteLen_cons]
        omega

/-- The position just after a text. -/
def endPosition (cs : List Char) : Position := ⟨cs.count '\n', byteLen (lastLine cs)⟩

end Text

open Text

/-- The place seen from a larger text, in which the text starts at `start`. Only on the first line
do columns count from another place. -/
def Position.shift (start p : Position) : Position :=
  ⟨start.line + p.line, if p.line = 0 then start.col + p.col else p.col⟩

/-- Nothing before a text moves nothing in it. -/
theorem Position.shift_start : Position.shift (endPosition []) = id := by
  funext p
  simp [shift, endPosition, lastLine]

namespace LineIndex

/-! ### Starts of lines -/

/-- The line starts of a text come before those of the text behind it. -/
theorem lineStartsFrom_append (offset : Nat) (xs ys : List Char) :
    lineStartsFrom offset (xs ++ ys) =
      lineStartsFrom offset xs ++ lineStartsFrom (offset + byteLen xs) ys := by
  induction xs generalizing offset with
  | nil => rfl
  | cons c xs ih =>
    rw [List.cons_append]
    simp only [lineStartsFrom, ih, byteLen_cons, Nat.add_assoc]
    split
    · rw [List.cons_append]
    · rfl

/-- Each line feed starts a line. -/
theorem length_lineStartsFrom (offset : Nat) (cs : List Char) :
    (lineStartsFrom offset cs).length = cs.count '\n' := by
  induction cs generalizing offset with
  | nil => rfl
  | cons c cs ih =>
    unfold lineStartsFrom
    by_cases hc : c = '\n'
    · simp [hc, ih]
    · simp [hc, ih]

/-- A line starts behind the offset and not behind the text. -/
theorem bounds_of_mem_lineStartsFrom {offset next : Nat} {cs : List Char}
    (h : next ∈ lineStartsFrom offset cs) : offset < next ∧ next ≤ offset + byteLen cs := by
  induction cs generalizing offset with
  | nil => exact absurd h (by simp [lineStartsFrom])
  | cons c cs ih =>
    have hpos := c.utf8Size_pos
    rw [byteLen_cons]
    unfold lineStartsFrom at h
    split at h
    · rcases List.mem_cons.mp h with rfl | h
      · omega
      · have hlater := ih h
        omega
    · have hlater := ih h
      omega

/-- Lines start after whole characters. -/
theorem le_of_mem_lineStartsFrom_cons {offset next : Nat} {c : Char} {cs : List Char}
    (h : next ∈ lineStartsFrom offset (c :: cs)) : offset + c.utf8Size ≤ next := by
  rw [← List.singleton_append, lineStartsFrom_append] at h
  rcases List.mem_append.mp h with h | h
  · unfold lineStartsFrom at h
    split at h
    · exact (List.mem_singleton.mp h).ge
    · exact absurd h (by simp [lineStartsFrom])
  · have hlater := (bounds_of_mem_lineStartsFrom h).1
    rw [byteLen_cons, byteLen_nil] at hlater
    omega

/-- The last line starts where the earlier ones end. -/
theorem getLast?_lineStarts (cs : List Char) :
    (0 :: lineStartsFrom 0 cs).getLast? = some (byteLen (earlierLines cs)) := by
  induction cs using List.reverseRecOn with
  | nil => rfl
  | append_singleton cs c ih =>
    rw [lineStartsFrom_append, ← List.cons_append, List.getLast?_append, ih, earlierLines_snoc]
    by_cases hc : c = '\n'
    · subst hc
      rw [if_pos rfl, byteLen_append]
      simp [lineStartsFrom]
    · simp [lineStartsFrom, hc]

/-- The starts of a text that is cut in two. -/
theorem starts_ofText (before rest : List Char) :
    (ofText (before ++ rest)).starts =
      (0 :: lineStartsFrom 0 before) ++ lineStartsFrom (byteLen before) rest := by
  show 0 :: lineStartsFrom 0 (before ++ rest) = _
  rw [lineStartsFrom_append, Nat.zero_add, List.cons_append]

/-- The line of a place starts where its earlier lines end. -/
theorem starts_count (before rest : List Char) :
    (ofText (before ++ rest)).starts[before.count '\n']? =
      some (byteLen (earlierLines before)) := by
  have hlength : (0 :: lineStartsFrom 0 before).length = before.count '\n' + 1 := by
    rw [List.length_cons, length_lineStartsFrom]
  rw [starts_ofText, List.getElem?_append_left (by omega), ← getLast?_lineStarts,
    List.getLast?_eq_getElem?, hlength, Nat.add_sub_cancel]

/-- The next line starts behind the first line feed of the rest. -/
theorem starts_count_succ (before rest : List Char) :
    (ofText (before ++ rest)).starts[before.count '\n' + 1]? =
      (lineStartsFrom (byteLen before) rest).head? := by
  have hlength : (0 :: lineStartsFrom 0 before).length = before.count '\n' + 1 := by
    rw [List.length_cons, length_lineStartsFrom]
  rw [starts_ofText, List.getElem?_append_right (by omega), hlength, Nat.sub_self,
    List.head?_eq_getElem?]

/-- The search for the line of an offset passes the starts up to it. -/
theorem lineOf_append {offset : Nat} (number start : Nat) {passed later : List Nat}
    (hpassed : ∀ next ∈ passed, next ≤ offset) (hlater : ∀ next ∈ later, offset < next) :
    lineOf offset number start (passed ++ later) =
      (number + passed.length, passed.getLast?.getD start) := by
  -- the starts are passed one by one; the last one passed is the start of the line
  induction passed generalizing number start with
  | nil =>
    cases later with
    | nil => rfl
    | cons next later =>
      have hnext : ¬next ≤ offset := Nat.not_le.mpr (hlater next (by simp))
      simp [lineOf, hnext]
  | cons next passed ih =>
    have hnext : next ≤ offset := hpassed next (by simp)
    rw [List.cons_append, lineOf, if_pos hnext, ih _ _ fun n hn => hpassed n (by simp [hn])]
    rw [List.getLast?_cons, Option.getD_some, List.length_cons]
    congr 1
    omega

/-! ### Positions in bytes

An offset lies within the first character of `c :: after`, and the characters before it are
`before`. -/

section Split

variable {before after : List Char} {c : Char} {offset : Nat}

/-- The position of an offset inside a character, by the text before that character. -/
theorem position?_of_split (hle : byteLen before ≤ offset)
    (hlt : offset < byteLen before + c.utf8Size) :
    (ofText (before ++ c :: after)).position? offset =
      some ⟨before.count '\n', offset - byteLen (earlierLines before)⟩ := by
  have hsize : offset < (ofText (before ++ c :: after)).size := by
    show offset < byteLen (before ++ c :: after)
    rw [byteLen_append, byteLen_cons]
    omega
  have hpassed : ∀ next ∈ lineStartsFrom 0 before, next ≤ offset := by
    intro next hnext
    have hbounds := bounds_of_mem_lineStartsFrom hnext
    omega
  have hlater : ∀ next ∈ lineStartsFrom (byteLen before) (c :: after), offset < next := by
    intro next hnext
    have hbound := le_of_mem_lineStartsFrom_cons hnext
    omega
  -- the last start that is passed is the end of the earlier lines
  have hlast : (lineStartsFrom 0 before).getLast?.getD 0 = byteLen (earlierLines before) := by
    have hstart := getLast?_lineStarts before
    rw [List.getLast?_cons] at hstart
    exact Option.some.inj hstart
  unfold position?
  rw [starts_ofText, List.cons_append]
  simp only [if_pos hsize, lineOf_append 0 0 hpassed hlater, hlast, length_lineStartsFrom]
  simp [ofText]

/-- The offset of that position, counted from any origin. -/
theorem offset?_of_split (hle : byteLen before ≤ offset)
    (hlt : offset < byteLen before + c.utf8Size) (origin : Nat) :
    ({ ofText (before ++ c :: after) with origin } : LineIndex).offset?
      (before.count '\n' + origin) (offset - byteLen (earlierLines before) + origin) =
        some offset := by
  have hstart := byteLen_earlierLines_le before
  have hnext : offset < ((lineStartsFrom (byteLen before) (c :: after)).head?).getD
      (byteLen (before ++ c :: after)) := by
    -- the next line, or the end of the text on the last one
    cases hhead : (lineStartsFrom (byteLen before) (c :: after)).head? with
    | none =>
      rw [Option.getD_none, byteLen_append, byteLen_cons]
      omega
    | some next =>
      have hbound := le_of_mem_lineStartsFrom_cons (List.mem_of_mem_head? hhead)
      rw [Option.getD_some]
      omega
  have hback : byteLen (earlierLines before) + (offset - byteLen (earlierLines before)) =
      offset := by
    omega
  unfold offset? fromOrigin
  simp only [Nat.le_add_left, if_true, Nat.add_sub_cancel, Option.bind_eq_bind, Option.bind_some]
  rw [starts_count, starts_count_succ, Option.bind_some, hback]
  exact if_pos hnext

end Split

/-- A byte of a text has a position, and neither its line nor its column is larger than its
offset. -/
theorem exists_position?_of_lt {cs : List Char} {offset : Nat} (h : offset < byteLen cs) :
    ∃ p, (ofText cs).position? offset = some p ∧ p.line + p.col ≤ offset := by
  obtain ⟨before, c, after, rfl, hle, hlt⟩ := exists_split_of_lt_byteLen h
  refine ⟨_, position?_of_split hle hlt, ?_⟩
  have hstart := byteLen_earlierLines_le before
  have hlines : before.count '\n' ≤ byteLen (earlierLines before) := by
    rw [← count_earlierLines]
    exact List.count_le_length.trans (length_le_byteLen _)
  show before.count '\n' + (offset - byteLen (earlierLines before)) ≤ offset
  omega

/-- The positions of a piece of a text. -/
theorem position?_embedded (pre post : List Char) {cs : List Char} {offset : Nat}
    (h : offset < byteLen cs) :
    (ofText (pre ++ cs ++ post)).position? (byteLen pre + offset) =
      ((ofText cs).position? offset).map (Position.shift (endPosition pre)) := by
  obtain ⟨before, c, after, rfl, hle, hlt⟩ := exists_split_of_lt_byteLen h
  have hlines := byteLen_earlierLines_le pre
  have hinner : (ofText (before ++ c :: after)).position? offset =
      some ⟨before.count '\n', offset - byteLen (earlierLines before)⟩ := position?_of_split hle hlt
  have houter : (ofText (pre ++ before ++ c :: (after ++ post))).position? (byteLen pre + offset) =
      some ⟨(pre ++ before).count '\n',
        byteLen pre + offset - byteLen (earlierLines (pre ++ before))⟩ := by
    apply position?_of_split
    · rw [byteLen_append]
      omega
    · rw [byteLen_append]
      omega
  have htext : pre ++ (before ++ c :: after) ++ post = pre ++ before ++ c :: (after ++ post) := by
    simp only [List.append_assoc, List.cons_append]
  rw [htext, hinner, houter, Option.map_some, List.count_append, earlierLines_append]
  unfold Position.shift endPosition
  by_cases hline : '\n' ∈ before
  · -- the column counts from a line feed of the piece
    have hcount : before.count '\n' ≠ 0 := fun hzero => List.count_eq_zero.mp hzero hline
    rw [if_pos hline, byteLen_append]
    simp only [if_neg hcount]
    congr 2
    omega
  · have hcount : before.count '\n' = 0 := List.count_eq_zero.mpr hline
    rw [if_neg hline, earlierLines_of_not_mem hline]
    simp only [if_pos hcount, byteLen_nil]
    congr 2
    omega

/-- Text behind a place does not change its position. -/
theorem position?_append {cs : List Char} (post : List Char) {offset : Nat}
    (h : offset < byteLen cs) :
    (ofText (cs ++ post)).position? offset = (ofText cs).position? offset := by
  have hembedded := position?_embedded [] post h
  rw [List.nil_append, byteLen_nil, Nat.zero_add] at hembedded
  rw [hembedded, Position.shift_start]
  exact congrFun Option.map_id _

end LineIndex

/-! ### Columns in units of UTF-16 -/

namespace Text

/-- Splitting by the bytes of the front gives the front and the rest. -/
theorem splitBytes?_append (xs ys : List Char) :
    splitBytes? (byteLen xs) (xs ++ ys) = some (xs, ys) := by
  induction xs with
  | nil => rw [byteLen_nil, List.nil_append, splitBytes?]
  | cons c xs ih =>
    have hpos := c.utf8Size_pos
    obtain ⟨n, hn⟩ : ∃ n, c.utf8Size + byteLen xs = n + 1 :=
      ⟨c.utf8Size + byteLen xs - 1, by omega⟩
    rw [byteLen_cons, hn, List.cons_append, splitBytes?, if_pos (by omega),
      show n + 1 - c.utf8Size = byteLen xs from by omega, ih]
    rfl

/-- What lies between two places is the text between them. -/
theorem between?_append (xs ys zs : List Char) :
    between? (byteLen xs) (byteLen xs + byteLen ys) (xs ++ (ys ++ zs)) = some ys := by
  unfold between?
  rw [splitBytes?_append, Nat.add_sub_cancel_left]
  simp only [Option.bind_eq_bind, Option.bind_some]
  rw [splitBytes?_append]
  rfl

/-- A place and the start of its line are both between characters. -/
theorem between?_of_split (before rest : List Char) :
    between? (byteLen (earlierLines before)) (byteLen before) (before ++ rest) =
      some (lastLine before) := by
  have hline := between?_append (earlierLines before) (lastLine before) rest
  rw [byteLen_earlierLines_le, ← List.append_assoc, earlierLines_append_lastLine] at hline
  exact hline

/-- A text has no more UTF-16 units than bytes. -/
theorem utf16Len_le_byteLen (cs : List Char) : utf16Len cs ≤ byteLen cs := by
  induction cs with
  | nil => rfl
  | cons c cs ih =>
    unfold utf16Len byteLen
    have hpos := c.utf8Size_pos
    split
    · omega
    · next hlarge =>
      have hne : c.utf8Size ≠ 1 := by
        rw [Ne, Char.utf8Size_eq_one_iff, UInt32.le_iff_toNat_le]
        exact fun hsmall => hlarge (Nat.lt_of_le_of_lt hsmall (by decide))
      omega

theorem count_le_byteLen (c : Char) (cs : List Char) : cs.count c ≤ byteLen cs := by
  induction cs with
  | nil => rfl
  | cons d cs ih =>
    have hpos := d.utf8Size_pos
    rw [List.count_cons, byteLen_cons]
    split <;> omega

end Text

/-- The position of a place, for an editor. -/
theorem LineIndex.utf16Position_of_split (before rest : List Char) :
    (ofText (before ++ rest)).utf16Position (before ++ rest) (byteLen before) =
      ⟨before.count '\n', utf16Len (lastLine before)⟩ := by
  have hmin : min (byteLen before) (byteLen (before ++ rest)) = byteLen before := by
    rw [byteLen_append]
    omega
  have hstart : min (((ofText (before ++ rest)).lineStart (before.count '\n')).getD 0)
      (byteLen before) = byteLen (earlierLines before) := by
    have hfound : (ofText (before ++ rest)).lineStart (before.count '\n') =
        some (byteLen (earlierLines before)) := starts_count before rest
    have hle := byteLen_earlierLines_le before
    rw [hfound, Option.getD_some]
    omega
  unfold utf16Position
  cases rest with
  | nil =>
    -- the end of the text has no position, but it has a line
    have hend : (ofText (before ++ [])).position? (byteLen before) = none := by
      rw [List.append_nil]
      exact if_neg (Nat.lt_irrefl _)
    have hcount : (ofText (before ++ [])).lineCount - 1 = before.count '\n' := by
      rw [List.append_nil]
      show (0 :: lineStartsFrom 0 before).length - 1 = _
      rw [List.length_cons, length_lineStartsFrom, Nat.add_sub_cancel]
    simp only [hmin, hend, hcount, hstart, between?_of_split]
  | cons c after =>
    have hpos := c.utf8Size_pos
    have hposition : (ofText (before ++ c :: after)).position? (byteLen before) =
        some ⟨before.count '\n', byteLen before - byteLen (earlierLines before)⟩ :=
      position?_of_split (Nat.le_refl _) (by omega)
    simp only [hmin, hposition, hstart, between?_of_split]

/-! ### How an editor reads a position -/

namespace Text

/-- The units of a character in UTF-16: its code, or two surrogates. -/
def utf16Units (c : Char) : List Nat :=
  if c.toNat < 0x10000 then [c.toNat]
  else [0xD800 + (c.toNat - 0x10000) / 0x400, 0xDC00 + (c.toNat - 0x10000) % 0x400]

/-- Splits off as many lines, with their line feeds. -/
def splitLines? : Nat → List Char → Option (List Char × List Char)
  | 0, cs => some ([], cs)
  | _ + 1, [] => none
  | n + 1, c :: cs =>
    (splitLines? (if c = '\n' then n else n + 1) cs).map fun (lines, rest) => (c :: lines, rest)

/-- Splits off as many units of a line, if a character ends there. -/
def splitUnits? : Nat → List Char → Option (List Char × List Char)
  | 0, cs => some ([], cs)
  | _ + 1, [] => none
  | n + 1, c :: cs =>
    if c ≠ '\n' ∧ (utf16Units c).length ≤ n + 1 then
      (splitUnits? (n + 1 - (utf16Units c).length) cs).map fun (front, rest) => (c :: front, rest)
    else none

/-- A character is one or two UTF-16 units. -/
theorem length_utf16Units (c : Char) :
    (utf16Units c).length = if c.toNat < 65536 then 1 else 2 := by
  unfold utf16Units
  split <;> rfl

/-- Splitting off lines gives the text up to the last of their line feeds. -/
theorem splitLines?_append {lines : List Char} (h : ∀ c, lines.getLast? = some c → c = '\n')
    (rest : List Char) : splitLines? (lines.count '\n') (lines ++ rest) = some (lines, rest) := by
  induction lines with
  | nil => rw [List.count_nil, List.nil_append, splitLines?]
  | cons c lines ih =>
    have hlines : ∀ d, lines.getLast? = some d → d = '\n' := by
      intro d hd
      apply h
      rw [List.getLast?_cons, hd]
      rfl
    by_cases hc : c = '\n'
    · subst hc
      rw [List.count_cons_self, List.cons_append, splitLines?, if_pos rfl, ih hlines]
      rfl
    · -- a line feed is still to come
      have hpos : 0 < lines.count '\n' := by
        cases hlast : lines.getLast? with
        | none =>
          rw [List.getLast?_eq_none_iff.mp hlast] at h
          exact absurd (h c rfl) hc
        | some d =>
          rw [hlines d hlast] at hlast
          exact List.count_pos_iff.mpr (List.mem_of_getLast? hlast)
      obtain ⟨n, hn⟩ : ∃ n, lines.count '\n' = n + 1 := ⟨lines.count '\n' - 1, by omega⟩
      rw [List.count_cons_of_ne hc, List.cons_append, hn, splitLines?, if_neg hc, ← hn, ih hlines]
      rfl

/-- Splitting off units gives the part of the line they make up. -/
theorem splitUnits?_append {line : List Char} (h : '\n' ∉ line) (rest : List Char) :
    splitUnits? (utf16Len line) (line ++ rest) = some (line, rest) := by
  induction line with
  | nil => rw [utf16Len, List.nil_append, splitUnits?]
  | cons c line ih =>
    obtain ⟨hc, hline⟩ : '\n' ≠ c ∧ '\n' ∉ line := by simpa using h
    have hunits : utf16Len (c :: line) = (utf16Units c).length + utf16Len line := by
      rw [length_utf16Units]
      rfl
    -- at least one unit goes with each character, so the count runs out with the line
    have hpos : 0 < (utf16Units c).length := by
      rw [length_utf16Units]
      split <;> decide
    obtain ⟨n, hn⟩ : ∃ n, utf16Len (c :: line) = n + 1 := ⟨utf16Len (c :: line) - 1, by omega⟩
    rw [hn, List.cons_append, splitUnits?, if_pos ⟨hc.symm, by omega⟩,
      show n + 1 - (utf16Units c).length = utf16Len line from by omega, ih hline]
    rfl

end Text

/-- The byte offset at which an editor sees a position: as many lines, and then as many units of
UTF-16 in the line that follows. -/
def Position.decode? (pos : Position) (text : List Char) : Option Nat := do
  let (lines, rest) ← splitLines? pos.line text
  let (front, _) ← splitUnits? pos.col rest
  return byteLen lines + byteLen front

/-- A client that decodes the position finds the offset. -/
theorem Position.decode?_of_split (before rest : List Char) :
    Position.decode? ⟨before.count '\n', utf16Len (lastLine before)⟩ (before ++ rest) =
      some (byteLen before) := by
  have hends : ∀ c, (earlierLines before).getLast? = some c → c = '\n' :=
    fun _ h => getLast?_earlierLines h
  have hlines := splitLines?_append hends (lastLine before ++ rest)
  rw [count_earlierLines, ← List.append_assoc, earlierLines_append_lastLine] at hlines
  unfold decode?
  simp only [hlines, splitUnits?_append (not_mem_lastLine before), Option.bind_eq_bind,
    Option.bind_some, byteLen_earlierLines_le, Option.pure_def]

end StyleAudit
