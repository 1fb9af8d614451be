import StyleAudit.Proofs.ByteStylesheet
import StyleAudit.Proofs.MaskedText

/-!
# Bodies of rules

The bodies of a stylesheet are its text at brace depth one or more. The depth at an offset counts
the braces of the masked text before it and never goes below zero.

* **`Bytes.bodiesFrom_cons`**: a body starts where the depth leaves zero and ends where it comes
  back.
* **`Bytes.Laid`** describes rows of ranges with depth zero between them and a greater depth in
  them, and **`Bytes.laid_bodiesFrom`** says that the bodies are such a row. All that is said about
  bodies is read off this description.
* **`Stylesheet.laid_bodies`** says the same of the bodies that are cut out of the masked text.
-/

namespace StyleAudit

open Text

namespace Bytes

variable {text : List Char} {i : Nat}

/-! ### Brace depth -/

/-- The number of open braces after one more byte. -/
def braceStep (depth : Nat) (b : Char) : Nat :=
  if b = '{' then depth + 1 else if b = '}' then depth - 1 else depth

/-- The number of open braces before an offset. A brace that closes nothing does not count. -/
def braceDepth (text : List Char) (i : Nat) : Nat := ((encode text).take i).foldl braceStep 0

theorem braceDepth_zero (text : List Char) : braceDepth text 0 = 0 := rfl

/-- The depth changes by the byte that is passed. -/
theorem braceDepth_succ {b : Char} (h : byteAt? text i = some b) :
    braceDepth text (i + 1) = braceStep (braceDepth text i) b := by
  have hbyte : (encode text)[i]? = some b := h
  rw [braceDepth, List.take_add_one, hbyte, Option.toList_some, List.foldl_append]
  rfl

/-- A body is left only by the brace that closes its outermost block. -/
theorem braceStep_pos_iff {depth : Nat} {b : Char} (h : 0 < depth) :
    0 < braceStep depth b ↔ ¬(b = '}' ∧ depth = 1) := by
  unfold braceStep
  split
  · next hopen =>
    subst hopen
    simp
  split
  · next hclose =>
    rw [hclose, eq_self, true_and]
    omega
  · next hclose =>
    exact iff_of_true h fun hboth => hclose hboth.1

/-- A body is entered only by an opening brace. -/
theorem eq_openBrace_of_braceStep {b : Char} (h : 0 < braceStep 0 b) : b = '{' := by
  unfold braceStep at h
  split at h
  · assumption
  · split at h <;> exact absurd h (by omega)

/-- A byte opens the first brace, closes the last one, or does neither. -/
theorem bodiesFrom_cons (depth start i : Nat) (b : Char) (bs : List Char) :
    bodiesFrom depth start i (b :: bs) =
      if 0 < depth ∧ braceStep depth b = 0 then ⟨start, i⟩ :: bodiesFrom 0 start (i + 1) bs
      else bodiesFrom (braceStep depth b)
        (if depth = 0 ∧ 0 < braceStep depth b then i + 1 else start) (i + 1) bs := by
  rw [bodiesFrom]
  by_cases hopen : b = '{'
  · have hstep : braceStep depth b = depth + 1 := if_pos hopen
    rw [if_pos hopen, hstep, if_neg (by omega : ¬(0 < depth ∧ depth + 1 = 0))]
    by_cases hdepth : depth = 0
    · rw [if_pos hdepth, if_pos ⟨hdepth, by omega⟩]
    · rw [if_neg hdepth, if_neg fun h => hdepth h.1]
  rw [if_neg hopen]
  by_cases hclose : b = '}'
  · have hstep : braceStep depth b = depth - 1 := by rw [braceStep, if_neg hopen, if_pos hclose]
    rw [hstep, if_neg (by omega : ¬(depth = 0 ∧ 0 < depth - 1))]
    by_cases hdepth : 0 < depth
    · rw [if_pos ⟨hclose, hdepth⟩]
      by_cases hlast : depth - 1 = 0
      · rw [if_pos hlast, if_pos ⟨hdepth, hlast⟩, hlast]
      · rw [if_neg hlast, if_neg fun h => hlast h.2]
    · rw [if_neg fun h => hdepth h.2, if_neg fun h => hdepth h.1,
        (by omega : depth = 0)]
  · have hstep : braceStep depth b = depth := by rw [braceStep, if_neg hopen, if_neg hclose]
    rw [if_neg fun h => hclose h.1, hstep, if_neg (by omega : ¬(0 < depth ∧ depth = 0)),
      if_neg (by omega : ¬(depth = 0 ∧ 0 < depth))]

/-! ### Rows of bodies -/

/-- All offsets from `i` on and before `j` have depth zero. -/
def Flat (text : List Char) (i j : Nat) : Prop := ∀ k, i ≤ k → k < j → braceDepth text k = 0

/-- A brace at depth zero, right before offset `start`, is still open at offset `i`. -/
structure OpenFrom (text : List Char) (start i : Nat) : Prop where
  opening : ∃ brace, start = brace + 1 ∧ byteAt? text brace = some '{' ∧ braceDepth text brace = 0
  le : start ≤ i
  deep : ∀ k, start ≤ k → k ≤ i → 0 < braceDepth text k

/-- A stretch outside of every body goes on for as long as the depth is zero. -/
theorem Flat.succ {j : Nat} (h : Flat text i j) (hj : braceDepth text j = 0) :
    Flat text i (j + 1) := by
  intro k hik hkj
  rcases Nat.lt_succ_iff_lt_or_eq.mp hkj with hlt | rfl
  · exact h k hik hlt
  · exact hj

/-- A body begins behind an opening brace at depth zero. -/
theorem openFrom_self (h : byteAt? text i = some '{') (hdepth : braceDepth text i = 0) :
    OpenFrom text (i + 1) (i + 1) where
  opening := ⟨i, rfl, h, hdepth⟩
  le := Nat.le_refl _
  deep k hik hki := by
    obtain rfl : k = i + 1 := Nat.le_antisymm hki hik
    rw [braceDepth_succ h, braceStep, if_pos rfl]
    exact Nat.succ_pos _

/-- A body goes on for as long as the depth is positive. -/
theorem OpenFrom.succ {start : Nat} (h : OpenFrom text start i)
    (hnext : 0 < braceDepth text (i + 1)) : OpenFrom text start (i + 1) where
  opening := h.opening
  le := Nat.le_succ_of_le h.le
  deep k hsk hki := by
    rcases Nat.le_succ_iff.mp hki with hle | rfl
    · exact h.deep k hsk hle
    · exact hnext

/-- `Laid text first ranges`: from offset `first` on, the depth is zero outside of the ranges and
greater in them, and each range but perhaps the last ends at the brace that brings it back to
zero. -/
inductive Laid (text : List Char) : Nat → List Range → Prop
  | done {first : Nat} : Flat text first (byteLen text + 1) → Laid text first []
  | unclosed {first start : Nat} : first ≤ start → Flat text first start →
      OpenFrom text start (byteLen text) → Laid text first [⟨start, byteLen text⟩]
  | closed {first start stop : Nat} {ranges : List Range} : first ≤ start → Flat text first start →
      OpenFrom text start stop → byteAt? text stop = some '}' → braceDepth text (stop + 1) = 0 →
      Laid text (stop + 1) ranges → Laid text first (⟨start, stop⟩ :: ranges)

/-- Where the scan for bodies stands: between bodies, or in one. -/
inductive BodyScan (text : List Char) (first start i : Nat) : Prop
  | between : first ≤ i → Flat text first (i + 1) → BodyScan text first start i
  | inside : first ≤ start → Flat text first start → OpenFrom text start i →
      BodyScan text first start i

/-- The induction is on the bytes that are left. It matters only whether the depth is zero before
the next byte and behind it. -/
theorem laid_bodiesFrom {front bs : List Char} (h : encode text = front ++ bs) {first start : Nat}
    (hscan : BodyScan text first start front.length) :
    Laid text first
      (bodiesFrom (braceDepth text front.length) start front.length bs) := by
  induction bs generalizing front first start with
  | nil =>
    have hend : front.length = byteLen text := by rw [← length_encode, h, List.append_nil]
    rw [hend] at hscan ⊢
    cases hscan with
    | between hle hflat =>
      rw [hflat _ hle (Nat.lt_succ_self _)]
      exact .done hflat
    | inside hle hflat hopen =>
      rw [bodiesFrom, if_pos (hopen.deep _ hopen.le (Nat.le_refl _))]
      exact .unclosed hle hflat hopen
  -- one byte is passed, and the depth in front of it is known
  | cons b bs ih =>
    have hbyte : byteAt? text front.length = some b := by
      rw [byteAt?, h, List.getElem?_append_right (Nat.le_refl _), Nat.sub_self]
      rfl
    have hsplit : encode text = (front ++ [b]) ++ bs := by rw [h, List.append_assoc]; rfl
    have hlength : (front ++ [b]).length = front.length + 1 := List.length_append
    have hrest := fun first start => @ih (front ++ [b]) hsplit first start
    rw [hlength] at hrest
    have hstep := braceDepth_succ hbyte
    rw [bodiesFrom_cons, ← hstep]
    generalize front.length = i at *
    cases hscan with
    | between hle hflat =>
      have hdepth : braceDepth text i = 0 := hflat i hle (Nat.lt_succ_self i)
      rw [hdepth, if_neg fun h => absurd h.1 (Nat.lt_irrefl 0)]
      by_cases hnext : 0 < braceDepth text (i + 1)
      · have hopening : b = '{' := by
          rw [hstep, hdepth] at hnext
          exact eq_openBrace_of_braceStep hnext
        rw [hopening] at hbyte
        rw [if_pos ⟨rfl, hnext⟩]
        exact hrest first (i + 1)
          (.inside (Nat.le_succ_of_le hle) hflat (openFrom_self hbyte hdepth))
      · rw [if_neg fun h => hnext h.2]
        exact hrest first start
          (.between (Nat.le_succ_of_le hle) (hflat.succ (Nat.eq_zero_of_not_pos hnext)))
    | inside hle hflat hopen =>
      have hdepth : 0 < braceDepth text i := hopen.deep i hopen.le (Nat.le_refl i)
      by_cases hnext : braceDepth text (i + 1) = 0
      · have hclosing : b = '}' ∧ braceDepth text i = 1 := by
          rw [hstep] at hnext
          exact not_not.mp fun hne => absurd ((braceStep_pos_iff hdepth).mpr hne) (by omega)
        rw [hclosing.1] at hbyte
        -- behind the closing brace the scan is between bodies again
        have hlater : BodyScan text (i + 1) start (i + 1) := by
          refine .between (Nat.le_refl _) fun k hik hki => ?_
          rw [Nat.le_antisymm (Nat.le_of_lt_succ hki) hik]
          exact hnext
        have hranges := hrest (i + 1) start hlater
        rw [hnext] at hranges
        rw [if_pos ⟨hdepth, hnext⟩]
        exact .closed hle hflat hopen hbyte hnext hranges
      · rw [if_neg fun h => hnext h.2, if_neg fun h => absurd h.1 (Nat.ne_of_gt hdepth)]
        exact hrest first start (.inside hle hflat (hopen.succ (Nat.pos_of_ne_zero hnext)))

/-- The bodies of a text lie in it from its start. -/
theorem laid_bodiesFrom_start (text : List Char) :
    Laid text 0 (bodiesFrom 0 0 0 (encode text)) := by
  refine @laid_bodiesFrom text [] (encode text) rfl 0 0 (.between (Nat.le_refl 0) fun k _ hk => ?_)
  rw [Nat.lt_one_iff.mp hk]
  exact braceDepth_zero text

/-! ### Facts about rows -/

/-- The brace at offset `j` closes the one at offset `i`: the depth comes back at `j` and not
before. -/
structure BracesMatch (text : List Char) (i j : Nat) : Prop where
  opening : byteAt? text i = some '{'
  closing : byteAt? text j = some '}'
  lt : i < j
  deeper : ∀ k, i < k → k ≤ j → braceDepth text i < braceDepth text k
  back : braceDepth text (j + 1) = braceDepth text i

/-- No brace closes the one at offset `i`. -/
structure NeverClosed (text : List Char) (i : Nat) : Prop where
  opening : byteAt? text i = some '{'
  deeper : ∀ k, i < k → k ≤ byteLen text → braceDepth text i < braceDepth text k

/-- The range stands between a brace at depth zero and the brace that closes it. -/
def IsClosedBody (text : List Char) (r : Range) : Prop :=
  ∃ brace, r.start = brace + 1 ∧ braceDepth text brace = 0 ∧ BracesMatch text brace r.stop

/-- The range starts behind a brace at depth zero that is never closed, and runs to the end. -/
def IsUnclosedBody (text : List Char) (r : Range) : Prop :=
  ∃ brace, r.start = brace + 1 ∧ braceDepth text brace = 0 ∧ NeverClosed text brace ∧
    r.stop = byteLen text

/-- A body that ends at a brace is closed. -/
theorem OpenFrom.isClosedBody {start stop : Nat} (h : OpenFrom text start stop)
    (hclose : byteAt? text stop = some '}') (hback : braceDepth text (stop + 1) = 0) :
    IsClosedBody text ⟨start, stop⟩ := by
  obtain ⟨brace, rfl, hopening, hdepth⟩ := h.opening
  refine ⟨brace, rfl, hdepth, hopening, hclose, h.le, fun k hk hstop => ?_, hback.trans hdepth.symm⟩
  rw [hdepth]
  exact h.deep k hk hstop

/-- A body that runs to the end of the text is not closed. -/
theorem OpenFrom.isUnclosedBody {start : Nat} (h : OpenFrom text start (byteLen text)) :
    IsUnclosedBody text ⟨start, byteLen text⟩ := by
  obtain ⟨brace, rfl, hopening, hdepth⟩ := h.opening
  refine ⟨brace, rfl, hdepth, ⟨hopening, fun k hk hend => ?_⟩, rfl⟩
  rw [hdepth]
  exact h.deep k hk hend

namespace Laid

variable {first : Nat} {ranges : List Range}

/-- No range begins before the place the laying started from. -/
theorem le_start (h : Laid text first ranges) : ∀ r ∈ ranges, first ≤ r.start := by
  induction h with
  | done => exact fun r hr => absurd hr List.not_mem_nil
  | unclosed hle => exact List.forall_mem_singleton.mpr hle
  | closed hle _ hopen _ _ _ ih =>
    refine List.forall_mem_cons.mpr ⟨hle, fun r hr => ?_⟩
    have hstop := hopen.le
    have hlater := ih r hr
    omega

theorem pairwise (h : Laid text first ranges) : ranges.Pairwise fun a b => a.stop < b.start := by
  induction h with
  | done => exact .nil
  | unclosed => exact List.pairwise_singleton _ _
  | closed _ _ _ _ _ hlater ih => exact List.pairwise_cons.mpr ⟨hlater.le_start, ih⟩

/-- The bytes of the ranges are those with a positive depth before and after them. -/
theorem exists_range_iff (h : Laid text first ranges) (hfirst : first ≤ i) (hi : i < byteLen text) :
    (∃ r ∈ ranges, r.start ≤ i ∧ i < r.stop) ↔
      0 < braceDepth text i ∧ 0 < braceDepth text (i + 1) := by
  induction h with
  | done hflat =>
    rw [hflat i hfirst (by omega)]
    simp
  | @unclosed first start hle hflat hopen =>
    simp only [List.mem_singleton, exists_eq_left]
    by_cases hstart : start ≤ i
    · exact iff_of_true ⟨hstart, hi⟩ ⟨hopen.deep i hstart hi.le, hopen.deep (i + 1) (by omega) hi⟩
    · rw [hflat i hfirst (by omega)]
      exact iff_of_false (fun h => hstart h.1) fun h => absurd h.1 (Nat.lt_irrefl 0)
  | @closed first start stop ranges hle hflat hopen hclose hback hlater ih =>
    have hstop := hopen.le
    -- before the end of the first range, no other one counts
    have hothers : i ≤ stop → ¬∃ r ∈ ranges, r.start ≤ i ∧ i < r.stop := by
      rintro hi ⟨r, hr, hri, _⟩
      have hle := hlater.le_start r hr
      omega
    rw [List.exists_mem_cons_iff]
    by_cases hbehind : stop < i
    · rw [← ih hbehind]
      exact or_iff_right fun h => absurd h.2 (by simp only; omega)
    rw [or_iff_left (hothers (by omega))]
    by_cases hstart : start ≤ i
    · by_cases hbrace : i = stop
      · rw [hbrace, hback]
        simp
      · exact iff_of_true ⟨hstart, by simp only; omega⟩
          ⟨hopen.deep i hstart (by omega), hopen.deep (i + 1) (by omega) (by omega)⟩
    · rw [hflat i hfirst (by omega)]
      exact iff_of_false (fun h => hstart h.1) fun h => absurd h.1 (Nat.lt_irrefl 0)

/-- Every range is a body, closed or not. -/
theorem isBody (h : Laid text first ranges) :
    ∀ r ∈ ranges, IsClosedBody text r ∨ IsUnclosedBody text r := by
  induction h with
  | done => exact fun r hr => absurd hr List.not_mem_nil
  | unclosed _ _ hopen => exact List.forall_mem_singleton.mpr (.inr hopen.isUnclosedBody)
  | closed _ _ hopen hclose hback _ ih =>
    exact List.forall_mem_cons.mpr ⟨.inl (hopen.isClosedBody hclose hback), ih⟩

/-- Only the last range may be unclosed. -/
theorem isClosedBody_of_mem_dropLast (h : Laid text first ranges) :
    ∀ r ∈ ranges.dropLast, IsClosedBody text r := by
  induction h with
  | done => exact fun r hr => absurd hr List.not_mem_nil
  | unclosed => exact fun r hr => absurd hr List.not_mem_nil
  | @closed _ _ _ ranges _ _ hopen hclose hback _ ih =>
    cases ranges with
    | nil => exact fun r hr => absurd hr List.not_mem_nil
    | cons next ranges =>
      exact List.forall_mem_cons.mpr ⟨hopen.isClosedBody hclose hback, ih⟩

/-- Each brace at depth zero opens a body, also an empty one. -/
theorem exists_start_eq (h : Laid text first ranges) (hfirst : first ≤ i)
    (hbrace : byteAt? text i = some '{') (hdepth : braceDepth text i = 0) :
    ∃ r ∈ ranges, r.start = i + 1 := by
  have hlt := lt_of_byteAt? hbrace
  have hnext : 0 < braceDepth text (i + 1) :=
    (openFrom_self hbrace hdepth).deep _ (Nat.le_refl _) (Nat.le_refl _)
  -- an offset in a range has another depth than the brace, one before it another than what follows
  have hstart : ∀ {first start stop : Nat}, first ≤ i → Flat text first start →
      OpenFrom text start stop → i ≤ stop → start = i + 1 := by
    intro first start stop hfirst hflat hopen hstop
    rcases Nat.lt_trichotomy start (i + 1) with hbefore | heq | hbehind
    · have hdeep := hopen.deep i (Nat.le_of_lt_succ hbefore) hstop
      omega
    · exact heq
    · have hzero := hflat (i + 1) (Nat.le_succ_of_le hfirst) hbehind
      omega
  induction h with
  | done hflat =>
    have hzero := hflat (i + 1) (Nat.le_succ_of_le hfirst) (Nat.succ_lt_succ hlt)
    omega
  | unclosed _ hflat hopen => exact ⟨_, List.mem_singleton_self _, hstart hfirst hflat hopen hlt.le⟩
  | @closed first start stop ranges _ hflat hopen _ _ _ ih =>
    by_cases hbehind : stop < i
    · obtain ⟨r, hr, heq⟩ := ih hbehind
      exact ⟨r, List.mem_cons_of_mem _ hr, heq⟩
    · exact ⟨_, List.mem_cons_self, hstart hfirst hflat hopen (Nat.le_of_not_lt hbehind)⟩

end Laid

/-! ### Bytes of the masked text -/

/-- The byte sequence is the UTF-8 encoding, byte for byte. -/
theorem encode_eq_map_utf8 (cs : List Char) :
    encode cs = (Text.utf8 cs).map fun b => Char.ofNat b.toNat := by
  rw [encode, Text.utf8, List.map_flatMap]

/-- A byte of the masked text is a filler or stands in the text itself. -/
theorem byteAt?_of_mask {css : List Char} {b : Char}
    (h : byteAt? (StyleAudit.mask css) i = some b) :
    byteAt? css i = some b ∨ b = ' ' ∨ b = Mask.dynamic := by
  rw [byteAt?, encode_eq_map_utf8, List.getElem?_map, Option.map_eq_some_iff] at h
  obtain ⟨masked, hmasked, rfl⟩ := h
  have hbytes : (String.ofList (StyleAudit.mask (String.ofList css).toList)).toUTF8.toList[i]? =
      some masked := by
    rw [Text.toUTF8_toList, String.toList_ofList, String.toList_ofList]
    exact hmasked
  obtain ⟨byte, hbyte, hcases⟩ := maskedByte_mask hbytes
  rw [Text.toUTF8_toList, String.toList_ofList] at hbyte
  rcases hcases with rfl | rfl | rfl
  · left
    rw [byteAt?, encode_eq_map_utf8, List.getElem?_map, hbyte]
    rfl
  · exact .inr (.inl rfl)
  · exact .inr (.inr rfl)

end Bytes

/-- The ends of a slice. -/
def Slice.range (s : Slice) : Bytes.Range := ⟨s.offset, s.stop⟩

/-- A slice has the range it was cut with. -/
theorem Bytes.Cut.range_eq {text : List Char} {r : Bytes.Range} {s : Slice}
    (h : Bytes.Cut text 0 r s) : s.range = r := by
  obtain ⟨hoffset, hslice⟩ := h
  obtain ⟨after, hstart, hstop⟩ := Bytes.at_of_slice? hslice
  rw [Slice.range, Slice.stop, ← hoffset, Nat.zero_add, hstart.append.unique hstop]

theorem Bytes.map_range_of_forall₂_cut {text : List Char} {ranges : List Bytes.Range}
    {slices : List Slice} (h : List.Forall₂ (Bytes.Cut text 0) ranges slices) :
    slices.map Slice.range = ranges := by
  induction h with
  | nil => rfl
  | cons hcut _ ih => rw [List.map_cons, hcut.range_eq, ih]

namespace Stylesheet

theorem laid_bodies (css : List Char) : Bytes.Laid (mask css) 0 ((bodies css).map Slice.range) := by
  rw [Bytes.map_range_of_forall₂_cut (Bytes.forall₂_cut_bodies css)]
  exact Bytes.laid_bodiesFrom_start (mask css)

/-- A body can be cut out of the masked text by its offsets. -/
theorem slice?_of_mem_bodies {css : List Char} {body : Slice} (h : body ∈ bodies css) :
    body.stop ≤ byteLen css ∧
      Bytes.slice? (mask css) body.offset body.stop = some body.text := by
  obtain ⟨before, after, htext, hoffset, _⟩ := (parts_bodies css).cut body h
  have hat : Bytes.At (mask css) body.offset (body.text ++ after) :=
    ⟨before, htext.trans (List.append_assoc ..), hoffset.trans (Nat.zero_add _) |>.symm⟩
  have hlength := hat.append.add_byteLen
  rw [byteLen_mask] at hlength
  exact ⟨Nat.le.intro hlength, hat.slice? hat.append⟩

/-- **The bodies of a stylesheet are its text at brace depth one or more.** The depth at an offset
is that of the masked text, whose braces are braces of the stylesheet. A byte lies in a body exactly
if the depth at it is at least one, the brace that brings it back to zero excepted. The bodies
follow each other without overlap within the text. Each of them stands between a brace at depth zero
and the brace that closes it; only the last one may run to the end of the text, behind a brace that
is never closed. Each brace at depth zero opens one. -/
theorem bodies_are_deep_text (css : List Char) :
    (∀ i b, Bytes.byteAt? (mask css) i = some b → b = '{' ∨ b = '}' →
      Bytes.byteAt? css i = some b) ∧
    (∀ i b, Bytes.byteAt? (mask css) i = some b →
      ((∃ body ∈ bodies css, body.Covers i) ↔
        1 ≤ Bytes.braceDepth (mask css) i ∧ ¬(b = '}' ∧ Bytes.braceDepth (mask css) i = 1))) ∧
    ((bodies css).Pairwise fun a b => a.stop < b.offset) ∧
    (∀ body ∈ bodies css, body.stop ≤ byteLen css ∧
      Bytes.slice? (mask css) body.offset body.stop = some body.text ∧
      (Bytes.IsClosedBody (mask css) body.range ∨ Bytes.IsUnclosedBody (mask css) body.range)) ∧
    (∀ body ∈ (bodies css).dropLast, Bytes.IsClosedBody (mask css) body.range) ∧
    ∀ i, Bytes.byteAt? (mask css) i = some '{' → Bytes.braceDepth (mask css) i = 0 →
      ∃ body ∈ bodies css, body.offset = i + 1 := by
  have hlaid := laid_bodies css
  refine ⟨fun i b hbyte hbrace => ?_, fun i b hbyte => ?_, ?_, fun body hbody => ?_,
    fun body hbody => ?_, fun i hbyte hdepth => ?_⟩
  · refine (Bytes.byteAt?_of_mask hbyte).resolve_right ?_
    rintro (rfl | rfl)
    · exact absurd hbrace (by decide)
    · exact absurd hbrace (by decide)
  · -- covered means deep before and after the byte; the step from one to the other is the byte
    have hcovered := hlaid.exists_range_iff (Nat.zero_le i) (Bytes.lt_of_byteAt? hbyte)
    rw [Bytes.braceDepth_succ hbyte, and_congr_right fun hpos => Bytes.braceStep_pos_iff hpos]
      at hcovered
    simp only [List.mem_map, exists_exists_and_eq_and] at hcovered
    exact hcovered
  · exact List.pairwise_map.mp hlaid.pairwise
  · obtain ⟨hbound, hslice⟩ := slice?_of_mem_bodies hbody
    exact ⟨hbound, hslice, hlaid.isBody _ (List.mem_map_of_mem hbody)⟩
  · refine hlaid.isClosedBody_of_mem_dropLast _ ?_
    rw [← List.map_dropLast]
    exact List.mem_map_of_mem hbody
  · obtain ⟨r, hr, hstart⟩ := hlaid.exists_start_eq (Nat.zero_le i) hbyte hdepth
    obtain ⟨body, hbody, rfl⟩ := List.mem_map.mp hr
    exact ⟨body, hbody, hstart⟩

/-- Braces that close nothing, that are hidden in a comment, a string and an interpolation, an empty
body, and a body that is not closed and holds a character of two bytes. -/
theorem bodies_are_deep_text_hidden :
    let css := "\x7da\x7b/*\x7d*/\x7b'\x7d'\x7dc\x7d@x\x7b\x7d#\x7by\x7d\x7bé\x7b".toList
    (bodies css).map Slice.range = [⟨3, 14⟩, ⟨18, 18⟩, ⟨24, 27⟩] ∧
    (Bytes.byteAt? (mask css) 12 = some '}' ∧ ∃ body ∈ bodies css, body.Covers 12) ∧
    (Bytes.byteAt? (mask css) 14 = some '}' ∧ ¬∃ body ∈ bodies css, body.Covers 14) ∧
    (⟨18, []⟩ ∈ (bodies css).dropLast ∧ Bytes.IsClosedBody (mask css) ⟨18, 18⟩) ∧
    (Bytes.byteAt? (mask css) 23 = some '{' ∧ Bytes.braceDepth (mask css) 23 = 0) ∧
    ∃ body ∈ bodies css, body.offset = 24 := by
  intro css
  obtain ⟨_, hcovered, _, _, hclosed, hopened⟩ := bodies_are_deep_text css
  have hinner : Bytes.byteAt? (mask css) 12 = some '}' := by decide +kernel
  have houter : Bytes.byteAt? (mask css) 14 = some '}' := by decide +kernel
  have hempty : ⟨18, []⟩ ∈ (bodies css).dropLast := by decide +kernel
  have hbrace : Bytes.byteAt? (mask css) 23 = some '{' := by decide +kernel
  have hdepth : Bytes.braceDepth (mask css) 23 = 0 := by decide +kernel
  refine ⟨by decide +kernel, ⟨hinner, (hcovered 12 _ hinner).mpr ?_⟩,
    ⟨houter, fun h => ((hcovered 14 _ houter).mp h).2 ?_⟩, ⟨hempty, hclosed _ hempty⟩,
    ⟨hbrace, hdepth⟩, hopened 23 hbrace hdepth⟩
  · decide +kernel
  · decide +kernel

end Stylesheet

end StyleAudit
