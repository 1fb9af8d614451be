import StyleAudit.Bytes.Reference
import StyleAudit.Proofs.ByteValues

/-!
# Placeholders by byte offsets

The scan over bytes lists the placeholders of a value as ranges, and later asks for one place after
the other whether a range starts there or covers it. The scan over characters paints the value.
`Ahead` ties them together: of all ranges, those that end at or before the place have been passed,
and the others are what the scan finds from there on.
-/

namespace StyleAudit

open Text

/-! ### Marks -/

/-- Where a text breaks, the word stands. -/
theorem Text.breakOn_eq_append {word cs : List Char} (h : (breakOn word cs).2 ≠ []) :
    ∃ rest, (breakOn word cs).2 = word ++ rest := by
  induction cs with
  | nil => exact absurd rfl h
  | cons c cs ih =>
    rw [breakOn] at h ⊢
    by_cases hword : (after? word (c :: cs)).isSome = true
    · rw [if_pos hword]
      obtain ⟨rest, hrest⟩ := Option.isSome_iff_exists.mp hword
      exact ⟨rest, eq_append_of_after? hrest⟩
    · rw [if_neg hword] at h ⊢
      exact ih h

namespace Placeholder

/-- Every mark is two ASCII characters long, and opens with a brace or an angle. -/
theorem mem_marks {mark : List Char × List Char} (h : mark ∈ marks) :
    mark.1.length = 2 ∧ mark.2.length = 2 ∧ byteLen mark.1 = 2 ∧ byteLen mark.2 = 2 ∧
      (mark.1.head? = some '{' ∨ mark.1.head? = some '<') := by
  simp only [marks, List.mem_cons, List.not_mem_nil, or_false] at h
  rcases h with rfl | rfl | rfl | rfl <;> decide

/-- A `$` placeholder runs to its closing brace, or to the end of the text. -/
theorem length?_of_dollar (inner : List Char) :
    length? ('$' :: '{' :: inner) =
      some (min ('$' :: '{' :: inner).length ((Script.bracketed inner).length + 3)) := by
  have hafter : after? ['$', '{'] ('$' :: '{' :: inner) = some inner :=
    after?_append ['$', '{'] inner
  rw [length?, hafter]

/-- The first mark that opens here. -/
theorem length?_of_mark {cs : List Char} (h : after? ['$', '{'] cs = none) :
    length? cs = (marks.find? fun mark => (after? mark.1 cs).isSome).bind fun mark =>
      (after? mark.1 cs).map fun inner => min cs.length ((breakOn mark.2 inner).1.length + 4) := by
  rw [length?, h]
  simp only
  induction marks with
  | nil => rfl
  | cons mark marks ih =>
    rw [List.findSome?_cons, List.find?_cons]
    cases hafter : after? mark.1 cs with
    | none => exact ih
    | some inner =>
      simp only [Option.isSome_some, Option.bind_some]
      rw [hafter]
      rfl

/-- The first `inside` characters belong to a placeholder. -/
theorem paintFrom_inside (inside : Nat) (cs : List Char) :
    paintFrom inside cs = (cs.take inside).map (·, true) ++ paintFrom 0 (cs.drop inside) := by
  induction cs generalizing inside with
  | nil =>
    rw [List.take_nil, List.drop_nil]
    cases inside <;> rfl
  | cons c cs ih =>
    cases inside with
    | zero => rfl
    | succ inside =>
      rw [paintFrom, ih, List.take_succ_cons, List.drop_succ_cons, List.map_cons, List.cons_append]

/-- Outside of placeholders one character is painted at a time. -/
theorem paintFrom_of_none {c : Char} {cs : List Char} (h : length? (c :: cs) = none) :
    paintFrom 0 (c :: cs) = (c, false) :: paintFrom 0 cs := by
  rw [paintFrom, h]

/-- A placeholder is painted as a whole. -/
theorem paintFrom_of_some {c : Char} {cs : List Char} {n : Nat} (h : length? (c :: cs) = some n)
    (hn : 0 < n) : paintFrom 0 (c :: cs) =
      ((c :: cs).take n).map (·, true) ++ paintFrom 0 ((c :: cs).drop n) := by
  obtain ⟨m, rfl⟩ := Nat.exists_eq_succ_of_ne_zero (by omega : n ≠ 0)
  rw [paintFrom, h]
  simp only
  rw [Nat.succ_sub_one, paintFrom_inside, List.take_succ_cons, List.drop_succ_cons, List.map_cons,
    List.cons_append]

end Placeholder

namespace Bytes

variable {text cs : List Char} {base i : Nat} {c : Char}

/-! ### One step of the scan for placeholders -/

theorem placeholdersFrom_of_le (h : byteLen text ≤ i) : placeholdersFrom text i = some [] := by
  rw [placeholdersFrom, if_neg (by omega)]
  rfl

/-- One step of the search, from the place of a character. -/
theorem placeholdersFrom_of_at (h : At text i (c :: cs)) :
    placeholdersFrom text i =
      if (after? ['$', '{'] (c :: cs)).isSome then
        (matchingClose text 0 (i + 1)).bind fun close =>
          (placeholdersFrom text (min (close + 1) (byteLen text))).bind fun later =>
            some (⟨i, min (close + 1) (byteLen text)⟩ :: later)
      else
        match Placeholder.marks.find? fun mark => (after? mark.1 (c :: cs)).isSome with
        | some mark =>
          (drop? 2 (c :: cs)).bind fun inner =>
            let stop := (findText? mark.2 inner).elim (byteLen text) fun p =>
              i + 2 + p + byteLen mark.2
            (placeholdersFrom text stop).bind fun later => some (⟨i, stop⟩ :: later)
        | none => placeholdersFrom text (i + c.utf8Size) := by
  have hlt := h.lt
  -- each of the three ways on leads past the character at `i`
  have hbraces : ∀ close, matchingClose text 0 (i + 1) = some close →
      i < min (close + 1) (byteLen text) := by
    intro close hclose
    have hle := le_of_matchingClose hlt hclose
    omega
  have hmark : ∀ (mark : List Char × List Char) inner,
      i < (findText? mark.2 inner).elim (byteLen text) fun p => i + 2 + p + byteLen mark.2 := by
    intro mark inner
    cases findText? mark.2 inner with
    | none => exact hlt
    | some p =>
      change i < i + 2 + p + byteLen mark.2
      omega
  have hplain : i < i + c.utf8Size := Nat.lt_add_of_pos_right c.utf8Size_pos
  rw [placeholdersFrom, if_pos hlt, h.drop?]
  simp only [Option.bind_eq_bind, Option.bind_some]
  split
  · cases hclose : matchingClose text 0 (i + 1) with
    | none => rfl
    | some close =>
      rw [Option.bind_some, Option.bind_some, jump?_of_lt (hbraces close hclose)]
      rfl
  · cases Placeholder.marks.find? fun mark => (after? mark.1 (c :: cs)).isSome with
    | none => exact jump?_of_lt hplain
    | some mark =>
      simp only
      cases Bytes.drop? 2 (c :: cs) with
      | none => rfl
      | some inner =>
        rw [Option.bind_some, Option.bind_some, jump?_of_lt (hmark mark inner)]
        rfl

/-- Where no placeholder begins, the search moves on by the character. -/
theorem placeholdersFrom_of_none (h : At text i (c :: cs))
    (hn : Placeholder.length? (c :: cs) = none) :
    placeholdersFrom text i = placeholdersFrom text (i + c.utf8Size) := by
  have hdollar : after? ['$', '{'] (c :: cs) = none := by
    cases hafter : after? ['$', '{'] (c :: cs) with
    | none => rfl
    | some inner =>
      rw [Placeholder.length?, hafter] at hn
      exact absurd hn (by simp)
  have hmark : (Placeholder.marks.find? fun mark => (after? mark.1 (c :: cs)).isSome) = none := by
    cases hfind : Placeholder.marks.find? fun mark => (after? mark.1 (c :: cs)).isSome with
    | none => rfl
    | some mark =>
      have hsome := List.find?_some hfind
      obtain ⟨inner, hinner⟩ := Option.isSome_iff_exists.mp hsome
      rw [Placeholder.length?_of_mark hdollar, hfind, Option.bind_some, hinner] at hn
      exact absurd hn (by simp)
  rw [placeholdersFrom_of_at h, hdollar, hmark]
  rfl

/-- After the character that closes a placeholder, or at the end. -/
theorem At.min_tail {rest : List Char} {close : Nat} (h : At text close rest)
    (hrest : ∀ c ∈ rest.head?, c.utf8Size = 1) :
    At text (min (close + 1) (byteLen text)) rest.tail := by
  have hlen := h.add_byteLen
  cases rest with
  | nil =>
    rw [byteLen_nil] at hlen
    rw [show min (close + 1) (byteLen text) = byteLen text from by omega]
    exact at_end text
  | cons c cs =>
    have hc := hrest c rfl
    rw [byteLen_cons] at hlen
    rw [show min (close + 1) (byteLen text) = close + 1 from by omega]
    exact h.succ hc

/-- A `$` placeholder ends, by bytes, where its characters end. -/
theorem placeholdersFrom_of_dollar {inner : List Char} (h : At text i ('$' :: '{' :: inner)) :
    ∃ stop, At text stop (('$' :: '{' :: inner).drop ((Script.bracketed inner).length + 3)) ∧
      placeholdersFrom text i = (placeholdersFrom text stop).bind fun later =>
        some (⟨i, stop⟩ :: later) := by
  have hnext : At text (i + 1) ('{' :: inner) := h.next
  obtain ⟨close, hclose, hat⟩ := matchingClose_of_isOpenBracket hnext rfl
  refine ⟨min (close + 1) (byteLen text), ?_, ?_⟩
  · rw [List.drop_succ_cons, List.drop_succ_cons, Script.drop_bracketed]
    exact hat.min_tail
      (Script.utf8Size_of_closeFrom trivial fun _ hf => absurd hf List.not_mem_nil)
  · have hafter : (after? ['$', '{'] ('$' :: '{' :: inner)).isSome = true := rfl
    rw [placeholdersFrom_of_at h, if_pos hafter, hclose, Option.bind_some]

/-- A marked placeholder ends, by bytes, where its characters end. -/
theorem placeholdersFrom_of_mark {mark : List Char × List Char} {inner : List Char}
    (h : At text i (c :: cs)) (hdollar : after? ['$', '{'] (c :: cs) = none)
    (hfind : (Placeholder.marks.find? fun mark => (after? mark.1 (c :: cs)).isSome) = some mark)
    (hinner : after? mark.1 (c :: cs) = some inner) :
    ∃ stop, At text stop ((c :: cs).drop ((breakOn mark.2 inner).1.length + 4)) ∧
      placeholdersFrom text i = (placeholdersFrom text stop).bind fun later =>
        some (⟨i, stop⟩ :: later) := by
  obtain ⟨hlen, hlen', hbytes, hbytes', _⟩ :=
    Placeholder.mem_marks (List.mem_of_find?_eq_some hfind)
  have htext : c :: cs = mark.1 ++ inner := eq_append_of_after? hinner
  have hat : At text (i + 2) inner := by
    rw [htext] at h
    rw [← hbytes]
    exact h.append
  have hdrop : drop? 2 (c :: cs) = some inner := by
    have hat' : At (c :: cs) 2 inner := ⟨mark.1, htext, hbytes⟩
    exact hat'.drop?
  -- what is left after the placeholder
  have hrest : (c :: cs).drop ((breakOn mark.2 inner).1.length + 4) =
      (breakOn mark.2 inner).2.drop 2 := by
    calc (c :: cs).drop ((breakOn mark.2 inner).1.length + 4)
        = (mark.1 ++ ((breakOn mark.2 inner).1 ++ (breakOn mark.2 inner).2)).drop
            (mark.1.length + ((breakOn mark.2 inner).1.length + 2)) := by
          rw [breakOn_append, ← htext, hlen, show (breakOn mark.2 inner).1.length + 4 =
            2 + ((breakOn mark.2 inner).1.length + 2) from by omega]
      _ = (breakOn mark.2 inner).2.drop 2 := by
          rw [List.drop_length_add_append, List.drop_length_add_append]
  refine ⟨(findText? mark.2 inner).elim (byteLen text) fun p => i + 2 + p + byteLen mark.2, ?_, ?_⟩
  · rw [hrest, findText?_eq]
    by_cases hnil : (breakOn mark.2 inner).2 = []
    · rw [if_pos hnil, hnil]
      exact at_end text
    · obtain ⟨rest, hclosing⟩ := breakOn_eq_append hnil
      have hafter : (mark.2 ++ rest).drop 2 = rest := by
        rw [← hlen']
        exact List.drop_left
      rw [if_neg hnil, hclosing, hafter]
      change At text (i + 2 + byteLen (breakOn mark.2 inner).1 + byteLen mark.2) rest
      have hsplit : inner = (breakOn mark.2 inner).1 ++ (mark.2 ++ rest) := by
        rw [← hclosing, breakOn_append]
      exact (hat.of_eq hsplit).append.append
  · rw [placeholdersFrom_of_at h, hdollar, hfind, if_neg (by simp)]
    simp only
    rw [hdrop]
    rfl

/-- A placeholder starts with a character of one byte, and is not empty. -/
theorem placeholdersFrom_of_some {n : Nat} (h : At text i (c :: cs))
    (hn : Placeholder.length? (c :: cs) = some n) :
    c.utf8Size = 1 ∧ isAsciiBlank c = false ∧ 0 < n ∧ ∃ stop, At text stop ((c :: cs).drop n) ∧
      placeholdersFrom text i = (placeholdersFrom text stop).bind fun later =>
        some (⟨i, stop⟩ :: later) := by
  -- dropping more than there is drops everything
  have hmin : ∀ k, (c :: cs).drop (min (c :: cs).length k) = (c :: cs).drop k := by
    intro k
    rcases Nat.le_total (c :: cs).length k with hle | hle
    · rw [Nat.min_eq_left hle, List.drop_length, List.drop_eq_nil_of_le hle]
    · rw [Nat.min_eq_right hle]
  cases hdollar : after? ['$', '{'] (c :: cs) with
  | some inner =>
    have htext : c :: cs = '$' :: '{' :: inner := eq_append_of_after? hdollar
    obtain ⟨rfl, rfl⟩ := List.cons.inj htext
    rw [Placeholder.length?_of_dollar, Option.some.injEq] at hn
    obtain ⟨stop, hstop, hstep⟩ := placeholdersFrom_of_dollar h
    refine ⟨rfl, rfl, ?_, stop, ?_, hstep⟩
    · rw [← hn, List.length_cons]
      omega
    · rw [← hn, hmin]
      exact hstop
  | none =>
    rw [Placeholder.length?_of_mark hdollar] at hn
    obtain ⟨mark, hfind, hmap⟩ := Option.bind_eq_some_iff.mp hn
    obtain ⟨inner, hinner, hlength⟩ := Option.map_eq_some_iff.mp hmap
    obtain ⟨stop, hstop, hstep⟩ := placeholdersFrom_of_mark h hdollar hfind hinner
    obtain ⟨hlen, _, _, _, hhead⟩ := Placeholder.mem_marks (List.mem_of_find?_eq_some hfind)
    have htext : c :: cs = mark.1 ++ inner := eq_append_of_after? hinner
    have hc : c = '{' ∨ c = '<' := by
      have hfirst : (mark.1 ++ inner).head? = some c := by rw [← htext]; rfl
      rw [List.head?_append] at hfirst
      rcases hhead with hhead | hhead
      · rw [hhead] at hfirst
        exact .inl (Option.some.inj hfirst).symm
      · rw [hhead] at hfirst
        exact .inr (Option.some.inj hfirst).symm
    refine ⟨by rcases hc with rfl | rfl <;> rfl, by rcases hc with rfl | rfl <;> rfl, ?_, stop, ?_,
      hstep⟩
    · rw [← hlength, List.length_cons]
      omega
    · rw [← hlength, hmin]
      exact hstop

/-! ### All placeholders -/

/-- The placeholders found by bytes cut out those found by characters. -/
theorem placeholdersFrom_eq {cur : Cursor} (h : Tracks text base i cur) :
    ∃ found, placeholdersFrom text i = some found ∧
      List.Forall₂ (Cut text base) found (Placeholder.recogniser.scan cur) := by
  induction cur using Cursor.advance_induction generalizing i with
  | atEnd cur hend =>
    have hreaches := h.1
    rw [hend] at hreaches
    refine ⟨[], placeholdersFrom_of_le hreaches.le, ?_⟩
    rw [Recogniser.scan_of_rest_nil hend]
    exact .nil
  | step cur hne ih =>
    obtain ⟨offset, before, rest⟩ := cur
    obtain ⟨c, cs, rfl⟩ := List.exists_cons_of_ne_nil hne
    have hat : At text i (c :: cs) := h.1.at_cons
    obtain rfl : offset = base + i := h.2 hne
    cases hn : Placeholder.length? (c :: cs) with
    | none =>
      have hr : Placeholder.recogniser ⟨base + i, before, c :: cs⟩ = none := by
        rw [Placeholder.recogniser, hn]
        rfl
      rw [placeholdersFrom_of_none hat hn, Recogniser.scan_of_none hne hr]
      exact ih 1 (by decide) (h.advance hat.next.reaches)
    | some n =>
      have hr : Placeholder.recogniser ⟨base + i, before, c :: cs⟩ =
          some (⟨base + i, (c :: cs).take n⟩, n) := by
        rw [Placeholder.recogniser, hn]
        rfl
      obtain ⟨_, _, hpos, stop, hstop, hstep⟩ := placeholdersFrom_of_some hat hn
      obtain ⟨later, hlater, hrel⟩ := ih n hpos (h.advance hstop.reaches)
      refine ⟨⟨i, stop⟩ :: later, ?_, ?_⟩
      · rw [hstep, hlater]
        rfl
      · rw [Recogniser.scan_of_some hne hpos hr]
        have hsplit : c :: cs = (c :: cs).take n ++ (c :: cs).drop n :=
          (List.take_append_drop ..).symm
        exact .cons ⟨rfl, (hat.of_eq hsplit).slice? hstop⟩ hrel

/-- No slice fails in the search for placeholders. -/
theorem placeholders_eq (base : Nat) (text : List Char) :
    ∃ spans, placeholders text = some spans ∧
      List.Forall₂ (Cut text base) spans (Placeholder.all ⟨base, text⟩) :=
  placeholdersFrom_eq (tracks_start base text)

/-- Placeholders are found in order, and each starts with a character of one byte. -/
theorem start_of_mem_placeholdersFrom {found : List Range} (h : At text i cs)
    (hfound : placeholdersFrom text i = some found) :
    ∀ span ∈ found, i ≤ span.start ∧ ∃ b, byteAt? text span.start = some b ∧ b.utf8Size = 1 := by
  induction hlength : cs.length using Nat.strongRecOn generalizing i cs found with
  | _ length ih =>
    subst hlength
    cases cs with
    | nil =>
      rw [placeholdersFrom_of_le h.reaches.le] at hfound
      rw [← Option.some.inj hfound]
      exact fun span hspan => absurd hspan List.not_mem_nil
    | cons c cs =>
      cases hn : Placeholder.length? (c :: cs) with
      | none =>
        rw [placeholdersFrom_of_none h hn] at hfound
        intro span hspan
        obtain ⟨hstart, hbyte⟩ :=
          ih cs.length (by rw [List.length_cons]; omega) h.next hfound rfl span hspan
        exact ⟨by omega, hbyte⟩
      | some n =>
        obtain ⟨hc, _, hpos, stop, hstop, hstep⟩ := placeholdersFrom_of_some h hn
        have hshorter : ((c :: cs).drop n).length < (c :: cs).length := by
          rw [List.length_drop, List.length_cons]
          omega
        -- fewer characters are left at `stop`, so it lies behind `i`
        have hle : i < stop := (h.lt_iff_length hstop).mpr hshorter
        rw [hstep] at hfound
        obtain ⟨later, hlater, hcons⟩ := Option.bind_eq_some_iff.mp hfound
        rw [← Option.some.inj hcons]
        intro span hspan
        rcases List.mem_cons.mp hspan with rfl | hspan
        · exact ⟨Nat.le_refl i, c, h.byteAt? hc, hc⟩
        · obtain ⟨hstart, hbyte⟩ := ih _ hshorter hstop hlater rfl span hspan
          exact ⟨by omega, hbyte⟩

/-! ### The placeholders ahead of a place -/

/-- `Ahead text spans i`: the scan for placeholders finds those of `spans` from offset `i` on that
do not end there or earlier. -/
def Ahead (text : List Char) (spans : List Range) (i : Nat) : Prop :=
  ∃ earlier later, spans = earlier ++ later ∧ placeholdersFrom text i = some later ∧
    ∀ span ∈ earlier, span.start < i ∧ span.stop ≤ i

variable {spans : List Range}

theorem ahead_zero (h : placeholders text = some spans) : Ahead text spans 0 :=
  ⟨[], spans, rfl, h, fun _ hspan => absurd hspan List.not_mem_nil⟩

/-- Where no placeholder begins there is none to be inside of. -/
theorem Ahead.of_none (h : Ahead text spans i) (hat : At text i (c :: cs))
    (hn : Placeholder.length? (c :: cs) = none) :
    Ahead text spans (i + c.utf8Size) ∧
      ∀ span ∈ spans, span.start ≠ i ∧ ¬(span.start ≤ i ∧ i < span.stop) := by
  obtain ⟨earlier, later, rfl, hlater, hearlier⟩ := h
  have hpos := c.utf8Size_pos
  rw [placeholdersFrom_of_none hat hn] at hlater
  refine ⟨⟨earlier, later, rfl, hlater, fun span hspan => ?_⟩, fun span hspan => ?_⟩
  · have hspan' := hearlier span hspan
    omega
  · rcases List.mem_append.mp hspan with hspan | hspan
    · have hspan' := hearlier span hspan
      omega
    · have hspan' := (start_of_mem_placeholdersFrom hat.next hlater span hspan).1
      omega

/-- Where a placeholder begins, its span is the one found there, and the rest lie behind it. -/
theorem Ahead.of_some {n : Nat} (h : Ahead text spans i) (hat : At text i (c :: cs))
    (hn : Placeholder.length? (c :: cs) = some n) :
    ∃ stop, At text stop ((c :: cs).drop n) ∧ Ahead text spans stop ∧
      spans.find? (fun span => span.start == i) = some ⟨i, stop⟩ := by
  obtain ⟨earlier, later, rfl, hlater, hearlier⟩ := h
  obtain ⟨_, _, hpos, stop, hstop, hstep⟩ := placeholdersFrom_of_some hat hn
  have hlt : i < stop := by
    refine (hat.lt_iff_length hstop).mpr ?_
    rw [List.length_drop, List.length_cons]
    omega
  rw [hstep] at hlater
  obtain ⟨rest, hrest, hcons⟩ := Option.bind_eq_some_iff.mp hlater
  obtain rfl := Option.some.inj hcons
  refine ⟨stop, hstop, ⟨earlier ++ [⟨i, stop⟩], rest, ?_, hrest, fun span hspan => ?_⟩, ?_⟩
  · rw [List.append_assoc]
    rfl
  · rcases List.mem_append.mp hspan with hspan | hspan
    · have hspan' := hearlier span hspan
      omega
    · rw [List.mem_singleton.mp hspan]
      exact ⟨hlt, Nat.le_refl stop⟩
  · -- the earlier spans begin before `i`, so the search passes them
    have hnone : earlier.find? (fun span => span.start == i) = none := by
      rw [List.find?_eq_none]
      intro span hspan
      rw [beq_iff_eq]
      exact Nat.ne_of_lt (hearlier span hspan).1
    rw [List.find?_append, hnone, List.find?_cons]
    simp

/-! ### Masked placeholders -/

/-- Characters inside the spans become fillers, one for each byte. -/
theorem maskSpansFrom_append {xs : List Char} (ys : List Char)
    (h : ∀ k, i ≤ k → k < i + byteLen xs →
      (spans.any fun span => span.start ≤ k && k < span.stop) = true) :
    maskSpansFrom spans i (xs ++ ys) =
      (xs.flatMap fun c => List.replicate c.utf8Size Mask.dynamic) ++
        maskSpansFrom spans (i + byteLen xs) ys := by
  induction xs generalizing i with
  | nil => rfl
  | cons c xs ih =>
    have hpos := c.utf8Size_pos
    rw [byteLen_cons] at h
    have hlater := ih (i := i + c.utf8Size) fun k hk hk' => h k (by omega) (by omega)
    have hhere := h i (Nat.le_refl i) (by omega)
    rw [List.cons_append, maskSpansFrom, if_pos hhere, hlater, List.flatMap_cons, List.append_assoc,
      byteLen_cons, Nat.add_assoc]

/-- Masking by spans does what painting the placeholders does. -/
theorem maskSpansFrom_eq (h : Ahead text spans i) (hat : At text i cs) :
    maskSpansFrom spans i cs = (Placeholder.paintFrom 0 cs).flatMap fun (c, inside) =>
      if inside then List.replicate c.utf8Size Mask.dynamic else [c] := by
  induction hlength : cs.length using Nat.strongRecOn generalizing i cs with
  | _ length ih =>
    subst hlength
    cases cs with
    | nil => rfl
    | cons c cs =>
      cases hn : Placeholder.length? (c :: cs) with
      | none =>
        obtain ⟨hahead, houtside⟩ := h.of_none hat hn
        have hnot : (spans.any fun span => span.start ≤ i && i < span.stop) ≠ true := by
          intro hany
          obtain ⟨span, hspan, hcovers⟩ := List.any_eq_true.mp hany
          rw [Bool.and_eq_true, decide_eq_true_eq, decide_eq_true_eq] at hcovers
          exact (houtside span hspan).2 hcovers
        rw [maskSpansFrom, if_neg hnot, Placeholder.paintFrom_of_none hn, List.flatMap_cons,
          ih cs.length (by rw [List.length_cons]; omega) hahead hat.next rfl]
        rfl
      | some n =>
        obtain ⟨stop, hstop, hahead, hfind⟩ := h.of_some hat hn
        obtain ⟨_, _, hpos, _⟩ := placeholdersFrom_of_some hat hn
        have hsplit : c :: cs = (c :: cs).take n ++ (c :: cs).drop n :=
          (List.take_append_drop ..).symm
        have hend : i + byteLen ((c :: cs).take n) = stop := (hat.of_eq hsplit).append.unique hstop
        -- the span covers every byte of the placeholder
        have hcovered : ∀ k, i ≤ k → k < i + byteLen ((c :: cs).take n) →
            (spans.any fun span => span.start ≤ k && k < span.stop) = true := by
          intro k hk hk'
          refine List.any_eq_true.mpr ⟨⟨i, stop⟩, List.mem_of_find?_eq_some hfind, ?_⟩
          rw [hend] at hk'
          rw [Bool.and_eq_true, decide_eq_true_eq, decide_eq_true_eq]
          exact ⟨hk, hk'⟩
        have hrest := ih ((c :: cs).drop n).length
          (by rw [List.length_drop, List.length_cons]; omega)
          hahead hstop rfl
        have hmasked := maskSpansFrom_append ((c :: cs).drop n) hcovered
        rw [List.take_append_drop] at hmasked
        rw [hmasked, hend, hrest, Placeholder.paintFrom_of_some hn hpos, List.flatMap_append,
          List.flatMap_map]
        rfl

/-- Masking the placeholders of a template gives the same text by bytes and by characters. -/
theorem maskPlaceholders_eq (text : List Char) :
    maskPlaceholders text = some (Placeholder.maskAll text) := by
  obtain ⟨spans, hspans, _⟩ := placeholders_eq 0 text
  rw [maskPlaceholders, hspans]
  exact congrArg some (maskSpansFrom_eq (ahead_zero hspans) (at_zero text))

end Bytes

end StyleAudit
