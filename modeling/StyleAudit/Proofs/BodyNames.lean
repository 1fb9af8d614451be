import StyleAudit.Proofs.FlatNames
import StyleAudit.Proofs.MaskedText
import StyleAudit.Proofs.Verdicts

/-!
# Rules inside of bodies

A rule inside of a body is read twice: its selector declares names, and as a part of the body it
refers to them. The two readings cut the text differently. One reads preludes, trimmed and cut at
commas, the other a body as a whole with all braces and semicolons in it. In literal text, without
escapes, attribute selectors and strings, this makes no difference: whether a name stands at a
marker depends on nothing but what follows the marker, up to the next boundary of names.

* **`mem_tokens_of_isLiteral`**: each marker of literal text is read, with what follows it.
* **`mem_tokens_iff_of_cutUntil`**: the names of a piece are the names of the text that start in it,
  if the text goes on after the piece with a boundary of names.
* **`isLiteral_of_mem_mask`**: masking takes all quotes out of a text without escapes.
* **`nested_declarations_are_references`** compares the two readings of a stylesheet.
-/

namespace StyleAudit

open Text

/-! ### Names of literal text -/

/-- Without escapes, no boundary character stands inside a name. -/
theorem not_isNameBoundary_of_mem_takeName {cs : List Char} {c : Char} (hcs : '\\' ∉ cs)
    (h : c ∈ (takeName cs).1) : ¬isNameBoundary c = true := by
  fun_induction takeName cs with
  | case1 => exact absurd h List.not_mem_nil
  | case2 => exact absurd List.mem_cons_self hcs
  | case3 d cs _ => exact absurd List.mem_cons_self hcs
  | case4 d cs _ _ _ => exact absurd h List.not_mem_nil
  | case5 d cs _ _ hboundary ih =>
    rcases List.mem_cons.mp h with rfl | h
    · exact hboundary
    · exact ih (fun hmem => hcs (List.mem_cons_of_mem d hmem)) h

/-- A name ends before the next marker. -/
theorem length_takeName_le {front rest : List Char} {kind : NameKind}
    (h : '\\' ∉ front ++ kind.marker :: rest) :
    (takeName (front ++ kind.marker :: rest)).1.length ≤ front.length := by
  by_contra hlt
  have hmem : kind.marker ∈ (takeName (front ++ kind.marker :: rest)).1 := by
    rw [← take_takeName, List.take_append, List.mem_append]
    right
    obtain ⟨n, hn⟩ := Nat.exists_eq_add_of_lt (Nat.not_le.mp hlt)
    rw [hn, show front.length + n + 1 - front.length = n + 1 by omega, List.take_succ_cons]
    exact List.mem_cons_self
  apply not_isNameBoundary_of_mem_takeName h hmem
  cases kind <;> decide

/-- Each marker of literal text is read. The scan goes from one marker to the next, since no name
holds a marker. -/
theorem mem_scan_of_isLiteral {cur : Cursor} {front rest : List Char} {kind : NameKind}
    (hrest : cur.rest = front ++ kind.marker :: rest)
    (hliteral : ∀ c ∈ cur.rest, isLiteral c = true) :
    Token.ofRaw? (cur.offset + byteLen front) kind
      (takeName rest).1 ∈ tokenRecogniser.scan cur := by
  induction cur using Cursor.advance_induction generalizing front with
  | atEnd cur hend =>
    rw [hend] at hrest
    exact absurd hrest (by simp)
  | step cur hne ih =>
    obtain ⟨offset, before, text⟩ := cur
    obtain rfl : text = front ++ kind.marker :: rest := hrest
    cases front with
    | nil =>
      have hr := tokenRecogniser_of_isLiteral (hliteral _ List.mem_cons_self) offset before rest
      rw [show NameKind.ofMarker? kind.marker = some kind by cases kind <;> rfl] at hr
      rw [Recogniser.scan_of_some hne (by omega) hr]
      exact List.mem_cons_self
    | cons c front =>
      have hr := tokenRecogniser_of_isLiteral (hliteral c List.mem_cons_self) offset before
        (front ++ kind.marker :: rest)
      -- the marker comes after the next `n + 1` characters
      have hlater : ∀ n, n ≤ front.length →
          Token.ofRaw? (offset + byteLen (c :: front)) kind (takeName rest).1 ∈ tokenRecogniser.scan
            (Cursor.advance (1 + n) ⟨offset, before, c :: front ++ kind.marker :: rest⟩) := by
        intro n hn
        have hdrop : (c :: front ++ kind.marker :: rest).drop (1 + n) =
            front.drop n ++ kind.marker :: rest := by
          rw [Nat.add_comm, List.cons_append, List.drop_succ_cons, List.drop_append_of_le_length hn]
        have htake : (c :: front ++ kind.marker :: rest).take (1 + n) = c :: front.take n := by
          rw [Nat.add_comm, List.cons_append, List.take_succ_cons, List.take_append_of_le_length hn]
        have hmem := ih (1 + n) (by omega) hdrop fun d hd => hliteral d (List.mem_of_mem_drop hd)
        have hlength : byteLen (front.take n) + byteLen (front.drop n) = byteLen front := by
          rw [← byteLen_append, List.take_append_drop]
        have hoffset : offset + byteLen (c :: front.take n) + byteLen (front.drop n) =
            offset + byteLen (c :: front) := by
          rw [byteLen_cons, byteLen_cons]
          omega
        rw [Cursor.advance] at hmem
        simp only [htake, hoffset] at hmem
        rw [Cursor.advance, htake]
        exact hmem
      -- either `c` is passed alone, or with the name it opens, which ends before the next marker
      cases hkind : NameKind.ofMarker? c with
      | none =>
        rw [hkind] at hr
        rw [Recogniser.scan_of_none hne hr]
        exact hlater 0 (by omega)
      | some other =>
        rw [hkind] at hr
        rw [Recogniser.scan_of_some hne (by omega) hr]
        apply List.mem_cons_of_mem
        apply hlater
        apply length_takeName_le
        exact fun h => (isLiteral_iff.mp (hliteral _ (List.mem_cons_of_mem c h))).1 rfl

/-- In literal text every marker with a name behind it gives a token. -/
theorem mem_tokens_of_isLiteral {s : Slice} {front rest : List Char} {kind : NameKind} {t : Token}
    (htext : s.text = front ++ kind.marker :: rest) (hliteral : ∀ c ∈ s.text, isLiteral c = true)
    (ht : Token.ofRaw? (s.offset + byteLen front) kind (takeName rest).1 = some t) :
    t ∈ tokens s := by
  have hscan : Token.ofRaw? (s.offset + byteLen front) kind (takeName rest).1 ∈
      tokenRecogniser.scan (.start s) := mem_scan_of_isLiteral htext hliteral
  rw [ht] at hscan
  exact List.mem_filterMap.mpr ⟨some t, hscan, rfl⟩

/-! ### Names of a piece -/

/-- A piece of literal text that cuts no name has just the names that start in it. -/
theorem mem_tokens_iff_of_cutUntil {s t : Slice}
    (hcut : s.CutUntil (fun c => isNameBoundary c = true) t)
    (hliteral : ∀ c ∈ t.text, isLiteral c = true) {x : Token} :
    x ∈ tokens s ↔ x ∈ tokens t ∧ s.Covers x.offset := by
  obtain ⟨before, after, htext, hoffset, _, hafter⟩ := hcut
  have hs : ∀ c ∈ s.text, isLiteral c = true := by
    intro c hc
    apply hliteral
    rw [htext]
    exact List.mem_append_left _ (List.mem_append_right _ hc)
  -- the piece ends where names end, so no name reaches over its end
  have hname : ∀ {front rest : List Char} {kind : NameKind}, s.text = front ++ kind.marker :: rest →
      (takeName (rest ++ after)).1 = (takeName rest).1 := by
    intro front rest kind hsplit
    rw [takeName_append_of_endsName _ hafter]
    intro hmem
    refine (isLiteral_iff.mp (hs '\\' ?_)).1 rfl
    rw [hsplit]
    exact List.mem_append_right _ (List.mem_cons_of_mem _ hmem)
  constructor
  · intro hx
    have hbounds := (tokens_ordered s).2 x hx
    obtain ⟨front, kind, rest, hsplit, _, hraw⟩ := exists_of_mem_tokens hx
    refine ⟨?_, hbounds.1, ?_⟩
    · have htext' : t.text = before ++ front ++ kind.marker :: (rest ++ after) := by
        rw [htext, hsplit]
        simp only [List.append_assoc, List.cons_append]
      apply mem_tokens_of_isLiteral htext' hliteral
      rw [hname hsplit, byteLen_append, ← Nat.add_assoc, ← hoffset]
      exact hraw
    · unfold Token.stop at hbounds
      omega
  · rintro ⟨hx, hstart, hstop⟩
    obtain ⟨front, kind, rest, hsplit, _, hraw⟩ := exists_of_mem_tokens hx
    have hplace : x.offset = t.offset + byteLen front := by
      obtain ⟨rfl, _⟩ := Token.ofRaw?_eq_some hraw
      rfl
    -- the marker stands in the piece
    rw [htext, List.append_assoc] at hsplit
    obtain ⟨inner, rfl, hinner⟩ := exists_append_of_byteLen_le hsplit (by omega)
    rw [byteLen_append] at hplace
    have hlt : byteLen inner < byteLen s.text := by
      unfold Slice.stop at hstop
      omega
    obtain ⟨back, hback, hrest⟩ := exists_append_of_byteLen_le hinner.symm (Nat.le_of_lt hlt)
    cases back with
    | nil =>
      rw [hback, List.append_nil] at hlt
      exact absurd hlt (Nat.lt_irrefl _)
    | cons c back =>
      obtain ⟨rfl, rfl⟩ := List.cons.inj hrest
      apply mem_tokens_of_isLiteral hback hs
      rw [← hname hback, hoffset, Nat.add_assoc, ← byteLen_append]
      exact hraw

/-! ### Masked text without escapes -/

namespace Mask

/-- What is no filler in the masked text stands in the text. -/
theorem mem_of_mem_renderFrom {s : State} {cs : List Char} {m : Char} (h : m ∈ renderFrom s cs)
    (hspace : m ≠ ' ') (hdynamic : m ≠ dynamic) : m ∈ cs := by
  obtain ⟨front, rest, hsplit⟩ := List.append_of_mem h
  obtain ⟨front', rest', rfl, _⟩ := exists_front_of_renderFrom hsplit hspace hdynamic
  simp

/-- Without escapes no quote is left. -/
theorem not_isQuote_of_mem_mask {css : List Char} {m : Char} (hcss : '\\' ∉ css)
    (h : m ∈ mask css) :
    ¬isQuote m = true := by
  intro hquote
  have hm : m ≠ ' ' ∧ m ≠ dynamic ∧ m ≠ '\n' ∧ m ≠ '\\' := by
    refine ⟨?_, ?_, ?_, ?_⟩ <;>
      · rintro rfl
        exact absurd hquote (by decide)
  obtain ⟨hspace, hdynamic, hnewline, hbackslash⟩ := hm
  obtain ⟨mf, ms, hsplit⟩ := List.append_of_mem h
  obtain ⟨front, rest, rfl, hbefore, hfrom⟩ := exists_front_of_renderFrom hsplit hspace hdynamic
  -- the quote is kept, outside of an escape, so it is code
  have hescape : (stateAfter .start front (m :: rest)).mode ≠ .escaped := by
    have hdecide := mode_stateAfter_eq_escaped .start front (m :: rest)
    have hnone : '\\' ∉ mf := by
      intro hmem
      have hmask : '\\' ∈ mask (front ++ m :: rest) := by
        rw [hsplit]
        exact List.mem_append_left _ hmem
      exact hcss (mem_of_mem_renderFrom hmask (by decide) (by decide))
    rw [hbefore] at hdecide
    exact of_decide_eq_false (hdecide.trans (endsEscaped_of_not_mem hnone))
  generalize stateAfter .start front (m :: rest) = s at hescape hfrom
  obtain ⟨rest', _, hkeep, _⟩ := renderFrom_eq_cons hfrom hspace hdynamic
  have hcode := (mode_of_keep hkeep hnewline).resolve_right hescape
  obtain ⟨mode, parens⟩ := s
  obtain rfl : mode = .code := hcode
  exact (opensNothing_of_keep hkeep hbackslash).quoted hquote

/-- A stylesheet without backslashes and brackets is literal once it is masked. -/
theorem isLiteral_of_mem_mask {css : List Char} (hbackslash : '\\' ∉ css) (hbracket : '[' ∉ css) :
    ∀ c ∈ mask css, isLiteral c = true := by
  intro c hc
  refine isLiteral_iff.mpr ⟨?_, ?_, ?_⟩
  · rintro rfl
    exact hbackslash (mem_of_mem_renderFrom hc (by decide) (by decide))
  · rintro rfl
    exact hbracket (mem_of_mem_renderFrom hc (by decide) (by decide))
  · intro hquote
    apply not_isQuote_of_mem_mask hbackslash hc
    rcases hquote with rfl | rfl <;> rfl

end Mask

/-! ### The two readings of a stylesheet -/

namespace Stylesheet

variable {css : List Char}

/-- Declared names are read from pieces that cut no name, if only ASCII blanks are trimmed. -/
theorem cutUntil_of_mem_branches (hblank : ∀ c ∈ css, isBlank c = true → isAsciiBlank c = true)
    {prelude branch : Slice} (hprelude : prelude ∈ preludes (.ofText css))
    (hbranch : branch ∈ branches prelude) :
    branch.CutUntil (fun c => isNameBoundary c = true) ⟨0, mask css⟩ := by
  -- a blank in the masked text is a filler or was one of the text's own, hence an ASCII one
  have hmasked : ∀ c ∈ mask css, isBlank c = true → isNameBoundary c = true := by
    intro c hc hc'
    by_cases hspace : c = ' '
    · rw [hspace]
      decide
    · have hdynamic : c ≠ Mask.dynamic := by
        rintro rfl
        exact absurd hc' (by decide)
      have hascii := hblank c (Mask.mem_of_mem_renderFrom hc hspace hdynamic) hc'
      rw [isNameBoundary, hascii, Bool.true_or]
  obtain ⟨segment, hsegment, hsome⟩ := List.mem_filterMap.mp hprelude
  have hstretch : segment.slice.CutUntil (fun c => isNameBoundary c = true) ⟨0, mask css⟩ := by
    refine ((partsUntil_segments ⟨0, mask css⟩).cut _ (List.mem_map_of_mem hsegment)).mono ?_
    rintro c - (rfl | rfl | rfl) <;> decide
  have htrimmed : prelude.CutUntil (fun c => isNameBoundary c = true) segment.slice := by
    refine (cutUntil_of_prelude? hsome).mono fun c hc => hmasked c ?_
    obtain ⟨before, after, htext, _⟩ := hstretch
    show c ∈ mask css
    change mask css = _ at htext
    rw [htext]
    exact List.mem_append_left _ (List.mem_append_right _ hc)
  have hlist : branch.CutUntil (fun c => isNameBoundary c = true) prelude := by
    refine ((partsUntil_branches prelude).cut branch hbranch).mono ?_
    rintro c - rfl
    decide
  exact hlist.trans (htrimmed.trans hstretch)

/-- `IsNested css offset`: the byte at the offset lies in a body. -/
def IsNested (css : List Char) (offset : Nat) : Prop := ∃ body ∈ bodies css, body.Covers offset

instance (css : List Char) (offset : Nat) : Decidable (IsNested css offset) :=
  List.decidableBEx _ _

/-- A declaration that stands in a body is also read as a part of the body. -/
theorem mem_bodyTokens_of_isNested (hbackslash : '\\' ∉ css) (hbracket : '[' ∉ css)
    (hblank : ∀ c ∈ css, isBlank c = true → isAsciiBlank c = true) {t : Token}
    (ht : t ∈ declaredTokens (.ofText css)) (hnested : IsNested css t.offset) :
    t ∈ bodyTokens css := by
  have hliteral := Mask.isLiteral_of_mem_mask hbackslash hbracket
  obtain ⟨prelude, hprelude, ht⟩ := List.mem_flatMap.mp ht
  obtain ⟨branch, hbranch, ht⟩ := List.mem_flatMap.mp ht
  -- the token is read off the whole masked text first, then off the body that covers it
  have hwhole : t ∈ tokens ⟨0, mask css⟩ :=
    ((mem_tokens_iff_of_cutUntil (cutUntil_of_mem_branches hblank hprelude hbranch) hliteral).mp
      ht).1
  obtain ⟨body, hbody, hcovers⟩ := hnested
  have hcut : body.CutUntil (fun c => isNameBoundary c = true) ⟨0, mask css⟩ := by
    refine ((partsUntil_bodies css).cut body hbody).mono ?_
    rintro c - rfl
    decide
  exact List.mem_flatMap.mpr
    ⟨body, hbody, (mem_tokens_iff_of_cutUntil hcut hliteral).mpr ⟨hwhole, hcovers⟩⟩

/-- A name counts as referred to when some token of a rule body has its label. -/
theorem contains_namesInBodies_iff (css : List Char) (t : Token) :
    (namesInBodies css).contains t.kind t.name = true ↔
      ∃ x ∈ bodyTokens css, x.label = t.label := by
  unfold namesInBodies Names.addTokens
  rw [Names.contains_foldl_insert, Names.contains_empty, Bool.false_or, List.any_eq_true]
  simp [Token.label]

/-- **Declarations in bodies are references.** Take a stylesheet without backslashes, without square
brackets and without blanks other than the ASCII ones. A declaration that stands in a body is found
in the body, as the same name at the same place. So what is reported as unused are the declarations
outside of all bodies whose names occur in no body, in order, and never a declaration in a body. -/
theorem nested_declarations_are_references (css : List Char) (hbackslash : '\\' ∉ css)
    (hbracket : '[' ∉ css) (hblank : ∀ c ∈ css, isBlank c = true → isAsciiBlank c = true) :
    let unused := unusedWarnings (selectors css) (namesInBodies css)
    (∀ s ∈ selectors css, IsNested css s.offset → s.toToken ∈ bodyTokens css) ∧
    unused = ((selectors css).filter fun s =>
      ¬IsNested css s.offset ∧ ∀ t ∈ bodyTokens css, t.label ≠ s.label).map Selector.unusedWarning ∧
    ∀ s ∈ selectors css, IsNested css s.offset → s.unusedWarning ∉ unused := by
  intro unused
  have hnested : ∀ s ∈ selectors css, IsNested css s.offset → s.toToken ∈ bodyTokens css := by
    intro s hs hoffset
    obtain ⟨t, ht, rfl⟩ := List.mem_map.mp hs
    exact mem_bodyTokens_of_isNested hbackslash hbracket hblank ht hoffset
  have hunused : unused = ((selectors css).filter fun s =>
      ¬IsNested css s.offset ∧ ∀ t ∈ bodyTokens css, t.label ≠ s.label).map
        Selector.unusedWarning := by
    apply congrArg (List.map Selector.unusedWarning)
    apply List.filter_congr
    intro s hs
    rw [Bool.eq_iff_iff, Bool.not_eq_true', Bool.eq_false_iff, ne_eq, contains_namesInBodies_iff,
      decide_eq_true_iff]
    constructor
    · intro hnone
      refine ⟨fun hoffset => hnone ⟨_, hnested s hs hoffset, rfl⟩, fun t ht hlabel => ?_⟩
      exact hnone ⟨t, ht, hlabel⟩
    · rintro ⟨_, hnone⟩ ⟨t, ht, hlabel⟩
      exact hnone t ht hlabel
  refine ⟨hnested, hunused, fun s _ hoffset hmem => ?_⟩
  -- a warning tells the offset of its declaration
  rw [hunused] at hmem
  obtain ⟨s', hs', hwarning⟩ := List.mem_map.mp hmem
  have hsame : s'.offset = s.offset := Nat.add_right_cancel (congrArg Diagnostic.offset hwarning)
  have houtside := (of_decide_eq_true (List.mem_filter.mp hs').2).1
  rw [hsame] at houtside
  exact houtside hoffset

/-- A brace too many, a comment between a nested name and the comma after it, an interpolation, and
a body that is not closed. -/
theorem nested_declarations_are_references_unclosed :
    let css := "\x7d.a, .b\x7b .c/*;*/ ,#d#\x7bx\x7d .a\x7b\x7d \x7d .e\x7b @extend .b;".toList
    let nested : Selector := ⟨⟨9, .className, "c", 1⟩, ⟨0, 9⟩⟩
    let outside : Selector := ⟨⟨32, .className, "e", 1⟩, ⟨0, 32⟩⟩
    nested ∈ selectors css ∧ IsNested css nested.offset ∧ nested.toToken ∈ bodyTokens css ∧
      unusedWarnings (selectors css) (namesInBodies css) = [outside.unusedWarning] ∧
      nested.unusedWarning ∉ unusedWarnings (selectors css) (namesInBodies css) := by
  intro css nested outside
  have hblank : ∀ c ∈ css, isBlank c = true → isAsciiBlank c = true := by
    have hall : (css.all fun c => !isBlank c || isAsciiBlank c) = true := by decide +kernel
    intro c hc hc'
    have hascii := List.all_eq_true.mp hall c hc
    rwa [hc', Bool.not_true, Bool.false_or] at hascii
  obtain ⟨hreferred, hunused, hsilent⟩ :=
    nested_declarations_are_references css (by decide +kernel) (by decide +kernel) hblank
  have hmem : nested ∈ selectors css := by decide +kernel
  have hnested : IsNested css nested.offset := by decide +kernel
  refine ⟨hmem, hnested, hreferred _ hmem hnested, hunused.trans ?_, hsilent _ hmem hnested⟩
  decide +kernel

end Stylesheet

end StyleAudit
