import StyleAudit.Proofs.DeclarationPlaces
import StyleAudit.Proofs.LinePositions

/-!
# Stylesheets that are cut off

A long stylesheet is read up to some character only. Wherever it is cut, in the middle of a comment,
a string, an escape or a name, what is declared before the cut is what the whole stylesheet declares
there. Masking looks one character ahead, so the last character before the cut may be masked
differently; but that character is never a brace, and a prelude counts only once its brace has been
read.

* **`Mask.renderFrom_append_agrees`** compares the masked texts: up to the last open brace before
  the cut they are the same.
* **`Stylesheet.filterMap_prelude?_append`** compares the preludes. All those that come after the
  cut stand behind every open brace before it.
* **`truncation_drops_tail`** says which declarations are left.
-/

namespace StyleAudit

open Text

namespace Mask

/-! ### Masked text before a cut -/

/-- The look-ahead does not matter at a brace. -/
theorem step_openBrace (s : State) (next next' : Option Char) :
    step s '{' next = step s '{' next' := by
  obtain ⟨mode, parens⟩ := s
  cases mode with
  | code => simp [step, stepCode, isQuote, isInterpolationMark]
  | blockComment => simp [step]
  | _ => rfl

/-- Masking never makes an opening brace. -/
theorem openBrace_not_mem_apply {c : Char} (hc : c ≠ '{') (p : Paint) : '{' ∉ p.apply c := by
  intro hmem
  by_cases hkeep : p = .keep
  · subst hkeep
    exact hc (List.mem_singleton.mp hmem).symm
  · obtain ⟨filler, hfiller, happly⟩ := apply_eq_replicate hkeep c
    rw [happly] at hmem
    rw [← List.eq_of_mem_replicate hmem] at hfiller
    exact absurd hfiller (by decide)

/-- Masked text before a cut, and the same text without the cut. -/
theorem renderFrom_append_agrees (s : State) (front rest : List Char) :
    ∃ common tail tail', renderFrom s front = common ++ tail ∧
      renderFrom s (front ++ rest) = common ++ tail' ∧ '{' ∉ tail := by
  induction front generalizing s with
  | nil => exact ⟨[], [], renderFrom s rest, rfl, rfl, List.not_mem_nil⟩
  | cons c front ih =>
    cases front with
    | nil =>
      -- only the last character before the cut sees what follows
      rw [List.singleton_append, renderFrom_cons, renderFrom_cons, renderFrom_nil, List.append_nil]
      by_cases hc : c = '{'
      · subst hc
        rw [step_openBrace s rest.head? none]
        exact ⟨_, [], _, (List.append_nil _).symm, rfl, List.not_mem_nil⟩
      · exact ⟨[], _, _, rfl, rfl, openBrace_not_mem_apply hc _⟩
    | cons d front =>
      obtain ⟨common, tail, tail', hfront, hwhole, htail⟩ := ih (step s c (some d)).1
      refine ⟨(step s c (some d)).2.apply c ++ common, tail, tail', ?_, ?_, htail⟩
      · rw [renderFrom_cons, List.head?_cons, hfront, List.append_assoc]
      · rw [List.cons_append, renderFrom_cons, List.cons_append, List.head?_cons,
          ← List.cons_append, hwhole, List.append_assoc]

end Mask

namespace Stylesheet

/-! ### Preludes before a cut -/

/-- Without an opening brace there is no prelude. -/
theorem filterMap_prelude?_of_not_mem {cs : List Char} (h : '{' ∉ cs) (start : Nat)
    (stretch : List Char) : (segmentsFrom start stretch cs).filterMap Segment.prelude? = [] := by
  induction cs generalizing start stretch with
  | nil => rfl
  | cons c cs ih =>
    have hc : c ≠ '{' := fun heq => h (by simp [heq])
    have hcs : '{' ∉ cs := fun hmem => h (List.mem_cons_of_mem c hmem)
    unfold segmentsFrom
    split
    · rw [List.filterMap_cons, Segment.prelude?_of_closer_ne (fun heq => hc (Option.some.inj heq))]
      exact ih hcs _ _
    · exact ih hcs _ _

/-- A prelude found from `start` on does not begin before it. -/
theorem offset_le_of_mem_preludes {start : Nat} {stretch cs : List Char} {prelude : Slice}
    (h : prelude ∈ (segmentsFrom start stretch cs).filterMap Segment.prelude?) :
    start ≤ prelude.offset := by
  obtain ⟨segment, hsegment, hsome⟩ := List.mem_filterMap.mp h
  have hsegment' := (partsUntil_segmentsFrom start stretch cs).parts.cut _
    (List.mem_map_of_mem hsegment)
  have hstart : start ≤ segment.slice.offset := hsegment'.bounds.1
  have hprelude := (cutFrom_of_prelude? hsome).bounds.1
  omega

/-- The preludes that a common front has come first. All others stand behind its open braces. -/
theorem filterMap_prelude?_append (start : Nat) (stretch common tail' : List Char)
    {tail : List Char}
    (htail : '{' ∉ tail) :
    ∃ later, (segmentsFrom start stretch (common ++ tail')).filterMap Segment.prelude? =
        (segmentsFrom start stretch (common ++ tail)).filterMap Segment.prelude? ++ later ∧
      ∀ prelude ∈ later, ∀ before after, common ++ tail = before ++ '{' :: after →
        start + byteLen stretch + byteLen before < prelude.offset := by
  induction common generalizing start stretch with
  | nil =>
    refine ⟨(segmentsFrom start stretch tail').filterMap Segment.prelude?, ?_, ?_⟩
    · rw [List.nil_append, List.nil_append, filterMap_prelude?_of_not_mem htail, List.nil_append]
    · intro prelude _ before after hsplit
      rw [List.nil_append] at hsplit
      exact absurd (by rw [hsplit]; simp) htail
  | cons c common ih =>
    by_cases hseparator : c = '{' ∨ c = '}' ∨ c = ';'
    · -- the stretch ends here, so what comes later starts after `c`
      obtain ⟨later, hpreludes, hlater⟩ := ih (start + byteLen stretch + 1) []
      refine ⟨later, ?_, ?_⟩
      · rw [List.cons_append, List.cons_append, segmentsFrom, segmentsFrom, if_pos hseparator,
          if_pos hseparator, List.filterMap_cons, List.filterMap_cons, hpreludes]
        split <;> rfl
      · intro prelude hprelude before after hsplit
        have hmem : prelude ∈ (segmentsFrom (start + byteLen stretch + 1) []
            (common ++ tail')).filterMap Segment.prelude? := by
          rw [hpreludes]
          exact List.mem_append_right _ hprelude
        have hstart := offset_le_of_mem_preludes hmem
        cases before with
        | nil =>
          rw [byteLen_nil]
          omega
        | cons b before =>
          obtain ⟨rfl, hrest⟩ := List.cons.inj hsplit
          have hbound := hlater prelude hprelude before after hrest
          have hsize : c.utf8Size = 1 := by rcases hseparator with rfl | rfl | rfl <;> rfl
          rw [byteLen_nil] at hbound
          rw [byteLen_cons, hsize]
          omega
    · -- `c` joins the stretch, and so is no brace
      obtain ⟨later, hpreludes, hlater⟩ := ih start (c :: stretch)
      refine ⟨later, ?_, ?_⟩
      · rw [List.cons_append, List.cons_append, segmentsFrom, segmentsFrom, if_neg hseparator,
          if_neg hseparator, hpreludes]
      · intro prelude hprelude before after hsplit
        cases before with
        | nil => exact absurd (Or.inl (List.cons.inj hsplit).1) hseparator
        | cons b before =>
          obtain ⟨rfl, hrest⟩ := List.cons.inj hsplit
          have hbound := hlater prelude hprelude before after hrest
          rw [byteLen_cons] at hbound ⊢
          omega

/-- A stretch is followed by the character that ends it. -/
theorem exists_of_closer {start : Nat} {stretch cs : List Char} {segment : Segment} {c : Char}
    (h : segment ∈ segmentsFrom start stretch cs) (hcloser : segment.closer = some c) :
    ∃ before after, stretch.reverse ++ cs = before ++ segment.slice.text ++ c :: after ∧
      segment.slice.offset = start + byteLen before := by
  induction cs generalizing start stretch with
  | nil =>
    rw [List.mem_singleton.mp h] at hcloser
    exact absurd hcloser (by simp)
  | cons d cs ih =>
    unfold segmentsFrom at h
    split at h
    · next hseparator =>
      rcases List.mem_cons.mp h with rfl | h
      · obtain rfl : d = c := Option.some.inj hcloser
        exact ⟨[], cs, rfl, rfl⟩
      · obtain ⟨before, after, hsplit, hoffset⟩ := ih h
        have hsize : d.utf8Size = 1 := by rcases hseparator with rfl | rfl | rfl <;> rfl
        refine ⟨stretch.reverse ++ d :: before, after, ?_, ?_⟩
        · rw [List.reverse_nil, List.nil_append] at hsplit
          rw [hsplit]
          simp only [List.append_assoc, List.cons_append]
        · rw [hoffset, byteLen_append, byteLen_reverse, byteLen_cons, hsize]
          omega
    · -- `d` joins the stretch; it is already counted in `before ++ segment.slice.text`
      obtain ⟨before, after, hsplit, hoffset⟩ := ih h
      refine ⟨before, after, ?_, hoffset⟩
      rw [← hsplit, List.reverse_cons, List.append_assoc]
      rfl

/-- A segment that is a prelude is closed by an opening brace. -/
theorem closer_of_prelude? {segment : Segment} {prelude : Slice}
    (h : segment.prelude? = some prelude) : segment.closer = some '{' := by
  by_contra hne
  rw [Segment.prelude?_of_closer_ne hne] at h
  exact absurd h (by simp)

/-- `BraceAfter css offset`: some open brace of code stands after the offset. -/
def BraceAfter (css : List Char) (offset : Nat) : Prop :=
  ∃ before after, mask css = before ++ '{' :: after ∧ offset < byteLen before

/-- A declaration is followed by the brace of its rule. -/
theorem braceAfter_of_mem_declaredTokens {css : List Char} {t : Token}
    (h : t ∈ declaredTokens (.ofText css)) : BraceAfter css t.offset := by
  obtain ⟨prelude, hprelude, h⟩ := List.mem_flatMap.mp h
  obtain ⟨branch, hbranch, h⟩ := List.mem_flatMap.mp h
  obtain ⟨segment, hsegment, hsome⟩ := List.mem_filterMap.mp hprelude
  obtain ⟨before, after, hsplit, hoffset⟩ := exists_of_closer hsegment (closer_of_prelude? hsome)
  refine ⟨before ++ segment.slice.text, after, hsplit, ?_⟩
  -- token, branch, prelude and segment each lie inside the next one
  have htoken := ((tokens_ordered branch).2 t h).2
  have hbranch' := ((parts_branches prelude).cut branch hbranch).bounds.2
  have hprelude' := (cutFrom_of_prelude? hsome).bounds.2
  have hstop : segment.slice.stop = byteLen (before ++ segment.slice.text) := by
    rw [Slice.stop, hoffset, byteLen_append]
    show 0 + byteLen before + _ = _
    omega
  unfold Token.stop at htoken
  omega

/-! ### Declarations before a cut -/

/-- The names before a cut come first, and all others stand behind the braces before it. -/
theorem declaredTokens_append (front rest : List Char) :
    ∃ later, declaredTokens (.ofText (front ++ rest)) = declaredTokens (.ofText front) ++ later ∧
      ∀ t ∈ later, ¬BraceAfter front t.offset := by
  obtain ⟨common, tail, tail', hfront, hwhole, htail⟩ :=
    Mask.renderFrom_append_agrees .start front rest
  obtain ⟨later, hpreludes, hlater⟩ := filterMap_prelude?_append 0 [] common tail' htail
  rw [← hfront, ← hwhole] at hpreludes
  refine ⟨later.flatMap preludeTokens, ?_, ?_⟩
  · show (List.filterMap _ _).flatMap preludeTokens =
        (List.filterMap _ _).flatMap preludeTokens ++ _
    rw [← List.flatMap_append]
    exact congrArg (List.flatMap preludeTokens) hpreludes
  · -- a later token lies in a prelude that begins after every brace of the front
    rintro t ht ⟨before, after, hsplit, hlt⟩
    obtain ⟨prelude, hprelude, ht⟩ := List.mem_flatMap.mp ht
    obtain ⟨branch, hbranch, ht⟩ := List.mem_flatMap.mp ht
    have hbrace := hlater prelude hprelude before after (hfront.symm.trans hsplit)
    have hbranch' := ((parts_branches prelude).cut branch hbranch).bounds.1
    have htoken := ((tokens_ordered branch).2 t ht).1
    rw [byteLen_nil] at hbrace
    omega

/-- What follows a text does not change positions in it. -/
theorem locate_append {front : List Char} (rest : List Char) {t : Token}
    (h : t ∈ declaredTokens (.ofText front)) :
    locate (.ofText (front ++ rest)) t = locate (.ofText front) t := by
  unfold locate
  rw [LineIndex.position?_append rest (lt_byteLen_of_mem_declaredTokens h)]

/-- What is declared in the front of a stylesheet is declared first in the whole, and what comes
after it has no brace of the front behind it. -/
theorem selectors_append (front rest : List Char) :
    ∃ later, selectors (front ++ rest) = selectors front ++ later ∧
      ∀ s ∈ later, ¬BraceAfter front s.offset := by
  obtain ⟨later, htokens, hlater⟩ := declaredTokens_append front rest
  refine ⟨later.map (locate (.ofText (front ++ rest))), ?_, ?_⟩
  · unfold selectors selectorsAt
    rw [htokens, List.map_append]
    congr 1
    exact List.map_congr_left fun t ht => locate_append rest ht
  · intro s hs
    obtain ⟨t, ht, rfl⟩ := List.mem_map.mp hs
    exact hlater t ht

/-- A declared selector stands before the brace of its rule. -/
theorem braceAfter_of_mem_selectors {css : List Char} {s : Selector} (h : s ∈ selectors css) :
    BraceAfter css s.offset := by
  obtain ⟨t, ht, rfl⟩ := List.mem_map.mp h
  exact braceAfter_of_mem_declaredTokens ht

end Stylesheet

open Stylesheet in
/-- **Cutting a stylesheet off drops declarations from the end.** Wherever the cut is, the
declarations of the front come first among those of the whole, each with the same name, place, line
and column. What is dropped are the declarations of rules whose brace is cut off. In particular this
holds for the first characters up to a limit. -/
theorem truncation_drops_tail :
    (∀ (css : List Char) (limit : Nat), selectors (truncate limit css).1 <+: selectors css) ∧
    ∀ front rest : List Char, selectors front <+: selectors (front ++ rest) ∧
      ∀ s ∈ selectors (front ++ rest), s ∈ selectors front ↔ BraceAfter front s.offset := by
  have hinitial : ∀ front rest : List Char, selectors front <+: selectors (front ++ rest) := by
    intro front rest
    obtain ⟨later, happend, _⟩ := selectors_append front rest
    exact ⟨later, happend.symm⟩
  refine ⟨fun css limit => ?_, fun front rest => ⟨hinitial front rest, fun s hs => ?_⟩⟩
  · have hcut := hinitial (css.take limit) (css.drop limit)
    rw [List.take_append_drop] at hcut
    exact hcut
  · refine ⟨braceAfter_of_mem_selectors, fun hbrace => ?_⟩
    obtain ⟨later, happend, hlater⟩ := selectors_append front rest
    rw [happend] at hs
    rcases List.mem_append.mp hs with hs | hs
    · exact hs
    · exact absurd hbrace (hlater s hs)

/-- A cut between the two characters that open a comment, right after a name. -/
theorem truncation_drops_tail_in_comment :
    let front := ".é\x7b\x7d\n#b.c/".toList
    let rest := "* ; */, .d\x7b\x7d".toList
    let first : Selector := ⟨⟨0, .className, "é", 2⟩, ⟨0, 0⟩⟩
    let second : Selector := ⟨⟨6, .idName, "b", 1⟩, ⟨1, 0⟩⟩
    Stylesheet.selectors front <+: Stylesheet.selectors (front ++ rest) ∧
      first ∈ Stylesheet.selectors front ∧ Stylesheet.BraceAfter front first.offset ∧
      second ∈ Stylesheet.selectors (front ++ rest) ∧ second ∉ Stylesheet.selectors front ∧
      ¬Stylesheet.BraceAfter front second.offset := by
  intro front rest first second
  obtain ⟨hinitial, hkept⟩ := truncation_drops_tail.2 front rest
  have hfirst : first ∈ Stylesheet.selectors front := by decide +kernel
  have hsecond : second ∈ Stylesheet.selectors (front ++ rest) := by decide +kernel
  have hdropped : second ∉ Stylesheet.selectors front := by decide +kernel
  exact ⟨hinitial, hfirst, (hkept first (hinitial.subset hfirst)).mp hfirst, hsecond, hdropped,
    fun hbrace => hdropped ((hkept second hsecond).mpr hbrace)⟩

end StyleAudit
