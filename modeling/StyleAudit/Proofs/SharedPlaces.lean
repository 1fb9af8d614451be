import StyleAudit.Proofs.Cuts
import StyleAudit.Proofs.Verdicts

/-!
# References that share a place

Several families look for references in one text, and markup that a script writes is searched twice:
as a part of the text and on its own. So two references may have the same place and kind. Only the
first of them counts, which is right if both have the same name, but their readings may end at
different characters: a bare attribute value in a literal ends with the literal if the literal is
searched on its own, and runs on behind it if the text is.

* **`Slice.HasBefore`** says what stands right before a place. Names of selectors are found after
  their markers, all others after a blank, a quote or an equals sign
  (`followsIn_of_mem_references`), so the two never share a place (`site_iff_of_offset_eq`).
* **`prefix_or_prefix_of_offset_eq`**: of two names at one place one continues the other.
* **`exists_mem_firstAtPlace`**: at the place of each reference there is one that counts.
-/

namespace StyleAudit

open Text

/-! ### What stands before a place -/

/-- A text is cut in two at a place in one way. -/
theorem Text.append_inj_of_byteLen_eq {xs ys us vs : List Char} (h : xs ++ ys = us ++ vs)
    (hbytes : byteLen xs = byteLen us) : xs = us ∧ ys = vs := by
  obtain ⟨middle, rfl, rfl⟩ := exists_append_of_byteLen_le h (Nat.le_of_eq hbytes)
  obtain rfl : middle = [] := by
    apply eq_nil_of_byteLen_eq_zero
    rw [byteLen_append] at hbytes
    omega
  exact ⟨(List.append_nil xs).symm, List.nil_append vs⟩

/-- Whether `c` may stand right before a name outside of selectors. -/
def isNameSeparator (c : Char) : Bool := isNamePadding c || c == '='

namespace Slice

/-- `s.HasBefore P offset`: right before the offset, the slice holds a character of class `P`. -/
def HasBefore (s : Slice) (P : Char → Bool) (offset : Nat) : Prop :=
  ∃ before c after, s.text = before ++ c :: after ∧
    offset = s.offset + byteLen before + c.utf8Size ∧ P c = true

variable {s t u : Slice} {P Q : Char → Bool} {offset : Nat}

/-- What stands before a place in a piece stands before it in the whole. -/
theorem HasBefore.of_inside (h : s.HasBefore P offset) (hst : s.Inside t) :
    t.HasBefore P offset := by
  obtain ⟨before, c, after, htext, hoffset, hc⟩ := h
  obtain ⟨before', after', htext', hoffset'⟩ := hst
  refine ⟨before' ++ before, c, after ++ after', ?_, ?_, hc⟩
  · rw [htext', htext]
    simp
  · rw [hoffset, hoffset', byteLen_append]
    omega

/-- One character stands right before a place. -/
theorem HasBefore.exists_both (h : s.HasBefore P offset) (h' : s.HasBefore Q offset) :
    ∃ c, P c = true ∧ Q c = true := by
  obtain ⟨before, c, after, htext, hoffset, hc⟩ := h
  obtain ⟨before', d, after', htext', hoffset', hd⟩ := h'
  have hsplit : (before ++ [c]) ++ after = (before' ++ [d]) ++ after' := by
    rw [List.append_assoc, List.append_assoc]
    exact htext.symm.trans htext'
  have hbytes : byteLen (before ++ [c]) = byteLen (before' ++ [d]) := by
    rw [byteLen_append, byteLen_append, byteLen_cons, byteLen_cons]
    omega
  obtain ⟨hfront, _⟩ := append_inj_of_byteLen_eq hsplit hbytes
  obtain rfl : c = d := List.singleton_inj.mp (List.append_inj' hfront rfl).2
  exact ⟨c, hc, hd⟩

/-- `s.StartsIn t`: the slice starts where `t` does, or in `t` after something that may stand before
a name. -/
def StartsIn (s t : Slice) : Prop := s.offset = t.offset ∨ t.HasBefore isNameSeparator s.offset

/-- A name that starts in a value has a separator before it, its own or the one before the value. -/
theorem StartsIn.hasBefore (h : s.StartsIn t) (htu : t.Inside u)
    (hu : u.HasBefore isNameSeparator t.offset) : u.HasBefore isNameSeparator s.offset := by
  rcases h with hstart | hbefore
  · rw [hstart]
    exact hu
  · exact hbefore.of_inside htu

/-- Starting in a piece that starts in a value is starting in the value. -/
theorem StartsIn.trans (h : s.StartsIn t) (htu : t.Inside u) (hu : t.StartsIn u) :
    s.StartsIn u := by
  rcases hu with hstart | hbefore
  · rcases h with hsame | hbefore
    · exact .inl (hsame.trans hstart)
    · exact .inr (hbefore.of_inside htu)
  · exact .inr (h.hasBefore htu hbefore)

/-- What is trimmed before a name separates it. -/
theorem startsIn_trim (s : Slice) : (s.trim isNamePadding).StartsIn s := by
  rcases List.eq_nil_or_concat' (s.text.takeWhile isNamePadding) with hnil | ⟨front, c, hfront⟩
  · left
    show s.offset + byteLen (s.text.takeWhile isNamePadding) = s.offset
    rw [hnil, byteLen_nil, Nat.add_zero]
  · right
    have hc : isNamePadding c = true := by
      apply List.mem_takeWhile_imp (l := s.text)
      rw [hfront]
      simp
    refine ⟨front, c, s.text.dropWhile isNamePadding, ?_, ?_, ?_⟩
    · rw [← List.singleton_append, ← List.append_assoc, ← hfront,
        List.takeWhile_append_dropWhile]
    · show s.offset + byteLen (s.text.takeWhile isNamePadding) = _
      rw [hfront, byteLen_append, byteLen_cons, byteLen_nil]
      omega
    · rw [isNameSeparator, hc, Bool.true_or]

end Slice

/-! ### Names in attribute values -/

/-- A single name starts at its value or behind padding. -/
theorem startsIn_of_singleName? {s name : Slice} (h : singleName? s = some name) :
    name.StartsIn s := by
  simp only [singleName?] at h
  split at h
  · exact absurd h (by simp)
  · cases h
    exact s.startsIn_trim

theorem isNameSeparator_of_isAsciiBlank {c : Char} (h : isAsciiBlank c = true) :
    isNameSeparator c = true := by
  rw [isNameSeparator, isNamePadding, isBlank_of_isAsciiBlank h]
  rfl

theorem isNameSeparator_of_isQuote {c : Char} (h : Mask.isQuote c = true) :
    isNameSeparator c = true := by
  rw [isNameSeparator, isNamePadding, h, Bool.or_true]
  rfl

/-- A word starts with the value, or after a blank. -/
theorem startsIn_of_mem_classWordsFrom {start : Nat} {word : List Char} {dynamic : Bool}
    {painted : List (Char × Bool)} {w : ClassWord}
    (h : w ∈ classWordsFrom start word dynamic painted) :
    w.slice.StartsIn ⟨start, word.reverse ++ painted.map Prod.fst⟩ := by
  induction painted generalizing start word dynamic with
  | nil =>
    unfold classWordsFrom at h
    split at h
    · exact absurd h List.not_mem_nil
    · rw [List.mem_singleton.mp h]
      exact .inl rfl
  | cons first rest ih =>
    obtain ⟨c, inside⟩ := first
    simp only [classWordsFrom] at h
    split at h
    · next hblank =>
      have hc := (Bool.and_eq_true_iff.mp hblank).1
      have hsize : c.utf8Size = 1 := utf8Size_of_isAsciiBlank hc
      have hlater : w ∈ classWordsFrom (start + byteLen word + 1) [] false rest →
          w.slice.StartsIn ⟨start, word.reverse ++ ((c, inside) :: rest).map Prod.fst⟩ := by
        intro hw
        refine .inr ((ih hw).hasBefore (Slice.inside_of_separator hsize) ?_)
        refine ⟨word.reverse, c, rest.map Prod.fst, rfl, ?_, isNameSeparator_of_isAsciiBlank hc⟩
        show start + byteLen word + 1 = start + byteLen word.reverse + c.utf8Size
        rw [byteLen_reverse, hsize]
      split at h
      · exact hlater h
      · rcases List.mem_cons.mp h with rfl | hrest
        · exact .inl rfl
        · exact hlater hrest
    · have hin := ih h
      rw [List.reverse_cons, List.append_assoc] at hin
      exact hin

/-- A class word starts at its value or behind a blank. -/
theorem startsIn_of_mem_classWords {value : Slice} {w : ClassWord} (h : w ∈ classWords value) :
    w.slice.StartsIn value := by
  have hin := startsIn_of_mem_classWordsFrom h
  rw [Placeholder.paint, Placeholder.map_fst_paintFrom] at hin
  exact hin

namespace Script

/-- The body of a literal stands after its quote. -/
theorem hasBefore_of_literalAt? {s : Slice} {literal : Literal} (h : literalAt? s = some literal) :
    s.HasBefore isNameSeparator literal.body.offset := by
  unfold literalAt? at h
  split at h
  · exact absurd h (by simp)
  · next c cs htext =>
    split at h
    · next hquote =>
      cases h
      refine ⟨[], c, cs, htext, ?_, isNameSeparator_of_isQuote hquote⟩
      rw [Mask.utf8Size_of_isQuote hquote]
      rfl
    · exact absurd h (by simp)

/-- Before the body of a literal stands its quote. -/
theorem hasBefore_of_mem_literals {s : Slice} {literal : Literal} (h : literal ∈ literals s) :
    s.HasBefore isNameSeparator literal.body.offset := by
  obtain ⟨cur, taken, hr, hin, _⟩ := Recogniser.mem_findAll h
  obtain ⟨found, hfound, heq⟩ := Option.map_eq_some_iff.mp hr
  cases heq
  exact (hasBefore_of_literalAt? hfound).of_inside hin.toSlice_inside

end Script

/-- Names are words of the value, or names in a literal of a placeholder, which is shorter. -/
theorem startsIn_of_mem_classNames {value name : Slice} (h : name ∈ classNames value) :
    name.StartsIn value := by
  induction hlength : value.text.length using Nat.strong_induction_on generalizing value with
  | _ n ih =>
    rw [classNames] at h
    rcases List.mem_append.mp h with hword | hnested
    · obtain ⟨w, hw, hname⟩ := List.mem_filterMap.mp hword
      have hmem := (List.mem_filter.mp hw).1
      exact (startsIn_of_singleName? hname).trans (inside_of_mem_classWords hmem)
        (startsIn_of_mem_classWords hmem)
    · obtain ⟨⟨span, hspan⟩, _, hliterals⟩ := List.mem_flatMap.mp hnested
      obtain ⟨⟨literal, hliteral⟩, _, hname⟩ := List.mem_flatMap.mp hliterals
      -- the literal in a placeholder is shorter than the value it is in
      have hshorter : literal.body.text.length < n := by
        have hle := Placeholder.length_le_of_mem_all hspan
        have hlt : literal.body.text.length < span.text.length :=
          Script.length_body_lt_of_mem_literals hliteral
        omega
      have hspanIn := Placeholder.inside_of_mem_all hspan
      refine .inr ((ih _ hshorter hname rfl).hasBefore ?_ ?_)
      · exact (Script.inside_of_mem_literals hliteral).trans hspanIn
      · exact (Script.hasBefore_of_mem_literals hliteral).of_inside hspanIn

/-- A name in a bound value has a separator before it. -/
theorem hasBefore_of_mem_boundClassNames {expression name : Slice}
    (h : name ∈ boundClassNames expression) :
    expression.HasBefore isNameSeparator name.offset := by
  obtain ⟨literal, hliteral, hname⟩ := List.mem_flatMap.mp h
  exact (startsIn_of_mem_classNames hname).hasBefore (Script.inside_of_mem_literals hliteral)
    (Script.hasBefore_of_mem_literals hliteral)

/-! ### Values of attributes -/

/-- A value is what follows an equals sign and blanks. -/
theorem suffix_of_afterEquals? {plus : Bool} {cs rest : List Char}
    (h : afterEquals? plus cs = some rest) :
    ∃ more, '=' :: more <:+ cs ∧ more.dropWhile isBlank = rest := by
  obtain ⟨more, hmore, hrest⟩ := Option.map_eq_some_iff.mp h
  refine ⟨more, ?_, hrest⟩
  rw [← List.singleton_append, ← eq_append_of_after? hmore]
  refine List.IsSuffix.trans ?_ (List.dropWhile_suffix isBlank)
  split
  · cases hplus : after? ['+'] (cs.dropWhile isBlank) with
    | none => exact List.suffix_refl _
    | some rest => exact suffix_of_after? hplus
  · exact List.suffix_refl _

/-- The value of an assignment stands after an equals sign or a blank. -/
theorem exists_of_afterEquals? {plus : Bool} {cs rest : List Char}
    (h : afterEquals? plus cs = some rest) :
    ∃ front c, cs = front ++ c :: rest ∧ isNameSeparator c = true := by
  obtain ⟨more, ⟨front, hfront⟩, rfl⟩ := suffix_of_afterEquals? h
  -- the last of the equals sign and the blanks after it
  obtain ⟨between, c, hbetween⟩ :=
    (List.eq_nil_or_concat' ('=' :: more.takeWhile isBlank)).resolve_left
    (List.cons_ne_nil _ _)
  refine ⟨front ++ between, c, ?_, ?_⟩
  · rw [List.append_assoc, ← List.singleton_append, ← List.append_assoc between, ← hbetween,
      List.cons_append, List.takeWhile_append_dropWhile, hfront]
  · have hmem : c ∈ '=' :: more.takeWhile isBlank := by
      rw [hbetween]
      simp
    rcases List.mem_cons.mp hmem with rfl | hblank
    · rfl
    · rw [isNameSeparator, isNamePadding, List.mem_takeWhile_imp hblank]
      rfl

/-- The last character that a seek passes stands before the new place. -/
theorem Cursor.IsIn.hasBefore_seek {cur : Cursor} {s : Slice} (hcur : cur.IsIn s)
    {front rest : List Char} {c : Char} {P : Char → Bool} (h : cur.rest = front ++ c :: rest)
    (hc : P c = true) : s.HasBefore P (cur.seek rest).offset := by
  refine Slice.HasBefore.of_inside ⟨front, c, rest, h, ?_, hc⟩ hcur.toSlice_inside
  have hsplit : cur.rest = (front ++ [c]) ++ rest := by
    rw [h, List.append_assoc]
    rfl
  have hdistance : cur.distance rest = (front ++ [c]).length := by
    rw [Cursor.distance, hsplit, List.length_append, Nat.add_sub_cancel]
  show cur.offset + byteLen (cur.rest.take (cur.distance rest)) =
    cur.offset + byteLen front + c.utf8Size
  rw [hdistance, hsplit, List.take_left, byteLen_append, byteLen_cons, byteLen_nil]
  omega

/-- Before an assigned value stands the equals sign or a blank. -/
theorem hasBefore_of_assignmentAt? {s : Slice} {names : List (List Char)} {plus : Bool}
    {cur : Cursor} (hcur : cur.IsIn s) {a : Assignment}
    (h : assignmentAt? names plus cur = some a) :
    s.HasBefore isNameSeparator a.value.offset := by
  have hname := (isIn_of_assignmentAt? hcur h).1
  simp only [assignmentAt?] at h
  obtain ⟨word, _, hword⟩ := List.exists_of_findSome?_eq_some h
  obtain ⟨rest, hrest, hafter⟩ := Option.bind_eq_some_iff.mp hword
  obtain ⟨value, hvalue, heq⟩ := Option.bind_eq_some_iff.mp hafter
  cases heq
  obtain ⟨front, c, hsplit, hc⟩ := exists_of_afterEquals? hvalue
  obtain ⟨before, hbefore⟩ := suffix_of_afterFolded? hrest
  rw [hsplit, ← List.append_assoc] at hbefore
  exact hname.hasBefore_seek hbefore.symm hc

/-- Before the value of every assignment that is found stands a separator. -/
theorem hasBefore_of_mem_assignments {s : Slice} {names : List (List Char)} {plus : Bool}
    {a : Assignment} (h : a ∈ (assignmentRecogniser names plus).findAll s) :
    s.HasBefore isNameSeparator a.value.offset := by
  obtain ⟨cur, taken, hr, hcur, _⟩ := Recogniser.mem_findAll h
  obtain ⟨found, hfound, heq⟩ := Option.map_eq_some_iff.mp hr
  cases heq
  rcases Option.or_eq_some_iff.mp hfound with hstart | ⟨_, hlater⟩
  · split at hstart
    · exact hasBefore_of_assignmentAt? hcur hstart
    · exact absurd hstart (by simp)
  · split at hlater
    · exact hasBefore_of_assignmentAt? (hcur.advance 1) hlater
    · exact absurd hlater (by simp)

/-- A value that is no expression starts where it is assigned, or after its quote. -/
theorem startsIn_of_tagValue? {cur : Cursor} {value : AttributeValue}
    (h : tagValue? cur = some value) (hbound : value.bound = false) :
    value.slice.StartsIn cur.toSlice := by
  have hseparator : ∀ {c : Char}, c = '\x27' ∨ c = '\x22' →
      c.utf8Size = 1 ∧ isNameSeparator c = true := by
    rintro c (rfl | rfl) <;> decide
  unfold tagValue? at h
  split at h
  · exact absurd h (by simp)
  · next c cs hrest =>
    split at h
    · next hbackslash =>
      split at h
      · next quote cs' =>
        split at h
        · next hquote =>
          cases h
          obtain ⟨hsize, hquote⟩ := hseparator hquote
          refine .inr ⟨[c], quote, cs', hrest, ?_, hquote⟩
          rw [hbackslash, hsize]
          rfl
        · exact absurd h (by simp)
      · exact absurd h (by simp)
    · split at h
      · next hquote =>
        cases h
        obtain ⟨hsize, hquote⟩ := hseparator hquote
        refine .inr ⟨[], c, cs, hrest, ?_, hquote⟩
        rw [hsize]
        rfl
      · split at h
        · cases h
          -- a value in braces is a bound one
          exact absurd hbound (by simp)
        · split at h
          · exact absurd h (by simp)
          · cases h
            exact .inl rfl

/-- Before a plain attribute value stands a separator: its quote, the equals sign or a blank. -/
theorem hasBefore_of_value? {s : Slice} {names : List (List Char)} {plus : Bool} {a : Assignment}
    (ha : a ∈ (assignmentRecogniser names plus).findAll s) {value : AttributeValue}
    (h : a.value? = some value) (hbound : value.bound = false) :
    s.HasBefore isNameSeparator value.slice.offset := by
  have hstarts : value.slice.StartsIn a.value.toSlice := by
    unfold Assignment.value? at h
    split at h
    · exact startsIn_of_tagValue? h hbound
    · split at h
      · exact absurd h (by simp)
      · split at h
        · exact absurd h (by simp)
        · cases h
          exact absurd hbound (by simp)
  exact hstarts.hasBefore (isIn_of_mem_assignments ha).2.toSlice_inside
    (hasBefore_of_mem_assignments ha)

/-! ### References -/

def isMarker (c : Char) : Bool := (NameKind.ofMarker? c).isSome

namespace Reference

/-- `r.FollowsIn s`: right before the name, the slice holds what may stand there. This is a marker
if the name is one of a selector. -/
def FollowsIn (r : Reference) (s : Slice) : Prop :=
  s.HasBefore (if r.site = .querySelector then isMarker else isNameSeparator) r.offset

theorem FollowsIn.trans {r : Reference} {s t : Slice} (h : r.FollowsIn s) (hst : s.Inside t) :
    r.FollowsIn t :=
  h.of_inside hst

/-- A name outside of selectors follows a separator. -/
theorem followsIn_ofSlice {name s : Slice} (h : s.HasBefore isNameSeparator name.offset)
    (kind : NameKind) {site : ReferenceSite} (hsite : site ≠ .querySelector) :
    (ofSlice kind site name).FollowsIn s := by
  show s.HasBefore (if site = .querySelector then isMarker else isNameSeparator) name.offset
  rw [if_neg hsite]
  exact h

/-- The marker of a name is no part of a placeholder, so it stands in the literal itself. -/
theorem followsIn_ofToken {literal : Script.Literal} {t : Token}
    (h : t ∈ tokens (selectorText literal)) : (ofToken t).FollowsIn literal.body := by
  obtain ⟨front, kind, rest, htext, _, hraw⟩ := exists_of_mem_tokens h
  obtain ⟨rfl, _⟩ := Token.ofRaw?_eq_some hraw
  have hbody : ∃ before after, literal.body.text = before ++ [kind.marker] ++ after ∧
      byteLen before = byteLen front ∧ literal.body.offset = (selectorText literal).offset := by
    have hmarked : (selectorText literal).text = front ++ [kind.marker] ++ rest := by
      rw [htext, List.append_assoc]
      rfl
    unfold selectorText at hmarked ⊢
    split at hmarked
    · -- masking fills placeholders with a character that is no marker
      next htemplate =>
      have hmarker : ∀ c ∈ [kind.marker], c ≠ Mask.dynamic := by
        intro c hc
        rw [List.mem_singleton.mp hc]
        cases kind <;> decide
      obtain ⟨before, after, hbody, hbytes⟩ :=
        (Placeholder.masked_maskAll literal.body.text).part (fun c hc => by rw [hc]; rfl) hmarked
          (by simp) hmarker
      rw [if_pos htemplate]
      exact ⟨before, after, hbody, hbytes, rfl⟩
    · next htemplate =>
      rw [if_neg htemplate]
      exact ⟨front, rest, hmarked, rfl, rfl⟩
  obtain ⟨before, after, hsplit, hbytes, hoffset⟩ := hbody
  refine ⟨before, kind.marker, after, ?_, ?_, ?_⟩
  · rw [hsplit, List.append_assoc]
    rfl
  · rw [hbytes, hoffset, kind.utf8Size_marker]
    rfl
  · cases kind <;> rfl

end Reference

open Reference

/-- A name in a class attribute follows a separator. -/
theorem followsIn_of_mem_classAttribute {s : Slice} {r : Reference}
    (h : r ∈ classAttributeReferences s) : r.FollowsIn s := by
  obtain ⟨a, ha, hr⟩ := List.mem_flatMap.mp h
  split at hr
  · exact absurd hr List.not_mem_nil
  · next value hvalue =>
    obtain ⟨name, hname, rfl⟩ := List.mem_map.mp hr
    have hin := Assignment.inside_of_value? (isIn_of_mem_assignments ha).2 hvalue
    refine followsIn_ofSlice ?_ .className (by decide)
    split at hname
    · exact (hasBefore_of_mem_boundClassNames hname).of_inside hin
    · next hbound =>
      rw [Bool.or_eq_true, not_or, Bool.not_eq_true] at hbound
      exact (startsIn_of_mem_classNames hname).hasBefore hin
        (hasBefore_of_value? ha hvalue hbound.1)

/-- A name in an id attribute follows a separator. -/
theorem followsIn_of_mem_idAttribute {s : Slice} {r : Reference}
    (h : r ∈ idAttributeReferences s) : r.FollowsIn s := by
  obtain ⟨a, ha, hr⟩ := List.mem_flatMap.mp h
  split at hr
  · split at hr
    · exact absurd hr List.not_mem_nil
    · next value hvalue =>
      obtain ⟨name, hname, rfl⟩ := List.mem_map.mp hr
      obtain ⟨part, hpart, hsingle⟩ := List.mem_filterMap.mp hname
      have hin := Assignment.inside_of_value? (isIn_of_mem_assignments ha).2 hvalue
      have hstarts := startsIn_of_singleName? hsingle
      refine followsIn_ofSlice ?_ .idName (by decide)
      split at hpart
      · obtain ⟨literal, hliteral, rfl⟩ := List.mem_map.mp hpart
        exact hstarts.hasBefore ((Script.inside_of_mem_literals hliteral).trans hin)
          ((Script.hasBefore_of_mem_literals hliteral).of_inside hin)
      · next hbound =>
        rw [Bool.or_eq_true, not_or, Bool.not_eq_true] at hbound
        rw [List.mem_singleton.mp hpart] at hstarts
        exact hstarts.hasBefore hin (hasBefore_of_value? ha hvalue hbound.1)
  · exact absurd hr List.not_mem_nil

/-- The single name in a literal argument of a call. -/
theorem hasBefore_of_mem_arguments {s call arg name : Slice} {literal : Script.Literal}
    (hcall : call.Inside s ∧ call.text.head? = some '(') (harg : arg ∈ Script.callArguments call)
    (hliteral : Script.literalAt? arg = some literal) (h : singleName? literal.body = some name) :
    s.HasBefore isNameSeparator name.offset := by
  have hin := (Script.inside_of_mem_callArguments hcall.2 harg).trans hcall.1
  exact (startsIn_of_singleName? h).hasBefore ((Script.inside_of_literalAt? hliteral).trans hin)
    ((Script.hasBefore_of_literalAt? hliteral).of_inside hin)

theorem followsIn_of_mem_classList {s : Slice} {r : Reference} (h : r ∈ classListReferences s) :
    r.FollowsIn s := by
  obtain ⟨call, hcall, hr⟩ := List.mem_flatMap.mp h
  obtain ⟨name, hname, rfl⟩ := List.mem_map.mp hr
  obtain ⟨body, hbody, hsingle⟩ := List.mem_filterMap.mp hname
  obtain ⟨literal, hliteral, rfl⟩ := List.mem_map.mp hbody
  obtain ⟨arg, harg, hat⟩ := List.mem_filterMap.mp hliteral
  refine followsIn_ofSlice ?_ .className (by decide)
  exact hasBefore_of_mem_arguments (inside_of_mem_classListCall hcall) harg hat hsingle

/-- A name in a selector call follows its marker. -/
theorem followsIn_of_mem_selectorCall {s : Slice} {r : Reference}
    (h : r ∈ selectorCallReferences s) : r.FollowsIn s := by
  obtain ⟨call, hcall, hr⟩ := List.mem_flatMap.mp h
  split at hr
  · exact absurd hr List.not_mem_nil
  · next literal hliteral =>
    obtain ⟨t, ht, rfl⟩ := List.mem_map.mp hr
    exact (followsIn_ofToken ht).trans
      (inside_of_firstLiteral? (inside_of_mem_callOf hcall) hliteral)

theorem followsIn_of_mem_idCall {s : Slice} {r : Reference} (h : r ∈ idCallReferences s) :
    r.FollowsIn s := by
  obtain ⟨call, hcall, hr⟩ := List.mem_filterMap.mp h
  obtain ⟨literal, hliteral, hname⟩ := Option.bind_eq_some_iff.mp hr
  obtain ⟨name, hsingle, heq⟩ := Option.bind_eq_some_iff.mp hname
  cases heq
  obtain ⟨arg, harg, hat⟩ := Option.bind_eq_some_iff.mp hliteral
  refine followsIn_ofSlice ?_ .idName (by decide)
  exact hasBefore_of_mem_arguments (inside_of_mem_callOf hcall) (List.mem_of_head? harg) hat hsingle

/-- A name in written markup follows what it follows in its fragment. -/
theorem followsIn_of_mem_writtenMarkup {s : Slice} {r : Reference}
    (h : r ∈ writtenMarkupReferences s) : r.FollowsIn s := by
  obtain ⟨fragment, hfragment, hr⟩ := List.mem_flatMap.mp h
  have hin := inside_of_mem_writtenMarkup hfragment
  rcases List.mem_append.mp hr with hclass | hid
  · exact (followsIn_of_mem_classAttribute hclass).trans hin
  · exact (followsIn_of_mem_idAttribute hid).trans hin

/-- Every reference follows a marker if it is from a selector, and a separator if it is not. -/
theorem followsIn_of_mem_references {s : Slice} {r : Reference} (h : r ∈ references s) :
    r.FollowsIn s := by
  simp only [references, List.mem_append] at h
  rcases h with ((((hclass | hid) | hlist) | hselector) | hcall) | hwritten
  · exact followsIn_of_mem_classAttribute hclass
  · exact followsIn_of_mem_idAttribute hid
  · exact followsIn_of_mem_classList hlist
  · exact followsIn_of_mem_selectorCall hselector
  · exact followsIn_of_mem_idCall hcall
  · exact followsIn_of_mem_writtenMarkup hwritten

/-! ### Names at one place -/

theorem isNameSeparator_of_isMarker {c : Char} (h : isMarker c = true) :
    isNameSeparator c = false := by
  obtain ⟨kind, hkind⟩ := Option.isSome_iff_exists.mp h
  rw [← NameKind.marker_of_ofMarker? hkind]
  cases kind <;> decide

variable {s : Slice} {r r' : Reference}

/-- Names of selectors share no place with others. -/
theorem site_iff_of_offset_eq (h : r ∈ references s) (h' : r' ∈ references s)
    (hoffset : r.offset = r'.offset) : r.site = .querySelector ↔ r'.site = .querySelector := by
  have hbefore := followsIn_of_mem_references h
  unfold FollowsIn at hbefore
  rw [hoffset] at hbefore
  obtain ⟨c, hc, hc'⟩ := hbefore.exists_both (followsIn_of_mem_references h')
  -- the character before both is a marker and separates names at once, unless the sites agree
  by_cases hsite : r.site = .querySelector
  · rw [if_pos hsite] at hc
    refine iff_of_true hsite (Classical.byContradiction fun hother => ?_)
    rw [if_neg hother, isNameSeparator_of_isMarker hc] at hc'
    exact absurd hc' (by decide)
  · rw [if_neg hsite] at hc
    refine iff_of_false hsite fun hother => ?_
    rw [if_pos hother] at hc'
    rw [isNameSeparator_of_isMarker hc'] at hc
    exact absurd hc (by decide)

/-- Two pieces of a text that start at one place. -/
theorem Slice.prefix_or_prefix {a b : Slice} (ha : a.Inside s) (hb : b.Inside s)
    (hoffset : a.offset = b.offset) : a.text <+: b.text ∨ b.text <+: a.text := by
  obtain ⟨before, after, htext, hstart⟩ := ha
  obtain ⟨before', after', htext', hstart'⟩ := hb
  rw [List.append_assoc] at htext htext'
  obtain ⟨_, hrest⟩ := append_inj_of_byteLen_eq (htext.symm.trans htext') (by omega)
  have hlonger : b.text <+: a.text ++ after := hrest ▸ List.prefix_append b.text after'
  exact List.prefix_or_prefix_of_prefix (List.prefix_append a.text after) hlonger

/-- A written form that is cut short stands for the start of the name. -/
theorem unescape_prefix {xs ys : List Char} (h : xs <+: ys) : unescape xs <+: unescape ys := by
  obtain ⟨rest, rfl⟩ := h
  fun_induction unescape xs with
  | case1 => exact List.nil_prefix
  | case2 => exact List.nil_prefix
  | case3 c cs ih =>
    rw [List.cons_append, List.cons_append, unescape]
    exact (List.prefix_cons_inj c).mpr ih
  | case4 c cs hlone hpair ih =>
    rw [List.cons_append, unescape_cons (ne_backslash_of_not_escape hlone hpair)]
    exact (List.prefix_cons_inj c).mpr ih

/-- Of two names at one place, one continues the other, and they are equal if they have the same
length. -/
theorem prefix_or_prefix_of_offset_eq (h : r ∈ references s) (h' : r' ∈ references s)
    (hoffset : r.offset = r'.offset) :
    (r.name.toList <+: r'.name.toList ∨ r'.name.toList <+: r.name.toList) ∧
      (r.len = r'.len → r.name = r'.name) := by
  obtain ⟨raw, hin, hstart, hlen, _, hname⟩ := pointsInto_of_mem_references h
  obtain ⟨raw', hin', hstart', hlen', _, hname'⟩ := pointsInto_of_mem_references h'
  have hraw := Slice.prefix_or_prefix hin hin' (by omega)
  have hsame : r.len = r'.len → raw.text = raw'.text := by
    intro heq
    rcases hraw with ⟨rest, hrest⟩ | ⟨rest, hrest⟩
    · exact (append_inj_of_byteLen_eq (hrest.trans (List.append_nil _).symm) (by omega)).1
    · exact (append_inj_of_byteLen_eq (hrest.trans (List.append_nil _).symm) (by omega)).1.symm
  have hsite := site_iff_of_offset_eq h h' hoffset
  rw [hname, hname', String.toList_ofList, String.toList_ofList]
  -- names from selectors are unescaped, so it matters that both are or neither is
  by_cases hselector : r.site = .querySelector
  · rw [if_pos hselector, if_pos (hsite.mp hselector)]
    exact ⟨hraw.imp unescape_prefix unescape_prefix, fun heq => by rw [hsame heq]⟩
  · rw [if_neg hselector, if_neg fun hother => hselector (hsite.mpr hother)]
    exact ⟨hraw, fun heq => by rw [hsame heq]⟩

/-! ### The references that count -/

/-- At each place that is not taken yet, one reference counts. -/
theorem exists_mem_firstAtPlace {seen : List (Nat × NameKind)} {cs : List Reference} {c : Reference}
    (h : c ∈ cs) (hseen : (c.offset, c.kind) ∉ seen) :
    ∃ e ∈ firstAtPlace seen cs, (e.offset, e.kind) = (c.offset, c.kind) := by
  induction cs generalizing seen with
  | nil => exact absurd h List.not_mem_nil
  | cons d cs ih =>
    unfold firstAtPlace
    by_cases hplace : (d.offset, d.kind) = (c.offset, c.kind)
    · -- `d` is the first at the place
      rw [if_neg (hplace ▸ hseen)]
      exact ⟨d, List.mem_cons_self, hplace⟩
    · have hmem : c ∈ cs := by
        rcases List.mem_cons.mp h with rfl | hmem
        · exact absurd rfl hplace
        · exact hmem
      split
      · exact ih hmem hseen
      · have hnext : (c.offset, c.kind) ∉ (d.offset, d.kind) :: seen := by
          rw [List.mem_cons, not_or]
          exact ⟨Ne.symm hplace, hseen⟩
        obtain ⟨e, he, hsame⟩ := ih hmem hnext
        exact ⟨e, List.mem_cons_of_mem d he, hsame⟩

/-- **Uses at shared places.** A reference to a known name makes the name used if and only if some
reference that counts has the name. If none has, the reference shares its place with one that
counts, which is written with another length, and one of the two names continues the other: both are
read from the same character on, to different ends. -/
theorem used_or_shadowed (text : List Char) (known : Names) (policy : ReportingPolicy)
    (c : Reference) (hc : c ∈ references (.ofText text))
    (hknown : known.contains c.kind c.name = true) :
    let counted := firstReferences (references (.ofText text))
    let used := (resolveText text known policy).used.contains c.kind c.name
    (used = true ↔ ∃ e ∈ counted, e.kind = c.kind ∧ e.name = c.name) ∧
    (used = false → ∃ e ∈ counted, e.offset = c.offset ∧ e.kind = c.kind ∧ e.len ≠ c.len ∧
      e.name ≠ c.name ∧ (e.name.toList <+: c.name.toList ∨ c.name.toList <+: e.name.toList)) := by
  intro counted used
  have hused : used = true ↔ ∃ e ∈ counted, e.kind = c.kind ∧ e.name = c.name := by
    show (resolve known policy (references (.ofText text))).used.contains c.kind c.name = true ↔ _
    rw [contains_used, hknown, Bool.true_and, List.any_eq_true]
    simp only [Bool.and_eq_true, beq_iff_eq]
    rfl
  refine ⟨hused, fun hlost => ?_⟩
  -- the first reference at the place of `c` is counted, and its name begins where that of `c` does
  obtain ⟨e, he, hplace⟩ := exists_mem_firstAtPlace hc List.not_mem_nil
  rw [firstAtPlace_eq] at he
  obtain ⟨hoffset, hkind⟩ := Prod.mk.inj hplace
  obtain ⟨hcontinues, hsame⟩ :=
    prefix_or_prefix_of_offset_eq (mem_of_mem_firstReferences he) hc hoffset
  have hname : e.name ≠ c.name := by
    intro hname
    rw [hused.mpr ⟨e, he, hkind, hname⟩] at hlost
    exact absurd hlost (by decide)
  exact ⟨e, he, hoffset, hkind, fun hlen => hname (hsame hlen), hname, hcontinues⟩

/-- A name that is shadowed. -/
theorem used_or_shadowed_bare_value :
    let text := "el.innerHTML='<p class=hero'+x+'>';".toList
    let c : Reference := ⟨23, 4, .className, "hero", .classAttribute⟩
    c ∈ references (.ofText text) ∧ (resolveText text ⟨["hero"], []⟩ {}).used = Names.empty ∧
      ∃ e ∈ firstReferences (references (.ofText text)), e.offset = c.offset ∧ e.kind = c.kind ∧
        e.len ≠ c.len ∧ e.name ≠ c.name ∧
        (e.name.toList <+: c.name.toList ∨ c.name.toList <+: e.name.toList) := by
  intro text c
  have hc : c ∈ references (.ofText text) := by decide +kernel
  have hlost : (resolveText text ⟨["hero"], []⟩ {}).used = Names.empty := by decide +kernel
  refine ⟨hc, hlost, (used_or_shadowed text ⟨["hero"], []⟩ {} c hc (by decide)).2 ?_⟩
  rw [hlost]
  rfl

/-- In the text, the bare value runs on behind the literal. What is read there comes first and takes
the place of the name that ends with the literal. -/
theorem bare_value_shadows_name :
    let text := "el.innerHTML='<p class=hero'+x+'>';".toList
    references (.ofText text) = [⟨23, 8, .className, "hero'+x+", .classAttribute⟩,
      ⟨23, 4, .className, "hero", .classAttribute⟩] ∧
    (resolveText text ⟨["hero"], []⟩ {}).used.contains .className "hero" = false := by
  decide +kernel

end StyleAudit
