import StyleAudit.Proofs.Slices
import StyleAudit.Reference.All

/-!
# Where references stand

Every reference points at the place of the text where its name is written. On the way from the text
to a name the text is cut many times: to the value of an attribute, to a literal of a script, to a
placeholder in it, to a literal in the placeholder, to a word; and markup that a script writes is
searched like a text of its own. Each cut is one lemma, and they compose.

* **`Reference.PointsInto`** says of a reference that it stands in a slice: the slice holds a
  written form at its offset, and the name is what that form stands for.
* **`Script.inside_of_mem_literals`**, **`Script.inside_of_mem_callArguments`**,
  **`inside_of_mem_classNames`**, **`Assignment.inside_of_value?`** and others follow the cuts.
* **`tokens_spec`** and **`Placeholder.masked_maskAll`** take a name of a selector back to the
  literal it stands in, although placeholders of the literal were masked before.
* **`references_index_text`** puts the families of references together.
-/

namespace StyleAudit

open Text

/-! ### Characters of one byte -/

theorem Mask.utf8Size_of_isQuote {c : Char} (h : Mask.isQuote c = true) : c.utf8Size = 1 := by
  simp only [Mask.isQuote, Bool.or_eq_true, beq_iff_eq] at h
  rcases h with (h | h) | h <;> rw [h] <;> decide

theorem Text.utf8Size_of_isAsciiBlank {c : Char} (h : isAsciiBlank c = true) : c.utf8Size = 1 := by
  simp only [isAsciiBlank, Bool.or_eq_true, beq_iff_eq] at h
  rcases h with (((h | h) | h) | h) | h <;> rw [h] <;> decide

/-! ### Literals and arguments -/

namespace Script

/-- The text of a literal is the front of what follows its quote. -/
theorem quotedText_append (quote : Char) (cs : List Char) :
    cs = quotedText quote cs ++ (closeFrom (.quoted quote) [] cs).2 :=
  (closeFrom_append _ _ _).symm

/-- The text between brackets is the front of what follows the opening one. -/
theorem bracketed_append (cs : List Char) :
    cs = bracketed cs ++ (closeFrom (.brackets 1) [] cs).2 :=
  (closeFrom_append _ _ _).symm

/-- The body of a literal starts right after its quote, which has one byte. -/
theorem inside_of_literalAt? {s : Slice} {literal : Literal} (h : literalAt? s = some literal) :
    literal.body.Inside s := by
  unfold literalAt? at h
  split at h
  · exact absurd h (by simp)
  · next c cs htext =>
    split at h
    · next hquote =>
      cases h
      have hrest := Slice.inside_of_cons htext (Mask.utf8Size_of_isQuote hquote)
      exact (Slice.inside_of_append (quotedText_append c cs)).trans hrest
    · exact absurd h (by simp)

theorem inside_of_mem_literals {s : Slice} {literal : Literal} (h : literal ∈ literals s) :
    literal.body.Inside s := by
  obtain ⟨cur, taken, hr, hin, _⟩ := Recogniser.mem_findAll h
  obtain ⟨found, hfound, heq⟩ := Option.map_eq_some_iff.mp hr
  cases heq
  exact (inside_of_literalAt? hfound).trans hin.toSlice_inside

end Script

/-- Painting keeps the characters. -/
theorem Mask.map_fst_paintFrom (state : Mask.State) (cs : List Char) :
    (Mask.paintFrom state cs).map Prod.fst = cs := by
  induction cs generalizing state with
  | nil => rfl
  | cons c cs ih => simp [Mask.paintFrom, ih]

/-- The branch that is being read and the text after it hold all branches to come. -/
theorem inside_of_mem_branchesFrom {depth start : Nat} {branch : List Char}
    {painted : List (Char × Mask.Paint)} {b : Slice}
    (h : b ∈ branchesFrom depth start branch painted) :
    b.Inside ⟨start, branch.reverse ++ painted.map Prod.fst⟩ := by
  induction painted generalizing depth start branch with
  | nil =>
    rw [branchesFrom, List.mem_singleton] at h
    rw [h]
    exact Slice.inside_of_append rfl
  | cons painted₁ rest ih =>
    obtain ⟨c, paint⟩ := painted₁
    -- a character that does not end the branch
    have hlonger : ∀ {depth : Nat}, b ∈ branchesFrom depth start (c :: branch) rest →
        b.Inside ⟨start, branch.reverse ++ ((c, paint) :: rest).map Prod.fst⟩ := by
      intro depth hb
      have hin := ih hb
      rw [List.reverse_cons, List.append_assoc] at hin
      exact hin
    unfold branchesFrom at h
    split at h
    · split at h
      · exact hlonger h
      · split at h
        · exact hlonger h
        · split at h
          · next hcomma =>
            have hc : c.utf8Size = 1 := by rw [hcomma.1]; rfl
            rcases List.mem_cons.mp h with rfl | hrest
            · exact Slice.inside_of_append rfl
            · exact (ih hrest).trans (Slice.inside_of_separator hc)
          · exact hlonger h
    · exact hlonger h

theorem inside_of_mem_branches {s b : Slice} (h : b ∈ branches s) : b.Inside s := by
  have hin := inside_of_mem_branchesFrom h
  rw [Mask.paint, Mask.map_fst_paintFrom] at hin
  exact hin

/-- An argument of a call is taken from the text after the parenthesis. -/
theorem Script.inside_of_mem_callArguments {s arg : Slice} (hs : s.text.head? = some '(')
    (h : arg ∈ callArguments s) : arg.Inside s := by
  obtain ⟨cs, htext⟩ : ∃ cs, s.text = '(' :: cs := by
    cases hcs : s.text with
    | nil => rw [hcs] at hs; exact absurd hs (by simp)
    | cons c cs =>
      rw [hcs] at hs
      exact ⟨cs, by rw [Option.some.inj hs]⟩
  simp only [callArguments, htext] at h
  obtain ⟨start, hstart, rfl⟩ := List.mem_map.mp h
  obtain ⟨branch, hbranch, rfl⟩ := List.mem_map.mp (List.mem_filter.mp hstart).1
  have hinner : Slice.Inside ⟨s.offset + 1, bracketed cs⟩ ⟨s.offset + 1, cs⟩ :=
    Slice.inside_of_append (bracketed_append cs)
  have hstarts := ((Slice.inside_trimLeft isBlank branch).trans
    (inside_of_mem_branches hbranch)).trans hinner
  exact hstarts.dropTo.trans (Slice.inside_of_cons htext rfl)

/-! ### Placeholders -/

namespace Placeholder

theorem inside_of_mem_all {s span : Slice} (h : span ∈ all s) : span.Inside s := by
  obtain ⟨cur, taken, hr, hin, _⟩ := Recogniser.mem_findAll h
  obtain ⟨n, _, hspan⟩ := Option.bind_eq_some_iff.mp hr
  obtain ⟨rfl, _⟩ := Prod.mk.inj (Option.some.inj hspan)
  have htake : cur.toSlice.text = cur.rest.take n ++ cur.rest.drop n :=
    (List.take_append_drop n cur.rest).symm
  exact (Slice.inside_of_append htake).trans hin.toSlice_inside

/-- Painting keeps the characters. -/
theorem map_fst_paintFrom (inside : Nat) (cs : List Char) :
    (paintFrom inside cs).map Prod.fst = cs := by
  induction cs generalizing inside with
  | nil => cases inside <;> rfl
  | cons c cs ih =>
    cases inside with
    | zero =>
      unfold paintFrom
      split <;> simp [ih]
    | succ inside => simp [paintFrom, ih]

/-- Masking placeholders keeps byte offsets. -/
theorem masked_maskAll (cs : List Char) : Masked (· = Mask.dynamic) cs (maskAll cs) := by
  have hpainted : ∀ painted : List (Char × Bool), Masked (· = Mask.dynamic)
      (painted.map Prod.fst) (painted.flatMap fun p =>
        if p.2 then List.replicate p.1.utf8Size Mask.dynamic else [p.1]) := by
    intro painted
    induction painted with
    | nil => exact .nil
    | cons first rest ih =>
      obtain ⟨c, inside⟩ := first
      cases inside with
      | true => exact .hide c Mask.dynamic rfl ih
      | false => exact .keep c ih
  have hmasked := hpainted (paint cs)
  rw [paint, map_fst_paintFrom] at hmasked
  exact hmasked

end Placeholder

/-! ### Names in attribute values -/

/-- A single name lies inside its value and is not empty. -/
theorem inside_of_singleName? {s name : Slice} (h : singleName? s = some name) :
    name.Inside s ∧ name.text ≠ [] := by
  unfold singleName? at h
  simp only at h
  split at h
  · exact absurd h (by simp)
  · next hname =>
    cases h
    refine ⟨Slice.inside_trim _ s, ?_⟩
    intro hnil
    exact hname (by simp [hnil])

/-- The word that is being read and the text after it hold all words to come. -/
theorem inside_of_mem_classWordsFrom {start : Nat} {word : List Char} {dynamic : Bool}
    {painted : List (Char × Bool)} {w : ClassWord}
    (h : w ∈ classWordsFrom start word dynamic painted) :
    w.slice.Inside ⟨start, word.reverse ++ painted.map Prod.fst⟩ := by
  induction painted generalizing start word dynamic with
  | nil =>
    unfold classWordsFrom at h
    split at h
    · exact absurd h List.not_mem_nil
    · rw [List.mem_singleton.mp h]
      exact Slice.inside_of_append rfl
  | cons first rest ih =>
    obtain ⟨c, inside⟩ := first
    simp only [classWordsFrom] at h
    split at h
    · next hblank =>
      have hc : c.utf8Size = 1 := utf8Size_of_isAsciiBlank (Bool.and_eq_true_iff.mp hblank).1
      split at h
      · exact (ih h).trans (Slice.inside_of_separator hc)
      · rcases List.mem_cons.mp h with rfl | hrest
        · exact Slice.inside_of_append rfl
        · exact (ih hrest).trans (Slice.inside_of_separator hc)
    · have hin := ih h
      rw [List.reverse_cons, List.append_assoc] at hin
      exact hin

theorem inside_of_mem_classWords {value : Slice} {w : ClassWord} (h : w ∈ classWords value) :
    w.slice.Inside value := by
  have hin := inside_of_mem_classWordsFrom h
  rw [Placeholder.paint, Placeholder.map_fst_paintFrom] at hin
  exact hin

/-- Names are words of the value, or names in a literal of a placeholder, which is shorter. -/
theorem inside_of_mem_classNames {value name : Slice} (h : name ∈ classNames value) :
    name.Inside value ∧ name.text ≠ [] := by
  induction hlength : value.text.length using Nat.strong_induction_on generalizing value with
  | _ n ih =>
    rw [classNames] at h
    rcases List.mem_append.mp h with hword | hnested
    · obtain ⟨w, hw, hname⟩ := List.mem_filterMap.mp hword
      obtain ⟨hin, hne⟩ := inside_of_singleName? hname
      exact ⟨hin.trans (inside_of_mem_classWords (List.mem_filter.mp hw).1), hne⟩
    · obtain ⟨⟨span, hspan⟩, _, hliterals⟩ := List.mem_flatMap.mp hnested
      obtain ⟨⟨literal, hliteral⟩, _, hname⟩ := List.mem_flatMap.mp hliterals
      -- the literal in a placeholder is shorter than the value it is in
      have hshorter : literal.body.text.length < n := by
        have hle := Placeholder.length_le_of_mem_all hspan
        have hlt : literal.body.text.length < span.text.length :=
          Script.length_body_lt_of_mem_literals hliteral
        omega
      obtain ⟨hin, hne⟩ := ih _ hshorter hname rfl
      exact ⟨(hin.trans (Script.inside_of_mem_literals hliteral)).trans
        (Placeholder.inside_of_mem_all hspan), hne⟩

theorem inside_of_mem_boundClassNames {expression name : Slice}
    (h : name ∈ boundClassNames expression) : name.Inside expression ∧ name.text ≠ [] := by
  obtain ⟨literal, hliteral, hname⟩ := List.mem_flatMap.mp h
  obtain ⟨hin, hne⟩ := inside_of_mem_classNames hname
  exact ⟨hin.trans (Script.inside_of_mem_literals hliteral), hne⟩

/-! ### Values of attributes -/

/-- The value of an attribute lies inside the text, whatever encloses it. -/
theorem inside_of_tagValue? {s : Slice} {cur : Cursor} (hcur : cur.IsIn s) {value : AttributeValue}
    (h : tagValue? cur = some value) : value.slice.Inside s := by
  refine Slice.Inside.trans ?_ hcur.toSlice_inside
  unfold tagValue? at h
  split at h
  · exact absurd h (by simp)
  · next c cs hrest =>
    have hafter : c.utf8Size = 1 → Slice.Inside ⟨cur.offset + 1, cs⟩ cur.toSlice :=
      fun hc => Slice.inside_of_cons hrest hc
    split at h
    · next hbackslash =>
      have hfirst := hafter (by rw [hbackslash]; rfl)
      split at h
      · next quote cs' =>
        split at h
        · next hquote =>
          cases h
          have hc : quote.utf8Size = 1 := by rcases hquote with h | h <;> rw [h] <;> rfl
          have hsecond : Slice.Inside ⟨cur.offset + 2, cs'⟩ ⟨cur.offset + 1, quote :: cs'⟩ :=
            Slice.inside_of_cons rfl hc
          have hvalue : Slice.Inside ⟨cur.offset + 2, (breakOn ['\\', quote] cs').1⟩
              ⟨cur.offset + 2, cs'⟩ :=
            Slice.inside_of_append (breakOn_append _ _).symm
          exact (hvalue.trans hsecond).trans hfirst
        · exact absurd h (by simp)
      · exact absurd h (by simp)
    · split at h
      · next hquote =>
        cases h
        have hc : c.utf8Size = 1 := by rcases hquote with h | h <;> rw [h] <;> rfl
        refine Slice.Inside.trans ?_ (hafter hc)
        exact Slice.inside_of_append (List.takeWhile_append_dropWhile).symm
      · split at h
        · next hbrace =>
          cases h
          refine Slice.Inside.trans ?_ (hafter (by rw [hbrace]; rfl))
          exact Slice.inside_of_append (Script.bracketed_append cs)
        · split at h
          · exact absurd h (by simp)
          · cases h
            exact Slice.inside_of_append (s := cur.toSlice) (List.takeWhile_append_dropWhile).symm

/-- An expression is a start of the text. -/
theorem expression_append (skip : Nat) (cs : List Char) :
    ∃ rest, cs = expression skip cs ++ rest := by
  induction cs generalizing skip with
  | nil => exact ⟨[], by cases skip <;> rfl⟩
  | cons c cs ih =>
    -- whatever is skipped after it, `c` is taken
    have hlonger : ∀ skip, ∃ rest, c :: cs = c :: expression skip cs ++ rest := by
      intro skip
      obtain ⟨rest, hrest⟩ := ih skip
      exact ⟨rest, congrArg (c :: ·) hrest⟩
    cases skip with
    | succ skip => exact hlonger skip
    | zero =>
      simp only [expression]
      split
      · exact ⟨c :: cs, rfl⟩
      · split
        · exact hlonger _
        · split
          · exact hlonger _
          · exact hlonger 0

/-- The value of an assignment lies inside the text. -/
theorem Assignment.inside_of_value? {s : Slice} {a : Assignment} (ha : a.value.IsIn s)
    {value : AttributeValue} (h : a.value? = some value) : value.slice.Inside s := by
  unfold Assignment.value? at h
  split at h
  · exact inside_of_tagValue? ha h
  · split at h
    · exact absurd h (by simp)
    · split at h
      · exact absurd h (by simp)
      · cases h
        obtain ⟨rest, hrest⟩ := expression_append 0 a.value.rest
        exact (Slice.inside_of_append (s := a.value.toSlice) hrest).trans ha.toSlice_inside

theorem isIn_of_assignmentAt? {s : Slice} {names : List (List Char)} {plus : Bool} {cur : Cursor}
    (hcur : cur.IsIn s) {a : Assignment} (h : assignmentAt? names plus cur = some a) :
    a.name.IsIn s ∧ a.value.IsIn s := by
  simp only [assignmentAt?] at h
  obtain ⟨word, _, hword⟩ := List.exists_of_findSome?_eq_some h
  obtain ⟨rest, _, hrest⟩ := Option.bind_eq_some_iff.mp hword
  obtain ⟨value, _, hvalue⟩ := Option.bind_eq_some_iff.mp hrest
  cases hvalue
  refine ⟨?_, Cursor.IsIn.seek ?_ value⟩ <;> split
  · exact hcur.seek _
  · exact hcur
  · exact hcur.seek _
  · exact hcur

/-- Name and value of every assignment that is found lie in the text. -/
theorem isIn_of_mem_assignments {s : Slice} {names : List (List Char)} {plus : Bool}
    {a : Assignment} (h : a ∈ (assignmentRecogniser names plus).findAll s) :
    a.name.IsIn s ∧ a.value.IsIn s := by
  obtain ⟨cur, taken, hr, hcur, _⟩ := Recogniser.mem_findAll h
  obtain ⟨found, hfound, heq⟩ := Option.map_eq_some_iff.mp hr
  cases heq
  rcases Option.or_eq_some_iff.mp hfound with hstart | ⟨_, hlater⟩
  · split at hstart
    · exact isIn_of_assignmentAt? hcur hstart
    · exact absurd hstart (by simp)
  · split at hlater
    · exact isIn_of_assignmentAt? (hcur.advance 1) hlater
    · exact absurd hlater (by simp)

/-! ### Calls -/

theorem suffix_of_after? {word cs rest : List Char} (h : after? word cs = some rest) :
    rest <:+ cs :=
  ⟨word, (eq_append_of_after? h).symm⟩

/-- What is left behind a word is the end of the text. -/
theorem suffix_of_afterFolded? {word cs rest : List Char} (h : afterFolded? word cs = some rest) :
    rest <:+ cs := by
  induction word generalizing cs with
  | nil =>
    unfold afterFolded? at h
    exact Option.some.inj h ▸ List.suffix_refl cs
  | cons w ws ih =>
    cases cs with
    | nil => exact absurd h (by simp [afterFolded?])
    | cons c cs =>
      unfold afterFolded? at h
      split at h
      · exact (ih h).trans (List.suffix_cons c cs)
      · exact absurd h (by simp)

/-- `ReadsCall callee`: what is read as the start of a call ends before a parenthesis. -/
def ReadsCall (callee : List Char → Option (List Char)) : Prop :=
  ∀ {cs rest}, callee cs = some rest → rest <:+ cs ∧ rest.head? = some '('

/-- Reading up to a parenthesis stops at one. -/
theorem readsCall_atParenthesis? : ReadsCall atParenthesis? := by
  intro cs rest h
  simp only [atParenthesis?] at h
  split at h
  · next hhead =>
    cases h
    exact ⟨List.dropWhile_suffix _, hhead⟩
  · exact absurd h (by simp)

/-- A word before a call does not change where the call opens. -/
theorem ReadsCall.afterWord? {next : List Char → Option (List Char)} (hnext : ReadsCall next)
    (words : List String) : ReadsCall (afterWord? words next) := by
  intro cs rest h
  obtain ⟨word, _, hword⟩ := List.exists_of_findSome?_eq_some h
  obtain ⟨more, hmore, hrest⟩ := Option.bind_eq_some_iff.mp hword
  obtain ⟨hsuffix, hhead⟩ := hnext hrest
  exact ⟨hsuffix.trans (suffix_of_after? hmore), hhead⟩

/-- A call that is found is a piece of the text that starts with a parenthesis. -/
theorem inside_of_mem_calls {s call : Slice} {callee : List Char → Option (List Char)}
    (hcallee : ReadsCall callee) (h : call ∈ (callRecogniser callee).findAll s) :
    call.Inside s ∧ call.text.head? = some '(' := by
  obtain ⟨cur, taken, hr, hcur, _⟩ := Recogniser.mem_findAll h
  unfold callRecogniser at hr
  split at hr
  · obtain ⟨rest, hrest, heq⟩ := Option.map_eq_some_iff.mp hr
    cases heq
    obtain ⟨hsuffix, hhead⟩ := hcallee hrest
    refine ⟨(hcur.seek rest).toSlice_inside, ?_⟩
    rw [Cursor.toSlice, Cursor.rest_seek hsuffix]
    exact hhead
  · exact absurd hr (by simp)

/-- A call that is found lies inside the text and opens with a parenthesis. -/
theorem inside_of_mem_callOf {s call : Slice} {functions : List String}
    (h : call ∈ (callOf functions).findAll s) : call.Inside s ∧ call.text.head? = some '(' :=
  inside_of_mem_calls (readsCall_atParenthesis?.afterWord? functions) h

theorem exists_readsCall_classListCall :
    ∃ callee, ReadsCall callee ∧ classListCall = callRecogniser callee := by
  refine ⟨_, ReadsCall.afterWord? ?_ _, rfl⟩
  -- a dot, with blanks around it, and the name of a method
  intro cs rest hrest
  obtain ⟨more, hmore, hmethod⟩ := Option.bind_eq_some_iff.mp hrest
  obtain ⟨hsuffix, hhead⟩ := readsCall_atParenthesis?.afterWord? _ hmethod
  have hdot : more <:+ cs := (suffix_of_after? hmore).trans (List.dropWhile_suffix _)
  exact ⟨(hsuffix.trans (List.dropWhile_suffix _)).trans hdot, hhead⟩

theorem inside_of_mem_classListCall {s call : Slice} (h : call ∈ classListCall.findAll s) :
    call.Inside s ∧ call.text.head? = some '(' := by
  obtain ⟨callee, hcallee, hcall⟩ := exists_readsCall_classListCall
  rw [hcall] at h
  exact inside_of_mem_calls hcallee h

/-- The body of a literal argument. -/
theorem inside_of_mem_arguments {s call arg : Slice} {literal : Script.Literal}
    (hcall : call.Inside s ∧ call.text.head? = some '(') (harg : arg ∈ Script.callArguments call)
    (h : Script.literalAt? arg = some literal) : literal.body.Inside s :=
  ((Script.inside_of_literalAt? h).trans (Script.inside_of_mem_callArguments hcall.2 harg)).trans
    hcall.1

theorem inside_of_firstLiteral? {s call : Slice} {literal : Script.Literal}
    (hcall : call.Inside s ∧ call.text.head? = some '(') (h : firstLiteral? call = some literal) :
    literal.body.Inside s := by
  obtain ⟨arg, harg, hliteral⟩ := Option.bind_eq_some_iff.mp h
  exact inside_of_mem_arguments hcall (List.mem_of_head? harg) hliteral

/-! ### Names in selectors -/

theorem takeName_append (cs : List Char) : (takeName cs).1 ++ (takeName cs).2 = cs := by
  fun_induction takeName cs <;> simp_all

/-- Only backslashes get lost. -/
theorem mem_unescape {raw : List Char} {c : Char} (hc : c ∈ raw) (hne : c ≠ '\\') :
    c ∈ unescape raw := by
  fun_induction unescape raw with
  | case1 => exact absurd hc List.not_mem_nil
  | case2 => exact absurd (List.mem_singleton.mp hc) hne
  | case3 d cs ih =>
    rcases List.mem_cons.mp hc with rfl | hc
    · exact absurd rfl hne
    · rcases List.mem_cons.mp hc with rfl | hc
      · exact List.mem_cons_self
      · exact List.mem_cons_of_mem _ (ih hc)
  | case4 d cs _ _ ih =>
    rcases List.mem_cons.mp hc with rfl | hc
    · exact List.mem_cons_self
    · exact List.mem_cons_of_mem _ (ih hc)

theorem NameKind.utf8Size_of_ofMarker? {c : Char} {kind : NameKind}
    (h : NameKind.ofMarker? c = some kind) : c.utf8Size = 1 := by
  unfold NameKind.ofMarker? at h
  split at h
  · next hdot => rw [hdot]; rfl
  · split at h
    · next hhash => rw [hhash]; rfl
    · exact absurd h (by simp)

/-- A token has a name, which starts with no digit and holds no byte of a placeholder. -/
theorem Token.ofRaw?_eq_some {offset : Nat} {kind : NameKind} {raw : List Char} {t : Token}
    (h : Token.ofRaw? offset kind raw = some t) :
    t = ⟨offset, kind, String.ofList (unescape raw), byteLen raw⟩ ∧ unescape raw ≠ [] ∧
      raw.head?.any Char.isDigit = false ∧ Mask.dynamic ∉ unescape raw := by
  simp only [Token.ofRaw?] at h
  split at h
  · exact absurd h (by simp)
  · next hname =>
    cases h
    simp only [Bool.or_eq_true, not_or, List.isEmpty_iff, List.contains_iff_mem,
      Bool.not_eq_true] at hname
    exact ⟨rfl, hname.1.1, hname.1.2, hname.2⟩

/-- A name of a selector text is written right after its marker, which has one byte. -/
theorem tokens_spec {s : Slice} {t : Token} (h : t ∈ tokens s) :
    ∃ raw, Slice.Inside ⟨t.offset + 1, raw⟩ s ∧ t.rawLen = byteLen raw ∧
      t.name = String.ofList (unescape raw) ∧ unescape raw ≠ [] ∧ Mask.dynamic ∉ unescape raw := by
  obtain ⟨found, hfound, rfl⟩ := List.mem_filterMap.mp h
  obtain ⟨cur, taken, hr, hcur, _⟩ := Recogniser.mem_findAll hfound
  unfold tokenRecogniser at hr
  split at hr
  · exact absurd hr (by simp)
  · next c cs hrest =>
    -- backslashes, attribute selectors and strings are no names
    split at hr
    · exact absurd (Prod.mk.inj (Option.some.inj hr)).1 (by simp)
    · split at hr
      · exact absurd (Prod.mk.inj (Option.some.inj hr)).1 (by simp)
      · split at hr
        · exact absurd (Prod.mk.inj (Option.some.inj hr)).1 (by simp)
        · split at hr
          · exact absurd hr (by simp)
          · next kind hkind =>
            obtain ⟨rfl, hne, _, hdynamic⟩ :=
              Token.ofRaw?_eq_some (Prod.mk.inj (Option.some.inj hr)).1
            have hafter : Slice.Inside ⟨cur.offset + 1, cs⟩ cur.toSlice :=
              Slice.inside_of_cons hrest (NameKind.utf8Size_of_ofMarker? hkind)
            have hraw : Slice.Inside ⟨cur.offset + 1, (takeName cs).1⟩ ⟨cur.offset + 1, cs⟩ :=
              Slice.inside_of_append (takeName_append cs).symm
            exact ⟨(takeName cs).1, (hraw.trans hafter).trans hcur.toSlice_inside, rfl, rfl, hne,
              hdynamic⟩

/-- Masked placeholders do not move the names of a selector. -/
theorem inside_of_mem_tokens_selectorText {literal : Script.Literal} {t : Token}
    (h : t ∈ tokens (selectorText literal)) :
    ∃ raw, Slice.Inside ⟨t.offset + 1, raw⟩ literal.body ∧ t.rawLen = byteLen raw ∧
      t.name = String.ofList (unescape raw) ∧ unescape raw ≠ [] := by
  obtain ⟨raw, hin, hlen, hname, hne, hdynamic⟩ := tokens_spec h
  refine ⟨raw, ?_, hlen, hname, hne⟩
  unfold selectorText at hin
  split at hin
  · obtain ⟨before, after, htext, hoffset⟩ := hin
    have hraw : raw ≠ [] := by
      intro hnil
      rw [hnil] at hne
      exact hne rfl
    -- masking fills with a character that no name has, so the raw name stands in the body too
    have hkept : ∀ c ∈ raw, c ≠ Mask.dynamic := by
      intro c hc heq
      rw [heq] at hc
      exact hdynamic (mem_unescape hc (by decide))
    obtain ⟨before', after', hbody, hbytes⟩ :=
      (Placeholder.masked_maskAll literal.body.text).part (fun c hc => by rw [hc]; rfl) htext hraw
        hkept
    refine ⟨before', after', hbody, ?_⟩
    rw [hbytes]
    exact hoffset
  · exact hin

/-! ### References -/

namespace Reference

/-- `r.PointsInto s`: at the offset of the reference the slice holds a written form of its length,
and the name is what it stands for. A form in a selector may hold backslashes; all others are the
name itself. -/
def PointsInto (r : Reference) (s : Slice) : Prop :=
  ∃ raw : Slice, raw.Inside s ∧ r.offset = raw.offset ∧ r.len = byteLen raw.text ∧ r.name ≠ "" ∧
    r.name = String.ofList (if r.site = .querySelector then unescape raw.text else raw.text)

/-- A reference into a piece is one into the whole. -/
theorem PointsInto.trans {r : Reference} {s t : Slice} (h : r.PointsInto s) (hst : s.Inside t) :
    r.PointsInto t := by
  obtain ⟨raw, hraw, hrest⟩ := h
  exact ⟨raw, hraw.trans hst, hrest⟩

theorem ofList_ne_empty {cs : List Char} (h : cs ≠ []) : String.ofList cs ≠ "" := by
  intro heq
  have hlist := congrArg String.toList heq
  rw [String.toList_ofList] at hlist
  exact h hlist

/-- The reference made from a name inside a text points into the text. -/
theorem pointsInto_ofSlice {name s : Slice} (h : name.Inside s ∧ name.text ≠ []) (kind : NameKind)
    {site : ReferenceSite} (hsite : site ≠ .querySelector) :
    (ofSlice kind site name).PointsInto s := by
  have hplain : (if site = .querySelector then unescape name.text else name.text) = name.text :=
    if_neg hsite
  exact ⟨name, h.1, rfl, rfl, ofList_ne_empty h.2, (congrArg String.ofList hplain).symm⟩

/-- A token of a literal points into its body, placeholders or not. -/
theorem pointsInto_ofToken {literal : Script.Literal} {t : Token}
    (h : t ∈ tokens (selectorText literal)) : (ofToken t).PointsInto literal.body := by
  obtain ⟨raw, hin, hlen, hname, hne⟩ := inside_of_mem_tokens_selectorText h
  refine ⟨⟨t.offset + 1, raw⟩, hin, rfl, hlen, ?_, hname⟩
  rw [show (ofToken t).name = String.ofList (unescape raw) from hname]
  exact ofList_ne_empty hne

end Reference

open Reference

/-- The references of class attributes point into the text. -/
theorem pointsInto_of_mem_classAttribute {s : Slice} {r : Reference}
    (h : r ∈ classAttributeReferences s) : r.PointsInto s := by
  obtain ⟨a, ha, hr⟩ := List.mem_flatMap.mp h
  split at hr
  · exact absurd hr List.not_mem_nil
  · next value hvalue =>
    obtain ⟨name, hname, rfl⟩ := List.mem_map.mp hr
    have hin := Assignment.inside_of_value? (isIn_of_mem_assignments ha).2 hvalue
    refine (pointsInto_ofSlice ?_ .className (by decide)).trans hin
    split at hname
    · exact inside_of_mem_boundClassNames hname
    · exact inside_of_mem_classNames hname

/-- The references of id attributes point into the text. -/
theorem pointsInto_of_mem_idAttribute {s : Slice} {r : Reference}
    (h : r ∈ idAttributeReferences s) : r.PointsInto s := by
  obtain ⟨a, ha, hr⟩ := List.mem_flatMap.mp h
  split at hr
  · split at hr
    · exact absurd hr List.not_mem_nil
    · next value hvalue =>
      obtain ⟨name, hname, rfl⟩ := List.mem_map.mp hr
      obtain ⟨part, hpart, hsingle⟩ := List.mem_filterMap.mp hname
      have hvalueIn := Assignment.inside_of_value? (isIn_of_mem_assignments ha).2 hvalue
      have hpartIn : part.Inside value.slice := by
        split at hpart
        · obtain ⟨literal, hliteral, rfl⟩ := List.mem_map.mp hpart
          exact Script.inside_of_mem_literals hliteral
        · rw [List.mem_singleton.mp hpart]
          exact .refl _
      have hnamed : PointsInto (ofSlice .idName .idAttribute name) part :=
        pointsInto_ofSlice (inside_of_singleName? hsingle) .idName (by decide)
      exact hnamed.trans (hpartIn.trans hvalueIn)
  · exact absurd hr List.not_mem_nil

theorem pointsInto_of_mem_classList {s : Slice} {r : Reference}
    (h : r ∈ classListReferences s) : r.PointsInto s := by
  obtain ⟨call, hcall, hr⟩ := List.mem_flatMap.mp h
  obtain ⟨name, hname, rfl⟩ := List.mem_map.mp hr
  obtain ⟨body, hbody, hsingle⟩ := List.mem_filterMap.mp hname
  obtain ⟨literal, hliteral, rfl⟩ := List.mem_map.mp hbody
  obtain ⟨arg, harg, hat⟩ := List.mem_filterMap.mp hliteral
  exact (pointsInto_ofSlice (inside_of_singleName? hsingle) .className (by decide)).trans
    (inside_of_mem_arguments (inside_of_mem_classListCall hcall) harg hat)

theorem pointsInto_of_mem_selectorCall {s : Slice} {r : Reference}
    (h : r ∈ selectorCallReferences s) : r.PointsInto s := by
  obtain ⟨call, hcall, hr⟩ := List.mem_flatMap.mp h
  split at hr
  · exact absurd hr List.not_mem_nil
  · next literal hliteral =>
    obtain ⟨t, ht, rfl⟩ := List.mem_map.mp hr
    exact (pointsInto_ofToken ht).trans
      (inside_of_firstLiteral? (inside_of_mem_callOf hcall) hliteral)

theorem pointsInto_of_mem_idCall {s : Slice} {r : Reference}
    (h : r ∈ idCallReferences s) : r.PointsInto s := by
  obtain ⟨call, hcall, hr⟩ := List.mem_filterMap.mp h
  obtain ⟨literal, hliteral, hname⟩ := Option.bind_eq_some_iff.mp hr
  obtain ⟨name, hsingle, heq⟩ := Option.bind_eq_some_iff.mp hname
  cases heq
  exact (pointsInto_ofSlice (inside_of_singleName? hsingle) .idName (by decide)).trans
    (inside_of_firstLiteral? (inside_of_mem_callOf hcall) hliteral)

/-- Markup that is written into a page is a literal of the text. -/
theorem inside_of_mem_writtenMarkup {s fragment : Slice} (h : fragment ∈ writtenMarkup s) :
    fragment.Inside s := by
  obtain ⟨literal, hliteral, rfl⟩ := List.mem_map.mp h
  rcases List.mem_append.mp hliteral with hassigned | hinserted
  · obtain ⟨value, hvalue, hat⟩ := List.mem_filterMap.mp hassigned
    refine (Script.inside_of_literalAt? hat).trans ?_
    obtain ⟨cur, taken, hr, hcur, _⟩ := Recogniser.mem_findAll hvalue
    unfold markupAssignment at hr
    split at hr
    · obtain ⟨rest, _, heq⟩ := Option.map_eq_some_iff.mp hr
      cases heq
      exact (hcur.seek rest).toSlice_inside
    · exact absurd hr (by simp)
  · obtain ⟨call, hcall, hsecond⟩ := List.mem_filterMap.mp hinserted
    obtain ⟨arg, harg, hat⟩ := Option.bind_eq_some_iff.mp hsecond
    exact inside_of_mem_arguments (inside_of_mem_callOf hcall) (List.mem_of_getElem? harg) hat

/-- The references of written markup point into the fragments, and so into the text. -/
theorem pointsInto_of_mem_writtenMarkup {s : Slice} {r : Reference}
    (h : r ∈ writtenMarkupReferences s) : r.PointsInto s := by
  obtain ⟨fragment, hfragment, hr⟩ := List.mem_flatMap.mp h
  have hin := inside_of_mem_writtenMarkup hfragment
  rcases List.mem_append.mp hr with hclass | hid
  · exact (pointsInto_of_mem_classAttribute hclass).trans hin
  · exact (pointsInto_of_mem_idAttribute hid).trans hin

/-- Every reference of a slice stands in it. -/
theorem pointsInto_of_mem_references {s : Slice} {r : Reference} (h : r ∈ references s) :
    r.PointsInto s := by
  simp only [references, List.mem_append] at h
  rcases h with ((((hclass | hid) | hlist) | hselector) | hcall) | hwritten
  · exact pointsInto_of_mem_classAttribute hclass
  · exact pointsInto_of_mem_idAttribute hid
  · exact pointsInto_of_mem_classList hlist
  · exact pointsInto_of_mem_selectorCall hselector
  · exact pointsInto_of_mem_idCall hcall
  · exact pointsInto_of_mem_writtenMarkup hwritten

/-- **References index the text.** A reference has a name. Its two ends are boundaries of characters
of the text, and between them the name is written: as it is, or in the argument of a selector call
in a form that becomes the name when each backslash is dropped and the character after it kept. -/
theorem references_index_text (text : String) (r : Reference)
    (hr : r ∈ references (.ofText text.toList)) :
    let written := String.Pos.Raw.extract text ⟨r.offset⟩ ⟨r.offset + r.len⟩
    r.name ≠ "" ∧ String.Pos.Raw.IsValid text ⟨r.offset⟩ ∧
      String.Pos.Raw.IsValid text ⟨r.offset + r.len⟩ ∧ r.offset + r.len ≤ text.utf8ByteSize ∧
      (r.site ≠ .querySelector → written = r.name) ∧
      (r.site = .querySelector → String.ofList (unescape written.toList) = r.name) := by
  intro written
  obtain ⟨raw, hin, hoffset, hlen, hne, hname⟩ := pointsInto_of_mem_references hr
  have hpart : raw.IsPartOf text.toList := hin.isPartOf
  have hstop : r.offset + r.len = raw.stop := by rw [hoffset, hlen, Slice.stop]
  have hwritten : written = String.ofList raw.text := by
    show String.Pos.Raw.extract text ⟨r.offset⟩ ⟨r.offset + r.len⟩ = _
    rw [hstop, hoffset]
    exact hpart.extract
  refine ⟨hne, ?_, ?_, ?_, ?_, ?_⟩
  · rw [hoffset]
    exact hpart.isValid.1
  · rw [hstop]
    exact hpart.isValid.2
  · rw [hstop]
    exact hpart.stop_le
  · intro hsite
    rw [hwritten, hname, if_neg hsite]
  · intro hsite
    rw [hwritten, hname, if_pos hsite, String.toList_ofList]

/-- After a character of two bytes and a placeholder, with a backslash in the written form. -/
theorem references_index_text_template :
    let text := "é; a.querySelector(`.$\x7bx\x7d.b\\:c`)"
    let r : Reference := ⟨27, 4, .className, "b:c", .querySelector⟩
    r ∈ references (.ofText text.toList) ∧ String.Pos.Raw.IsValid text ⟨27⟩ ∧
      String.Pos.Raw.IsValid text ⟨31⟩ ∧
      String.ofList (unescape (String.Pos.Raw.extract text ⟨27⟩ ⟨31⟩).toList) = "b:c" := by
  intro text r
  have hr : r ∈ references (.ofText text.toList) := by decide +kernel
  obtain ⟨_, hstart, hstop, _, _, hwritten⟩ := references_index_text text r hr
  exact ⟨hr, hstart, hstop, hwritten rfl⟩

end StyleAudit
