import StyleAudit.Proofs.EscapedNames

/-!
# Branches and commas

Cutting a text at its commas and joining the branches with commas undo each other. One way this
holds of every text: nothing but the commas is lost. The other way it holds of branches that a comma
can be put behind. Masking looks ahead by one character and carries its state from one branch to the
next, so a branch has to leave both as it found them: on its own it ends in code, outside of
parentheses, with all brackets closed.

* **`Slice.Joined`** relates the branches of a text to the text, and **`joined_branchesFrom`** says
  that every cut is of this form.
* **`Mask.paint_append_comma`**: what stands before a comma is masked as if nothing followed, and
  what stands behind it as if nothing came before.
* **`IsBranch`** says what a branch has to be like, and **`map_text_branches_intercalate`** that
  such branches are found again.
-/

namespace StyleAudit

open Text

/-! ### Branches of any text -/

namespace Slice

/-- `Joined start pieces cs`: the pieces follow each other in a text that starts at an offset, with
one comma after each but the last. -/
inductive Joined : Nat → List Slice → List Char → Prop
  | last (start : Nat) (cs : List Char) : Joined start [⟨start, cs⟩] cs
  | cons (start : Nat) (cs : List Char) {pieces : List Slice} {rest : List Char} :
      Joined (start + byteLen cs + 1) pieces rest →
        Joined start (⟨start, cs⟩ :: pieces) (cs ++ ',' :: rest)

namespace Joined

variable {start : Nat} {pieces : List Slice} {cs : List Char}

/-- There is a first piece, and it starts where the text does. -/
theorem exists_cons (h : Joined start pieces cs) :
    ∃ first rest, pieces = ⟨start, first⟩ :: rest := by
  cases h with
  | last => exact ⟨cs, [], rfl⟩
  | cons _ first _ => exact ⟨first, _, rfl⟩

/-- A piece starts one byte behind the end of the piece before it. -/
theorem isChain (h : Joined start pieces cs) :
    pieces.IsChain fun a b => b.offset = a.stop + 1 := by
  induction h with
  | last => exact .singleton _
  | cons start cs h ih =>
    obtain ⟨first, rest, rfl⟩ := h.exists_cons
    exact List.isChain_cons_cons.mpr ⟨rfl, ih⟩

/-- With commas between them, the pieces are the text again. -/
theorem intercalate_eq (h : Joined start pieces cs) :
    [','].intercalate (pieces.map Slice.text) = cs := by
  induction h with
  | last => exact List.intercalate_singleton
  | cons start cs h ih =>
    obtain ⟨first, rest, rfl⟩ := h.exists_cons
    rw [List.map_cons, List.map_cons, List.intercalate_cons_cons, ← List.map_cons, ih,
      List.append_assoc]
    rfl

end Joined

end Slice

/-- Cutting at commas loses nothing but the commas. -/
theorem joined_branchesFrom (depth start : Nat) (branch : List Char)
    (painted : List (Char × Mask.Paint)) :
    Slice.Joined start (branchesFrom depth start branch painted)
      (branch.reverse ++ painted.map Prod.fst) := by
  induction painted generalizing depth start branch with
  | nil =>
    rw [branchesFrom, List.map_nil, List.append_nil]
    exact .last _ _
  | cons first rest ih =>
    obtain ⟨c, paint⟩ := first
    -- a character that does not end the branch
    have hlonger : ∀ depth, Slice.Joined start (branchesFrom depth start (c :: branch) rest)
        (branch.reverse ++ ((c, paint) :: rest).map Prod.fst) := by
      intro depth
      have hjoined := ih depth start (c :: branch)
      rw [List.reverse_cons, List.append_assoc] at hjoined
      exact hjoined
    rw [branchesFrom]
    split
    · split
      · exact hlonger _
      · split
        · exact hlonger _
        · split
          · next hcomma =>
            have hjoined := ih depth (start + byteLen branch + 1) []
            rw [← byteLen_reverse] at hjoined
            rw [List.map_cons, hcomma.1, ← byteLen_reverse]
            exact hjoined.cons start branch.reverse
          · exact hlonger _
    · exact hlonger _

theorem joined_branches (s : Slice) : Slice.Joined s.offset (branches s) s.text := by
  have hjoined := joined_branchesFrom 0 s.offset [] (Mask.paint s.text)
  rw [Mask.paint, Mask.map_fst_paintFrom] at hjoined
  exact hjoined

/-! ### Masking up to a comma -/

namespace Mask

/-- A comma that comes next changes nothing. -/
theorem step_before_comma (s : State) (c : Char) : step s c (some ',') = step s c none := by
  obtain ⟨mode, parens⟩ := s
  cases mode <;> simp [step, stepCode]

/-- A comma opens and closes nothing, so it does not matter to what comes before it. -/
theorem paintFrom_append_comma (s : State) (front rest : List Char) :
    paintFrom s (front ++ ',' :: rest) =
      paintFrom s front ++ paintFrom (stateAfter s front []) (',' :: rest) := by
  induction front generalizing s with
  | nil => rfl
  | cons c front ih =>
    -- only the last character of `front` looks at the comma
    have hstep : step s c (front ++ ',' :: rest).head? = step s c front.head? := by
      cases front with
      | nil => exact step_before_comma s c
      | cons d front => rfl
    rw [List.cons_append, paintFrom, paintFrom, hstep, ih, stateAfter, List.append_nil]
    rfl

/-- The state at the end of a text. -/
def endState (cs : List Char) : State := stateAfter .start cs []

/-- The mode is that of code, also if the last character is a backslash. -/
def State.InCode (s : State) : Prop := s.mode = .code ∨ s.mode = .escaped

instance (s : State) : Decidable s.InCode := inferInstanceAs (Decidable (_ ∨ _))

/-- A comma in code is kept, and the text behind it is masked from the start. -/
theorem paint_append_comma {front : List Char} (hcode : (endState front).InCode)
    (hparens : (endState front).parens = 0) (rest : List Char) :
    paint (front ++ ',' :: rest) = paint front ++ (',', .keep) :: paint rest := by
  have hcomma : paintFrom (endState front) (',' :: rest) = (',', .keep) :: paint rest := by
    generalize endState front = s at hcode hparens
    obtain ⟨mode, parens⟩ := s
    obtain rfl : parens = 0 := hparens
    rcases hcode with hmode | hmode
    · obtain rfl : mode = .code := hmode
      rfl
    · obtain rfl : mode = .escaped := hmode
      rfl
  rw [paint, paintFrom_append_comma]
  exact congrArg (paintFrom .start front ++ ·) hcomma

end Mask

/-! ### Branches that can be joined -/

/-- A text that can be one of several branches: masked on its own, it ends in code outside of
parentheses, its brackets are closed in the end, and all its commas are in brackets. -/
structure IsBranch (cs : List Char) : Prop where
  code : (Mask.endState cs).InCode
  parens : (Mask.endState cs).parens = 0
  closed : bracketDepth 0 (mask cs) = 0
  commas : hasBareComma 0 (mask cs) = false

theorem isBranch_iff {cs : List Char} :
    IsBranch cs ↔ ((Mask.endState cs).InCode ∧ (Mask.endState cs).parens = 0) ∧
      bracketDepth 0 (mask cs) = 0 ∧ hasBareComma 0 (mask cs) = false :=
  ⟨fun h => ⟨⟨h.code, h.parens⟩, h.closed, h.commas⟩, fun h => ⟨h.1.1, h.1.2, h.2.1, h.2.2⟩⟩

instance (cs : List Char) : Decidable (IsBranch cs) := decidable_of_iff _ isBranch_iff.symm

/-- The cut behind a branch. -/
theorem branchesFrom_append_comma {front : List Char} (h : IsBranch front) (start : Nat)
    (rest : List Char) :
    branchesFrom 0 start [] (Mask.paint (front ++ ',' :: rest)) =
      ⟨start, front⟩ :: branchesFrom 0 (start + byteLen front + 1) [] (Mask.paint rest) := by
  have hfront : (Mask.paint front).map Prod.fst = front := Mask.map_fst_paintFrom _ _
  have hdepth : bracketDepth 0 (Mask.render (Mask.paint front)) = 0 := h.closed
  rw [Mask.paint_append_comma h.code h.parens, branchesFrom_append h.commas, hdepth, hfront,
    List.append_nil, branchesFrom, if_pos rfl, if_neg (by decide), if_neg (by decide),
    if_pos ⟨rfl, rfl⟩, List.reverse_reverse, byteLen_reverse]

/-- Branches that are put together with commas are found again. -/
theorem map_text_branches_intercalate {parts : List (List Char)} (hne : parts ≠ [])
    (h : ∀ part ∈ parts, IsBranch part) (start : Nat) :
    (branches ⟨start, [','].intercalate parts⟩).map Slice.text = parts := by
  induction parts generalizing start with
  | nil => exact absurd rfl hne
  | cons part parts ih =>
    obtain ⟨hpart, hparts⟩ := List.forall_mem_cons.mp h
    unfold branches
    cases parts with
    -- the last branch has no comma, so nothing cuts it
    | nil =>
      have hcommas : hasBareComma 0 (Mask.render (Mask.paint part)) = false := hpart.commas
      have hwhole := branchesFrom_eq_singleton start hcommas
      rw [Mask.paint, Mask.map_fst_paintFrom] at hwhole
      rw [List.intercalate_singleton]
      exact congrArg (List.map Slice.text) hwhole
    | cons next parts =>
      rw [List.intercalate_cons_cons, List.append_assoc, List.singleton_append,
        branchesFrom_append_comma hpart]
      exact congrArg (part :: ·) (ih (by simp) hparts _)

/-- **Cutting at commas and joining with commas.** The branches of a text start at offset 0, each is
the piece of the text between its ends, the next one starts one byte behind it, and with commas
between them they are the text. The other way round, a row of branches that each end in code,
outside of parentheses and brackets, and have no comma outside of brackets, is what the text that is
joined from them is cut into. -/
theorem branches_and_commas :
    (∀ text : String,
      let pieces := branches (.ofText text.toList)
      pieces.head?.map Slice.offset = some 0 ∧
      (∀ piece ∈ pieces, String.Pos.Raw.extract text ⟨piece.offset⟩ ⟨piece.stop⟩ =
        String.ofList piece.text) ∧
      (pieces.IsChain fun a b => b.offset = a.stop + 1) ∧
      [','].intercalate (pieces.map Slice.text) = text.toList) ∧
    ∀ parts : List (List Char), parts ≠ [] → (∀ part ∈ parts, IsBranch part) →
      (branches (.ofText ([','].intercalate parts))).map Slice.text = parts := by
  refine ⟨fun text => ?_, fun parts hne hparts => map_text_branches_intercalate hne hparts 0⟩
  intro pieces
  -- the four facts about the pieces are read off the way in which they are joined
  have hjoined : Slice.Joined 0 pieces text.toList := joined_branches (.ofText text.toList)
  refine ⟨?_, fun piece hpiece => ?_, hjoined.isChain, hjoined.intercalate_eq⟩
  · obtain ⟨first, rest, hpieces⟩ := hjoined.exists_cons
    rw [hpieces]
    rfl
  · obtain ⟨before, after, htext, hoffset, _⟩ :=
      (parts_branches (.ofText text.toList)).cut piece hpiece
    have hinside : piece.Inside (.ofText text.toList) := ⟨before, after, htext, hoffset⟩
    exact hinside.isPartOf.extract

/-- Commas in brackets, in a comment, in a string and in an interpolation, a bracket that opens
nothing, and a backslash right before the comma that is put in. -/
theorem branches_and_commas_hidden :
    let parts := [":is(a,[b=c]\x7b,\x7d)".toList, "/*,(*/ 'é,'".toList, ")#\x7b,\x7d\\".toList, []]
    (parts ≠ [] ∧ ∀ part ∈ parts, IsBranch part) ∧
      [','].intercalate parts = ":is(a,[b=c]\x7b,\x7d),/*,(*/ 'é,',)#\x7b,\x7d\\,".toList ∧
      branches (.ofText ([','].intercalate parts)) =
        [⟨0, ":is(a,[b=c]\x7b,\x7d)".toList⟩, ⟨16, "/*,(*/ 'é,'".toList⟩,
          ⟨29, ")#\x7b,\x7d\\".toList⟩, ⟨36, []⟩] ∧
      (branches (.ofText ([','].intercalate parts))).map Slice.text = parts := by
  intro parts
  have hparts : parts ≠ [] ∧ ∀ part ∈ parts, IsBranch part := by decide +kernel
  exact ⟨hparts, by decide +kernel, by decide +kernel,
    branches_and_commas.2 parts hparts.1 hparts.2⟩

end StyleAudit
