import Mathlib.Data.List.Chain
import StyleAudit.Proofs.ByteScript
import StyleAudit.Proofs.EscapedNames
import StyleAudit.Reference.Resolve

/-!
# Selectors in quoted literals

A script that looks a class up by a selector writes its name with two layers of backslashes: those
of the selector (`escape`), and around them those of the literal (`Script.inQuotes`). The scan of a
call takes the body of the literal as it is written and reads names from it, so it undoes one layer
only.

* **`Paired`** describes the bodies of literals in single quotes. Brackets, commas and quotes in
  such a body end neither the literal nor the argument (`firstLiteral?_of_paired`).
* **`calls_of_parensEscaped`**: the call is the only one of its text. A parenthesis of the name
  stands right after a backslash, so no word before it is called.
* **`eq_quote_of_mem_name`**: of all characters that end a name, the names found in such a body hold
  the quote only.
-/

namespace StyleAudit

open Text

/-! ### Literals -/

namespace Script

/-- The body of a literal in single quotes that stands for `cs`. -/
def inQuotes (cs : List Char) : List Char :=
  cs.flatMap fun c => if c = '\\' ∨ c = '\x27' then ['\\', c] else [c]

/-- A literal in single quotes that stands for `cs`. -/
def singleQuoted (cs : List Char) : List Char := '\x27' :: (inQuotes cs ++ ['\x27'])

/-- Quoting puts a backslash before each backslash and each quote. -/
theorem inQuotes_cons (c : Char) (cs : List Char) :
    inQuotes (c :: cs) = (if c = '\\' ∨ c = '\x27' then ['\\', c] else [c]) ++ inQuotes cs := rfl

theorem inQuotes_backslash (cs : List Char) : inQuotes ('\\' :: cs) = '\\' :: '\\' :: inQuotes cs :=
  rfl

theorem inQuotes_plain {c : Char} (hbackslash : c ≠ '\\') (hquote : c ≠ '\x27') (cs : List Char) :
    inQuotes (c :: cs) = c :: inQuotes cs := by
  rw [inQuotes_cons, if_neg fun h => h.elim hbackslash hquote]
  rfl

/-- A text without backslashes and quotes is quoted as it is. -/
theorem inQuotes_eq_self {cs : List Char} (h : ∀ c ∈ cs, c ≠ '\\' ∧ c ≠ '\x27') :
    inQuotes cs = cs := by
  induction cs with
  | nil => rfl
  | cons c cs ih =>
    obtain ⟨hbackslash, hquote⟩ := h c List.mem_cons_self
    rw [inQuotes_plain hbackslash hquote, ih fun d hd => h d (List.mem_cons_of_mem c hd)]

/-- Bodies of literals in single quotes: each backslash stands before a backslash or a quote, each
quote after a backslash. -/
inductive Paired : List Char → Prop
  | nil : Paired []
  | plain {c : Char} {cs : List Char} : c ≠ '\\' → c ≠ '\x27' → Paired cs → Paired (c :: cs)
  | pair {c : Char} {cs : List Char} : c = '\\' ∨ c = '\x27' → Paired cs → Paired ('\\' :: c :: cs)

/-- In quoted text every backslash has its second character, and every quote is one. -/
theorem paired_inQuotes (cs : List Char) : Paired (inQuotes cs) := by
  induction cs with
  | nil => exact .nil
  | cons c cs ih =>
    rw [inQuotes_cons]
    split
    · next hc => exact ih.pair hc
    · next hc =>
      rw [not_or] at hc
      exact ih.plain hc.1 hc.2

variable {body : List Char}

/-- Nothing in the body closes the literal. -/
theorem closeFrom_of_paired (h : Paired body) (outer : List Frame) (rest : List Char) :
    closeFrom (.quoted '\x27') outer (body ++ rest) =
      (body ++ (closeFrom (.quoted '\x27') outer rest).1,
        (closeFrom (.quoted '\x27') outer rest).2) := by
  induction h with
  | nil => rfl
  | plain hbackslash hquote _ ih =>
    rw [List.cons_append, closeFrom_quoted_cons hbackslash, if_neg fun h => absurd h.1 (by decide),
      if_neg hquote, ih]
    rfl
  | pair _ _ ih =>
    rw [List.cons_append, List.cons_append, closeFrom, ih]
    rfl

/-- The literal is masked as a whole. -/
theorem paint_of_paired (h : Paired body) :
    Mask.paint ('\x27' :: (body ++ ['\x27'])) =
      ('\x27' :: (body ++ ['\x27'])).map fun c => (c, .blank) := by
  have hbody : Mask.paintFrom ⟨.quoted '\x27', 0⟩ (body ++ ['\x27']) =
      (body ++ ['\x27']).map fun c => (c, .blank) := by
    induction h with
    | nil => rfl
    | plain hbackslash hquote _ ih =>
      rw [List.cons_append, Mask.paintFrom, Mask.step_quoted, if_neg hbackslash, if_neg hquote, ih]
      rfl
    | @pair c cs _ _ ih =>
      show ('\\', _) :: (c, _) :: Mask.paintFrom ⟨.quoted '\x27', 0⟩ (cs ++ ['\x27']) = _
      rw [ih]
      rfl
  show (_, Mask.Paint.blank) :: Mask.paintFrom ⟨.quoted '\x27', 0⟩ (body ++ ['\x27']) = _
  rw [hbody]
  rfl

end Script

/-- A masked text is one branch: its commas do not count. -/
theorem branchesFrom_of_blank (depth start : Nat) (branch cs : List Char) :
    branchesFrom depth start branch (cs.map fun c => (c, Mask.Paint.blank)) =
      [⟨start, branch.reverse ++ cs⟩] := by
  induction cs generalizing branch with
  | nil => simp [branchesFrom]
  | cons c cs ih =>
    rw [List.map_cons, branchesFrom, if_neg (by decide), ih, List.reverse_cons, List.append_assoc]
    rfl

/-- The literal is the one argument of the call, whatever stands in it. -/
theorem firstLiteral?_of_paired {body : List Char} (h : Script.Paired body) (offset : Nat) :
    firstLiteral? ⟨offset, '(' :: '\x27' :: (body ++ ['\x27', ')'])⟩ =
      some ⟨'\x27', offset + 2, body⟩ := by
  have hinner : Script.bracketed ('\x27' :: (body ++ ['\x27', ')'])) =
      '\x27' :: (body ++ ['\x27']) := by
    show '\x27' :: (Script.closeFrom (.quoted '\x27') [.brackets 1] (body ++ ['\x27', ')'])).1 = _
    rw [Script.closeFrom_of_paired h]
    rfl
  -- the literal is masked as a whole, so the argument is not cut
  have hbranches : branches ⟨offset + 1, '\x27' :: (body ++ ['\x27'])⟩ =
      [⟨offset + 1, '\x27' :: (body ++ ['\x27'])⟩] := by
    unfold branches
    rw [Script.paint_of_paired h, branchesFrom_of_blank]
    rfl
  have harguments : Script.callArguments ⟨offset, '(' :: '\x27' :: (body ++ ['\x27', ')'])⟩ =
      [⟨offset + 1, '\x27' :: (body ++ ['\x27', ')'])⟩] := by
    unfold Script.callArguments
    simp only [hinner, hbranches]
    show [Slice.dropTo (offset + 1) ⟨offset + 1, '\x27' :: (body ++ ['\x27', ')'])⟩] = _
    rw [Slice.dropTo, Nat.sub_self]
    rfl
  have hquoted : Script.quotedText '\x27' (body ++ ['\x27', ')']) = body := by
    rw [Script.quotedText, Script.closeFrom_of_paired h]
    exact List.append_nil body
  rw [firstLiteral?, harguments]
  show some (Script.Literal.mk '\x27' ⟨offset + 2, Script.quotedText '\x27' _⟩) = _
  rw [hquoted]

/-! ### The call -/

/-- A call has no backslash between its word and its parenthesis. -/
theorem exists_of_afterWord? {words : List String}
    (hwords : ∀ w ∈ words, w.toList ≠ [] ∧ '\\' ∉ w.toList) {cs rest : List Char}
    (h : afterWord? words atParenthesis? cs = some rest) :
    ∃ front tail, cs = front ++ '(' :: tail ∧ front ≠ [] ∧ '\\' ∉ front := by
  obtain ⟨word, hword, hafter⟩ := List.exists_of_findSome?_eq_some h
  obtain ⟨more, hmore, hrest⟩ := Option.bind_eq_some_iff.mp hafter
  obtain ⟨hne, hbackslash⟩ := hwords word hword
  obtain ⟨_, hparen⟩ := readsCall_atParenthesis? hrest
  simp only [atParenthesis?] at hrest
  split at hrest
  · cases hrest
    obtain ⟨tail, htail⟩ := List.head?_eq_some_iff.mp hparen
    -- the word and the blanks behind it
    refine ⟨word.toList ++ more.takeWhile isBlank, tail, ?_, by simp [hne], ?_⟩
    · rw [← htail, List.append_assoc, List.takeWhile_append_dropWhile]
      exact eq_append_of_after? hmore
    · intro hmem
      rcases List.mem_append.mp hmem with hmem | hmem
      · exact hbackslash hmem
      · exact absurd (List.mem_takeWhile_imp hmem) (by decide)
  · exact absurd hrest (by simp)

/-- Each open parenthesis, a first one apart, stands right after a backslash. -/
def ParensEscaped (cs : List Char) : Prop := cs.IsChain fun a b => b = '(' → a = '\\'

/-- No call begins where every parenthesis is escaped. -/
theorem scan_callOf_of_parensEscaped {words : List String}
    (hwords : ∀ w ∈ words, w.toList ≠ [] ∧ '\\' ∉ w.toList) {cur : Cursor}
    (h : ParensEscaped cur.rest) : (callOf words).scan cur = [] := by
  refine List.eq_nil_iff_forall_not_mem.mpr fun call hcall => ?_
  obtain ⟨pre, suf, taken, hr, hrest, _⟩ := Recogniser.mem_findFrom hcall
  unfold callOf callRecogniser at hr
  split at hr
  · obtain ⟨after, hafter, _⟩ := Option.map_eq_some_iff.mp hr
    obtain ⟨front, tail, hsuf, hne, hbackslash⟩ := exists_of_afterWord? hwords hafter
    -- what stands before the parenthesis is the end of the word or a blank
    obtain ⟨front, last, rfl⟩ := (List.eq_nil_or_concat' front).resolve_left hne
    have hcut : cur.rest = (pre ++ front) ++ last :: '(' :: tail := by
      rw [hrest, show suf = _ from hsuf]
      simp
    unfold ParensEscaped at h
    rw [hcut] at h
    have hlast : last = '\\' := (List.isChain_append_cons_cons.mp h).2.1 rfl
    exact hbackslash (by simp [hlast])
  · exact absurd hr (by simp)

/-- In a literal for a written form each parenthesis of the name has a backslash before it. -/
theorem parensEscaped_of_written {raw name : List Char} (h : Written raw name) (before : Char) :
    ParensEscaped (before :: (Script.inQuotes raw ++ ['\x27', ')'])) := by
  have hcons : ∀ {a b : Char} {cs : List Char}, (b = '(' → a = '\\') → ParensEscaped (b :: cs) →
      ParensEscaped (a :: b :: cs) := fun hab hcs => List.isChain_cons_cons.mpr ⟨hab, hcs⟩
  -- the character before is carried along, since a name may start with a parenthesis
  induction h generalizing before with
  | nil => exact hcons (by simp) (hcons (by decide) (List.isChain_singleton _))
  | plain hboundary hbackslash _ ih =>
    have hne : ∀ d, isNameBoundary d = true → _ ≠ d := fun d => ne_of_isNameBoundary_eq hboundary
    rw [Script.inQuotes_plain hbackslash (hne _ (by decide)), List.cons_append]
    exact hcons (fun hparen => absurd hparen (hne _ (by decide))) (ih _)
  | @escaped c raw name _ ih =>
    rw [Script.inQuotes_backslash, List.cons_append, List.cons_append]
    refine hcons (by simp) (hcons (by decide) ?_)
    rw [Script.inQuotes_cons]
    split
    · next hc => exact hcons (by decide) (hcons (fun _ => rfl) (ih c))
    · exact hcons (fun _ => rfl) (ih c)

/-- A call is the text from the parenthesis on. -/
theorem callRecogniser_eq_some {callee : List Char → Option (List Char)} {offset : Nat}
    {before front rest : List Char}
    (hstart : Cursor.atWordStart ⟨offset, before, front ++ rest⟩ = true)
    (h : callee (front ++ rest) = some rest) :
    callRecogniser callee ⟨offset, before, front ++ rest⟩ =
      some (⟨offset + byteLen front, rest⟩, front.length + 1) := by
  unfold callRecogniser
  rw [if_pos hstart, h, Option.map_some, Cursor.seek_append, Cursor.distance_append]
  rfl

/-- The call is found, and none behind it. -/
theorem calls_of_parensEscaped {literal : List Char} (h : ParensEscaped literal) :
    (callOf selectorFunctions).findAll (.ofText ("document.querySelector(".toList ++ literal)) =
      [⟨22, '(' :: literal⟩] := by
  have hcall : callOf selectorFunctions
      ⟨9, "document.".toList.reverse, "querySelector".toList ++ '(' :: literal⟩ =
        some (⟨22, '(' :: literal⟩, 14) := callRecogniser_eq_some rfl rfl
  -- none of the nine places before the word starts a call
  show (callOf selectorFunctions).scan
    ⟨9, "document.".toList.reverse, "querySelector".toList ++ '(' :: literal⟩ = _
  rw [Recogniser.scan_of_some (by simp) (by decide) hcall, scan_callOf_of_parensEscaped]
  · decide
  · exact h

/-- A search of a document for the elements that match a selector. -/
def selectorCall (selector : List Char) : List Char :=
  "document.querySelector(".toList ++ (Script.singleQuoted selector ++ [')'])

/-- The references of one call are the tokens of its literal, as it is written. -/
theorem selectorCallReferences_selectorCall {raw name : List Char} (h : Written raw name) :
    selectorCallReferences (.ofText (selectorCall ('.' :: raw))) =
      (tokens ⟨24, '.' :: Script.inQuotes raw⟩).map Reference.ofToken := by
  have hliteral : Script.singleQuoted ('.' :: raw) ++ [')'] =
      '\x27' :: (Script.inQuotes ('.' :: raw) ++ ['\x27', ')']) := by
    simp [Script.singleQuoted]
  have hparens : ParensEscaped (Script.singleQuoted ('.' :: raw) ++ [')']) := by
    rw [hliteral]
    exact List.isChain_cons_cons.mpr ⟨by decide, parensEscaped_of_written h '.'⟩
  have hfirst := firstLiteral?_of_paired (Script.paired_inQuotes ('.' :: raw)) 22
  rw [← hliteral] at hfirst
  have hselector : selectorText ⟨'\x27', 24, Script.inQuotes ('.' :: raw)⟩ =
      ⟨24, '.' :: Script.inQuotes raw⟩ := rfl
  have hcalls := calls_of_parensEscaped hparens
  unfold selectorCallReferences selectorCall
  simp only [hcalls, List.flatMap_singleton, hfirst, hselector]

/-! ### The names -/

/-- Read as a written form, the body of a literal stands for the text of the literal, if no
character of it but the quote ends a name. -/
theorem written_inQuotes {raw : List Char} (h : ∀ c ∈ raw, isNameBoundary c = true → c = '\x27') :
    Written (Script.inQuotes raw) raw := by
  induction raw with
  | nil => exact .nil
  | cons c raw ih =>
    have hraw := ih fun d hd => h d (List.mem_cons_of_mem c hd)
    rw [Script.inQuotes_cons]
    split
    · exact hraw.escaped
    · next hc =>
      rw [not_or] at hc
      refine hraw.plain ?_ hc.1
      rw [← Bool.not_eq_true]
      exact fun hboundary => hc.2 (h c List.mem_cons_self hboundary)

namespace Script.Paired

/-- Pairs stay together where nothing is escaped. -/
theorem of_append {front rest : List Char} (h : Paired (front ++ rest))
    (hfront : endsEscaped false front = false) : Paired rest := by
  generalize hcs : front ++ rest = cs at h
  induction h generalizing front with
  | nil =>
    rw [(List.append_eq_nil_iff.mp hcs).2]
    exact .nil
  | @plain c cs hbackslash hquote hpaired ih =>
    cases front with
    | nil =>
      rw [← List.nil_append rest, hcs]
      exact hpaired.plain hbackslash hquote
    | cons d front =>
      obtain ⟨rfl, hrest⟩ := List.cons.inj hcs
      rw [endsEscaped_cons_of_ne hbackslash] at hfront
      exact ih hfront hrest
  | @pair c cs hc hpaired ih =>
    -- `front` cannot end between the two characters of a pair
    match front, hcs with
    | [], hcs =>
      rw [← List.nil_append rest, hcs]
      exact hpaired.pair hc
    | [d], hcs =>
      obtain ⟨rfl, _⟩ := List.cons.inj hcs
      exact absurd hfront (by decide)
    | d :: e :: front, hcs =>
      obtain ⟨rfl, htail⟩ := List.cons.inj hcs
      have hrest := (List.cons.inj htail).2
      rw [endsEscaped_backslash] at hfront
      exact ih hfront hrest

/-- Of the characters that end a name, a name that is read from a body holds the quote only. -/
theorem eq_quote_of_mem_takeName {body : List Char} (h : Paired body) {c : Char}
    (hc : c ∈ unescape (takeName body).1) (hboundary : isNameBoundary c = true) : c = '\x27' := by
  induction h with
  | nil => exact absurd hc List.not_mem_nil
  | @plain d cs hbackslash _ _ ih =>
    rw [takeName_cons hbackslash] at hc
    split at hc
    · exact absurd hc List.not_mem_nil
    · next hplain =>
      rw [unescape_cons hbackslash] at hc
      rcases List.mem_cons.mp hc with rfl | hc
      · exact absurd hboundary hplain
      · exact ih hc
  -- an escaped character is a backslash or a quote, and a backslash is no boundary
  | pair hd _ ih =>
    rw [takeName, unescape] at hc
    rcases List.mem_cons.mp hc with rfl | hc
    · refine hd.resolve_left ?_
      rintro rfl
      exact absurd hboundary (by decide)
    · exact ih hc

end Script.Paired

/-- A boundary inside a name that is read from a quoted literal can only be a quote. -/
theorem eq_quote_of_mem_name {offset : Nat} {body : List Char} (h : Script.Paired body) {t : Token}
    (ht : t ∈ tokens ⟨offset, body⟩) {c : Char} (hc : c ∈ t.name.toList)
    (hboundary : isNameBoundary c = true) : c = '\x27' := by
  obtain ⟨front, kind, rest, htext, hescape, hraw⟩ := exists_of_mem_tokens ht
  obtain ⟨rfl, _⟩ := Token.ofRaw?_eq_some hraw
  have hrest : Script.Paired rest := by
    have hmarker : endsEscaped false (front ++ [kind.marker]) = false :=
      endsEscaped_snoc kind.marker_ne_backslash false front
    refine Script.Paired.of_append ?_ hmarker
    rw [List.append_assoc, List.singleton_append, ← htext]
    exact h
  rw [String.toList_ofList] at hc
  exact hrest.eq_quote_of_mem_takeName hc hboundary

/-! ### Plain names -/

/-- Whether a name is written as it is: no character ends a name or is a backslash, and the first is
no digit. -/
def isPlainName (name : List Char) : Bool :=
  name.all (fun c => !isNameBoundary c && c != '\\') && !name.head?.any Char.isDigit

/-- Plain names have no boundaries, no backslashes and no digit in front. -/
theorem isPlainName_iff {name : List Char} : isPlainName name = true ↔
    (∀ c ∈ name, isNameBoundary c = false ∧ c ≠ '\\') ∧ name.head?.any Char.isDigit = false := by
  simp [isPlainName]

theorem escape_of_isPlainName {name : List Char} (h : isPlainName name = true) :
    escape name = name := by
  obtain ⟨hplain, hdigit⟩ := isPlainName_iff.mp h
  have hmark : ∀ {c : Char}, c ∈ name →
      (if isNameBoundary c || c == '\\' then ['\\', c] else [c]) = [c] := by
    intro c hc
    obtain ⟨hboundary, hbackslash⟩ := hplain c hc
    rw [hboundary, beq_false_of_ne hbackslash]
    rfl
  cases name with
  | nil => rfl
  | cons c cs =>
    have hfirst : ¬c.isDigit = true := Bool.not_eq_true _ ▸ hdigit
    unfold escape
    simp only
    rw [if_neg hfirst, hmark List.mem_cons_self]
    exact congrArg (c :: ·) ((List.flatMap_congr fun d hd =>
      hmark (List.mem_cons_of_mem c hd)).trans (List.flatMap_singleton' cs))

/-- Each backslash makes a written form longer than its name. -/
theorem Written.length_le {raw name : List Char} (h : Written raw name) :
    name.length ≤ raw.length := by
  induction h with
  | nil => exact Nat.le_refl 0
  | plain _ _ _ ih => exact Nat.succ_le_succ ih
  | escaped _ ih =>
    simp only [List.length_cons]
    omega

/-- A name whose written form is no longer than itself has nothing to escape. -/
theorem Written.plain_of_length_eq {raw name : List Char} (h : Written raw name)
    (hlength : raw.length = name.length) : ∀ c ∈ name, isNameBoundary c = false ∧ c ≠ '\\' := by
  induction h with
  | nil => exact fun c hc => absurd hc List.not_mem_nil
  | plain hboundary hbackslash _ ih =>
    exact List.forall_mem_cons.mpr ⟨⟨hboundary, hbackslash⟩, ih (Nat.succ.inj hlength)⟩
  | escaped hraw _ =>
    have hle := hraw.length_le
    simp only [List.length_cons] at hlength
    omega

/-- A name that is its own written form is plain. -/
theorem isPlainName_of_escape_eq {name : List Char} (h : escape name = name) :
    isPlainName name = true := by
  obtain ⟨hwritten, hdigit⟩ := written_escape name
  rw [h] at hwritten hdigit
  exact isPlainName_iff.mpr ⟨hwritten.plain_of_length_eq rfl, hdigit⟩

/-! ### The name that is looked up -/

/-- A selector for a class whose name holds no boundary but the quote is read as one name: the
written form, with the backslashes of the selector still in it. -/
theorem references_selectorCall_of_quotes_only {name : List Char} (hne : name ≠ [])
    (hdynamic : Mask.dynamic ∉ name)
    (hquotes : ∀ c ∈ name, isNameBoundary c = true → c = '\x27') :
    selectorCallReferences (.ofText (selectorCall ('.' :: escape name))) =
      [⟨25, byteLen (Script.inQuotes (escape name)), .className, String.ofList (escape name),
        .querySelector⟩] := by
  obtain ⟨hwritten, hdigit⟩ := written_escape name
  have hbody : Written (Script.inQuotes (escape name)) (escape name) := by
    refine written_inQuotes fun c hc hboundary => ?_
    have hbackslash : c ≠ '\\' := by
      rintro rfl
      exact absurd hboundary (by decide)
    exact hquotes c ((hwritten.mem_iff hbackslash).mp hc) hboundary
  have hsome : escape name ≠ [] := by
    intro hnil
    have hle := hwritten.length_le
    rw [hnil] at hle
    exact hne (List.length_eq_zero_iff.mp (Nat.le_zero.mp hle))
  have hknown : Mask.dynamic ∉ escape name :=
    fun hmem => hdynamic ((hwritten.mem_iff (by decide)).mp hmem)
  -- quoting puts at most a backslash in front
  have hfirst : (Script.inQuotes (escape name)).head?.any Char.isDigit = false := by
    cases hraw : escape name with
    | nil => rfl
    | cons c raw =>
      rw [hraw] at hdigit
      rw [Script.inQuotes_cons]
      split
      · rfl
      · exact hdigit
  rw [selectorCallReferences_selectorCall hwritten, tokens_dot hbody hsome hknown hfirst]
  rfl

/-- **Selectors in literals.** A call that looks a class up by the selector for its name refers to
that class, and to nothing else, if the selector needs no backslash. If it needs one, the
backslashes of the literal are undone in its place: nothing that the call refers to has the name of
the class. -/
theorem selectorCall_refers_to_name (name : List Char) (hne : name ≠ [])
    (hdynamic : Mask.dynamic ∉ name) :
    let references := selectorCallReferences (.ofText (selectorCall ('.' :: escape name)))
    (isPlainName name = true → references =
      [⟨25, byteLen name, .className, String.ofList name, .querySelector⟩]) ∧
    (isPlainName name = false → ∀ r ∈ references, r.name ≠ String.ofList name) := by
  intro references
  refine ⟨fun hplain => ?_, fun hescaped r hr hname => ?_⟩
  · have hchar := (isPlainName_iff.mp hplain).1
    have hfound := references_selectorCall_of_quotes_only hne hdynamic fun c hc hboundary =>
      absurd hboundary (by simp [(hchar c hc).1])
    have hbody : Script.inQuotes name = name := by
      refine Script.inQuotes_eq_self fun c hc => ?_
      exact ⟨(hchar c hc).2, ne_of_isNameBoundary_eq (hchar c hc).1 (by decide)⟩
    show selectorCallReferences (.ofText (selectorCall ('.' :: escape name))) = _
    rw [hfound, escape_of_isPlainName hplain, hbody]
  · by_cases hquotes : ∀ c ∈ name, isNameBoundary c = true → c = '\x27'
    · -- the one name that is found is the written form
      have hfound := references_selectorCall_of_quotes_only hne hdynamic hquotes
      change r ∈ selectorCallReferences _ at hr
      rw [hfound] at hr
      rw [List.mem_singleton.mp hr] at hname
      have hplain := isPlainName_of_escape_eq (String.ofList_inj.mp hname)
      rw [hplain] at hescaped
      exact absurd hescaped (by decide)
    · -- a boundary in the name cuts what is read
      push Not at hquotes
      obtain ⟨c, hc, hboundary, hquote⟩ := hquotes
      change r ∈ selectorCallReferences _ at hr
      rw [selectorCallReferences_selectorCall (written_escape name).1] at hr
      obtain ⟨t, ht, rfl⟩ := List.mem_map.mp hr
      have hbody : Script.Paired ('.' :: Script.inQuotes (escape name)) :=
        Script.paired_inQuotes ('.' :: escape name)
      have hmem : c ∈ t.name.toList := by
        rw [show t.name = String.ofList name from hname, String.toList_ofList]
        exact hc
      exact hquote (eq_quote_of_mem_name hbody ht hmem hboundary)

/-- A plain name is found. -/
theorem selectorCall_refers_to_name_plain :
    let name := "btn-é2".toList
    name ≠ [] ∧ Mask.dynamic ∉ name ∧ isPlainName name = true ∧
      selectorCallReferences (.ofText (selectorCall ('.' :: escape name))) =
        [⟨25, 7, .className, "btn-é2", .querySelector⟩] := by
  intro name
  have hne : name ≠ [] := by decide
  have hdynamic : Mask.dynamic ∉ name := by decide
  have hplain : isPlainName name = true := by decide
  exact ⟨hne, hdynamic, hplain, (selectorCall_refers_to_name name hne hdynamic).1 hplain⟩

/-- A colon in the name cuts it, in spite of the backslashes before it, so the class does not count
as used. -/
theorem selectorCall_misses_escaped_name :
    let call := selectorCall ('.' :: escape "sm:flex".toList)
    call = "document.querySelector('.sm\\\\:flex')".toList ∧
      selectorCallReferences (.ofText call) = [⟨25, 4, .className, "sm\\", .querySelector⟩] ∧
      (resolveText call ⟨["sm:flex"], []⟩ {}).used.contains .className "sm:flex" = false := by
  decide +kernel

end StyleAudit
