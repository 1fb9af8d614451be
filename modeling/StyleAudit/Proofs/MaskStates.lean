import Mathlib.Tactic.SplitIfs
import StyleAudit.Mask

/-!
# States of masking

Masking is one pass over a stylesheet with a state and one character of look-ahead. This module
cuts that pass in two at any place of the text, and says what can be read off the state there.

* **`Mask.stateAfter`** is the state at a place, given the text before and after it.
* **`Mask.render_append`** masks a text in two parts.
* **`Mask.step_eq_of_mode_code`**: a step that ends in code did not depend on the look-ahead. So a
  place that is reached in code can be followed by other text, and what stands before it is masked
  as it was (**`Mask.renderBefore_of_mode_code`**).
-/

namespace StyleAudit.Mask

/-- The state after `front`, when `rest` follows it. -/
def stateAfter (s : State) : (front rest : List Char) → State
  | [], _ => s
  | c :: front, rest => stateAfter (step s c (front ++ rest).head?).1 front rest

/-- The masked text of `front`, when `rest` follows it. -/
def renderBefore (s : State) : (front rest : List Char) → List Char
  | [], _ => []
  | c :: front, rest =>
    (step s c (front ++ rest).head?).2.apply c ++
      renderBefore (step s c (front ++ rest).head?).1 front rest

/-- The masked text from a state on. -/
def renderFrom (s : State) (cs : List Char) : List Char := render (paintFrom s cs)

@[simp] theorem renderFrom_nil (s : State) : renderFrom s [] = [] := rfl

/-- One step: a character is painted in the present state, and the rest is masked in the next
one. -/
theorem renderFrom_cons (s : State) (c : Char) (cs : List Char) :
    renderFrom s (c :: cs) =
      (step s c cs.head?).2.apply c ++ renderFrom (step s c cs.head?).1 cs := by
  simp only [renderFrom, paintFrom, render, List.flatMap_cons]

theorem mask_eq_renderFrom (cs : List Char) : mask cs = renderFrom .start cs := rfl

/-- A character that is not kept leaves as many fillers as it has bytes. -/
theorem apply_eq_replicate {p : Paint} (h : p ≠ .keep) (c : Char) :
    ∃ filler, (filler = ' ' ∨ filler = dynamic) ∧ p.apply c = List.replicate c.utf8Size filler := by
  cases p with
  | keep => exact absurd rfl h
  | blank => exact ⟨' ', .inl rfl, rfl⟩
  | unknown => exact ⟨dynamic, .inr rfl, rfl⟩

/-- A text is masked in two parts, the second from the state after the first. -/
theorem render_append (s : State) (front rest : List Char) :
    renderFrom s (front ++ rest) =
      renderBefore s front rest ++ renderFrom (stateAfter s front rest) rest := by
  induction front generalizing s with
  | nil => rfl
  | cons c front ih =>
    rw [List.cons_append, renderFrom_cons, ih]
    simp only [renderBefore, stateAfter, List.append_assoc]

/-- States are composed like the texts that lead to them. -/
theorem stateAfter_append (s : State) (front middle rest : List Char) :
    stateAfter s (front ++ middle) rest =
      stateAfter (stateAfter s front (middle ++ rest)) middle rest := by
  induction front generalizing s with
  | nil => rfl
  | cons c front ih =>
    rw [List.cons_append, stateAfter, ih, stateAfter, List.append_assoc]

/-- Characters that leave the state alone are kept. -/
theorem renderFrom_of_still {s : State} {run : List Char}
    (h : ∀ c ∈ run, ∀ next, step s c next = (s, .keep)) (rest : List Char) :
    renderFrom s (run ++ rest) = run ++ renderFrom s rest := by
  induction run with
  | nil => rfl
  | cons c run ih =>
    rw [List.cons_append, renderFrom_cons, h c List.mem_cons_self,
      ih fun d hd => h d (List.mem_cons_of_mem c hd)]
    rfl

/-! ### Steps inside comments and strings -/

/-- In a block comment only its end mark and line feeds count. -/
theorem step_blockComment (parens : Nat) (c : Char) (next : Option Char) :
    step ⟨.blockComment, parens⟩ c next =
      if c = '*' ∧ next = some '/' then (⟨.commentClose, parens⟩, .blank)
      else if c = '\n' then (⟨.blockComment, parens⟩, .keep)
      else (⟨.blockComment, parens⟩, .blank) := rfl

theorem step_lineComment (parens : Nat) (c : Char) (next : Option Char) :
    step ⟨.lineComment, parens⟩ c next =
      if c = '\n' then (⟨.code, parens⟩, .keep) else (⟨.lineComment, parens⟩, .blank) := rfl

/-- In a string a backslash hides the next character, and the quote ends it. -/
theorem step_quoted (quote : Char) (parens : Nat) (c : Char) (next : Option Char) :
    step ⟨.quoted quote, parens⟩ c next =
      if c = '\\' then (⟨.quotedEscape quote, parens⟩, .blank)
      else if c = quote then (⟨.code, parens⟩, .blank)
      else (⟨.quoted quote, parens⟩, .blank) := rfl

/-! ### Look-ahead -/

/-- The look-ahead only decides whether a comment or an interpolation opens or a comment closes. -/
theorem step_eq_of_mode_code {s : State} {c : Char} {next : Option Char}
    (h : (step s c next).1.mode = .code) : step s c next = step s c (some ' ') := by
  obtain ⟨mode, parens⟩ := s
  cases mode with
  | code =>
    simp only [step, stepCode] at h ⊢
    split_ifs at h ⊢ <;> simp_all
  | blockComment =>
    simp only [step] at h
    split_ifs at h
  | _ => rfl

/-- What stands before a place that is reached in code is masked in the same way when a space comes
next. -/
theorem renderBefore_of_mode_code {s : State} {front rest rest' : List Char}
    (hcode : (stateAfter s front rest).mode = .code) (hspace : rest'.head? = some ' ') :
    renderBefore s front rest' = renderBefore s front rest ∧
      stateAfter s front rest' = stateAfter s front rest := by
  induction front generalizing s with
  | nil => exact ⟨rfl, rfl⟩
  | cons c front ih =>
    rw [stateAfter] at hcode
    -- only the last character of `front` looks at what follows
    have hstep : step s c (front ++ rest').head? = step s c (front ++ rest).head? := by
      cases front with
      | nil =>
        rw [List.nil_append, List.nil_append, hspace]
        exact (step_eq_of_mode_code hcode).symm
      | cons d front => rfl
    obtain ⟨hrender, hstate⟩ := ih hcode
    refine ⟨?_, ?_⟩
    · rw [renderBefore, renderBefore, hstep, hrender]
    · rw [stateAfter, stateAfter, hstep, hstate]

end StyleAudit.Mask
