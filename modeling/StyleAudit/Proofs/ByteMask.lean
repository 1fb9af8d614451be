import StyleAudit.Bytes.Stylesheet
import StyleAudit.Proofs.BytePlaces
import StyleAudit.Proofs.MaskStates
import StyleAudit.Proofs.ReferencePlaces

/-!
# Masking by byte offsets

Masking by byte offsets looks at the byte after a character, and takes two characters at once where
they belong together. Masking character by character has a mode for the second of the two.

* **`AlikeAfter`** is what one step needs of the text behind it, and there is one lemma for the step
  of each mode, from **`maskFrom_code`** to **`maskFrom_interpolation`**.
* **`masksAlike`** is the induction over the text, and **`mask_eq`** the result.
-/

namespace StyleAudit.Bytes

open Text Mask

/-- The mode in which a character is read. -/
def Lexing.mode : Lexing → Mode
  | .code => .code
  | .blockComment => .blockComment
  | .lineComment => .lineComment
  | .quoted quote => .quoted quote
  | .interpolation depth => .interpolation depth

variable {text cs : List Char} {i : Nat} {c : Char}

/-- The marks before the brace of an interpolation are single bytes. -/
theorem utf8Size_of_isInterpolationMark {c : Char} (h : isInterpolationMark c = true) :
    c.utf8Size = 1 := by
  simp only [isInterpolationMark, Bool.or_eq_true, beq_iff_eq] at h
  rcases h with (h | h) | h <;> rw [h] <;> decide

theorem step_code (parens : Nat) (c : Char) (next : Option Char) :
    step ⟨.code, parens⟩ c next = stepCode parens c next := rfl

/-- In an interpolation only braces count. -/
theorem step_interpolation (depth parens : Nat) (c : Char) (next : Option Char) :
    step ⟨.interpolation depth, parens⟩ c next =
      if c = '{' then (⟨.interpolation (depth + 1), parens⟩, .unknown)
      else if c = '}' then
        if depth ≤ 1 then (⟨.code, parens⟩, .unknown)
        else (⟨.interpolation (depth - 1), parens⟩, .unknown)
      else (⟨.interpolation depth, parens⟩, .unknown) := rfl

/-- `MasksAlike text i cs`: both maskings agree from a place on, in every mode. -/
def MasksAlike (text : List Char) (i : Nat) (cs : List Char) : Prop :=
  ∀ lexing parens, maskFrom text lexing parens i cs = renderFrom ⟨lexing.mode, parens⟩ cs

/-- `AlikeAfter text i c cs`: both maskings agree behind a character and behind the one after it.
That is what one step needs, since it takes at most two characters. -/
structure AlikeAfter (text : List Char) (i : Nat) (c : Char) (cs : List Char) : Prop where
  one : MasksAlike text (i + c.utf8Size) cs
  two : ∀ d ds, cs = d :: ds → MasksAlike text (i + c.utf8Size + d.utf8Size) ds

/-- The byte after a character of one byte is the next character, if either is of one byte. -/
theorem and_byteAt?_next_iff (h : At text i (c :: cs)) {p : Prop} {d : Char}
    (hp : p → c.utf8Size = 1) (hd : d.utf8Size = 1) :
    (p ∧ byteAt? text (i + 1) = some d) ↔ (p ∧ cs.head? = some d) :=
  and_congr_right fun hc => h.byteAt?_next (hp hc) hd

/-- The step from code. It is the only one that counts parentheses. -/
theorem maskFrom_code (parens : Nat) (h : At text i (c :: cs)) (hlater : AlikeAfter text i c cs) :
    maskFrom text .code parens i (c :: cs) = renderFrom ⟨.code, parens⟩ (c :: cs) := by
  have hcomment := and_byteAt?_next_iff (p := c = '/') (d := '*') h (fun hc => hc ▸ rfl) rfl
  have hline : (c = '/' ∧ byteAt? text (i + 1) = some '/' ∧ parens = 0) ↔
      (c = '/' ∧ cs.head? = some '/' ∧ parens = 0) := by
    rw [← and_assoc, ← and_assoc, and_byteAt?_next_iff h (fun hc : c = '/' => hc ▸ rfl) rfl]
  have hmark := and_byteAt?_next_iff (d := '{') h utf8Size_of_isInterpolationMark rfl
  have hone := hlater.one
  -- the tests of both steps are the same now, in the same order
  rw [renderFrom_cons, step_code]
  unfold maskFrom stepCode
  simp only [hcomment, hline, hmark]
  split
  · -- an escaped character stays as it is
    cases cs with
    | nil => rfl
    | cons d ds =>
      rw [renderFrom_cons]
      exact congrArg (c :: d :: ·) (hlater.two d ds rfl .code parens)
  split
  · next hopen =>
    -- both characters of the mark go at once here, one after the other there
    obtain ⟨rfl, hhead⟩ := hopen
    obtain ⟨ds, rfl⟩ := List.head?_eq_some_iff.mp hhead
    rw [renderFrom_cons]
    exact congrArg (' ' :: ' ' :: ·) (hlater.two '*' ds rfl .blockComment parens)
  split
  · next hslash => rw [hone .lineComment, hslash.1]; rfl
  split
  · next hquote => rw [hone (.quoted c), Paint.apply, utf8Size_of_isQuote hquote]; rfl
  split
  · next hmark =>
    rw [hone (.interpolation 0), Paint.apply, utf8Size_of_isInterpolationMark hmark.1]; rfl
  split
  · -- parentheses are only counted
    rw [hone .code]; rfl
  split
  · rw [hone .code]; rfl
  · rw [hone .code]; rfl

/-- The step inside a block comment. Its end mark is taken as two characters. -/
theorem maskFrom_blockComment (parens : Nat) (h : At text i (c :: cs))
    (hlater : AlikeAfter text i c cs) :
    maskFrom text .blockComment parens i (c :: cs) =
      renderFrom ⟨.blockComment, parens⟩ (c :: cs) := by
  have hclose := and_byteAt?_next_iff (p := c = '*') (d := '/') h (fun hc => hc ▸ rfl) rfl
  rw [renderFrom_cons, step_blockComment]
  unfold maskFrom
  simp only [hclose]
  split
  · next hstar =>
    obtain ⟨rfl, hhead⟩ := hstar
    obtain ⟨ds, rfl⟩ := List.head?_eq_some_iff.mp hhead
    rw [renderFrom_cons]
    exact congrArg (' ' :: ' ' :: ·) (hlater.two '/' ds rfl .code parens)
  · rw [hlater.one .blockComment]
    split <;> rfl

theorem maskFrom_lineComment (parens : Nat) (hlater : AlikeAfter text i c cs) :
    maskFrom text .lineComment parens i (c :: cs) =
      renderFrom ⟨.lineComment, parens⟩ (c :: cs) := by
  rw [renderFrom_cons, step_lineComment]
  simp only [maskFrom, hlater.one _ _]
  split <;> rfl

/-- The step inside a string. An escaped character does not end it. -/
theorem maskFrom_quoted (quote : Char) (parens : Nat) (hlater : AlikeAfter text i c cs) :
    maskFrom text (.quoted quote) parens i (c :: cs) =
      renderFrom ⟨.quoted quote, parens⟩ (c :: cs) := by
  rw [renderFrom_cons, step_quoted]
  unfold maskFrom
  simp only
  split
  · next hbackslash =>
    -- the escaped character goes with its backslash
    subst hbackslash
    cases cs with
    | nil => rfl
    | cons d ds =>
      rw [renderFrom_cons]
      exact congrArg (' ' :: List.replicate d.utf8Size ' ' ++ ·)
        (hlater.two d ds rfl (.quoted quote) parens)
  · rw [hlater.one]
    split <;> rfl

theorem maskFrom_interpolation (depth parens : Nat) (hlater : AlikeAfter text i c cs) :
    maskFrom text (.interpolation depth) parens i (c :: cs) =
      renderFrom ⟨.interpolation depth, parens⟩ (c :: cs) := by
  rw [renderFrom_cons, step_interpolation]
  simp only [maskFrom, hlater.one _ _]
  split
  · rfl
  split
  · split <;> rfl
  · rfl

/-- Both maskings agree everywhere. The induction is on the length of the text, since a step may
take two characters. -/
theorem masksAlike (h : At text i cs) : MasksAlike text i cs := by
  induction hlength : cs.length using Nat.strongRecOn generalizing i cs with
  | _ length ih =>
    subst hlength
    cases cs with
    | nil => exact fun _ _ => rfl
    | cons c cs =>
      have hlater : AlikeAfter text i c cs := by
        refine ⟨ih cs.length (Nat.lt_succ_self _) h.next rfl, ?_⟩
        rintro d ds rfl
        exact ih ds.length (by rw [List.length_cons, List.length_cons]; omega) h.next.next rfl
      intro lexing parens
      cases lexing with
      | code => exact maskFrom_code parens h hlater
      | blockComment => exact maskFrom_blockComment parens h hlater
      | lineComment => exact maskFrom_lineComment parens hlater
      | quoted quote => exact maskFrom_quoted quote parens hlater
      | interpolation depth => exact maskFrom_interpolation depth parens hlater

/-- Masking by byte offsets is masking. -/
theorem mask_eq (text : List Char) : mask text = StyleAudit.mask text :=
  masksAlike (at_zero text) .code 0

end StyleAudit.Bytes
