import StyleAudit.Proofs.MaskStates
import StyleAudit.Proofs.ReferencePlaces
import StyleAudit.Stylesheet

/-!
# Comments and strings are white space

Comments and quoted strings of a stylesheet are asides: to everything that reads the stylesheet they
are blank. Whatever an aside holds (braces, commas, quotes, marks of comments or of interpolations,
characters of several bytes), blanking it out changes neither the masked text nor anything that is
computed from it.

* **`Mask.Aside`** is the syntax of asides, given without the masking that finds them.
* **`Mask.renderFrom_aside`** and **`Mask.renderFrom_blanks`**: from code, an aside and its blanks
  are masked alike, and lead back to code with the same number of open parentheses.
* **`Stylesheet.blanking_aside_changes_nothing`** is the law for a whole stylesheet.
-/

namespace StyleAudit.Mask

open Text

/-- What may stand between two quotes: a character other than the quote and the backslash, or a
backslash and any character. -/
inductive QuotedBody (quote : Char) : List Char → Prop
  | nil : QuotedBody quote []
  | plain {c : Char} {cs : List Char} : c ≠ quote → c ≠ '\\' → QuotedBody quote cs →
      QuotedBody quote (c :: cs)
  | escape {c : Char} {cs : List Char} : QuotedBody quote cs → QuotedBody quote ('\\' :: c :: cs)

/-- A comment or a quoted string. -/
inductive Aside
  /-- `/*body*/` -/
  | block (body : List Char) (closesOnce : ¬['*', '/'] <:+: body)
  /-- `//body`, without the line feed that ends it -/
  | line (body : List Char) (oneLine : '\n' ∉ body)
  | quoted (quote : Char) (body : List Char) (isQuote : isQuote quote = true)
      (closesOnce : QuotedBody quote body)

namespace Aside

def text : Aside → List Char
  | block body _ => '/' :: '*' :: (body ++ ['*', '/'])
  | line body _ => '/' :: '/' :: body
  | quoted quote body _ _ => quote :: (body ++ [quote])

/-- Whether the aside can stand where `parens` parentheses are open and `rest` follows: a comment
to the end of its line opens outside parentheses, and ends before a line feed or with the text. -/
def Fits (parens : Nat) (rest : List Char) : Aside → Prop
  | block _ _ => True
  | line _ _ => parens = 0 ∧ ∀ c ∈ rest.head?, c = '\n'
  | quoted _ _ _ _ => True

end Aside

def spaces (c : Char) : List Char := List.replicate c.utf8Size ' '

/-- A space for each byte, except for line feeds. -/
def spacesInLine (c : Char) : List Char := if c = '\n' then [c] else spaces c

/-- The aside with each byte replaced by a space; a comment keeps its line feeds. -/
def Aside.blanked : Aside → List Char
  | block body closes => (block body closes).text.flatMap spacesInLine
  | line body oneLine => (line body oneLine).text.flatMap spacesInLine
  | quoted quote body isQuote closes => (quoted quote body isQuote closes).text.flatMap spaces

/-! ### Blanks are code -/

/-- Spaces and line feeds in code are kept. -/
theorem renderFrom_blanks (parens : Nat) {blanks : List Char}
    (hblanks : ∀ c ∈ blanks, c = ' ' ∨ c = '\n') (rest : List Char) :
    renderFrom ⟨.code, parens⟩ (blanks ++ rest) = blanks ++ renderFrom ⟨.code, parens⟩ rest := by
  refine renderFrom_of_still (fun c hc next => ?_) rest
  rcases hblanks c hc with rfl | rfl <;> simp [step, stepCode, isQuote, isInterpolationMark]

theorem mem_spaces {c d : Char} (h : d ∈ spaces c) : d = ' ' :=
  List.eq_of_mem_replicate h

theorem mem_spacesInLine {c d : Char} (h : d ∈ spacesInLine c) : d = ' ' ∨ d = '\n' := by
  unfold spacesInLine at h
  split at h
  · next hc =>
    rw [List.mem_singleton.mp h]
    exact .inr hc
  · exact .inl (mem_spaces h)

/-- What is left of an aside is blank: no part of it can be read as code. -/
theorem Aside.mem_blanked {aside : Aside} {d : Char} (h : d ∈ aside.blanked) :
    d = ' ' ∨ d = '\n' := by
  cases aside with
  | block body closes | line body oneLine =>
    obtain ⟨c, _, hd⟩ := List.mem_flatMap.mp h
    exact mem_spacesInLine hd
  | quoted quote body isQuote closes =>
    obtain ⟨c, _, hd⟩ := List.mem_flatMap.mp h
    exact .inl (mem_spaces hd)

theorem spaces_of_utf8Size {c : Char} (h : c.utf8Size = 1) : spaces c = [' '] := by
  rw [spaces, h]
  rfl

/-- An aside leaves at least one space, so the names on its two sides do not run together. -/
theorem Aside.head?_blanked (aside : Aside) (rest : List Char) :
    (aside.blanked ++ rest).head? = some ' ' := by
  cases aside with
  | block body closes => rfl
  | line body oneLine => rfl
  | quoted quote body isQuote closes =>
    rw [blanked, text, List.flatMap_cons, spaces_of_utf8Size (utf8Size_of_isQuote isQuote)]
    rfl

/-! ### Asides from the inside -/

/-- A block comment that is open. The induction is on its body: no character of the body closes it,
since the first `*/` is the one after the body. -/
theorem renderFrom_blockComment (parens : Nat) {body : List Char} (hbody : ¬['*', '/'] <:+: body)
    (rest : List Char) :
    renderFrom ⟨.blockComment, parens⟩ (body ++ '*' :: '/' :: rest) =
      body.flatMap spacesInLine ++ ' ' :: ' ' :: renderFrom ⟨.code, parens⟩ rest := by
  induction body with
  | nil => rfl
  | cons c body ih =>
    have hlater : ¬['*', '/'] <:+: body := fun h => hbody (h.trans (List.infix_cons List.infix_rfl))
    -- `c` does not end the comment: a slash after a star here would end it inside `body`
    have hopen : ¬(c = '*' ∧ (body ++ '*' :: '/' :: rest).head? = some '/') := by
      rintro ⟨rfl, hnext⟩
      cases body with
      | nil => exact absurd (Option.some.inj hnext) (by decide)
      | cons d body =>
        obtain rfl : d = '/' := Option.some.inj hnext
        exact hbody ⟨[], body, rfl⟩
    rw [List.cons_append, renderFrom_cons, List.flatMap_cons, List.append_assoc, ← ih hlater]
    by_cases hc : c = '\n'
    · rw [step_blockComment, if_neg hopen, if_pos hc, spacesInLine, if_pos hc]
      rfl
    · rw [step_blockComment, if_neg hopen, if_neg hc, spacesInLine, if_neg hc]
      rfl

/-- A string that is open. -/
theorem renderFrom_quoted (parens : Nat) {quote : Char} (hquote : isQuote quote = true)
    {body : List Char} (hbody : QuotedBody quote body) (rest : List Char) :
    renderFrom ⟨.quoted quote, parens⟩ (body ++ quote :: rest) =
      body.flatMap spaces ++ ' ' :: renderFrom ⟨.code, parens⟩ rest := by
  have hbackslash : quote ≠ '\\' := by
    rintro rfl
    exact absurd hquote (by decide)
  induction hbody with
  | nil =>
    rw [List.nil_append, renderFrom_cons, step_quoted, if_neg hbackslash, if_pos rfl]
    show spaces quote ++ _ = _
    rw [spaces_of_utf8Size (utf8Size_of_isQuote hquote)]
    rfl
  | @plain c cs hc hc' _ ih =>
    rw [List.cons_append, renderFrom_cons, step_quoted, if_neg hc', if_neg hc, ih,
      List.flatMap_cons, List.append_assoc]
    rfl
  -- a backslash hides the character after it, so two steps are taken at once
  | @escape c cs _ ih =>
    rw [List.cons_append, List.cons_append, renderFrom_cons, step_quoted, if_pos rfl,
      renderFrom_cons, List.flatMap_cons, List.flatMap_cons, List.append_assoc,
      List.append_assoc, ← ih]
    rfl

/-- A comment to the end of its line. The line feed after it is kept, as it is in code. -/
theorem renderFrom_lineComment (parens : Nat) {body rest : List Char} (hbody : '\n' ∉ body)
    (hrest : ∀ c ∈ rest.head?, c = '\n') :
    renderFrom ⟨.lineComment, parens⟩ (body ++ rest) =
      body.flatMap spacesInLine ++ renderFrom ⟨.code, parens⟩ rest := by
  induction body with
  | nil =>
    cases rest with
    | nil => rfl
    | cons c rest =>
      obtain rfl : c = '\n' := hrest c rfl
      rw [List.nil_append, List.flatMap_nil, List.nil_append, renderFrom_cons, renderFrom_cons]
      -- the line break itself is the same in code and in a comment
      simp [step, stepCode, isQuote, isInterpolationMark]
  | cons c body ih =>
    have hc : c ≠ '\n' := fun h => hbody (by simp [h])
    have hlater : '\n' ∉ body := fun h => hbody (List.mem_cons_of_mem c h)
    rw [List.cons_append, renderFrom_cons, step_lineComment, if_neg hc, ih hlater,
      List.flatMap_cons, List.append_assoc, spacesInLine, if_neg hc]
    rfl

/-! ### Asides in code -/

/-- From code, an aside is masked as its blanks and leads back to code. -/
theorem renderFrom_aside {parens : Nat} {aside : Aside} {rest : List Char}
    (hfits : aside.Fits parens rest) :
    renderFrom ⟨.code, parens⟩ (aside.text ++ rest) =
      aside.blanked ++ renderFrom ⟨.code, parens⟩ rest := by
  cases aside with
  | block body closes =>
    have hopen : step ⟨.code, parens⟩ '/' (some '*') = (⟨.commentOpen, parens⟩, .blank) := by
      simp [step, stepCode]
    have hbody := renderFrom_blockComment parens closes rest
    show renderFrom ⟨.code, parens⟩ ('/' :: '*' :: (body ++ ['*', '/'] ++ rest)) = _
    rw [List.append_assoc, renderFrom_cons, List.head?_cons, hopen, renderFrom_cons]
    show ' ' :: ' ' :: renderFrom ⟨.blockComment, parens⟩ (body ++ '*' :: '/' :: rest) = _
    rw [hbody]
    simp only [Aside.blanked, Aside.text, List.flatMap_cons, List.flatMap_append, List.append_assoc]
    rfl
  | line body oneLine =>
    obtain ⟨hparens, hrest⟩ := hfits
    subst hparens
    have hopen : step ⟨.code, 0⟩ '/' (some '/') = (⟨.lineComment, 0⟩, .blank) := by
      simp [step, stepCode]
    -- the second slash is the first character inside the comment
    have hbody : renderFrom ⟨.lineComment, 0⟩ ('/' :: body ++ rest) =
        ('/' :: body).flatMap spacesInLine ++ renderFrom ⟨.code, 0⟩ rest :=
      renderFrom_lineComment 0 (by simpa using oneLine) hrest
    show renderFrom ⟨.code, 0⟩ ('/' :: ('/' :: body ++ rest)) = _
    rw [renderFrom_cons, List.cons_append, List.head?_cons, hopen, ← List.cons_append, hbody]
    rfl
  | quoted quote body isQuote closes =>
    have hopen : ∀ next, step ⟨.code, parens⟩ quote next = (⟨.quoted quote, parens⟩, .blank) := by
      intro next
      have hbackslash : quote ≠ '\\' := by rintro rfl; exact absurd isQuote (by decide)
      have hslash : quote ≠ '/' := by rintro rfl; exact absurd isQuote (by decide)
      simp [step, stepCode, hbackslash, hslash, isQuote]
    have hbody := renderFrom_quoted parens isQuote closes rest
    show renderFrom ⟨.code, parens⟩ (quote :: (body ++ [quote] ++ rest)) = _
    rw [renderFrom_cons, hopen, List.append_assoc, List.cons_append, List.nil_append, hbody,
      Aside.blanked, Aside.text, List.flatMap_cons, List.flatMap_append, List.flatMap_cons,
      List.flatMap_nil, List.append_nil, List.append_assoc, List.append_assoc]
    show spaces quote ++ _ = _
    rw [spaces_of_utf8Size (utf8Size_of_isQuote isQuote)]
    rfl

/-- Blanking out an aside does not change the masked text. -/
theorem mask_blanked {front rest : List Char} {aside : Aside}
    (hcode : (stateAfter .start front (aside.text ++ rest)).mode = .code)
    (hfits : aside.Fits (stateAfter .start front (aside.text ++ rest)).parens rest) :
    mask (front ++ aside.blanked ++ rest) = mask (front ++ aside.text ++ rest) := by
  obtain ⟨hfront, hstate⟩ :=
    renderBefore_of_mode_code hcode (aside.head?_blanked rest)
  generalize hs : stateAfter .start front (aside.text ++ rest) = s at hcode hfits hstate
  obtain ⟨mode, parens⟩ := s
  obtain rfl : mode = .code := hcode
  rw [mask_eq_renderFrom, mask_eq_renderFrom, List.append_assoc, List.append_assoc,
    render_append _ front (aside.blanked ++ rest),
    render_append _ front (aside.text ++ rest), hfront,
    hstate, hs, renderFrom_blanks parens fun c hc => aside.mem_blanked hc, renderFrom_aside hfits]

end Mask

namespace Stylesheet

open Mask

/-- **Asides are white space.** A comment or string that starts in code can be blanked out, byte for
byte, and nothing that is read off the stylesheet changes: not the masked text, the bodies of its
rules, the names they refer to, or the declarations, wherever the stylesheet is embedded. -/
theorem blanking_aside_changes_nothing (front rest : List Char) (aside : Aside)
    (hcode : (stateAfter .start front (aside.text ++ rest)).mode = .code)
    (hfits : aside.Fits (stateAfter .start front (aside.text ++ rest)).parens rest) :
    let css := front ++ aside.text ++ rest
    let blank := front ++ aside.blanked ++ rest
    mask blank = mask css ∧ bodies blank = bodies css ∧ bodyTokens blank = bodyTokens css ∧
      ∀ (base : Nat) (index : LineIndex),
        selectorsAt ⟨base, blank⟩ index = selectorsAt ⟨base, css⟩ index := by
  intro css blank
  have hmask : mask blank = mask css := mask_blanked hcode hfits
  have hbodies : bodies blank = bodies css := by rw [bodies, bodies, hmask]
  refine ⟨hmask, hbodies, ?_, ?_⟩
  · rw [bodyTokens, bodyTokens, hbodies]
  · intro base index
    rw [selectorsAt, selectorsAt, declaredTokens, declaredTokens, preludes, preludes, hmask]

/-- A comment inside parentheses, after a slash, that holds a quote, a brace and a character of two
bytes. -/
theorem blanking_aside_changes_nothing_after_slash :
    let css := ".a:is(b//*\"\x7bé*/) \x7b .c \x7b\x7d \x7d".toList
    let blank := ".a:is(b/        ) \x7b .c \x7b\x7d \x7d".toList
    mask blank = mask css ∧ bodyTokens blank = bodyTokens css ∧
      selectorsAt ⟨7, blank⟩ (.ofText css) = selectorsAt ⟨7, css⟩ (.ofText css) := by
  have hlaw := blanking_aside_changes_nothing ".a:is(b/".toList ") \x7b .c \x7b\x7d \x7d".toList
    (.block "\"\x7bé".toList (by decide)) (by decide) trivial
  exact ⟨hlaw.1, hlaw.2.2.1, hlaw.2.2.2 7 _⟩

end Stylesheet

end StyleAudit
