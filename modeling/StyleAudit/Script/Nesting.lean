import StyleAudit.Selector.Branch
import StyleAudit.Text.Blank
import StyleAudit.Text.Cursor

/-!
# Brackets and literals in script text

Brackets nest, a quoted literal hides the brackets in it, and a template literal may hold an
expression between `${` and `}` that nests again. `closeFrom` walks over all of it with the
constructs that are open, and stops at the character that closes the outermost one. A construct
that is not closed runs to the end of the text.
-/

namespace StyleAudit.Script

open Text

/-- A construct that is open at a place of a script. -/
inductive Frame
  /-- An expression with `depth` open brackets. -/
  | brackets (depth : Nat)
  /-- A literal and its quote. -/
  | quoted (quote : Char)
  deriving Repr, DecidableEq

def templateQuote : Char := '\x60'

/-- Puts a character in front of the first part. -/
def cons (c : Char) (parts : List Char × List Char) : List Char × List Char :=
  (c :: parts.1, parts.2)

/-- Splits a text, in which `frame` and around it `outer` are open, at the character that closes
the last of them. The second part starts with that character, or is empty. -/
def closeFrom : (frame : Frame) → (outer : List Frame) → List Char → List Char × List Char
  | _, _, [] => ([], [])
  | .quoted _, _, ['\\'] => (['\\'], [])
  | .quoted quote, outer, '\\' :: c :: cs =>
    cons '\\' (cons c (closeFrom (.quoted quote) outer cs))
  | .quoted quote, outer, c :: cs =>
    if quote = templateQuote ∧ c = '$' ∧ cs.head? = some '{' then
      cons c (closeFrom (.brackets 0) (.quoted quote :: outer) cs)
    else if c = quote then
      match outer with
      | [] => ([], c :: cs)
      | frame :: frames => cons c (closeFrom frame frames cs)
    else cons c (closeFrom (.quoted quote) outer cs)
  | .brackets depth, outer, c :: cs =>
    if isOpenBracket c then cons c (closeFrom (.brackets (depth + 1)) outer cs)
    else if isCloseBracket c then
      if depth ≤ 1 then
        match outer with
        | [] => ([], c :: cs)
        | frame :: frames => cons c (closeFrom frame frames cs)
      else cons c (closeFrom (.brackets (depth - 1)) outer cs)
    else if Mask.isQuote c then
      cons c (closeFrom (.quoted c) (.brackets depth :: outer) cs)
    else cons c (closeFrom (.brackets depth) outer cs)

/-- Nothing is lost. -/
theorem closeFrom_append (frame : Frame) (outer : List Frame) (cs : List Char) :
    (closeFrom frame outer cs).1 ++ (closeFrom frame outer cs).2 = cs := by
  fun_induction closeFrom frame outer cs <;> simp_all [cons]

/-- The text inside a bracket that has just been opened. -/
def bracketed (cs : List Char) : List Char := (closeFrom (.brackets 1) [] cs).1

/-- The text inside a quote that has just been opened. -/
def quotedText (quote : Char) (cs : List Char) : List Char := (closeFrom (.quoted quote) [] cs).1

theorem length_quotedText_le (quote : Char) (cs : List Char) :
    (quotedText quote cs).length ≤ cs.length := by
  have h := congrArg List.length (closeFrom_append (.quoted quote) [] cs)
  simp only [List.length_append] at h
  simp only [quotedText]
  omega

/-- A quoted literal. -/
structure Literal where
  quote : Char
  /-- The text between the quotes. -/
  body : Slice
  deriving Repr, DecidableEq

/-- The literal that opens at the start of a slice. -/
def literalAt? (s : Slice) : Option Literal :=
  match s.text with
  | [] => none
  | c :: cs => if Mask.isQuote c then some ⟨c, s.offset + 1, quotedText c cs⟩ else none

/-- Recognises a literal, with its two quotes. -/
def literalRecogniser : Recogniser Literal := fun cur =>
  (literalAt? cur.toSlice).map fun literal => (literal, literal.body.text.length + 2)

/-- The literals of a script text, in order. -/
def literals (s : Slice) : List Literal := literalRecogniser.findAll s

theorem length_body_lt_of_mem_literals {s : Slice} {literal : Literal}
    (h : literal ∈ literals s) : literal.body.text.length < s.text.length := by
  obtain ⟨cur, taken, hr, hin, _⟩ := Recogniser.mem_findAll h
  have hle := hin.length_rest_le
  simp only [literalRecogniser, literalAt?, Cursor.toSlice, Option.map_eq_some_iff] at hr
  obtain ⟨found, hfound, heq⟩ := hr
  split at hfound
  · simp at hfound
  · next c cs hcs =>
    split at hfound
    · cases hfound
      cases heq
      have := length_quotedText_le c cs
      simp only [hcs, List.length_cons] at hle
      simp only
      omega
    · simp at hfound

/-- The arguments of a call. Given the text from an open parenthesis on, each argument is the text
from its first character on, to the end. -/
def callArguments (s : Slice) : List Slice :=
  match s.text with
  | [] => []
  | _ :: cs =>
    let inner : Slice := ⟨s.offset + 1, bracketed cs⟩
    let starts := (branches inner).map (Slice.trimLeft isBlank)
    (starts.filter fun arg => !arg.text.isEmpty).map fun arg =>
      Slice.dropTo arg.offset ⟨s.offset + 1, cs⟩

end StyleAudit.Script
