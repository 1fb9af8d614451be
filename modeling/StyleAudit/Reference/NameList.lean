import StyleAudit.Reference.Basic
import StyleAudit.Reference.Placeholder

/-!
# Names in attribute values

A class value is a list of names between blanks. A name that touches a placeholder is not known,
but the literals inside a placeholder are class values again. An expression is read for the class
values in its literals.
-/

namespace StyleAudit

open Text

/-- The characters that may surround a name: blanks and quotes. -/
def isNamePadding (c : Char) : Bool := isBlank c || Mask.isQuote c

/-- The single name that a slice holds between padding, if it is one: a name is not empty and
holds neither blanks nor placeholders. -/
def singleName? (s : Slice) : Option Slice :=
  let name := s.trim isNamePadding
  if name.text.isEmpty || name.text.any isBlank || !(Placeholder.all name).isEmpty then none
  else some name

/-- A run of characters of a class value without a blank outside placeholders. -/
structure ClassWord where
  slice : Slice
  /-- The run touches a placeholder. -/
  dynamic : Bool
  deriving Repr, DecidableEq

/-- Cuts the rest of a painted value into words, with a word that started at `start` and its
characters so far, last one first. -/
def classWordsFrom (start : Nat) (word : List Char) (dynamic : Bool) :
    List (Char × Bool) → List ClassWord
  | [] => if word.isEmpty then [] else [⟨⟨start, word.reverse⟩, dynamic⟩]
  | (c, inside) :: rest =>
    if isAsciiBlank c && !inside then
      let later := classWordsFrom (start + byteLen word + 1) [] false rest
      if word.isEmpty then later else ⟨⟨start, word.reverse⟩, dynamic⟩ :: later
    else classWordsFrom start (c :: word) (dynamic || inside) rest

def classWords (value : Slice) : List ClassWord :=
  classWordsFrom value.offset [] false (Placeholder.paint value.text)

/-- The names that a class value lists: first the words outside placeholders, then what the
literals inside placeholders list. -/
def classNames (value : Slice) : List Slice :=
  ((classWords value).filter fun w => !w.dynamic).filterMap (fun w => singleName? w.slice) ++
    (Placeholder.all value).attach.flatMap fun span =>
      (Script.literals span.1).attach.flatMap fun literal => classNames literal.1.body
termination_by value.text.length
decreasing_by
  have h₁ := Placeholder.length_le_of_mem_all span.2
  have h₂ := Script.length_body_lt_of_mem_literals literal.2
  omega

/-- The names that the literals of an expression list as class values. -/
def boundClassNames (expression : Slice) : List Slice :=
  (Script.literals expression).flatMap fun literal => classNames literal.body

end StyleAudit
