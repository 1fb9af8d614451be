import StyleAudit.Selector.Branch
import StyleAudit.Selector.Token

/-!
# What a stylesheet declares and refers to

The text before an open brace is the prelude of a rule: its class and id names are declared. The
text inside the outermost braces is a body: names in it are referred to. An at-rule has a prelude
that starts with `@` and declares nothing.
-/

namespace StyleAudit.Stylesheet

open Text

/-- A stretch of code up to a brace or semicolon. -/
structure Segment where
  slice : Slice
  /-- The character that ends the stretch, if the text does not end it. -/
  closer : Option Char
  deriving Repr, DecidableEq

/-- Cuts the rest of a masked text, with a stretch that started at `start` and the characters of
that stretch so far, last one first. -/
def segmentsFrom (start : Nat) (stretch : List Char) : List Char → List Segment
  | [] => [⟨⟨start, stretch.reverse⟩, none⟩]
  | c :: cs =>
    if c = '{' ∨ c = '}' ∨ c = ';' then
      ⟨⟨start, stretch.reverse⟩, some c⟩ :: segmentsFrom (start + byteLen stretch + 1) [] cs
    else segmentsFrom start (c :: stretch) cs

/-- The stretches of a masked text between its braces and semicolons. -/
def segments (masked : Slice) : List Segment :=
  segmentsFrom masked.offset [] masked.text

/-- The trimmed prelude of a stretch, if an open brace ends it and it is that of a rule. -/
def Segment.prelude? (segment : Segment) : Option Slice :=
  let prelude := segment.slice.trim isBlank
  if segment.closer = some '{' ∧ prelude.text ≠ [] ∧ prelude.text.head? ≠ some '@' then
    some prelude
  else none

/-- The masked preludes of the rules of a stylesheet, nested ones included. -/
def preludes (css : Slice) : List Slice :=
  (segments ⟨css.offset, mask css.text⟩).filterMap Segment.prelude?

/-- The names that a prelude declares. -/
def preludeTokens (prelude : Slice) : List Token :=
  (branches prelude).flatMap tokens

/-- The names that a stylesheet declares, in order. -/
def declaredTokens (css : Slice) : List Token :=
  (preludes css).flatMap preludeTokens

/-- A token with its position; one outside the indexed text is put at line and column 0. -/
def locate (index : LineIndex) (t : Token) : Selector :=
  { t with position := (index.position? t.offset).getD ⟨0, 0⟩ }

/-- The declarations of a stylesheet that is a piece of the text which `index` describes. -/
def selectorsAt (css : Slice) (index : LineIndex) : List Selector :=
  (declaredTokens css).map (locate index)

/-- The declarations of a stylesheet. -/
def selectors (css : List Char) : List Selector :=
  selectorsAt (.ofText css) (.ofText css)

/-- Cuts the outermost bodies out of the rest of a masked text at `offset`, with `depth` braces
open, a body that started at `start` and its characters so far, last one first. -/
def bodiesFrom (depth start : Nat) (body : List Char) (offset : Nat) : List Char → List Slice
  | [] => if depth = 0 then [] else [⟨start, body.reverse⟩]
  | c :: cs =>
    let next := offset + c.utf8Size
    if c = '{' then
      if depth = 0 then bodiesFrom 1 next [] next cs
      else bodiesFrom (depth + 1) start (c :: body) next cs
    else if c = '}' then
      if depth = 0 then bodiesFrom 0 start body next cs
      else if depth = 1 then ⟨start, body.reverse⟩ :: bodiesFrom 0 start [] next cs
      else bodiesFrom (depth - 1) start (c :: body) next cs
    else if depth = 0 then bodiesFrom 0 start body next cs
    else bodiesFrom depth start (c :: body) next cs

/-- The masked text inside the outermost braces of a stylesheet. A body that is not closed runs
to the end. -/
def bodies (css : List Char) : List Slice :=
  bodiesFrom 0 0 [] 0 (mask css)

/-- The names that the bodies of a stylesheet refer to, in order. -/
def bodyTokens (css : List Char) : List Token :=
  (bodies css).flatMap tokens

/-- The set of names that the bodies of a stylesheet refer to. -/
def namesInBodies (css : List Char) : Names :=
  Names.empty.addTokens (bodyTokens css)

end StyleAudit.Stylesheet
