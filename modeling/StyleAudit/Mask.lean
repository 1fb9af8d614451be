import StyleAudit.Text.Basic

/-!
# Masking a stylesheet

Comments and quoted strings are no code, and an interpolation (`#{..}`, `@{..}`, `${..}`) stands
for text that is not known. Masking replaces each byte of the former by a space and each byte of
the latter by U+0001, and keeps all else, so offsets into the masked text are offsets into the
stylesheet.

A double slash opens a comment only outside parentheses, so that an address such as
`url(http://x)` stays code.
-/

namespace StyleAudit

namespace Mask

/-- Stands for a byte of an interpolation. No name holds it. -/
def dynamic : Char := '\x01'

/-- What the scan is in the middle of. -/
inductive Mode
  | code
  /-- Just after a backslash in code. -/
  | escaped
  /-- On the star that opens a comment. -/
  | commentOpen
  | blockComment
  /-- On the slash that closes a comment. -/
  | commentClose
  | lineComment
  | quoted (quote : Char)
  /-- Just after a backslash in a quoted string. -/
  | quotedEscape (quote : Char)
  /-- Inside an interpolation with `depth` open braces. -/
  | interpolation (depth : Nat)
  deriving Repr, DecidableEq

/-- The mode, and the number of open parentheses in code. -/
structure State where
  mode : Mode
  parens : Nat
  deriving Repr, DecidableEq

/-- Code, outside all parentheses. -/
def State.start : State := ⟨.code, 0⟩

/-- What becomes of a character. -/
inductive Paint
  | keep
  | blank
  | unknown
  deriving Repr, DecidableEq

/-- The characters that stand for `c` in the masked text. -/
def Paint.apply (p : Paint) (c : Char) : List Char :=
  match p with
  | .keep => [c]
  | .blank => List.replicate c.utf8Size ' '
  | .unknown => List.replicate c.utf8Size dynamic

/-- Whether `c` opens and closes quoted strings. -/
def isQuote (c : Char) : Bool := c == '\x27' || c == '\x22' || c == '\x60'

/-- Whether `c`, followed by an open brace, starts an interpolation. -/
def isInterpolationMark (c : Char) : Bool := c == '#' || c == '@' || c == '$'

def stepCode (parens : Nat) (c : Char) (next : Option Char) : State × Paint :=
  if c = '\\' then (⟨.escaped, parens⟩, .keep)
  else if c = '/' ∧ next = some '*' then (⟨.commentOpen, parens⟩, .blank)
  else if c = '/' ∧ next = some '/' ∧ parens = 0 then (⟨.lineComment, parens⟩, .blank)
  else if isQuote c then (⟨.quoted c, parens⟩, .blank)
  else if isInterpolationMark c ∧ next = some '{' then (⟨.interpolation 0, parens⟩, .unknown)
  else if c = '(' then (⟨.code, parens + 1⟩, .keep)
  else if c = ')' then (⟨.code, parens - 1⟩, .keep)
  else (⟨.code, parens⟩, .keep)

/-- The step on one character, given the one that follows it. -/
def step (s : State) (c : Char) (next : Option Char) : State × Paint :=
  match s.mode with
  | .code => stepCode s.parens c next
  | .escaped => (⟨.code, s.parens⟩, .keep)
  | .commentOpen => (⟨.blockComment, s.parens⟩, .blank)
  | .blockComment =>
    if c = '*' ∧ next = some '/' then (⟨.commentClose, s.parens⟩, .blank)
    else if c = '\n' then (s, .keep)
    else (s, .blank)
  | .commentClose => (⟨.code, s.parens⟩, .blank)
  | .lineComment => if c = '\n' then (⟨.code, s.parens⟩, .keep) else (s, .blank)
  | .quoted quote =>
    if c = '\\' then (⟨.quotedEscape quote, s.parens⟩, .blank)
    else if c = quote then (⟨.code, s.parens⟩, .blank)
    else (s, .blank)
  | .quotedEscape quote => (⟨.quoted quote, s.parens⟩, .blank)
  | .interpolation depth =>
    if c = '{' then (⟨.interpolation (depth + 1), s.parens⟩, .unknown)
    else if c = '}' then
      if depth ≤ 1 then (⟨.code, s.parens⟩, .unknown)
      else (⟨.interpolation (depth - 1), s.parens⟩, .unknown)
    else (s, .unknown)

/-- Each character of a text with what becomes of it. -/
def paintFrom (s : State) : List Char → List (Char × Paint)
  | [] => []
  | c :: cs => (c, (step s c cs.head?).2) :: paintFrom (step s c cs.head?).1 cs

/-- Each character of a stylesheet with what becomes of it. -/
def paint (cs : List Char) : List (Char × Paint) := paintFrom .start cs

/-- The masked text of a painted one. -/
def render (painted : List (Char × Paint)) : List Char :=
  painted.flatMap fun p => p.2.apply p.1

end Mask

/-- `cs` with the bytes of comments and strings replaced by spaces and those of interpolations by
U+0001. -/
def mask (cs : List Char) : List Char := Mask.render (Mask.paint cs)

end StyleAudit
