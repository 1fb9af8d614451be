import StyleAudit.Mask
import StyleAudit.Selector.Basic
import StyleAudit.Text.Blank
import StyleAudit.Text.Cursor

/-!
# Names in a selector text

`tokens` finds the marked names of a flat selector text. Attribute selectors and quoted strings
are passed over, and a backslash takes the next character literally, inside a name and outside.
`unescape` gives the name that a written form stands for, `escape` a written form of a name.
-/

namespace StyleAudit

open Text

/-- Whether `c` ends a name. -/
def isNameBoundary (c : Char) : Bool :=
  isAsciiBlank c || ".#:,[]()>+~=*^$|\x7b\x7d;'\"`!/&<@".toList.contains c

/-- Splits off the written form of a name: characters up to a boundary, a backslash together with
the character after it. -/
def takeName : List Char → List Char × List Char
  | [] => ([], [])
  | ['\\'] => (['\\'], [])
  | '\\' :: c :: cs => ('\\' :: c :: (takeName cs).1, (takeName cs).2)
  | c :: cs =>
    if isNameBoundary c then ([], c :: cs) else (c :: (takeName cs).1, (takeName cs).2)

/-- The text that a written form stands for: each backslash is dropped and the character after it
kept. -/
def unescape : List Char → List Char
  | [] => []
  | ['\\'] => []
  | '\\' :: c :: cs => c :: unescape cs
  | c :: cs => c :: unescape cs

/-- Number of characters up to and with the closing quote. -/
def quotedLength (quote : Char) : List Char → Nat
  | [] => 0
  | ['\\'] => 1
  | '\\' :: _ :: cs => 2 + quotedLength quote cs
  | c :: cs => if c = quote then 1 else 1 + quotedLength quote cs

/-- Number of characters up to and with the bracket that closes an attribute selector, with
`depth` brackets open, inside a quoted string if `quote` is given. -/
def attributeLength (depth : Nat) : (quote : Option Char) → List Char → Nat
  | _, [] => 0
  | _, ['\\'] => 1
  | quote, '\\' :: _ :: cs => 2 + attributeLength depth quote cs
  | some quote, c :: cs =>
    1 + attributeLength depth (if c = quote then none else some quote) cs
  | none, c :: cs =>
    if c = '[' then 1 + attributeLength (depth + 1) none cs
    else if c = ']' then if depth ≤ 1 then 1 else 1 + attributeLength (depth - 1) none cs
    else if c = '\x27' ∨ c = '\x22' then 1 + attributeLength depth (some c) cs
    else 1 + attributeLength depth none cs

/-- The token with a given marker and written name. A name is none if it is empty, starts with an
ASCII digit or holds a byte of an interpolation. -/
def Token.ofRaw? (offset : Nat) (kind : NameKind) (raw : List Char) : Option Token :=
  let name := unescape raw
  if name.isEmpty || raw.head?.any Char.isDigit || name.contains Mask.dynamic then none
  else some { offset, kind, name := String.ofList name, rawLen := byteLen raw }

/-- Recognises the next item of a selector text. -/
def tokenRecogniser : Recogniser (Option Token) := fun cur =>
  match cur.rest with
  | [] => none
  | c :: cs =>
    if c = '\\' then some (none, 2)
    else if c = '[' then some (none, attributeLength 0 none (c :: cs))
    else if c = '\x27' ∨ c = '\x22' then some (none, 1 + quotedLength c cs)
    else
      match NameKind.ofMarker? c with
      | none => none
      | some kind =>
        let raw := (takeName cs).1
        some (Token.ofRaw? cur.offset kind raw, 1 + raw.length)

/-- The marked names of a selector text, in order. -/
def tokens (s : Slice) : List Token :=
  (tokenRecogniser.findAll s).filterMap id

/-- A written form of `name`: a backslash before each boundary character, each backslash and a
leading digit. -/
def escape (name : List Char) : List Char :=
  let mark (c : Char) : List Char := if isNameBoundary c || c == '\\' then ['\\', c] else [c]
  match name with
  | [] => []
  | c :: cs => (if c.isDigit then ['\\', c] else mark c) ++ cs.flatMap mark

end StyleAudit
