import StyleAudit.Error
import StyleAudit.Text.Basic

/-!
# Lines and columns

A line index turns byte offsets of one text into line and column numbers and back. Columns count
bytes. Numbers start at the index's origin: 0 for editors, 1 for people.
-/

namespace StyleAudit

structure Position where
  line : Nat
  col : Nat
  deriving Repr, DecidableEq, Inhabited

/-- Where the lines of a text start. -/
structure LineIndex where
  /-- Offset of the first byte of each line, in order. -/
  starts : List Nat
  /-- Byte length of the text. -/
  size : Nat
  origin : Nat
  deriving Repr, DecidableEq

namespace LineIndex

open Text

/-- Offsets just after the line feeds of a text whose first byte is at `offset`. -/
def lineStartsFrom (offset : Nat) : List Char → List Nat
  | [] => []
  | c :: cs =>
    let next := offset + c.utf8Size
    if c = '\n' then next :: lineStartsFrom next cs else lineStartsFrom next cs

/-- The index of `cs` with numbers that start at 0. -/
def ofText (cs : List Char) : LineIndex :=
  { starts := 0 :: lineStartsFrom 0 cs, size := byteLen cs, origin := 0 }

/-- The index of `cs` with numbers that start at `origin`, which is 0 or 1. -/
def withOrigin (cs : List Char) (origin : Nat) : Except Error LineIndex :=
  if origin ≤ 1 then .ok { ofText cs with origin } else .error (.badOrigin origin)

def lineCount (index : LineIndex) : Nat := index.starts.length

/-- `n` counted from the origin, when it is not below it. -/
def fromOrigin (index : LineIndex) (n : Nat) : Option Nat :=
  if index.origin ≤ n then some (n - index.origin) else none

/-- Offset at which a line starts. -/
def lineStart (index : LineIndex) (line : Nat) : Option Nat := do
  index.starts[← index.fromOrigin line]?

/-- The number of the line that holds `offset`, and its start: the last of the starts that is not
beyond the offset. -/
def lineOf (offset : Nat) (number start : Nat) : List Nat → Nat × Nat
  | [] => (number, start)
  | next :: starts =>
    if next ≤ offset then lineOf offset (number + 1) next starts else (number, start)

/-- The position of a byte of the text. -/
def position? (index : LineIndex) (offset : Nat) : Option Position :=
  match index.starts with
  | [] => none
  | first :: starts =>
    if offset < index.size then
      let (line, start) := lineOf offset 0 first starts
      some { line := line + index.origin, col := offset - start + index.origin }
    else none

/-- The offset of a position, when the position lies within its line. -/
def offset? (index : LineIndex) (line col : Nat) : Option Nat := do
  let number ← index.fromOrigin line
  let col ← index.fromOrigin col
  let start ← index.starts[number]?
  let next := index.starts[number + 1]?.getD index.size
  if start + col < next then some (start + col) else none

end LineIndex

end StyleAudit
