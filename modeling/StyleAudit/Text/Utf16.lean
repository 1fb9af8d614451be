import StyleAudit.Text.LineIndex

/-!
# Positions for editors

Editors count columns in units of UTF-16. This module turns byte offsets into such positions,
also for offsets that fit the text badly: they are cut to its length, and a column that does not
fall between two characters is counted in bytes.
-/

namespace StyleAudit

namespace Text

/-- The first `n` bytes and the rest, when a character ends there. -/
def splitBytes? : Nat → List Char → Option (List Char × List Char)
  | 0, cs => some ([], cs)
  | _ + 1, [] => none
  | n + 1, c :: cs =>
    if c.utf8Size ≤ n + 1 then
      (splitBytes? (n + 1 - c.utf8Size) cs).map fun (head, rest) => (c :: head, rest)
    else none

/-- The text between two byte offsets, when both fall between characters. -/
def between? (start stop : Nat) (cs : List Char) : Option (List Char) := do
  let (_, rest) ← splitBytes? start cs
  let (middle, _) ← splitBytes? (stop - start) rest
  return middle

/-- Number of UTF-16 units of a text. -/
def utf16Len : List Char → Nat
  | [] => 0
  | c :: cs => (if c.toNat < 65536 then 1 else 2) + utf16Len cs

end Text

open Text in
/-- The position of a byte offset with the column in UTF-16 units. -/
def LineIndex.utf16Position (index : LineIndex) (text : List Char) (offset : Nat) : Position :=
  let offset := min offset (byteLen text)
  let line := match index.position? offset with
    | some pos => pos.line
    | none => index.lineCount - 1
  let start := min ((index.lineStart line).getD 0) offset
  let col := match between? start offset text with
    | some middle => utf16Len middle
    | none => offset - start
  ⟨line, col⟩

end StyleAudit
