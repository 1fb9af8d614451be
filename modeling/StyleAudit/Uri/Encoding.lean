import StyleAudit.Text.Basic

/-!
# Percent-encoding

A character that may not stand for itself in some part of an address is written as `%` and two
digits for each byte of its UTF-8 form. Each part of an address has characters of its own.
-/

namespace StyleAudit.Uri

/-- A hexadecimal digit in upper case. -/
def upperHexDigit (n : Nat) : Char := if n < 10 then Char.ofNat (48 + n) else Char.ofNat (55 + n)

/-- A byte as `%` and two digits. -/
def encodeByte (b : UInt8) : List Char :=
  ['%', upperHexDigit (b.toNat / 16), upperHexDigit (b.toNat % 16)]

/-- Percent-encodes the characters that `keep` does not take. -/
def encode (keep : Char → Bool) (cs : List Char) : List Char :=
  cs.flatMap fun c => if keep c then [c] else (String.utf8EncodeChar c).flatMap encodeByte

/-- The value of a hexadecimal digit. -/
def hexValue? (c : Char) : Option Nat :=
  let n := c.toNat
  if 48 ≤ n ∧ n ≤ 57 then some (n - 48)
  else if 65 ≤ n ∧ n ≤ 70 then some (n - 55)
  else if 97 ≤ n ∧ n ≤ 102 then some (n - 87)
  else none

/-- The bytes of a text, with percent-encoded ones decoded. -/
def decodeBytes : List Char → List UInt8
  | '%' :: a :: b :: cs =>
    match hexValue? a, hexValue? b with
    | some x, some y => (x * 16 + y).toUInt8 :: decodeBytes cs
    | _, _ => 37 :: decodeBytes (a :: b :: cs)
  | c :: cs => String.utf8EncodeChar c ++ decodeBytes cs
  | [] => []

/-- The text of percent-encoded bytes, if they are one. -/
def decode? (cs : List Char) : Option (List Char) :=
  (String.fromUTF8? ⟨(decodeBytes cs).toArray⟩).map String.toList

/-! ### The characters of the parts of an address -/

/-- A printable ASCII character. -/
def isGraphic (c : Char) : Bool := 32 ≤ c.toNat && c.toNat < 127

def isFragmentChar (c : Char) : Bool :=
  isGraphic c && !([' ', '\x22', '<', '>', '\x60'].contains c)

/-- Characters of a query. In schemes of the web an apostrophe is encoded as well. -/
def isQueryChar (web : Bool) (c : Char) : Bool :=
  isGraphic c && !([' ', '\x22', '#', '<', '>'].contains c) && !(web && c = '\x27')

def isSegmentChar (c : Char) : Bool :=
  isFragmentChar c && !(['#', '?', '\x7b', '\x7d'].contains c)

/-- Characters of a user name or a password. -/
def isCredentialChar (c : Char) : Bool :=
  isSegmentChar c && !(['/', ':', ';', '=', '@', '[', '\\', ']', '^', '|'].contains c)

end StyleAudit.Uri
