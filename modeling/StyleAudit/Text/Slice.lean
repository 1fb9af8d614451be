import StyleAudit.Text.Basic

/-!
# Located text

A slice is a piece of a source text together with the byte offset at which it starts. All places
that the library reports are offsets of slices, so that a slice of a slice still points into the
source.
-/

namespace StyleAudit

/-- A piece of text and the byte offset of its first character. -/
structure Slice where
  offset : Nat
  text : List Char
  deriving Repr, DecidableEq

namespace Slice

open Text

/-- The whole of a text. -/
def ofText (cs : List Char) : Slice := ⟨0, cs⟩

/-- The offset just after the slice. -/
def stop (s : Slice) : Nat := s.offset + byteLen s.text

/-- The same piece seen from a text that starts `base` bytes earlier. -/
def shift (base : Nat) (s : Slice) : Slice := ⟨base + s.offset, s.text⟩

/-- The rest of the slice from an offset on. -/
def dropTo (offset : Nat) (s : Slice) : Slice :=
  ⟨offset, dropBytes (offset - s.offset) s.text⟩

/-- The slice without its leading characters of class `p`. -/
def trimLeft (p : Char → Bool) (s : Slice) : Slice :=
  ⟨s.offset + byteLen (s.text.takeWhile p), s.text.dropWhile p⟩

/-- The slice without its trailing characters of class `p`. -/
def trimRight (p : Char → Bool) (s : Slice) : Slice :=
  ⟨s.offset, Text.trimRight p s.text⟩

/-- The slice without the characters of class `p` at either end. -/
def trim (p : Char → Bool) (s : Slice) : Slice :=
  (s.trimLeft p).trimRight p

/-- `s.IsPartOf source`: the source holds the characters of `s` at the offset of `s`. -/
def IsPartOf (s : Slice) (source : List Char) : Prop :=
  ∃ before after, source = before ++ s.text ++ after ∧ byteLen before = s.offset

end Slice

end StyleAudit
