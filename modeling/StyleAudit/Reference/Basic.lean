import StyleAudit.Selector.Basic
import StyleAudit.Text.Slice

/-!
# References to names

A reference is a class or id name that a page or script refers to.
-/

namespace StyleAudit

inductive ReferenceSite
  | classAttribute
  | idAttribute
  | classList
  | querySelector
  | elementById
  deriving Repr, DecidableEq

/-- A reference to a class or id. -/
structure Reference where
  /-- Offset of the name. -/
  offset : Nat
  /-- Byte length of the name as it is written. -/
  len : Nat
  kind : NameKind
  name : String
  site : ReferenceSite
  deriving Repr, DecidableEq

/-- The reference that is written as a slice says. -/
def Reference.ofSlice (kind : NameKind) (site : ReferenceSite) (s : Slice) : Reference :=
  { offset := s.offset, len := Text.byteLen s.text, kind, name := String.ofList s.text, site }

end StyleAudit
