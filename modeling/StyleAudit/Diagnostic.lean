/-!
# Diagnostics

A diagnostic is a warning about a range of bytes of a document.
-/

namespace StyleAudit

inductive DiagnosticKind
  | undefinedClass
  | undefinedId
  | unusedSelector
  | lint
  deriving Repr, DecidableEq

def DiagnosticKind.code : DiagnosticKind → String
  | .undefinedClass => "undefined-class"
  | .undefinedId => "undefined-id"
  | .unusedSelector => "unused-selector"
  | .lint => "lint"

def DiagnosticKind.ofCode? (code : String) : Option DiagnosticKind :=
  [.undefinedClass, .undefinedId, .unusedSelector, .lint].find? fun kind => kind.code == code

structure Diagnostic where
  kind : DiagnosticKind
  /-- Offset of the first byte. -/
  offset : Nat
  /-- Number of bytes. -/
  len : Nat
  message : String
  /-- The text that the warning is about can be removed. -/
  unnecessary : Bool := false
  deriving Repr, DecidableEq

namespace Diagnostic

/-- How severe diagnostics are: all are warnings. -/
def severity : String := "warning"

/-- The offset just after the range. -/
def stop (d : Diagnostic) : Nat := d.offset + d.len

/-- Whether `a` comes before `b` in a report, or at the same place. -/
def le (a b : Diagnostic) : Bool :=
  a.offset < b.offset || (a.offset == b.offset && a.len ≤ b.len)

end Diagnostic

end StyleAudit
