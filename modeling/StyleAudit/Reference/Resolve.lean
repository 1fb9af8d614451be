import StyleAudit.Diagnostic
import StyleAudit.Reference.All

/-!
# Resolving references

Each reference of a text is looked up among the known names. One that is known is a use; one that
is not known gives a warning.
-/

namespace StyleAudit

/-- Which unknown references give a warning. -/
structure ReportingPolicy where
  /-- Warn at all. -/
  reportUndefined : Bool := true
  /-- Warn about an id attribute with an unknown id. -/
  reportUnknownIdAttributes : Bool := false
  deriving Repr, DecidableEq

/-- The outcome of resolving references. -/
structure Resolution where
  diagnostics : List Diagnostic
  used : Names
  deriving Repr, DecidableEq

/-- The references without those that have the place and kind of an earlier one. -/
def firstAtPlace (seen : List (Nat × NameKind)) : List Reference → List Reference
  | [] => []
  | c :: cs =>
    if (c.offset, c.kind) ∈ seen then firstAtPlace seen cs
    else c :: firstAtPlace ((c.offset, c.kind) :: seen) cs

/-- Whether an unknown reference gives a warning: it has to be a plain identifier. -/
def ReportingPolicy.reports (options : ReportingPolicy) (c : Reference) : Bool :=
  options.reportUndefined &&
    (c.site != .idAttribute || options.reportUnknownIdAttributes) && isIdentifier c.name

/-- The kind of warning for an unknown name. -/
def NameKind.undefinedKind : NameKind → DiagnosticKind
  | .className => .undefinedClass
  | .idName => .undefinedId

/-- The warning for a reference to an unknown name. -/
def Reference.undefinedWarning (c : Reference) : Diagnostic :=
  { kind := c.kind.undefinedKind
    offset := c.offset
    len := c.len
    message := "CSS " ++ c.kind.label ++ " '" ++ c.name ++ "' not found" }

def resolve (known : Names) (options : ReportingPolicy) (cs : List Reference) : Resolution :=
  let (used, unknown) := (firstAtPlace [] cs).partition fun c => known.contains c.kind c.name
  { diagnostics := (unknown.filter options.reports).map Reference.undefinedWarning
    used := used.foldl (fun names c => names.insert c.kind c.name) Names.empty }

def resolveText (text : List Char) (known : Names) (options : ReportingPolicy) : Resolution :=
  resolve known options (references (.ofText text))

end StyleAudit
