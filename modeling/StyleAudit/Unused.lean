import StyleAudit.Diagnostic
import StyleAudit.Selector.Basic

/-!
# Declarations that nothing uses
-/

namespace StyleAudit

/-- The warning for a declaration that nothing uses. It covers the name without its marker. -/
def Selector.unusedWarning (s : Selector) : Diagnostic :=
  { kind := .unusedSelector
    offset := s.offset + 1
    len := s.rawLen
    message := "Unused CSS " ++ s.kind.label ++ " '" ++ s.display ++ "'"
    unnecessary := true }

/-- One warning for each declaration whose name is not among the used ones. -/
def unusedWarnings (selectors : List Selector) (used : Names) : List Diagnostic :=
  (selectors.filter fun s => !used.contains s.kind s.name).map Selector.unusedWarning

end StyleAudit
