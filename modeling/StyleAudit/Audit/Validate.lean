import StyleAudit.Audit.StyleMap
import StyleAudit.Reference.Resolve

/-!
# Validating documents

The diagnostics of a document: names that it uses and nothing declares, names that it declares
and does not use, and what a linter adds. A cancelled validation has no diagnostics.
-/

namespace StyleAudit

/-- What validates documents: settings that hold for all of them, and perhaps a linter. -/
structure Auditor where
  settings : Settings
  excluded : GlobSet
  lint : Option (Document → List Diagnostic)

namespace Auditor

/-- An auditor with the given settings, whose globs must be readable. -/
def create (settings : Settings) (lint : Option (Document → List Diagnostic)) :
    Except Error Auditor := do
  return ⟨settings, ← settings.excludeSet, lint⟩

/-- Whether a document is validated. One that is stored must be of a known kind and not be
excluded. -/
def covers (v : Auditor) (d : Document) (root : Option Path) : Bool :=
  match d.path with
  | none => true
  | some path =>
    (v.settings.kindOfPath? path).isSome && !v.excluded.excludes path (root.getD ⟨[]⟩)

/-- What the settings say about reporting uses. -/
def policy (v : Auditor) : ReportingPolicy where
  reportUndefined := v.settings.checkUndefined
  reportUnknownIdAttributes := v.settings.reportUnknownIdAttributes

/-- The diagnostics of a stylesheet with the given selectors: names that its own rules do not
use. -/
def styleDiagnostics (v : Auditor) (d : Document) (own : List Selector) : List Diagnostic :=
  if v.settings.checkUnused then unusedWarnings own (Stylesheet.namesInBodies d.text.toList) else []

/-- The diagnostics of markup or script with the given style map. -/
def referenceDiagnostics (v : Auditor) (d : Document) (m : StyleMap) : List Diagnostic :=
  let report := resolveText d.text.toList m.names v.policy
  let unused :=
    if d.kind = .markup && v.settings.checkUnused then
      unusedWarnings ((m.lookup d.key).getD []) report.used
    else []
  report.diagnostics ++ unused

/-- Adds what the linter finds, and sorts by place. -/
def finish (v : Auditor) (d : Document) (found : List Diagnostic) : List Diagnostic :=
  let linted := match v.lint with
    | some lint => lint d
    | none => []
  (found ++ linted).mergeSort Diagnostic.le

/-- The audit of one request. -/
def audit (v : Auditor) (world : World) (interrupt : Interrupt) : Audit :=
  ⟨v.settings, world, interrupt⟩

/-- How markup or script with the given style map is reported on. -/
def reportPlan (v : Auditor) (d : Document) (m : StyleMap) : Plan (List Diagnostic) := do
  if ← Plan.check then return []
  else if ← Plan.check then return []
  else return v.finish d (v.referenceDiagnostics d m)

/-- How a document is validated, with the given way to load batches. -/
def plan (v : Auditor) (world : World) (load : Audit.BatchLoader) (d : Document)
    (root : Option Path) : Plan (List Diagnostic) :=
  if !v.covers d root then return []
  else match d.kind with
    | .style => do
      let own ← d.ownPlan
      if ← Plan.check then return []
      else return v.finish d (v.styleDiagnostics d own)
    | _ => do v.reportPlan d (← (v.audit world .never).collectPlan load d root)

/-- The diagnostics of a document, in order of their places. Files are loaded one after another. -/
def validate (v : Auditor) (world : World) (interrupt : Interrupt) (d : Document)
    (root : Option Path) (p : Progress) : List Diagnostic × Progress :=
  let a := v.audit world interrupt
  (v.plan world a.addFiles d root).run a p

end Auditor

end StyleAudit
