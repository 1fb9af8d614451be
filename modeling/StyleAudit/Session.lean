import StyleAudit.Audit.Validate
import StyleAudit.Audit.Weave

/-!
# Sessions

A session is one auditor with its cache, in a world that changes between requests. Each step
changes the world, asks the cache, or makes a request.
-/

namespace StyleAudit

/-- An auditor, its cache and the world around it. -/
structure Session where
  auditor : Auditor
  world : World
  cache : SelectorCache

namespace Session

/-- Starts a session at time 0 with an empty cache. -/
def create (settings : Settings) (lint : Option (Document → List Diagnostic)) (tree : FileTree)
    (remote : Option (String → Except String String)) : Except Error Session := do
  let cache ← Cache.create settings.cacheMaxEntries settings.cacheTtl
  let auditor ← Auditor.create settings lint
  return ⟨auditor, ⟨tree, remote, 0⟩, cache⟩

/-- What can be asked of a session. -/
inductive Request
  | loadFile (path : Path)
  | loadRemote (url : String)
  | ownSelectors (d : Document)
  | collect (d : Document) (root : Option Path)
  | validate (d : Document) (root : Option Path)

inductive Step
  | change (edit : FileTree → FileTree)
  /-- Sets the answer of an address. -/
  | publish (url : String) (answer : Except String String)
  | advance (ms : Nat)
  | clear
  | delete (key : String)
  | lookup (key : String)
  | covers (d : Document) (root : Option Path)
  | request (r : Request) (interrupt : Interrupt)

/-- What a step gives. -/
inductive Outcome
  | done
  | flag (b : Bool)
  | entry (e : Option (Cache.Entry (List Selector)))
  | loaded (selectors : Except Error (List Selector))
  | styles (m : StyleMap)
  | diagnostics (ds : List Diagnostic)

/-- What a step gives, the calls it made, in order, and whether it was cancelled. -/
structure Reply where
  outcome : Outcome
  calls : List Call := []
  cancelled : Bool := false

/-- Sets the answer of one address. -/
def answerWith (url : String) (answer : Except String String)
    (remote : String → Except String String) : String → Except String String :=
  fun asked => if asked = url then answer else remote asked

/-- The reply of a request, and the session after it. -/
def finish (s : Session) (outcome : Outcome) (p : Progress) : Reply × Session :=
  (⟨outcome, p.calls.reverse, p.cancelled⟩, { s with cache := p.cache })

/-- The audit of a request in the current world. -/
def audit (s : Session) (interrupt : Interrupt) : Audit := s.auditor.audit s.world interrupt

/-- How a request is carried out, with the given way to load batches. -/
def plan (s : Session) (load : Audit.BatchLoader) : Request → Plan Outcome
  | .loadFile path => do return .loaded (← (s.audit .never).filePlan path)
  | .loadRemote url => do return .loaded (← (s.audit .never).remotePlan url)
  | .ownSelectors d => do return .loaded (.ok (← d.ownPlan))
  | .collect d root => do return .styles (← (s.audit .never).collectPlan load d root)
  | .validate d root => do return .diagnostics (← s.auditor.plan s.world load d root)

/-- Takes one step. A request loads files one after another, all at the present time. -/
def step (s : Session) : Step → Reply × Session
  | .change edit => ({ outcome := .done }, { s with world.tree := edit s.world.tree })
  | .publish url answer =>
    ({ outcome := .done }, { s with world.remote := s.world.remote.map (answerWith url answer) })
  | .advance ms => ({ outcome := .done }, { s with world.now := Cache.later s.world.now ms })
  | .clear => ({ outcome := .done }, { s with cache := s.cache.clear })
  | .delete key =>
    let (found, cache) := s.cache.delete key
    ({ outcome := .flag found }, { s with cache })
  | .lookup key =>
    let (hit, cache) := s.cache.get s.world.now key
    ({ outcome := .entry hit }, { s with cache })
  | .covers d root => ({ outcome := .flag (s.auditor.covers d root) }, s)
  | .request r interrupt =>
    let a := s.audit interrupt
    let (outcome, p) := (s.plan a.addFiles r).run a (a.start s.cache)
    s.finish outcome p

/-- `s.Takes step r`: the step may come to the reply and the session `r`. A request may load the
files of a batch side by side, and each of its actions has a time of its own. -/
def Takes (s : Session) (step : Step) (r : Reply × Session) : Prop :=
  match step with
  | .request request interrupt =>
    let a := s.audit interrupt
    ∃ load outcome p, a.Interleaves load ∧
      (s.plan load request).Runs a (a.start s.cache) (outcome, p) ∧ r = s.finish outcome p
  | step => r = s.step step

end Session

end StyleAudit
