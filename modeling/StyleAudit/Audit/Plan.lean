import StyleAudit.Audit.Basic

/-!
# The actions of a request

A request makes calls, checks whether it was cancelled, and uses the cache. Between two of these
actions other requests may take theirs, and time passes. A plan says which actions a request takes
and how it goes on after each. What a file or an address holds is not part of an answer: the world
does not change while a request runs.

`Plan.run` carries out a plan that is left alone, all at one time. In a run by `Plan.Runs` each
action takes place at a time of its own.
-/

namespace StyleAudit

inductive Action
  | call (c : Call)
  /-- Checks for a cancellation. -/
  | check
  /-- Looks a source up in the cache. -/
  | ask (key : String) (freshness : Int)
  /-- Keeps the selectors of a source in the cache. -/
  | keep (key : String) (freshness : Int) (selectors : List Selector)

/-- What an action gives back. -/
abbrev Action.Answer : Action → Type
  | check => Bool
  | ask _ _ => Option (List Selector)
  | call _ | keep _ _ _ => Unit

/-- The actions of a request that ends with a result. -/
inductive Plan (α : Type)
  | done (result : α)
  | act (action : Action) (next : action.Answer → Plan α)

namespace Plan

variable {α β : Type}

/-- One plan after another. -/
def andThen (t : Plan α) (rest : α → Plan β) : Plan β :=
  match t with
  | done x => rest x
  | act action next => act action fun answer => (next answer).andThen rest

instance : Monad Plan where
  pure := done
  bind := andThen

def single (action : Action) : Plan action.Answer := act action done

def call (c : Call) : Plan Unit := single (.call c)

def check : Plan Bool := single .check

def ask (key : String) (freshness : Int) : Plan (Option (List Selector)) :=
  single (.ask key freshness)

def keep (key : String) (freshness : Int) (selectors : List Selector) : Plan Unit :=
  single (.keep key freshness selectors)

/-- Whether a plan has no more actions. -/
def isDone : Plan α → Bool
  | done _ => true
  | act _ _ => false

end Plan

/-- Carries out an action. The clock shows `first`; an action that stores reads it once more, when
it shows `second`. -/
def Audit.perform (a : Audit) (first second : Nat) :
    (action : Action) → Progress → action.Answer × Progress
  | .call c, p => ((), a.call c p)
  | .check, p => a.check p
  | .ask key freshness, p => p.ask first key freshness
  | .keep key freshness selectors, p => ((), p.keep first second key freshness selectors)

namespace Plan

variable {α β : Type}

/-- Carries out a plan, all at the present time. -/
def run (a : Audit) : Plan α → Progress → α × Progress
  | done x, p => (x, p)
  | act action next, p =>
    let (answer, p) := a.perform a.world.now a.world.now action p
    (next answer).run a p

/-- `t.Runs a p r`: the plan may come to `r` from `p`. The clock may show anything. -/
inductive Runs (a : Audit) : Plan α → Progress → α × Progress → Prop
  | done (x : α) (p : Progress) : Runs a (.done x) p (x, p)
  | act {action : Action} {next : action.Answer → Plan α} {p : Progress} {r : α × Progress}
      (first second : Nat)
      (rest : Runs a (next (a.perform first second action p).1)
        (a.perform first second action p).2 r) :
      Runs a (.act action next) p r

@[simp] theorem run_pure (a : Audit) (x : α) (p : Progress) :
    (pure x : Plan α).run a p = (x, p) := rfl

@[simp] theorem run_bind (a : Audit) (t : Plan α) (rest : α → Plan β) (p : Progress) :
    (t >>= rest).run a p = (rest (t.run a p).1).run a (t.run a p).2 := by
  show (t.andThen rest).run a p = _
  induction t generalizing p with
  | done x => rfl
  | act action next ih => exact ih _ _

@[simp] theorem run_call (a : Audit) (c : Call) (p : Progress) :
    (call c).run a p = ((), a.call c p) := rfl

@[simp] theorem run_ask (a : Audit) (key : String) (freshness : Int) (p : Progress) :
    (ask key freshness).run a p = p.ask a.world.now key freshness := rfl

/-- Carrying out a plan all at one time is one way to run it. -/
theorem runs_run (a : Audit) (t : Plan α) (p : Progress) : t.Runs a p (t.run a p) := by
  induction t generalizing p with
  | done x => exact .done x p
  | act action next ih => exact .act a.world.now a.world.now (ih _ _)

end Plan

end StyleAudit
