import StyleAudit.Cache
import StyleAudit.FileTree
import StyleAudit.Selector.Basic
import StyleAudit.Settings.Basic

/-!
# Requests in progress

An audit reads files and fetches stylesheets, may be cancelled at any moment, and keeps selectors
in a cache. All of this is data: the world an audit sees does not change while it runs, the
moments of a cancellation are given beforehand, and the calls made to the outside are listed.
-/

namespace StyleAudit

inductive Call
  | stat (path : Path)
  | read (path : Path)
  | fetch (url : String) (timeoutMs : Nat)
  deriving Repr, DecidableEq

def Call.text : Call → String
  | stat path => s!"stat {path.text}"
  | read path => s!"read {path.text}"
  | fetch url timeoutMs => s!"fetch {url} {timeoutMs}"

/-- What an audit can see. -/
structure World where
  tree : FileTree
  /-- The answer to fetching an address, or why there is none. Without it nothing is fetched. -/
  remote : Option (String → Except String String)
  /-- The time in milliseconds. -/
  now : Nat

/-- The moments at which a request is cancelled, if ever. -/
structure Interrupt where
  /-- Before the request starts. -/
  before : Bool
  /-- While a call is under way. -/
  atCall : Call → Bool
  /-- Before the check with a given number, counted from 0. -/
  atCheck : Nat → Bool

/-- A request that is not cancelled. -/
def Interrupt.never : Interrupt := ⟨false, fun _ => false, fun _ => false⟩

/-- A request: its settings, what it can see, and when it is cancelled. -/
structure Audit where
  settings : Settings
  world : World
  interrupt : Interrupt

/-- The cache of selectors, by the key of their source. -/
abbrev SelectorCache := Cache (List Selector)

/-- How far a request has come. -/
structure Progress where
  cache : SelectorCache
  /-- The calls so far, the last one first. -/
  calls : List Call
  /-- How often it was checked for a cancellation. -/
  checks : Nat
  cancelled : Bool

namespace Audit

def start (a : Audit) (cache : SelectorCache) : Progress := ⟨cache, [], 0, a.interrupt.before⟩

def call (a : Audit) (c : Call) (p : Progress) : Progress :=
  { p with calls := c :: p.calls, cancelled := p.cancelled || a.interrupt.atCall c }

def check (a : Audit) (p : Progress) : Bool × Progress :=
  let cancelled := p.cancelled || a.interrupt.atCheck p.checks
  (cancelled, { p with checks := p.checks + 1, cancelled })

/-- A check fails exactly when the request is cancelled by then. -/
theorem check_cancelled (a : Audit) (p : Progress) :
    (a.check p).2.cancelled = (a.check p).1 := rfl

/-- A request that passes a check was not cancelled before it. -/
theorem not_cancelled_of_check {a : Audit} {p : Progress} (h : (a.check p).1 = false) :
    p.cancelled = false := (Bool.or_eq_false_iff.mp h).1

end Audit

namespace Progress

/-- Looks a source up in the cache. -/
def ask (p : Progress) (now : Nat) (key : String) (freshness : Int) :
    Option (List Selector) × Progress :=
  let (hit, cache) := p.cache.getFresh now key freshness
  (hit, { p with cache })

def keep (p : Progress) (swept stored : Nat) (key : String) (freshness : Int)
    (selectors : List Selector) : Progress :=
  { p with cache := p.cache.set swept stored key freshness selectors }

end Progress

end StyleAudit
