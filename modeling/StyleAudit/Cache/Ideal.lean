import Mathlib.Logic.Function.Basic
import StyleAudit.Cache

/-!
# The cache against an ideal map

Histories of a cache, and the map that a cache without bounds would be. Both are driven by the same
operations and answer lookups in the same form, so that a history can be run on either.

The ideal map keeps every key and its own exact time. It forgets nothing by itself: an item that was
not used for too long is still stored, but does not answer any more.
-/

namespace StyleAudit

namespace Cache

variable {α : Type}

/-- An operation on a cache, or the passing of time. While a value is being stored, some time passes
between making room and storing it. -/
inductive Op (α : Type)
  | set (key : String) (freshness : Int) (value : α) (pause : Nat)
  | get (key : String)
  | getFresh (key : String) (freshness : Int)
  | delete (key : String)
  | clear
  | advance (ms : Nat)

namespace Op

/-- The time that passes. -/
def elapsed : Op α → Nat
  | set _ _ _ pause => pause
  | advance ms => ms
  | _ => 0

/-- The key that is set, if one is. -/
def keySet? : Op α → Option String
  | set key _ _ _ => some key
  | _ => none

end Op

/-- A cache and the time on its clock. -/
structure Timed (α : Type) where
  now : Nat
  cache : Cache α

namespace Timed

/-- The freshness and the value that an operation hands back, and the cache after it. Only lookups
that hit hand something back. -/
def step (s : Timed α) : Op α → Option (Int × α) × Timed α
  | .set key freshness value pause =>
    let stored := later s.now pause
    (none, ⟨stored, s.cache.set s.now stored key freshness value⟩)
  | .get key =>
    let (hit, cache) := s.cache.get s.now key
    (hit.map fun e => (e.freshness, e.value), { s with cache })
  | .getFresh key freshness =>
    let (hit, cache) := s.cache.getFresh s.now key freshness
    (hit.map fun value => (freshness, value), { s with cache })
  | .delete key => (none, { s with cache := (s.cache.delete key).2 })
  | .clear => (none, { s with cache := s.cache.clear })
  | .advance ms => (none, { s with now := later s.now ms })

/-- What the operations of a history hand back, in order. -/
def answers (s : Timed α) : List (Op α) → List (Option (Int × α))
  | [] => []
  | op :: ops => (s.step op).1 :: answers (s.step op).2 ops

end Timed

/-- What the ideal map stores under a key. -/
structure Item (α : Type) where
  freshness : Int
  value : α
  lastAccess : Nat

/-- A map without bounds whose items answer for `ttl` milliseconds after their last use. -/
structure Ideal (α : Type) where
  ttl : Nat
  now : Nat
  stored : String → Option (Item α)

namespace Ideal

def start (ttl : Nat) : Ideal α := ⟨ttl, 0, fun _ => none⟩

/-- The map with `item` under `key`, or with nothing there. -/
def put (m : Ideal α) (key : String) (item : Option (Item α)) : Ideal α :=
  { m with stored := Function.update m.stored key item }

/-- The item of `key` that was used recently enough. -/
def live? (m : Ideal α) (key : String) : Option (Item α) :=
  (m.stored key).filter fun item => m.now - item.lastAccess ≤ m.ttl

/-- The item after a use at the present time. -/
def touched (m : Ideal α) (item : Item α) : Item α := { item with lastAccess := m.now }

/-- The map after some time. -/
def advance (m : Ideal α) (ms : Nat) : Ideal α := { m with now := m.now + ms }

def step (m : Ideal α) : Op α → Option (Int × α) × Ideal α
  | .set key freshness value pause =>
    (none, (m.advance pause).put key (some ⟨freshness, value, m.now + pause⟩))
  | .get key =>
    match m.live? key with
    | some item => (some (item.freshness, item.value), m.put key (some (m.touched item)))
    | none => (none, m)
  | .getFresh key freshness =>
    match m.live? key with
    | some item =>
      if item.freshness = freshness then
        (some (item.freshness, item.value), m.put key (some (m.touched item)))
      else (none, m.put key none)
    | none => (none, m)
  | .delete key => (none, m.put key none)
  | .clear => (none, { m with stored := fun _ => none })
  | .advance ms => (none, m.advance ms)

def answers (m : Ideal α) : List (Op α) → List (Option (Int × α))
  | [] => []
  | op :: ops => (m.step op).1 :: answers (m.step op).2 ops

end Ideal

end Cache

end StyleAudit
