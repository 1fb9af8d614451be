import StyleAudit.Error

/-!
# A cache with expiry and ranked eviction

A bounded map from keys to values. Each value comes with a freshness number, which its source
changes when the value no longer holds. An entry that is not used for longer than the time to
live is as good as absent. When a new key does not fit, about a fifth of the entries go: those
used least often, and of these the ones used longest ago.

The cache reads no clock. Every operation that depends on time takes the time, in milliseconds.
-/

namespace StyleAudit

/-- A stored value and its use so far. Uses are counted in a word of 64 bits. -/
structure Cache.Entry (α : Type) where
  key : String
  freshness : Int
  value : α
  lastAccess : Nat
  accessCount : UInt64
  deriving Repr, DecidableEq

/-- A cache of at most `maxEntries` values that live for `ttl` milliseconds after their last
use. Entries stand in the order of their last use, the most recent one last. -/
structure Cache (α : Type) where
  entries : List (Cache.Entry α)
  maxEntries : Nat
  ttl : Nat
  deriving Repr, DecidableEq

namespace Cache

variable {α : Type}

/-- Times and durations are words of 64 bits, in milliseconds. -/
def timeModulus : Nat := 18446744073709551616

/-- The time `ms` milliseconds after `now`. -/
def later (now ms : Nat) : Nat := (now + ms) % timeModulus

/-- An empty cache. It must be able to hold something. -/
def create (maxEntries ttl : Nat) : Except Error (Cache α) :=
  if maxEntries = 0 then .error .noCapacity else .ok ⟨[], maxEntries, ttl % timeModulus⟩

def size (c : Cache α) : Nat := c.entries.length

/-- The entry of `key`, expired or not. -/
def find? (c : Cache α) (key : String) : Option (Entry α) := c.entries.find? (·.key = key)

/-- Whether the entry was used recently enough at time `now`. -/
def alive (c : Cache α) (now : Nat) (e : Entry α) : Bool := now - e.lastAccess ≤ c.ttl

def erase (c : Cache α) (key : String) : Cache α :=
  { c with entries := c.entries.filter (·.key ≠ key) }

/-- The cache with `e` as the most recent entry of its key. -/
def push (c : Cache α) (e : Entry α) : Cache α :=
  { c with entries := (c.erase e.key).entries ++ [e] }

/-- The entry after one more use at time `now`. -/
def Entry.touch (now : Nat) (e : Entry α) : Entry α :=
  { e with lastAccess := now, accessCount := e.accessCount + 1 }

/-- Looks `key` up. A hit counts as a use; an expired entry goes. -/
def get (c : Cache α) (now : Nat) (key : String) : Option (Entry α) × Cache α :=
  match c.find? key with
  | none => (none, c)
  | some e => if c.alive now e then (some e, c.push (e.touch now)) else (none, c.erase key)

/-- Looks `key` up and accepts the value only if it has the freshness asked for. An entry of
another freshness goes. -/
def getFresh (c : Cache α) (now : Nat) (key : String) (freshness : Int) : Option α × Cache α :=
  match c.get now key with
  | (some e, c') => if e.freshness = freshness then (some e.value, c') else (none, c'.erase key)
  | (none, c') => (none, c')

/-- The cache without the entries that have expired. -/
def sweep (c : Cache α) (now : Nat) : Cache α :=
  { c with entries := c.entries.filter (c.alive now) }

/-- Whether `a` is evicted before `b`, position apart. -/
def Entry.rankLe (a b : Entry α) : Bool :=
  a.accessCount < b.accessCount ||
    (a.accessCount = b.accessCount && a.lastAccess ≤ b.lastAccess)

/-- The keys of the `count` entries of lowest rank. Equal ranks go by position. -/
def lowest (c : Cache α) (count : Nat) : List String :=
  ((c.entries.mergeSort Entry.rankLe).take count).map (·.key)

/-- How many entries go when one more is to fit. -/
def excess (c : Cache α) : Nat := max (c.size / 5) (c.size + 1 - c.maxEntries)

/-- Makes room for `key`. -/
def evict (c : Cache α) (now : Nat) (key : String) : Cache α :=
  let c := c.sweep now
  if (c.find? key).isSome || c.size < c.maxEntries then c
  else
    let victims := c.lowest c.excess
    { c with entries := c.entries.filter fun e => !victims.contains e.key }

/-- Stores a value, in place of an older one of the same key. The time is taken twice: room is made
at `swept`, and the new entry is used at `stored`. -/
def set (c : Cache α) (swept stored : Nat) (key : String) (freshness : Int) (value : α) : Cache α :=
  (c.evict swept key).push ⟨key, freshness, value, stored, 1⟩

/-- Removes `key` and tells whether it was there. -/
def delete (c : Cache α) (key : String) : Bool × Cache α := ((c.find? key).isSome, c.erase key)

def clear (c : Cache α) : Cache α := { c with entries := [] }

end Cache

end StyleAudit
