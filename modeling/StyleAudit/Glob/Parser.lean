import StyleAudit.Glob.Basic

/-!
# Reading globs

One pass over the text of a glob. The state is the tokens of the branch being read and, for every
group of alternates that is open, the branches that are finished and the tokens before the group.
-/

namespace StyleAudit

namespace Glob

/-- A character class that is being read. -/
structure OpenClass where
  negated : Bool
  /-- Nothing was read yet, so that `]` and `-` stand for themselves. -/
  first : Bool
  /-- The last character was a `-` that may be the middle of a range. -/
  inRange : Bool
  /-- The ranges so far, the last one first. -/
  ranges : List (Char × Char)

structure OpenGroup where
  /-- The tokens before the group, the last one first. -/
  outer : List Token
  /-- The finished branches, the last one first. -/
  done : List (List Token)

/-- What the next character is a part of. -/
inductive ReadMode
  | plain
  /-- After one star. -/
  | star
  /-- After two stars. -/
  | stars
  /-- After a backslash. -/
  | escape
  /-- After the `[` of a class. -/
  | classStart
  | inClass (k : OpenClass)

/-- What has been read so far. -/
structure ReadState where
  /-- The open groups, the innermost one first. -/
  groups : List OpenGroup
  /-- The tokens of the current branch, the last one first. -/
  current : List Token
  /-- The last character of the tokens that are complete. -/
  last : Option Char
  mode : ReadMode

namespace ReadState

def start : ReadState := ⟨[], [], none, .plain⟩

/-- The state after a token that ends with the character `c`. -/
def push (s : ReadState) (t : Token) (c : Char) : ReadState :=
  { s with current := t :: s.current, last := some c, mode := .plain }

/-- Two stars that do not stand for whole directories. -/
def pushStars (s : ReadState) : ReadState := (s.push .many '*').push .many '*'

/-- Puts a token for whole directories in place of the separator before it. A leading or trailing
token for directories covers the new one and stays. -/
def replaceLast (s : ReadState) (t : Token) (c : Char) : ReadState :=
  let current := match s.current with
    | .leadingDirs :: more => .leadingDirs :: more
    | .trailingDirs :: more => .trailingDirs :: more
    | _ :: more => t :: more
    | [] => [t]
  { s with current, last := some c, mode := .plain }

/-- Whether a `**` may stand for whole directories after what was read. -/
def atBoundary (s : ReadState) : Bool :=
  s.last = some '/' || (!s.groups.isEmpty && (s.last = some ',' || s.last = some '\x7b'))

/-- The state after `**`, when `next` follows, and whether `next` is read with it. -/
def doubleStar (s : ReadState) (next : Option Char) : ReadState × Bool :=
  if s.current.isEmpty then
    match next with
    | none => (s.push .leadingDirs '*', false)
    | some '/' => (s.push .leadingDirs '/', true)
    | some _ => (s.pushStars, false)
  else if !s.atBoundary then (s.pushStars, false)
  else match next with
    | none => (s.replaceLast .trailingDirs '*', false)
    | some '/' => (s.replaceLast .innerDirs '/', true)
    | some c =>
      if !s.groups.isEmpty && (c = ',' || c = '\x7d') then (s.replaceLast .trailingDirs '*', false)
      else (s.pushStars, false)

/-- The state after `{`. -/
def openGroup (s : ReadState) : ReadState :=
  { s with groups := ⟨s.current, []⟩ :: s.groups, current := [], last := some '\x7b' }

/-- The state after `,`, which is an ordinary character outside of groups. -/
def comma (s : ReadState) : ReadState :=
  match s.groups with
  | [] => s.push (.literal ',') ','
  | g :: more =>
    { s with
      groups := { g with done := s.current.reverse :: g.done } :: more
      current := [], last := some ',' }

/-- The state after `}`. -/
def closeGroup (s : ReadState) : Except Fault ReadState :=
  match s.groups with
  | [] => .error .unopenedAlternates
  | g :: more =>
    .ok { s with
      groups := more
      current := .alternates (s.current.reverse :: g.done).reverse :: g.outer
      last := some '\x7d' }

/-- The state after the `]` of a class. -/
def closeClass (s : ReadState) (k : OpenClass) : ReadState :=
  let ranges := if k.inRange then ('-', '-') :: k.ranges else k.ranges
  s.push (.oneOf k.negated ranges.reverse) ']'

end ReadState

namespace OpenClass

def start (negated : Bool) : OpenClass := ⟨negated, true, false, []⟩

/-- Adds a character that starts no range so far. -/
def add (k : OpenClass) (c : Char) : OpenClass :=
  { k with first := false, ranges := (c, c) :: k.ranges }

/-- Makes `c` the end of the range that was read last. -/
def endRange (k : OpenClass) (c : Char) : Except Fault OpenClass :=
  match k.ranges with
  | (first, _) :: more =>
    if c < first then .error (.invalidRange first c)
    else .ok { k with first := false, inRange := false, ranges := (first, c) :: more }
  | [] => .ok (k.add c)

/-- The class after the character `c`, which does not close it. -/
def step (k : OpenClass) (c : Char) : Except Fault OpenClass :=
  if k.inRange then k.endRange c
  else if c = '-' && !k.first then .ok { k with inRange := true }
  else .ok (k.add c)

end OpenClass

namespace ReadState

/-- The state after a character that is not part of anything before it. -/
def plainStep (s : ReadState) (c : Char) : Except Fault ReadState :=
  match c with
  | '?' => .ok (s.push .any c)
  | '*' => .ok { s with mode := .star }
  | '[' => .ok { s with mode := .classStart }
  | '\x7b' => .ok s.openGroup
  | '\x7d' => s.closeGroup
  | ',' => .ok s.comma
  | '\\' => .ok { s with mode := .escape }
  | c => .ok (s.push (.literal c) c)

def classStep (s : ReadState) (k : OpenClass) (c : Char) : Except Fault ReadState :=
  if c = ']' && !k.first then .ok (s.closeClass k)
  else (k.step c).map fun k => { s with mode := .inClass k }

/-- The state after one more character. -/
def step (s : ReadState) (c : Char) : Except Fault ReadState :=
  match s.mode with
  | .plain => s.plainStep c
  | .star => if c = '*' then .ok { s with mode := .stars } else (s.push .many '*').plainStep c
  | .stars =>
    match s.doubleStar (some c) with
    | (s, true) => .ok s
    | (s, false) => s.plainStep c
  | .escape => .ok (s.push (.literal c) c)
  | .classStart =>
    if c = '!' || c = '^' then .ok { s with mode := .inClass (.start true) }
    else s.classStep (.start false) c
  | .inClass k => s.classStep k c

/-- The tokens of a glob that ends here. -/
def finish (s : ReadState) : Except Fault (List Token) := do
  let s ← match s.mode with
    | .plain => .ok s
    | .star => .ok (s.push .many '*')
    | .stars => .ok (s.doubleStar none).1
    | .escape => .error .danglingEscape
    | .classStart | .inClass _ => .error .unclosedClass
  if s.groups.isEmpty then return s.current.reverse else throw .unclosedAlternates

end ReadState

end Glob

structure Glob where
  tokens : List Glob.Token
  deriving Repr

def Glob.parse (pattern : String) : Except Glob.Fault Glob := do
  let state ← pattern.toList.foldlM Glob.ReadState.step .start
  return ⟨← state.finish⟩

end StyleAudit
