import StyleAudit.Text.Fold
import StyleAudit.Uri.Encoding

/-!
# Segments of a path

A path is made of segments with a slash before each. Segments that are dots are resolved when an
address is read. The letter of a drive is a segment that is never left again.
-/

namespace StyleAudit.Uri

open Text

/-- A segment of a path, as it is written. -/
abbrev Segment := List Char

namespace Segment

def isDot (s : Segment) : Bool := s = ['.'] || toAsciiLower s = "%2e".toList

def isDoubleDot (s : Segment) : Bool :=
  ["..", "%2e.", ".%2e", "%2e%2e"].any fun d => toAsciiLower s = d.toList

/-- A letter and a colon, or a bar in its place. -/
def isDrive : Segment → Bool
  | [c, mark] => c.isAlpha && (mark = ':' || mark = '|')
  | _ => false

end Segment

/-- A path that is being read. -/
structure Trail where
  /-- The segments so far, the last one first. -/
  done : List Segment
  /-- The path starts with a drive. -/
  onDrive : Bool

namespace Trail

def empty : Trail := ⟨[], false⟩

def push (t : Trail) (s : Segment) : Trail := { t with done := s :: t.done }

/-- The path without its last segment, unless that is a drive. -/
def up (t : Trail) : Trail :=
  match t.done with
  | [] => t
  | s :: more => if s.isDrive then t else { t with done := more }

/-- The first segment of a path to a file. A drive is written with a colon. -/
def pushFirst (t : Trail) (s : Segment) : Trail :=
  if s.isDrive then ⟨[s.take 1 ++ [':']], true⟩ else t.push s

/-- The path after one more segment. A dot at the end leaves an empty segment. -/
def add (toFile : Bool) (t : Trail) (s : Segment) (last : Bool) : Trail :=
  if s.isDoubleDot then if last then t.up.push [] else t.up
  else if s.isDot then if last then t.push [] else t
  else if toFile && t.done.isEmpty then t.pushFirst s
  else t.push s

/-- The path after several segments. -/
def addAll (toFile : Bool) : List Segment → Trail → Trail
  | [], t => t
  | s :: more, t => addAll toFile more (t.add toFile s more.isEmpty)

/-- The spelling of a path. -/
def text (t : Trail) : String :=
  String.ofList (t.done.reverse.flatMap fun s => '/' :: encode isSegmentChar s)

/-- A path to a file, which does not start with an empty segment unless it is all there is. -/
def dropEmpty (t : Trail) : Trail :=
  match t.done.reverse.dropWhile List.isEmpty with
  | [] => { t with done := [[]] }
  | segments => { t with done := segments.reverse }

end Trail

end StyleAudit.Uri
