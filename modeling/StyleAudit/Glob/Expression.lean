import StyleAudit.Glob.Match

/-!
# Globs as regular expressions

A glob that no simpler criterion decides is a regular expression over bytes. Expressions may only
be nested so deep, which bounds the depth of groups in such a glob.
-/

namespace StyleAudit

namespace Glob

open Path (separator)

inductive Expression
  | byte (b : UInt8)
  | any
  | anyRun
  | optional (b : UInt8)
  | oneOf (negated : Bool) (ranges : List (UInt8 × UInt8))
  | choice (branches : List (List Expression))

mutual

/-- The expression of a token. A group without a branch that asks for anything has none. -/
def Token.expression : Token → List Expression
  | .literal c => (String.utf8EncodeChar c).map .byte
  | .any => [.any]
  | .many => [.anyRun]
  | .leadingDirs => [.choice [[.optional separator], [.anyRun, .byte separator]]]
  | .trailingDirs => [.byte separator, .anyRun]
  | .innerDirs => [.choice [[.byte separator], [.byte separator, .anyRun, .byte separator]]]
  | .oneOf negated ranges => [.oneOf negated (ranges.flatMap byteRanges)]
  | .alternates branches =>
    match branchExpressions branches with
    | [] => []
    | parts => [.choice parts]

def tokensExpression : List Token → List Expression
  | [] => []
  | t :: ts => t.expression ++ tokensExpression ts

/-- The expressions of the branches that ask for something. -/
def branchExpressions : List (List Token) → List (List Expression)
  | [] => []
  | b :: bs =>
    match tokensExpression b with
    | [] => branchExpressions bs
    | part => part :: branchExpressions bs

end

/-- The expression of a glob. Two stars alone match everything. -/
def expression (g : Glob) : List Expression :=
  match g.tokens with
  | [.leadingDirs] => [.anyRun]
  | ts => tokensExpression ts

/-! ### Depth -/

/-- Several parts together are one level deeper than each of them. -/
def groupDepth {α : Type} (parts : List α) : Nat := if parts.length ≤ 1 then 0 else 1

mutual

def Expression.depth : Expression → Nat
  | .byte _ | .any => 0
  | .anyRun | .optional _ => 1
  | .oneOf _ ranges => 1 + groupDepth ranges
  | .choice branches => 1 + groupDepth branches + branchesDepth branches

/-- The depth of the deepest part of a sequence. -/
def partsDepth : List Expression → Nat
  | [] => 0
  | e :: es => max e.depth (partsDepth es)

def branchesDepth : List (List Expression) → Nat
  | [] => 0
  | b :: bs => max (groupDepth b + partsDepth b) (branchesDepth bs)

end

/-- The depth of a glob. Its expression is one sequence with the marks of its start and end. -/
def depth (g : Glob) : Nat := 1 + partsDepth g.expression

/-- Expressions may be this deep. -/
def maxDepth : Nat := 250

def isTooDeep (g : Glob) : Bool := maxDepth < g.depth

/-! ### Text -/

/-- The ASCII characters that are written with a backslash. -/
def specialChars : List Char := "\\.+*?()|[]\x7b\x7d^$#&-~".toList

/-- A hexadecimal digit in lower case. -/
def lowerHexDigit (n : Nat) : Char := if n < 10 then Char.ofNat (48 + n) else Char.ofNat (87 + n)

def byteText (b : UInt8) : List Char :=
  if b < 128 then
    let c := Char.ofNat b.toNat
    if specialChars.contains c then ['\\', c] else [c]
  else ['\\', 'x', lowerHexDigit (b.toNat / 16), lowerHexDigit (b.toNat % 16)]

/-- The spelling of a range of bytes. -/
def rangeText (range : UInt8 × UInt8) : List Char :=
  if range.1 = range.2 then byteText range.1
  else byteText range.1 ++ '-' :: byteText range.2

mutual

def Expression.text : Expression → List Char
  | .byte b => byteText b
  | .any => ['.']
  | .anyRun => ['.', '*']
  | .optional b => byteText b ++ ['?']
  | .oneOf negated ranges =>
    '[' :: (if negated then ['^'] else []) ++ ranges.flatMap rangeText ++ [']']
  | .choice branches => '(' :: '?' :: ':' :: branchesText branches

/-- The spelling of a sequence. -/
def partsText : List Expression → List Char
  | [] => []
  | e :: es => e.text ++ partsText es

/-- The spelling of branches and the end of their group. -/
def branchesText : List (List Expression) → List Char
  | [] => [')']
  | [b] => partsText b ++ [')']
  | b :: bs => partsText b ++ '|' :: branchesText bs

end

/-- The spelling of the expression of a glob, which is about bytes and about whole paths. -/
def expressionText (g : Glob) : String :=
  "(?-u)^" ++ String.ofList (partsText g.expression) ++ "$"

end Glob

/-- Globs of which one is to match. -/
structure GlobSet where
  globs : List Glob
  deriving Repr

namespace GlobSet

/-- Why globs do not make up a set. -/
inductive Fault
  /-- An expression that is matched alone is nested too deep. -/
  | expression (text : String)
  /-- One of the expressions that are matched together is nested too deep. -/
  | expressionAt (index : Nat)
  deriving Repr, DecidableEq

def Fault.message : Fault → String
  | expression text => s!"error parsing glob '{text}': error parsing pattern 0"
  | expressionAt index => s!"error parsing pattern {index}"

def withCriterion (globs : List Glob) (c : Glob.Criterion) : List Glob :=
  globs.filter fun g => Glob.criterion g.tokens = c

/-- The set of some globs. Expressions that come after an extension are looked at first. -/
def ofGlobs (globs : List Glob) : Except Fault GlobSet :=
  match (withCriterion globs .extensionThenExpression).find? Glob.isTooDeep with
  | some g => .error (.expression g.expressionText)
  | none =>
    match (withCriterion globs .expression).findIdx? Glob.isTooDeep with
    | some index => .error (.expressionAt index)
    | none => .ok ⟨globs⟩

/-- Whether some glob of the set matches. -/
def isMatch (s : GlobSet) (path : Spelling) : Bool := s.globs.any (·.isMatch path)

end GlobSet

end StyleAudit
