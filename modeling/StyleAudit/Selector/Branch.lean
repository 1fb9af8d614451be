import StyleAudit.Mask
import StyleAudit.Text.Slice

/-!
# Lists separated by commas

`branches` cuts a selector list, or the arguments of a call, at the commas of code that stand
outside all brackets.
-/

namespace StyleAudit

open Text

def isOpenBracket (c : Char) : Bool := c == '(' || c == '[' || c == '{'

def isCloseBracket (c : Char) : Bool := c == ')' || c == ']' || c == '}'

/-- Cuts the rest of a painted text, with `depth` brackets open, a branch that started at `start`
and the characters of that branch so far, last one first. -/
def branchesFrom (depth start : Nat) (branch : List Char) :
    List (Char × Mask.Paint) → List Slice
  | [] => [⟨start, branch.reverse⟩]
  | (c, paint) :: rest =>
    if paint = .keep then
      if isOpenBracket c then branchesFrom (depth + 1) start (c :: branch) rest
      else if isCloseBracket c then branchesFrom (depth - 1) start (c :: branch) rest
      else if c = ',' ∧ depth = 0 then
        ⟨start, branch.reverse⟩ :: branchesFrom depth (start + byteLen branch + 1) [] rest
      else branchesFrom depth start (c :: branch) rest
    else branchesFrom depth start (c :: branch) rest

/-- The parts of a text between its commas of code outside all brackets. -/
def branches (s : Slice) : List Slice :=
  branchesFrom 0 s.offset [] (Mask.paint s.text)

end StyleAudit
