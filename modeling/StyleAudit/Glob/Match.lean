import StyleAudit.Glob.Criterion
import StyleAudit.Glob.Parser
import StyleAudit.Path

/-!
# Matching globs

Matching follows a glob token by token and keeps every way the bytes so far may be read, as the
list of remainders that are still to be matched.
-/

namespace StyleAudit

namespace Glob

open Path (separator)

/-- The remainder of `bytes` after `word`, when `bytes` starts with it. -/
def afterBytes? : (word bytes : List UInt8) → Option (List UInt8)
  | [], bytes => some bytes
  | _ :: _, [] => none
  | w :: ws, b :: bytes => if w = b then afterBytes? ws bytes else none

/-- All remainders of `bytes`, the longest one first. -/
def suffixes : List UInt8 → List (List UInt8)
  | [] => [[]]
  | b :: bytes => (b :: bytes) :: suffixes bytes

/-- The remainders that follow a separator. -/
def afterSeparators : List UInt8 → List (List UInt8)
  | [] => []
  | b :: bytes => if b = separator then bytes :: afterSeparators bytes else afterSeparators bytes

/-- The bytes of a character, as ranges of one. -/
def singleRanges (bytes : List UInt8) : List (UInt8 × UInt8) := bytes.map fun b => (b, b)

/-- The bytes that a range of characters stands for. A character of several bytes counts as each
of them; a range leads from the last byte of its first character to the first byte of its last
one. -/
def byteRanges (range : Char × Char) : List (UInt8 × UInt8) :=
  let first := String.utf8EncodeChar range.1
  if range.1 = range.2 then singleRanges first
  else match first.getLast?, String.utf8EncodeChar range.2 with
    | some lo, hi :: more => singleRanges first.dropLast ++ (lo, hi) :: singleRanges more
    | _, _ => []

def rangeHas (b : UInt8) (range : Char × Char) : Bool :=
  (byteRanges range).any fun (lo, hi) => lo ≤ b && b ≤ hi

/-- Whether a class has the byte `b`. -/
def classHas (negated : Bool) (ranges : List (Char × Char)) (b : UInt8) : Bool :=
  ranges.any (rangeHas b) != negated

mutual

/-- Whether a token matches only the empty text because it has no tokens inside. -/
def Token.isVoid : Token → Bool
  | .alternates branches => branchesVoid branches
  | _ => false

/-- Whether every token of a branch is void. -/
def tokensVoid : List Token → Bool
  | [] => true
  | t :: ts => t.isVoid && tokensVoid ts

def branchesVoid : List (List Token) → Bool
  | [] => true
  | b :: bs => tokensVoid b && branchesVoid bs

end

mutual

/-- The remainders of `bytes` after one token. -/
def Token.rests : Token → List UInt8 → List (List UInt8)
  | .literal c, bytes => (afterBytes? (String.utf8EncodeChar c) bytes).toList
  | .any, bytes => bytes.tail?.toList
  | .many, bytes => suffixes bytes
  | .leadingDirs, bytes => bytes :: afterSeparators bytes
  | .trailingDirs, bytes => (afterBytes? [separator] bytes).toList.flatMap suffixes
  | .innerDirs, bytes =>
    (afterBytes? [separator] bytes).toList.flatMap fun rest => rest :: afterSeparators rest
  | .oneOf negated ranges, bytes =>
    match bytes with
    | [] => []
    | b :: bytes => if classHas negated ranges b then [bytes] else []
  | .alternates branches, bytes =>
    if branchesVoid branches then [bytes] else branchRests branches bytes

/-- The remainders after a sequence of tokens, when those of `states` are to be matched. -/
def tokensRests : List Token → (states : List (List UInt8)) → List (List UInt8)
  | [], states => states
  | t :: ts, states => tokensRests ts (states.flatMap t.rests).eraseDups

/-- The remainders of `bytes` after one of several branches. A void branch is no choice. -/
def branchRests : List (List Token) → List UInt8 → List (List UInt8)
  | [], _ => []
  | b :: bs, bytes =>
    if tokensVoid b then branchRests bs bytes
    else tokensRests b [bytes] ++ branchRests bs bytes

end

/-! ### Globs that are about the name of a file

A path that ends in `..` names no file. A glob that is decided by the name or the extension of
a file does not match such a path, even where the text would. -/

/-- What follows the last separator of a path. -/
def lastPart (bytes : Spelling) : Spelling :=
  (bytes.reverse.takeWhile (· ≠ separator)).reverse

/-- The bytes of `..` -/
def upward : Spelling := [Path.dot, Path.dot]

/-- Whether the glob matches the whole of `path`. -/
def isMatch (g : Glob) (path : Spelling) : Bool :=
  match g.tokens with
  | [.leadingDirs] => true
  | ts =>
    if (criterion ts).isAboutName && lastPart path = upward then false
    else (tokensRests ts [path]).any List.isEmpty

end Glob

end StyleAudit
