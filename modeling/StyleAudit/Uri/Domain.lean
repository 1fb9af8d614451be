import StyleAudit.Text.Basic
import StyleAudit.Text.Word

/-!
# Domain names

A domain name has labels with dots between them. Capitals are lowered, compatible forms of ASCII
characters are replaced, and a label with other characters than ASCII is written as `xn--` and
the label in the encoding of international names: its ASCII characters first, then the places and
numbers of the others as differences.
-/

namespace StyleAudit.Uri.Domain

open Text (inRanges splitBy)

/-! ### Characters -/

/-- Ranges of capitals, and how far it is to their small letters: Latin, Greek and Cyrillic. -/
def capitalRanges : List (Nat × Nat × Nat) :=
  [(0x41, 0x5A, 32), (0xC0, 0xD6, 32), (0xD8, 0xDE, 32), (0x388, 0x38A, 37), (0x38C, 0x38C, 64),
   (0x38E, 0x38F, 63), (0x391, 0x3A1, 32), (0x3A3, 0x3AB, 32), (0x386, 0x386, 38),
   (0x400, 0x40F, 80), (0x410, 0x42F, 32)]

/-- Ranges in which a capital stands before its small letter, by the first capital. -/
def alternatingRanges : List (Nat × Nat) :=
  [(0x100, 0x12F), (0x132, 0x137), (0x139, 0x148), (0x14A, 0x177), (0x179, 0x17E), (0x460, 0x481),
   (0x48A, 0x4BF), (0x4C1, 0x4CE), (0x4D0, 0x52F), (0x1E00, 0x1E95), (0x1EA0, 0x1EFF)]

/-- Characters that are left out of a name. -/
def ignoredRanges : List (Nat × Nat) :=
  [(0xAD, 0xAD), (0x34F, 0x34F), (0x200B, 0x200B), (0x2060, 0x2060), (0x2064, 0x2064),
   (0xFE00, 0xFE0F), (0xFEFF, 0xFEFF)]

/-- Characters that no name has: controls, marks of direction, private and unassigned ones. -/
def refusedRanges : List (Nat × Nat) :=
  [(0x80, 0x9F), (0x200E, 0x200F), (0x2028, 0x202E), (0x2061, 0x2063), (0x2065, 0x206F),
   (0xE000, 0xF8FF), (0xFDD0, 0xFDEF), (0xFFF0, 0xFFFF), (0xE0000, 0x10FFFF)]

def small (c : Char) : Char :=
  let n := c.toNat
  match capitalRanges.find? fun (lo, hi, _) => lo ≤ n && n ≤ hi with
  | some (_, _, distance) => Char.ofNat (n + distance)
  | none =>
    match alternatingRanges.find? fun (lo, hi) => lo ≤ n && n ≤ hi with
    | some (lo, _) => if (n - lo) % 2 = 0 then Char.ofNat (n + 1) else c
    | none => c

/-- The ASCII form of a wide character, of the dots of other scripts and of some letters. -/
def plain (c : Char) : Char :=
  let n := c.toNat
  if 0xFF01 ≤ n ∧ n ≤ 0xFF5E then Char.ofNat (n - 0xFEE0)
  else if n = 0x3002 ∨ n = 0xFF61 then '.'
  else if n = 0x17F then 's'
  else if n = 0x178 then 'ÿ'
  else if n = 0x212A then 'k'
  else if n = 0x212B then 'å'
  else c

/-- A name in its one form, before it is encoded. -/
def fold (cs : List Char) : List Char :=
  (cs.filter fun c => !inRanges ignoredRanges c.toNat).map fun c => small (plain c)

/-- Whether a character of a folded name makes it no name. -/
def isRefused (c : Char) : Bool :=
  c.toNat ≤ 32 || c.toNat = 127 || inRanges refusedRanges c.toNat ||
    ['#', '%', '/', ':', '<', '>', '?', '@', '[', '\\', ']', '^', '|'].contains c

/-! ### Labels -/

/-- A digit of base 36: letters, then digits. -/
def digitChar (d : Nat) : Char := if d < 26 then Char.ofNat (97 + d) else Char.ofNat (22 + d)

/-- The digits below which a number ends, at the place `k`. -/
def threshold (bias k : Nat) : Nat :=
  if k ≤ bias then 1 else if bias + 26 ≤ k then 26 else k - bias

theorem threshold_pos (bias k : Nat) : 0 < threshold bias k := by
  unfold threshold
  split
  · omega
  · split <;> omega

/-- The digits of a difference, from the place `k` on. -/
def differenceFrom (bias k n : Nat) : List Char :=
  let t := threshold bias k
  if n < t then [digitChar n]
  else digitChar (t + (n - t) % (36 - t)) :: differenceFrom bias (k + 36) ((n - t) / (36 - t))
termination_by n
decreasing_by
  have := threshold_pos bias k
  have := Nat.div_le_self (n - threshold bias k) (36 - threshold bias k)
  omega

/-- Halves the scale of a difference until it is small, and counts the steps in places. -/
def shrink (n places : Nat) : Nat × Nat :=
  if 455 < n then shrink (n / 35) (places + 36) else (n, places)
termination_by n

/-- The bias after a difference, when `count` characters are written. -/
def nextBias (n count : Nat) (first : Bool) : Nat :=
  let n := if first then n / 700 else n / 2
  let (n, places) := shrink (n + n / count) 0
  places + 36 * n / (n + 38)

/-- A label that is being encoded. -/
structure Encoder where
  /-- The digits so far. -/
  digits : List Char
  /-- The difference since the last character that was written. -/
  difference : Nat
  bias : Nat
  /-- How many characters of the label are written. -/
  count : Nat
  first : Bool

/-- Goes over a character of the label, while those with the number `n` are written. -/
def Encoder.visit (n : Nat) (e : Encoder) (c : Char) : Encoder :=
  if c.toNat < n then { e with difference := e.difference + 1 }
  else if c.toNat = n then
    ⟨e.digits ++ differenceFrom e.bias 36 e.difference, 0,
      nextBias e.difference (e.count + 1) e.first, e.count + 1, false⟩
  else e

/-- Writes the characters of a label with the given numbers, which are in order. `next` is the
least number that may still come. -/
def Encoder.run (label : List Char) (next : Nat) : List Nat → Encoder → Encoder
  | [], e => e
  | n :: more, e =>
    let e := { e with difference := e.difference + (n - next) * (e.count + 1) }
    let e := label.foldl (Encoder.visit n) e
    run label (n + 1) more { e with difference := e.difference + 1 }

def asciiLabel (label : List Char) : List Char :=
  let ascii := label.filter (·.toNat < 128)
  if ascii.length = label.length then label
  else
    let others := ((label.map Char.toNat).filter (128 ≤ ·)).mergeSort.eraseDups
    let encoded := Encoder.run label 128 others ⟨[], 0, 72, ascii.length, true⟩
    "xn--".toList ++ ascii ++ (if ascii.isEmpty then [] else ['-']) ++ encoded.digits

/-- The labels of a name, between its dots. -/
def labels (cs : List Char) : List (List Char) := splitBy (· = '.') cs

/-- A domain name in its one form, which is ASCII. -/
def ascii? (cs : List Char) : Option (List Char) :=
  let cs := fold cs
  if cs.any isRefused then none
  else some (List.intercalate ['.'] ((labels cs).map asciiLabel))

end StyleAudit.Uri.Domain
