import StyleAudit.Text.Slice

/-!
# Texts by byte offsets

The scanners of the library walk lists of characters. The scanners in this folder work on byte
offsets of the UTF-8 form of a text: they read single bytes, jump over a number of bytes, and cut
slices out of the text. Each of these can go wrong. An index past the end, a slice whose ends are
out of order or stand inside a character, and a jump of a loop that does not move it on all have the
result `none`.
-/

namespace StyleAudit.Bytes

open Text

/-- The bytes of a text, each as the character with its code. -/
def encode (cs : List Char) : List Char :=
  cs.flatMap fun c => (String.utf8EncodeChar c).map fun b => Char.ofNat b.toNat

/-- The byte at an offset. -/
def byteAt? (text : List Char) (i : Nat) : Option Char := (encode text)[i]?

/-- The text from an offset on. -/
def drop? : (start : Nat) → List Char → Option (List Char)
  | 0, cs => some cs
  | _ + 1, [] => none
  | n + 1, c :: cs => if c.utf8Size ≤ n + 1 then drop? (n + 1 - c.utf8Size) cs else none

/-- The text up to an offset. -/
def take? : (stop : Nat) → List Char → Option (List Char)
  | 0, _ => some []
  | _ + 1, [] => none
  | n + 1, c :: cs =>
    if c.utf8Size ≤ n + 1 then (take? (n + 1 - c.utf8Size) cs).map (c :: ·) else none

/-- The text from one offset to another. -/
def slice? (text : List Char) (start stop : Nat) : Option (List Char) :=
  if start ≤ stop then (drop? start text).bind (take? (stop - start)) else none

/-- The offset of the first character of class `p`. -/
def find? (p : Char → Bool) : List Char → Option Nat
  | [] => none
  | c :: cs => if p c then some 0 else (find? p cs).map (c.utf8Size + ·)

/-- The offset of the first occurrence of `word`, which is not empty. -/
def findText? (word : List Char) : List Char → Option Nat
  | [] => none
  | c :: cs =>
    if (after? word (c :: cs)).isSome then some 0 else (findText? word cs).map (c.utf8Size + ·)

/-- The offsets of all `c` in a text that starts at `offset`. -/
def offsetsOf (c : Char) (offset : Nat) : List Char → List Nat
  | [] => []
  | d :: ds =>
    let later := offsetsOf c (offset + d.utf8Size) ds
    if d = c then offset :: later else later

/-- Goes on only if `i < j`: a loop from offset `i` to a later one `j`, a recursion from a text of
length `j` into a shorter one. -/
def jump? {α : Type} (i j : Nat) (next : i < j → Option α) : Option α :=
  if h : i < j then next h else none

theorem jump?_of_lt {α : Type} {i j : Nat} {next : i < j → Option α} (h : i < j) :
    jump? i j next = next h := dif_pos h

theorem bind_jump? {α β : Type} {i : Nat} {found : Option β} {place : β → Nat}
    {next : β → Option α} (h : ∀ b, found = some b → i < place b) :
    (found.bind fun b => jump? i (place b) fun _ => next b) = found.bind next := by
  cases found with
  | none => rfl
  | some b => exact jump?_of_lt (h b rfl)

theorem exists_of_jump? {α : Type} {i j : Nat} {next : i < j → Option α} {a : α}
    (h : jump? i j next = some a) : ∃ hlt, next hlt = some a := by
  unfold jump? at h
  split at h
  · next hlt => exact ⟨hlt, h⟩
  · exact absurd h (by simp)

/-- A part of a text, given by the offsets of its ends. -/
structure Range where
  start : Nat
  stop : Nat
  deriving Repr, DecidableEq

end StyleAudit.Bytes
