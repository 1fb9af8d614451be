/-!
# Text as a list of characters

Every scanner of the library walks a list of characters and reports places as byte offsets of
the UTF-8 form of the text. This module holds the byte length, literal matching at the head of a
text, and trimming by a character class.
-/

namespace StyleAudit.Text

/-- Number of bytes of the UTF-8 form of `cs`. -/
def byteLen : List Char → Nat
  | [] => 0
  | c :: cs => c.utf8Size + byteLen cs

@[simp] theorem byteLen_nil : byteLen [] = 0 := rfl

@[simp] theorem byteLen_cons (c : Char) (cs : List Char) :
    byteLen (c :: cs) = c.utf8Size + byteLen cs := rfl

@[simp] theorem byteLen_append (xs ys : List Char) :
    byteLen (xs ++ ys) = byteLen xs + byteLen ys := by
  induction xs with
  | nil => simp
  | cons c xs ih => simp [ih, Nat.add_assoc]

@[simp] theorem byteLen_reverse (cs : List Char) : byteLen cs.reverse = byteLen cs := by
  induction cs with
  | nil => rfl
  | cons c cs ih => simp [ih, Nat.add_comm]

/-- What follows `word` in `cs`, when `cs` starts with it. -/
def after? : (word cs : List Char) → Option (List Char)
  | [], cs => some cs
  | _ :: _, [] => none
  | w :: ws, c :: cs => if w = c then after? ws cs else none

theorem eq_append_of_after? {word cs rest : List Char} (h : after? word cs = some rest) :
    cs = word ++ rest := by
  induction word generalizing cs with
  | nil => simpa [after?] using h
  | cons w ws ih =>
    cases cs with
    | nil => simp [after?] at h
    | cons c cs =>
      by_cases hc : w = c
      · simp only [after?, hc, if_true] at h
        simp [ih h, hc]
      · simp [after?, hc] at h

theorem after?_append (word rest : List Char) : after? word (word ++ rest) = some rest := by
  induction word with
  | nil => rfl
  | cons w ws ih => simp [after?, ih]

/-- The text before the first occurrence of `word`, and the text from there on. Without an
occurrence the second part is empty. -/
def breakOn (word : List Char) : List Char → List Char × List Char
  | [] => ([], [])
  | c :: cs =>
    if (after? word (c :: cs)).isSome then ([], c :: cs)
    else ((c :: (breakOn word cs).1), (breakOn word cs).2)

theorem breakOn_append (word cs : List Char) :
    (breakOn word cs).1 ++ (breakOn word cs).2 = cs := by
  induction cs with
  | nil => rfl
  | cons c cs ih =>
    simp only [breakOn]
    split
    · rfl
    · simpa using ih

/-- Whether `word` occurs somewhere in `cs`. -/
def contains (word cs : List Char) : Bool :=
  word.isEmpty || !(breakOn word cs).2.isEmpty

/-- What follows the first `n` bytes of `cs`. -/
def dropBytes : Nat → List Char → List Char
  | 0, cs => cs
  | _ + 1, [] => []
  | n + 1, c :: cs => dropBytes (n + 1 - c.utf8Size) cs

/-- `cs` without the leading characters of class `p`. -/
def trimLeft (p : Char → Bool) (cs : List Char) : List Char :=
  cs.dropWhile p

/-- `cs` without the trailing characters of class `p`. -/
def trimRight (p : Char → Bool) (cs : List Char) : List Char :=
  (cs.reverse.dropWhile p).reverse

/-- `cs` without the characters of class `p` at either end. -/
def trim (p : Char → Bool) (cs : List Char) : List Char :=
  trimRight p (trimLeft p cs)

/-- The parts of `cs` between the characters that satisfy `p`. -/
def splitBy (p : Char → Bool) : List Char → List (List Char)
  | [] => [[]]
  | c :: cs =>
    if p c then [] :: splitBy p cs
    else match splitBy p cs with
      | part :: more => (c :: part) :: more
      | [] => [[c]]

/-- The non-empty maximal runs of characters outside class `p`, in order. -/
def runs (p : Char → Bool) (cs : List Char) : List (List Char) :=
  (cs.splitBy fun a b => p a == p b).filter fun run => run.head?.any fun c => !p c

/-- The first `limit` characters of `cs`, and whether any were left out. -/
def truncate (limit : Nat) (cs : List Char) : List Char × Bool :=
  (cs.take limit, !(cs.drop limit).isEmpty)

end StyleAudit.Text
