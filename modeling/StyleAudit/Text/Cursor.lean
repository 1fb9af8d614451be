import StyleAudit.Text.Slice
import StyleAudit.Text.Word

/-!
# Places in a text

A cursor splits a text at a place, so that a recogniser can look in both directions. `findAll`
collects what a recogniser finds, leftmost first and without overlap.
-/

namespace StyleAudit

/-- A place in a text: its byte offset, what stands before it (nearest character first), and what
follows. -/
structure Cursor where
  offset : Nat
  before : List Char
  rest : List Char
  deriving Repr, DecidableEq

namespace Cursor

open Text

/-- The place before the first character of a slice. -/
def start (s : Slice) : Cursor := ⟨s.offset, [], s.text⟩

def toSlice (cur : Cursor) : Slice := ⟨cur.offset, cur.rest⟩

/-- The place `n` characters later, at most at the end of the text. -/
def advance (n : Nat) (cur : Cursor) : Cursor :=
  ⟨cur.offset + byteLen (cur.rest.take n), (cur.rest.take n).reverse ++ cur.before,
    cur.rest.drop n⟩

/-- Number of characters between the place and a later one from which `rest` follows. -/
def distance (cur : Cursor) (rest : List Char) : Nat :=
  cur.rest.length - rest.length

/-- The later place from which `rest`, an ending of the text, follows. -/
def seek (cur : Cursor) (rest : List Char) : Cursor :=
  cur.advance (cur.distance rest)

/-- No word character stands directly before the place, so a word that follows starts here. -/
def atWordStart (cur : Cursor) : Bool := !cur.before.head?.any isWord

/-- `cur.IsIn s`: the place is one of the slice `s`. -/
def IsIn (cur : Cursor) (s : Slice) : Prop :=
  cur.before.reverse ++ cur.rest = s.text ∧ cur.offset = s.offset + byteLen cur.before

theorem IsIn.advance {cur : Cursor} {s : Slice} (h : cur.IsIn s) (n : Nat) :
    (cur.advance n).IsIn s := by
  obtain ⟨ht, ho⟩ := h
  refine ⟨?_, ?_⟩
  · rw [← ht]
    simp [Cursor.advance]
  · simp only [Cursor.advance, ho, byteLen_append, byteLen_reverse]
    omega

theorem IsIn.length_rest_le {cur : Cursor} {s : Slice} (h : cur.IsIn s) :
    cur.rest.length ≤ s.text.length := by
  rw [← h.1]
  simp

end Cursor

/-- A recogniser looks at a place and may find something there; it also says how many characters
it took. -/
abbrev Recogniser (α : Type) := Cursor → Option (α × Nat)

namespace Recogniser

open Text

/-- Tries `r` at each place of the text that follows `before`, after passing over `skip`
characters. A find takes at least one character. -/
def findFrom {α : Type} (r : Recogniser α) (offset : Nat) (before : List Char) :
    Nat → List Char → List α
  | _, [] => []
  | skip + 1, c :: cs => findFrom r (offset + c.utf8Size) (c :: before) skip cs
  | 0, c :: cs =>
    match r ⟨offset, before, c :: cs⟩ with
    | some (a, taken) => a :: findFrom r (offset + c.utf8Size) (c :: before) (taken - 1) cs
    | none => findFrom r (offset + c.utf8Size) (c :: before) 0 cs

/-- All finds of `r` in a slice, leftmost first; a find starts where the one before it ended or
later. -/
def findAll {α : Type} (r : Recogniser α) (s : Slice) : List α :=
  findFrom r s.offset [] 0 s.text

theorem mem_findFrom {α : Type} {r : Recogniser α} {offset : Nat} {before cs : List Char}
    {skip : Nat} {a : α} (h : a ∈ findFrom r offset before skip cs) :
    ∃ pre suf taken, r ⟨offset + byteLen pre, pre.reverse ++ before, suf⟩ = some (a, taken) ∧
      cs = pre ++ suf ∧ suf ≠ [] := by
  induction cs generalizing offset before skip with
  | nil => cases skip <;> simp [findFrom] at h
  | cons c cs ih =>
    have step : ∀ {k : Nat}, a ∈ findFrom r (offset + c.utf8Size) (c :: before) k cs →
        ∃ pre suf taken, r ⟨offset + byteLen pre, pre.reverse ++ before, suf⟩ = some (a, taken) ∧
          c :: cs = pre ++ suf ∧ suf ≠ [] := by
      intro k hk
      obtain ⟨pre, suf, taken, hr, hcs, hne⟩ := ih hk
      refine ⟨c :: pre, suf, taken, ?_, by simp [hcs], hne⟩
      simpa [Nat.add_assoc] using hr
    cases skip with
    | succ k => exact step (by simpa [findFrom] using h)
    | zero =>
      simp only [findFrom] at h
      split at h
      · next b taken hb =>
        rcases List.mem_cons.1 h with rfl | h
        · exact ⟨[], c :: cs, taken, by simpa using hb, rfl, by simp⟩
        · exact step h
      · exact step h

/-- Each find comes from a place of the slice, not at its end, where the recogniser succeeded. -/
theorem mem_findAll {α : Type} {r : Recogniser α} {s : Slice} {a : α} (h : a ∈ findAll r s) :
    ∃ cur taken, r cur = some (a, taken) ∧ cur.IsIn s ∧ cur.rest ≠ [] := by
  obtain ⟨pre, suf, taken, hr, hcs, hne⟩ := mem_findFrom h
  exact ⟨_, taken, hr, ⟨by simp [hcs], by simp⟩, hne⟩

end Recogniser

end StyleAudit
