/-!
# Matching without regard to case

Simple Unicode case folding, restricted to what a lower-case ASCII word can match: beside the two
cases of a letter, U+017F folds to `s` and U+212A folds to `k`.
-/

namespace StyleAudit.Text

/-- Whether `c` folds to the lower-case ASCII character `w`. -/
def foldsTo (w c : Char) : Bool :=
  w == c.toLower || (w == 's' && c == 'ſ') || (w == 'k' && c == 'K')

/-- What follows a spelling of `word` in `cs`, when `cs` starts with one. -/
def afterFolded? : (word cs : List Char) → Option (List Char)
  | [], cs => some cs
  | _ :: _, [] => none
  | w :: ws, c :: cs => if foldsTo w c then afterFolded? ws cs else none

/-- Whether `c` folds to an ASCII letter. -/
def foldsToLetter (c : Char) : Bool :=
  c.isAlpha || c == 'ſ' || c == 'K'

/-- `cs` with its ASCII capitals lowered. -/
def toAsciiLower (cs : List Char) : List Char :=
  cs.map Char.toLower

/-- Equality up to the case of ASCII letters. -/
def eqIgnoreAsciiCase (xs ys : List Char) : Bool :=
  toAsciiLower xs == toAsciiLower ys

/-! ### Lowering -/

theorem toLower_cases (c : Char) :
    c.toLower = c ∨ 97 ≤ c.toLower.toNat ∧ c.toLower.toNat ≤ 122 := by
  unfold Char.toLower
  split
  · next h =>
    right
    have hlow : 65 ≤ c.val.toNat := h.1
    have hhigh : c.val.toNat ≤ 90 := h.2
    show 97 ≤ (c.val + 32).toNat ∧ (c.val + 32).toNat ≤ 122
    rw [UInt32.toNat_add]
    show 97 ≤ (c.val.toNat + 32) % 4294967296 ∧ (c.val.toNat + 32) % 4294967296 ≤ 122
    omega
  · exact Or.inl rfl

theorem toLower_toLower (c : Char) : c.toLower.toLower = c.toLower := by
  rcases toLower_cases c with h | h
  · rw [h, h]
  · have hsmall : ¬ (65 ≤ c.toLower.toNat ∧ c.toLower.toNat ≤ 90) := by omega
    unfold Char.toLower
    exact dif_neg hsmall

@[simp] theorem toAsciiLower_toAsciiLower (cs : List Char) :
    toAsciiLower (toAsciiLower cs) = toAsciiLower cs := by
  rw [toAsciiLower, toAsciiLower, List.map_map]
  exact List.map_congr_left fun c _ => toLower_toLower c

/-- A character that is no small letter is not what a capital is lowered to. -/
theorem eq_of_toLower_eq {c w : Char} (hw : ¬ (97 ≤ w.toNat ∧ w.toNat ≤ 122))
    (h : c.toLower = w) : c = w := by
  rcases toLower_cases c with hc | hc
  · exact hc.symm.trans h
  · rw [h] at hc
    exact absurd hc hw

theorem mem_of_mem_toAsciiLower {w : Char} {cs : List Char}
    (hw : ¬ (97 ≤ w.toNat ∧ w.toNat ≤ 122)) (h : w ∈ toAsciiLower cs) : w ∈ cs := by
  obtain ⟨c, hc, hlower⟩ := List.mem_map.mp h
  exact eq_of_toLower_eq hw hlower ▸ hc

end StyleAudit.Text
