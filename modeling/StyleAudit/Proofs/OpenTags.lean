import Mathlib.Data.List.Forall2
import StyleAudit.Markup.Stylesheets
import StyleAudit.Proofs.Scans
import StyleAudit.Proofs.Slices

/-!
# Tags in a page

Tags are looked for by a word, `<` and a name, that may be spelled in any mix of cases. Since the
`<` is the first character of such a word and no other, the word never reaches across the start of a
tag: text without the word is passed over, whatever tag comes next.

* **`Text.Spells`** relates a word to its spellings, and **`Text.Occurs`** says that a text holds
  one.
* **`Text.afterFolded?_of_not_occurs`** is the fact about the `<`.
* **`Recogniser.scan_append_of_none`** passes over text in which nothing is found.
* **`Markup.openTag?_append`** reads an open tag.
* **`Markup.scan_append_of_not_occurs`**: a scan for a tag passes over text that does not open one,
  so it finds the first one (**`Markup.scan_append_of_some`**).
-/

namespace StyleAudit

namespace Text

/-! ### Words in any case -/

/-- `Spells word cs`: the text is the word, given in lower case, in some mix of cases. -/
def Spells (word cs : List Char) : Prop := List.Forall₂ (fun w c => foldsTo w c = true) word cs

instance (word cs : List Char) : Decidable (Spells word cs) :=
  inferInstanceAs (Decidable (List.Forall₂ _ word cs))

/-- `Occurs word cs`: the word stands somewhere in the text, in some mix of cases. -/
def Occurs (word cs : List Char) : Prop := ∃ piece, piece <:+: cs ∧ Spells word piece

variable {word cs rest : List Char}

/-- `afterFolded?` takes off one spelling of the word, in any case. -/
theorem afterFolded?_eq_some_iff :
    afterFolded? word cs = some rest ↔ ∃ piece, Spells word piece ∧ cs = piece ++ rest := by
  induction word generalizing cs with
  | nil =>
    rw [afterFolded?, Option.some.injEq]
    constructor
    · intro h
      exact ⟨[], .nil, h⟩
    · rintro ⟨piece, hpiece, rfl⟩
      rw [List.forall₂_nil_left_iff.mp hpiece, List.nil_append]
  -- the spelling loses a character when the word does
  | cons w word ih =>
    cases cs with
    | nil =>
      refine ⟨fun h => absurd h (by simp [afterFolded?]), ?_⟩
      rintro ⟨piece, hpiece, hnil⟩
      rw [(List.append_eq_nil_iff.mp hnil.symm).1] at hpiece
      exact absurd hpiece (by rintro ⟨⟩)
    | cons c cs =>
      rw [afterFolded?]
      constructor
      · intro h
        split at h
        · next hc =>
          obtain ⟨piece, hpiece, rfl⟩ := ih.mp h
          exact ⟨c :: piece, .cons hc hpiece, rfl⟩
        · exact absurd h (by simp)
      · rintro ⟨piece, hpiece, hcs⟩
        obtain ⟨d, more, hd, hmore, rfl⟩ := List.forall₂_cons_left_iff.mp hpiece
        obtain ⟨rfl, rfl⟩ := List.cons.inj hcs
        rw [if_pos hd]
        exact ih.mpr ⟨more, hmore, rfl⟩

/-- Every spelling of the word is taken off. -/
theorem afterFolded?_append {piece : List Char} (h : Spells word piece) (rest : List Char) :
    afterFolded? word (piece ++ rest) = some rest :=
  afterFolded?_eq_some_iff.mpr ⟨piece, h, rfl⟩

theorem Occurs.of_suffix {tail : List Char} (h : Occurs word tail) (hsuffix : tail <:+ cs) :
    Occurs word cs := by
  obtain ⟨piece, hinfix, hspells⟩ := h
  exact ⟨piece, hinfix.trans hsuffix.isInfix, hspells⟩

/-- Whether the word stands somewhere in the text. -/
def occurs (word : List Char) : List Char → Bool
  | [] => (afterFolded? word []).isSome
  | c :: cs => (afterFolded? word (c :: cs)).isSome || occurs word cs

/-- The search for a word, ignoring case, finds it where it stands. -/
theorem occurs_iff : occurs word cs = true ↔ Occurs word cs := by
  have hhere : ∀ cs, (afterFolded? word cs).isSome = true ↔
      ∃ piece, piece <+: cs ∧ Spells word piece := by
    intro cs
    rw [Option.isSome_iff_exists]
    constructor
    · rintro ⟨rest, hrest⟩
      obtain ⟨piece, hpiece, rfl⟩ := afterFolded?_eq_some_iff.mp hrest
      exact ⟨piece, List.prefix_append _ _, hpiece⟩
    · rintro ⟨piece, ⟨rest, rfl⟩, hpiece⟩
      exact ⟨rest, afterFolded?_append hpiece rest⟩
  induction cs with
  | nil =>
    rw [occurs, hhere]
    simp only [Occurs, List.prefix_nil, List.infix_nil]
  | cons c cs ih =>
    rw [occurs, Bool.or_eq_true]
    refine (or_congr (hhere _) ih).trans ?_
    simp only [Occurs, List.infix_cons_iff, or_and_right, exists_or]

instance (word cs : List Char) : Decidable (Occurs word cs) := decidable_of_iff _ occurs_iff

/-! ### Words that start with `<` -/

/-- Only `<` itself folds to `<`. -/
theorem eq_of_foldsTo_angle {c : Char} (h : foldsTo '<' c = true) : c = '<' := by
  simp only [foldsTo, Bool.or_eq_true, Bool.and_eq_true, beq_iff_eq] at h
  rcases h with (h | h) | h
  · exact eq_of_toLower_eq (by decide) h.symm
  · exact absurd h.1 (by decide)
  · exact absurd h.1 (by decide)

/-- Every spelling of such a word starts with `<`. -/
theorem Spells.exists_angle {name piece : List Char} (h : Spells ('<' :: name) piece) :
    ∃ more, Spells name more ∧ piece = '<' :: more := by
  obtain ⟨c, more, hc, hmore, rfl⟩ := List.forall₂_cons_left_iff.mp h
  rw [eq_of_foldsTo_angle hc]
  exact ⟨more, hmore, rfl⟩

/-- A spelling of a tag begins with `<`. -/
theorem Spells.head?_append {name piece : List Char} (h : Spells ('<' :: name) piece)
    (rest : List Char) : (piece ++ rest).head? = some '<' := by
  obtain ⟨more, _, rfl⟩ := h.exists_angle
  rfl

/-- A word does not reach across a character that none of its own folds to. -/
theorem afterFolded?_append_mark {mark : Char} (hmark : word.any (foldsTo · mark) = false)
    (xs ys : List Char) :
    afterFolded? word (xs ++ mark :: ys) = (afterFolded? word xs).map (· ++ mark :: ys) := by
  induction word generalizing xs with
  | nil => rfl
  | cons w word ih =>
    rw [List.any_cons, Bool.or_eq_false_iff] at hmark
    obtain ⟨hw, hword⟩ := hmark
    cases xs with
    | nil =>
      show (if foldsTo w mark then _ else none) = none
      rw [hw]
      rfl
    | cons x xs =>
      rw [List.cons_append, afterFolded?, afterFolded?, ih hword]
      split <;> rfl

/-- In a text that holds no such word, none starts either when the text goes on with a `<`. -/
theorem afterFolded?_of_not_occurs {name front back rest : List Char} {c : Char}
    (hname : name.any (foldsTo · '<') = false) (h : ¬Occurs ('<' :: name) (front ++ c :: back))
    (hrest : ∀ d ∈ rest.head?, d = '<') :
    afterFolded? ('<' :: name) (c :: (back ++ rest)) = none := by
  have hback : afterFolded? ('<' :: name) (c :: back) = none := by
    refine Option.eq_none_iff_forall_ne_some.mpr fun tail htail => h ?_
    obtain ⟨piece, hpiece, hcs⟩ := afterFolded?_eq_some_iff.mp htail
    rw [hcs]
    exact ⟨piece, ⟨front, tail, List.append_assoc ..⟩, hpiece⟩
  cases rest with
  | nil => rwa [List.append_nil]
  | cons d rest =>
    obtain rfl : d = '<' := hrest d rfl
    -- only the first character of the word can be this `<`, and it stands before it
    rw [afterFolded?] at hback ⊢
    rw [afterFolded?_append_mark hname]
    split
    · next hc =>
      rw [if_pos hc] at hback
      rw [hback]
      rfl
    · rfl

/-! ### Blanks -/

/-- The code points of the blank characters. -/
def blankCodes : List Nat :=
  [9, 10, 11, 12, 13, 32, 133, 160, 5760, 8192, 8193, 8194, 8195, 8196, 8197, 8198,
   8199, 8200, 8201, 8202, 8232, 8233, 8239, 8287, 12288]

theorem mem_blankCodes {c : Char} (h : isBlank c = true) : c.toNat ∈ blankCodes := by
  simp only [isBlank, Bool.or_eq_true, Bool.and_eq_true, decide_eq_true_eq, beq_iff_eq] at h
  simp only [blankCodes, List.mem_cons, List.not_mem_nil, or_false]
  omega

/-- What holds of the code points holds of the blanks. -/
theorem of_isBlank {P : Char → Prop} (hP : ∀ n ∈ blankCodes, P (Char.ofNat n)) {c : Char}
    (h : isBlank c = true) : P c := by
  have hc := hP c.toNat (mem_blankCodes h)
  rwa [Char.ofNat_toNat] at hc

theorem isWord_of_isBlank {c : Char} (h : isBlank c = true) : isWord c = false :=
  of_isBlank (P := fun c => isWord c = false) (by decide +kernel) h

/-! ### Runs of a class -/

/-- Characters of a class are taken up to the first one that is not of the class. -/
theorem takeWhile_dropWhile_append {p : Char → Bool} {xs ys : List Char}
    (hxs : ∀ c ∈ xs, p c = true)
    (hys : ∀ c ∈ ys.head?, p c = false) :
    (xs ++ ys).takeWhile p = xs ∧ (xs ++ ys).dropWhile p = ys := by
  rw [List.takeWhile_append_of_pos hxs, List.dropWhile_append_of_pos hxs]
  cases ys with
  | nil => exact ⟨List.append_nil xs, rfl⟩
  | cons c ys => simp [hys c rfl]

end Text

open Text

/-! ### Text without finds -/

/-- Text in which nothing is found is passed over. -/
theorem Recogniser.scan_append_of_none {α : Type} {r : Recogniser α} {offset : Nat}
    {before pre rest : List Char}
    (h : ∀ front c back, pre = front ++ c :: back →
      r ⟨offset + byteLen front, front.reverse ++ before, c :: (back ++ rest)⟩ = none) :
    r.scan ⟨offset, before, pre ++ rest⟩ =
      r.scan ⟨offset + byteLen pre, pre.reverse ++ before, rest⟩ := by
  induction pre generalizing offset before with
  | nil => rfl
  | cons c pre ih =>
    have hfirst : r ⟨offset, before, c :: (pre ++ rest)⟩ = none := h [] c pre rfl
    -- the hypothesis for the rest of `pre`, seen from one character further on
    have hrest : ∀ front d back, pre = front ++ d :: back →
        r ⟨offset + c.utf8Size + byteLen front, front.reverse ++ c :: before,
          d :: (back ++ rest)⟩ = none := by
      intro front d back hpre
      have hlater := h (c :: front) d back (congrArg (c :: ·) hpre)
      rw [byteLen_cons, ← Nat.add_assoc, List.reverse_cons, List.append_assoc] at hlater
      exact hlater
    have hadvance : Cursor.advance 1 ⟨offset, before, c :: (pre ++ rest)⟩ =
        ⟨offset + c.utf8Size, c :: before, pre ++ rest⟩ := by
      simp [Cursor.advance]
    rw [List.cons_append, scan_of_none (by simp) hfirst, hadvance, ih hrest, byteLen_cons,
      Nat.add_assoc, List.reverse_cons, List.append_assoc]
    rfl

namespace Markup

/-! ### Open tags -/

def tagWord (name : String) : List Char := '<' :: name.toList

/-- Without the tag's word there is no tag. -/
theorem openTag?_of_afterFolded? {name : String} {cs : List Char}
    (h : afterFolded? (tagWord name) cs = none) : openTag? name cs = none := by
  show (afterFolded? (tagWord name) cs).bind _ = none
  rw [h]
  rfl

/-- A tag is read up to its `>`. No attribute holds one, and the first of them does not go on with
the name of the tag. -/
theorem openTag?_append {name : String} {opening attributes : List Char}
    (hopening : Spells (tagWord name) opening) (hend : '>' ∉ attributes)
    (hblank : ∀ c ∈ attributes.head?, isBlank c = true) (rest : List Char) :
    openTag? name (opening ++ (attributes ++ '>' :: rest)) = some (attributes ++ ['>'], rest) := by
  have hword : ((attributes ++ '>' :: rest).head?.any isWord) = false := by
    cases attributes with
    | nil => rfl
    | cons c attributes => exact isWord_of_isBlank (hblank c rfl)
  have hinside : ∀ c ∈ attributes, (c != '>') = true :=
    fun c hc => bne_iff_ne.mpr (ne_of_mem_of_not_mem hc hend)
  have hstop : ∀ c ∈ ('>' :: rest).head?, (c != '>') = false := by simp
  obtain ⟨htake, hdrop⟩ := takeWhile_dropWhile_append hinside hstop
  show (afterFolded? (tagWord name) _).bind _ = _
  rw [afterFolded?_append hopening, Option.bind_some, hword,
    if_neg Bool.false_ne_true, htake, hdrop]

section Scan

variable {α : Type} {r : Recogniser α} {name : String} {front rest : List Char}

/-- A scan for a tag passes over text that does not open one. -/
theorem scan_append_of_not_occurs (hname : name.toList.any (foldsTo · '<') = false)
    (hr : ∀ cur, openTag? name cur.rest = none → r cur = none)
    (h : ¬Occurs (tagWord name) front) (hrest : ∀ d ∈ rest.head?, d = '<') (offset : Nat)
    (before : List Char) :
    r.scan ⟨offset, before, front ++ rest⟩ =
      r.scan ⟨offset + byteLen front, front.reverse ++ before, rest⟩ := by
  refine Recogniser.scan_append_of_none fun first c back hsplit => hr _ ?_
  rw [hsplit] at h
  exact openTag?_of_afterFolded? (afterFolded?_of_not_occurs hname h hrest)

/-- A scan for a tag finds the first one. -/
theorem scan_append_of_some {piece : List Char}
    (hname : name.toList.any (foldsTo · '<') = false)
    (hr : ∀ cur, openTag? name cur.rest = none → r cur = none)
    (h : ¬Occurs (tagWord name) front) (hpiece : piece.head? = some '<') {offset : Nat}
    {before : List Char} {a : α}
    (hread : r ⟨offset + byteLen front, front.reverse ++ before, piece ++ rest⟩ =
      some (a, piece.length)) :
    r.scan ⟨offset, before, front ++ (piece ++ rest)⟩ =
      a :: r.scan ⟨offset + byteLen (front ++ piece),
        (front ++ piece).reverse ++ before, rest⟩ := by
  have hne : piece ≠ [] := by
    rintro rfl
    exact absurd hpiece (by decide)
  have hangle : ∀ d ∈ (piece ++ rest).head?, d = '<' := by
    rw [List.head?_append_of_ne_nil _ hne, hpiece]
    exact fun d hd => (Option.some.inj hd).symm
  -- first over the text without the tag, then over the tag itself
  rw [scan_append_of_not_occurs hname hr h hangle,
    Recogniser.scan_of_some (by simp [hne]) (List.length_pos_iff.mpr hne) hread,
    Cursor.advance_append, byteLen_append, List.reverse_append, List.append_assoc, Nat.add_assoc]

/-- A text in which the tag's word does not occur has nothing to find. -/
theorem scan_of_not_occurs (hname : name.toList.any (foldsTo · '<') = false)
    (hr : ∀ cur, openTag? name cur.rest = none → r cur = none)
    (h : ¬Occurs (tagWord name) front) (offset : Nat) (before : List Char) :
    r.scan ⟨offset, before, front⟩ = [] := by
  have hscan : r.scan ⟨offset, before, front ++ []⟩ = r.scan ⟨_, _, []⟩ :=
    scan_append_of_not_occurs hname hr h (by simp) offset before
  rw [List.append_nil] at hscan
  rw [hscan]
  exact Recogniser.scan_of_rest_nil rfl

end Scan

end Markup

end StyleAudit
