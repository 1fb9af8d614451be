import Mathlib.Tactic.SplitIfs
import StyleAudit.Proofs.FlatNames
import StyleAudit.Proofs.MaskStates
import StyleAudit.Stylesheet.Tree

/-!
# Nested rules

The declarations of the printed text of a stylesheet tree are the class and id names in its
selectors, at every depth and in order. The scanner has no stack: it only knows where the last brace
or semicolon was. The proof therefore lays a tree out flat, as a list of cells (`Tree.itemsTape`),
and shows that these are what the scanner cuts the text into.

* **`Mask.paintFrom_of_calm`**: printed text is all code.
* **`Tree.labels_segment_cell`**: what the scanner finds in one cell, whatever the cell is.
* **`Tree.labels_segmentsFrom_tape`**: hence what it finds in a tape.
* **`Tree.selectors_itemsText`** is the law for trees.
-/

namespace StyleAudit

open Text

/-! ### Text that is all code -/

namespace Mask

/-- Text without escapes, comments, strings and interpolations. -/
def Calm : List Char → Prop
  | [] => True
  | c :: cs => (c ≠ '\\' ∧ c ≠ '/' ∧ isQuote c = false) ∧
      ¬(isInterpolationMark c = true ∧ cs.head? = some '{') ∧ Calm cs

/-- Calm text is painted as code throughout. -/
theorem paintFrom_of_calm {cs : List Char} (h : Calm cs) (parens : Nat) :
    paintFrom ⟨.code, parens⟩ cs = cs.map fun c => (c, .keep) := by
  induction cs generalizing parens with
  | nil => rfl
  | cons c cs ih =>
    obtain ⟨⟨hbackslash, hslash, hquote⟩, hmark, hcs⟩ := h
    have hstep : ∃ n, step ⟨.code, parens⟩ c cs.head? = (⟨.code, n⟩, .keep) := by
      change ∃ n, stepCode parens c cs.head? = _
      unfold stepCode
      rw [if_neg hbackslash, if_neg fun h => hslash h.1, if_neg fun h => hslash h.1, hquote,
        if_neg Bool.false_ne_true, if_neg hmark]
      split_ifs
      · exact ⟨_, rfl⟩
      · exact ⟨_, rfl⟩
      · exact ⟨_, rfl⟩
    obtain ⟨n, hstep⟩ := hstep
    rw [paintFrom, hstep, ih hcs, List.map_cons]

theorem mask_of_calm {cs : List Char} (h : Calm cs) : mask cs = cs := by
  rw [mask, paint, State.start, paintFrom_of_calm h, render, List.flatMap_map]
  exact List.flatMap_singleton' cs

end Mask

namespace Tree

/-! ### Characters of printed text -/

/-- A fact about the characters of a fixed text, by evaluation. -/
theorem forall_mem_of_all {cs : List Char} {p : Char → Prop} [DecidablePred p]
    (h : (cs.all fun c => decide (p c)) = true) : ∀ c ∈ cs, p c :=
  fun c hc => of_decide_eq_true (List.all_eq_true.mp h c hc)

theorem not_contains_of_forall {xs : List Char} {p : Char → Bool} (h : ∀ d ∈ xs, p d = false)
    {c : Char} (hc : p c = true) : (!xs.contains c) = true := by
  rw [Bool.not_eq_true', Bool.eq_false_iff, ne_eq, List.contains_iff_mem]
  intro hmem
  rw [h c hmem] at hc
  exact absurd hc (by decide)

theorem isPlain_of_isFlat {c : Char} (h : isFlat c = true) : isPlain c = true :=
  not_contains_of_forall (p := isFlat) (forall_mem_of_all rfl) h

theorem isFlat_of_isBare {c : Char} (h : isBare c = true) : isFlat c = true :=
  not_contains_of_forall (p := isBare) (forall_mem_of_all rfl) h

theorem ne_of_isPlain {c d : Char} (h : isPlain c = true) (hd : isPlain d = false) : c ≠ d := by
  rintro rfl
  rw [h] at hd
  exact absurd hd (by decide)

theorem ne_of_isBare {c d : Char} (h : isBare c = true) (hd : isBare d = false) : c ≠ d := by
  rintro rfl
  rw [h] at hd
  exact absurd hd (by decide)

theorem isBare_iff {c : Char} : isBare c = true ↔
    isNameBoundary c = false ∧ isBlank c = false ∧ c ≠ '\\' ∧ c ≠ Mask.dynamic := by
  simp [isBare, and_assoc]

theorem isSelectorChar_of_isBare {c : Char} (h : isBare c = true) : isSelectorChar c = true := by
  obtain ⟨_, hblank, _⟩ := isBare_iff.mp h
  rw [isSelectorChar, isFlat_of_isBare h, hblank, Bool.not_false, Bool.or_true, Bool.and_true]

/-- The characters of a printed selector. -/
def Printed (cs : List Char) : Prop := ∀ c ∈ cs, isSelectorChar c = true

instance (cs : List Char) : Decidable (Printed cs) :=
  List.decidableBAll _ cs

theorem Printed.append {xs ys : List Char} (hxs : Printed xs) (hys : Printed ys) :
    Printed (xs ++ ys) := by
  intro c hc
  rcases List.mem_append.mp hc with hc | hc
  · exact hxs c hc
  · exact hys c hc

theorem Printed.isFlat {cs : List Char} (h : Printed cs) : ∀ c ∈ cs, StyleAudit.isFlat c = true :=
  fun c hc => isFlat_of_isSelectorChar (h c hc)

theorem Name.isBare (name : Name) : ∀ c ∈ name.text, Tree.isBare c = true :=
  List.all_eq_true.mp name.bare

theorem Name.printed (name : Name) : Printed name.text :=
  fun c hc => isSelectorChar_of_isBare (name.isBare c hc)

theorem Combinator.printed (combinator : Combinator) : Printed combinator.text := by
  cases combinator <;> decide

mutual

/-- Selectors are printed in selector characters only; the four proofs follow the syntax. -/
theorem SelectorList.printed : (selectors : SelectorList) → Printed selectors.text
  | .one selector => selector.printed
  | .more selector rest => by
    have hcomma : Printed [',', ' '] := by decide
    exact (selector.printed.append hcomma).append rest.printed

theorem Complex.printed : (selector : Complex) → Printed selector.text
  | .one compound => compound.printed
  | .joined compound combinator rest =>
    (compound.printed.append combinator.printed).append rest.printed

theorem Compound.printed : (compound : Compound) → Printed compound.text
  | .element none => fun _ hc => absurd hc List.not_mem_nil
  | .element (some name) => name.printed
  | .part compound part => compound.printed.append part.printed

theorem Part.printed : (part : Part) → Printed part.text
  | .marked kind name => by
    have hmarker : Printed [kind.marker] := by cases kind <;> decide
    exact hmarker.append name.printed
  | .pseudo name => by
    have hcolon : Printed [':'] := by decide
    exact hcolon.append name.printed
  | .negation selectors => by
    have hopen : Printed [':', 'n', 'o', 't', '('] := by decide
    have hclose : Printed [')'] := by decide
    exact (hopen.append selectors.printed).append hclose

end

/-! ### Identifiers -/

theorem isBlank_of_isIdentifierPart {c : Char} (h : isIdentifierPart c = true) :
    isBlank c = false := by
  rw [Bool.eq_false_iff]
  intro hblank
  -- both are ranges of code points
  unfold isIdentifierPart Char.isAlphanum Char.isAlpha Char.isUpper Char.isLower Char.isDigit at h
  simp only [Bool.or_eq_true, Bool.and_eq_true, beq_iff_eq, decide_eq_true_eq, Char.ext_iff,
    UInt32.le_iff_toNat_le, ← UInt32.toNat_inj] at h
  simp only [isBlank, Char.toNat, Bool.or_eq_true, Bool.and_eq_true, decide_eq_true_eq,
    beq_iff_eq] at hblank
  simp at h hblank
  omega

/-- Identifiers are written without escapes. -/
theorem isBare_of_isIdentifierPart {c : Char} (h : isIdentifierPart c = true) :
    isBare c = true := by
  have hblank : isBlank c = false := isBlank_of_isIdentifierPart h
  have hascii : isAsciiBlank c = false := by
    rw [Bool.eq_false_iff]
    intro hascii
    rw [isBlank_of_isAsciiBlank hascii] at hblank
    exact absurd hblank (by decide)
  refine isBare_iff.mpr ⟨?_, hblank, ?_, ?_⟩
  · rw [isNameBoundary, hascii, Bool.false_or, ← Bool.not_eq_true']
    exact not_contains_of_forall (p := isIdentifierPart) (forall_mem_of_all rfl) h
  · rintro rfl
    exact absurd h (by decide)
  · rintro rfl
    exact absurd h (by decide)

/-- What may start an identifier may also go on with it, and is no digit. -/
theorem isIdentifierPart_of_start {c : Char} (h : isIdentifierStart c = true) :
    isIdentifierPart c = true ∧ c.isDigit = false := by
  rw [isIdentifierStart, Bool.or_eq_true, beq_iff_eq] at h
  rcases h with h | rfl
  · have hdigit : c.isDigit = false := by
      rw [Bool.eq_false_iff]
      intro hdigit
      unfold Char.isAlpha Char.isUpper Char.isLower at h
      unfold Char.isDigit at hdigit
      simp only [Bool.or_eq_true, Bool.and_eq_true, decide_eq_true_eq,
        UInt32.le_iff_toNat_le] at h hdigit
      simp at h hdigit
      omega
    exact ⟨by simp [isIdentifierPart, Char.isAlphanum, h], hdigit⟩
  · decide

/-- An identifier is not empty, starts with no digit and has only identifier characters. -/
theorem isIdentifier_spec {name : String} (h : isIdentifier name = true) :
    name.toList ≠ [] ∧ name.toList.head?.any Char.isDigit = false ∧
      ∀ c ∈ name.toList, isIdentifierPart c = true := by
  unfold isIdentifier at h
  generalize name.toList = cs at h
  have hbody : ∀ body : List Char, (match body with
      | [] => false
      | c :: cs => isIdentifierStart c && cs.all isIdentifierPart) = true →
      body ≠ [] ∧ body.head?.any Char.isDigit = false ∧ ∀ c ∈ body, isIdentifierPart c = true := by
    intro body h
    cases body with
    | nil => exact absurd h (by decide)
    | cons c cs =>
      obtain ⟨hstart, hcs⟩ := Bool.and_eq_true_iff.mp h
      obtain ⟨hpart, hdigit⟩ := isIdentifierPart_of_start hstart
      refine ⟨List.cons_ne_nil c cs, hdigit, fun d hd => ?_⟩
      rcases List.mem_cons.mp hd with rfl | hd
      · exact hpart
      · exact List.all_eq_true.mp hcs d hd
  split at h
  · next cs =>
    refine ⟨List.cons_ne_nil _ _, rfl, fun c hc => ?_⟩
    rcases List.mem_cons.mp hc with rfl | hc
    · decide
    · exact (hbody _ h).2.2 c hc
  · exact hbody cs h

def Name.ofIdentifier (name : String) (h : isIdentifier name = true) : Name where
  text := name.toList
  nonempty := (isIdentifier_spec h).1
  noDigit := (isIdentifier_spec h).2.1
  bare := List.all_eq_true.mpr fun c hc =>
    isBare_of_isIdentifierPart ((isIdentifier_spec h).2.2 c hc)

/-! ### Names of printed selectors -/

theorem endsName_cons {c : Char} (hc : isNameBoundary c = true) (cs : List Char) :
    EndsName (c :: cs) := by
  intro d hd
  rw [← Option.some.inj hd]
  exact hc

theorem ofMarker?_of_isBare {c : Char} (h : isBare c = true) : NameKind.ofMarker? c = none := by
  have hdot : c ≠ '.' := ne_of_isBare h (by decide)
  have hhash : c ≠ '#' := ne_of_isBare h (by decide)
  rw [NameKind.ofMarker?, if_neg hdot, if_neg hhash]

/-- Bare text holds no names: there is no marker in it. -/
theorem namesIn_of_isBare {cs : List Char} (h : ∀ c ∈ cs, isBare c = true) : namesIn cs = [] := by
  rw [← List.append_nil cs, namesIn_append_of_no_marker
    (fun c hc => ⟨isFlat_of_isBare (h c hc), ofMarker?_of_isBare (h c hc)⟩) (List.forall_mem_nil _)]
  rfl

/-- Bare text is taken as a name to its end. -/
theorem takeName_of_isBare {cs : List Char} (h : ∀ c ∈ cs, isBare c = true) :
    takeName cs = (cs, []) := by
  induction cs with
  | nil => rfl
  | cons c cs ih =>
    obtain ⟨hboundary, _, hbackslash, _⟩ := isBare_iff.mp (h c List.mem_cons_self)
    rw [takeName_cons hbackslash, hboundary, if_neg Bool.false_ne_true,
      ih fun d hd => h d (List.mem_cons_of_mem c hd)]

theorem unescape_of_isBare {cs : List Char} (h : ∀ c ∈ cs, isBare c = true) :
    unescape cs = cs := by
  induction cs with
  | nil => rfl
  | cons c cs ih =>
    obtain ⟨_, _, hbackslash, _⟩ := isBare_iff.mp (h c List.mem_cons_self)
    rw [unescape_cons hbackslash, ih fun d hd => h d (List.mem_cons_of_mem c hd)]

/-- A printed name is read as itself. -/
theorem labelOf_name (kind : NameKind) (name : Name) :
    labelOf kind name.text = [(kind, String.ofList name.text)] := by
  have hname : unescape name.text = name.text := unescape_of_isBare name.isBare
  have hnonempty : name.text.isEmpty = false := by
    rw [List.isEmpty_eq_false_iff]
    exact name.nonempty
  have hdynamic : name.text.contains Mask.dynamic = false := by
    rw [List.contains_eq_mem, decide_eq_false_iff_not]
    intro hmem
    exact (isBare_iff.mp (name.isBare _ hmem)).2.2.2 rfl
  simp only [labelOf, Token.ofRaw?]
  rw [hname, hnonempty, name.noDigit, hdynamic]
  rfl

/-- Every part of a compound selector ends the name before it. -/
theorem endsName_part (part : Part) : EndsName part.text := by
  cases part with
  | marked kind name => exact endsName_cons (by cases kind <;> decide) _
  | pseudo name => exact endsName_cons (by decide) _
  | negation selectors => exact endsName_cons (by decide) _

theorem endsName_combinator (combinator : Combinator) (cs : List Char) :
    EndsName (combinator.text ++ cs) := by
  cases combinator <;> exact endsName_cons (by decide) _

/-- The names of a negation are those of its argument. -/
theorem namesIn_negation {cs : List Char} (hcs : Printed cs) :
    namesIn ([':', 'n', 'o', 't', '('] ++ cs ++ [')']) = namesIn cs := by
  have hopening : ∀ c ∈ [':', 'n', 'o', 't', '('],
      isFlat c = true ∧ NameKind.ofMarker? c = none := forall_mem_of_all (by decide)
  have hclose : Printed [')'] := by decide
  have hend : namesIn [')'] = [] := rfl
  rw [List.append_assoc, namesIn_append_of_no_marker hopening (hcs.append hclose).isFlat,
    namesIn_append hcs.isFlat hclose.isFlat (endsName_cons (by decide) _), hend, List.append_nil]

mutual

/-- The names read from a printed selector list are the names of the list. -/
theorem SelectorList.namesIn_text :
    (selectors : SelectorList) → namesIn selectors.text = selectors.names
  | .one selector => selector.namesIn_text
  | .more selector rest => by
    have hcomma : Printed ([',', ' '] ++ rest.text) := Printed.append (by decide) rest.printed
    rw [SelectorList.text, SelectorList.names, List.append_assoc,
      namesIn_append selector.printed.isFlat hcomma.isFlat (endsName_cons (by decide) _),
      selector.namesIn_text, ← rest.namesIn_text]
    exact congrArg _ (namesIn_append_of_no_marker
      (forall_mem_of_all (by decide)) rest.printed.isFlat)

/-- The names read from a printed complex selector are its names. -/
theorem Complex.namesIn_text : (selector : Complex) → namesIn selector.text = selector.names
  | .one compound => compound.namesIn_text
  | .joined compound combinator rest => by
    rw [Complex.text, Complex.names, List.append_assoc,
      namesIn_append compound.printed.isFlat (combinator.printed.append rest.printed).isFlat
        (endsName_combinator combinator _),
      compound.namesIn_text, ← rest.namesIn_text]
    have hcombinator : ∀ c ∈ combinator.text, isFlat c = true ∧ NameKind.ofMarker? c = none := by
      cases combinator <;> exact forall_mem_of_all (by decide)
    exact congrArg _ (namesIn_append_of_no_marker hcombinator rest.printed.isFlat)

/-- The names read from a printed compound selector are its names. -/
theorem Compound.namesIn_text : (compound : Compound) → namesIn compound.text = compound.names
  | .element none => rfl
  | .element (some name) => namesIn_of_isBare name.isBare
  | .part compound part => by
    rw [Compound.text, Compound.names,
      namesIn_append compound.printed.isFlat part.printed.isFlat (endsName_part part),
      compound.namesIn_text, part.namesIn_text]

/-- The names read from a printed part are its names. -/
theorem Part.namesIn_text : (part : Part) → namesIn part.text = part.names
  | .marked kind name => by
    rw [Part.text, Part.names, namesIn_marker kind name.printed.isFlat,
      takeName_of_isBare name.isBare, labelOf_name]
    rfl
  | .pseudo name => by
    rw [Part.text, Part.names, namesIn_cons (by decide) name.printed.isFlat rfl]
    exact namesIn_of_isBare name.isBare
  | .negation selectors => by
    rw [Part.text, Part.names, namesIn_negation selectors.printed, selectors.namesIn_text]

end

/-! ### Trees laid out flat -/

/-- What stands between two neighbouring braces or semicolons of a printed stylesheet. -/
inductive Cell
  | opening (selectors : SelectorList)
  | atOpening (name : Name) (params : Phrase)
  | closing
  | atStatement (name : Name) (params : Phrase)
  | declaration (property : Name) (value : Phrase)

namespace Cell

def stretch : Cell → List Char
  | .opening selectors => selectors.text ++ [' ']
  | .atOpening name params => atText name params ++ [' ']
  | .closing => []
  | .atStatement name params => atText name params
  | .declaration property value => property.text ++ [':', ' '] ++ value.text

/-- The character that ends the stretch. -/
def closer : Cell → Char
  | .opening _ | .atOpening _ _ => '{'
  | .closing => '}'
  | .atStatement _ _ | .declaration _ _ => ';'

def names : Cell → List (NameKind × String)
  | .opening selectors => selectors.names
  | _ => []

end Cell

mutual

def Item.tape : Item → List Cell
  | .rule selectors body => .opening selectors :: itemsTape body ++ [.closing]
  | .atRule name params body => .atOpening name params :: itemsTape body ++ [.closing]
  | .atStatement name params => [.atStatement name params]
  | .declaration property value => [.declaration property value]

/-- The cells of a printed stylesheet, in order. -/
def itemsTape : List Item → List Cell
  | [] => []
  | item :: items => item.tape ++ itemsTape items

end

def tapeText : List Cell → List Char
  | [] => []
  | cell :: tape => cell.stretch ++ cell.closer :: tapeText tape

theorem tapeText_append (front tape : List Cell) :
    tapeText (front ++ tape) = tapeText front ++ tapeText tape := by
  induction front with
  | nil => rfl
  | cons cell front ih =>
    rw [List.cons_append, tapeText, tapeText, ih, List.append_assoc, List.cons_append]

/-- A body between its braces. -/
theorem tapeText_block (opening : Cell) (tape : List Cell) :
    tapeText (opening :: tape ++ [.closing]) =
      opening.stretch ++ opening.closer :: (tapeText tape ++ ['}']) := by
  rw [List.cons_append, tapeText, tapeText_append]
  rfl

mutual

/-- The tape of an item prints as the item. -/
theorem Item.tapeText_tape : (item : Item) → tapeText item.tape = item.text
  | .rule selectors body => by
    rw [Item.tape, tapeText_block, tapeText_itemsTape body, Item.text]
    simp [Cell.stretch, Cell.closer]
  | .atRule name params body => by
    rw [Item.tape, tapeText_block, tapeText_itemsTape body, Item.text]
    simp [Cell.stretch, Cell.closer]
  | .atStatement _ _ => rfl
  | .declaration _ _ => rfl

/-- The tape of items prints as the items, nested ones included. -/
theorem tapeText_itemsTape : (items : List Item) → tapeText (itemsTape items) = itemsText items
  | [] => rfl
  | item :: items => by
    rw [itemsTape, itemsText, tapeText_append, item.tapeText_tape, tapeText_itemsTape items]

end

mutual

/-- The tape of an item holds the names of the item. -/
theorem Item.names_tape : (item : Item) → item.tape.flatMap Cell.names = item.names
  | .rule selectors body => by
    simp [Item.tape, Item.names, names_itemsTape body, Cell.names]
  | .atRule name params body => by
    simp [Item.tape, Item.names, names_itemsTape body, Cell.names]
  | .atStatement _ _ => List.flatMap_singleton ..
  | .declaration _ _ => List.flatMap_singleton ..

/-- The tape of items holds their names, in the order of the text. -/
theorem names_itemsTape :
    (items : List Item) → (itemsTape items).flatMap Cell.names = itemsNames items
  | [] => rfl
  | item :: items => by
    rw [itemsTape, itemsNames, List.flatMap_append, item.names_tape, names_itemsTape items]

end

/-! ### What is found in a tape -/

/-- An at-rule is printed in plain characters. -/
theorem isPlain_atText (name : Name) (params : Phrase) :
    ∀ c ∈ atText name params, isPlain c = true := by
  intro c hc
  rcases List.mem_append.mp hc with hc | hc
  · rcases List.mem_cons.mp hc with rfl | hc
    · decide
    · exact isPlain_of_isFlat (name.printed.isFlat c hc)
  · rcases List.mem_cons.mp hc with rfl | hc
    · decide
    · exact List.all_eq_true.mp params.plain c hc

/-- What stands before a separator of the tape is plain, so its segment ends at that separator. -/
theorem Cell.isPlain_stretch (cell : Cell) : ∀ c ∈ cell.stretch, isPlain c = true := by
  have hspace : ∀ c ∈ [' '], isPlain c = true := forall_mem_of_all rfl
  have hcolon : ∀ c ∈ [':', ' '], isPlain c = true := forall_mem_of_all rfl
  intro c hc
  cases cell with
  | opening selectors =>
    rcases List.mem_append.mp hc with hc | hc
    · exact isPlain_of_isFlat (selectors.printed.isFlat c hc)
    · exact hspace c hc
  | atOpening name params =>
    rcases List.mem_append.mp hc with hc | hc
    · exact isPlain_atText name params c hc
    · exact hspace c hc
  | closing => exact absurd hc List.not_mem_nil
  | atStatement name params => exact isPlain_atText name params c hc
  | declaration property value =>
    rcases List.mem_append.mp hc with hc | hc
    · rcases List.mem_append.mp hc with hc | hc
      · exact isPlain_of_isFlat (property.printed.isFlat c hc)
      · exact hcolon c hc
    · exact List.all_eq_true.mp value.plain c hc

/-- The mark of an interpolation does not stand before a brace: there is a space before it. -/
theorem Cell.space_before_brace (cell : Cell) :
    cell.closer ≠ '{' ∨ ∃ front, cell.stretch = front ++ [' '] := by
  cases cell with
  | opening selectors => exact .inr ⟨_, rfl⟩
  | atOpening name params => exact .inr ⟨_, rfl⟩
  | closing => exact .inl (by decide)
  | atStatement name params => exact .inl (by decide : ';' ≠ '{')
  | declaration property value => exact .inl (by decide : ';' ≠ '{')

theorem isQuote_of_isPlain {c : Char} (h : isPlain c = true) : Mask.isQuote c = false := by
  rw [Bool.eq_false_iff]
  intro hquote
  simp only [Mask.isQuote, Bool.or_eq_true, beq_iff_eq] at hquote
  rcases hquote with (rfl | rfl) | rfl
  · exact absurd h (by decide)
  · exact absurd h (by decide)
  · exact absurd h (by decide)

/-- Plain text in front keeps a text calm, unless the text begins with a brace. -/
theorem calm_append {xs ys : List Char} (hxs : ∀ c ∈ xs, isPlain c = true) (hys : Mask.Calm ys)
    (hhead : ys.head? ≠ some '{') : Mask.Calm (xs ++ ys) := by
  induction xs with
  | nil => exact hys
  | cons c xs ih =>
    have hc := hxs c List.mem_cons_self
    have hxs' : ∀ d ∈ xs, isPlain d = true := fun d hd => hxs d (List.mem_cons_of_mem c hd)
    have hnext : (xs ++ ys).head? ≠ some '{' := by
      cases xs with
      | nil => exact hhead
      | cons d xs =>
        intro h
        exact ne_of_isPlain (hxs' d List.mem_cons_self) (by decide) (Option.some.inj h)
    refine ⟨⟨?_, ?_, isQuote_of_isPlain hc⟩, fun h => hnext h.2, ih hxs'⟩
    · exact ne_of_isPlain hc (by decide)
    · exact ne_of_isPlain hc (by decide)

/-- Braces and semicolons are no marks. -/
theorem calm_closer (cell : Cell) {cs : List Char} (h : Mask.Calm cs) :
    Mask.Calm (cell.closer :: cs) := by
  have hclosers : ∀ c ∈ ['{', '}', ';'], (c ≠ '\\' ∧ c ≠ '/' ∧ Mask.isQuote c = false) ∧
      Mask.isInterpolationMark c = false := forall_mem_of_all (by decide)
  obtain ⟨hc, hmark⟩ := hclosers cell.closer (by cases cell <;> simp [Cell.closer])
  refine ⟨hc, fun h => ?_, h⟩
  rw [hmark] at h
  exact absurd h.1 (by decide)

/-- A printed tree has nothing to mask. -/
theorem calm_tapeText (tape : List Cell) : Mask.Calm (tapeText tape) := by
  induction tape with
  | nil => trivial
  | cons cell tape ih =>
    have hrest : Mask.Calm (cell.closer :: tapeText tape) := calm_closer cell ih
    rw [tapeText]
    rcases cell.space_before_brace with hcloser | ⟨front, hfront⟩
    · refine calm_append cell.isPlain_stretch hrest fun h => hcloser ?_
      exact Option.some.inj h
    · -- a brace comes after a space, so no interpolation mark touches it
      have hspace : Mask.Calm (' ' :: cell.closer :: tapeText tape) :=
        ⟨by decide, fun h => absurd h.1 (by decide), hrest⟩
      have hplain := cell.isPlain_stretch
      rw [hfront] at hplain ⊢
      rw [List.append_assoc]
      refine calm_append (fun c hc => hplain c (List.mem_append_left _ hc)) hspace fun h => ?_
      exact absurd (Option.some.inj h) (by decide)

/-- The names that the scanner finds in a stretch. -/
def segmentLabels (segment : Stylesheet.Segment) : List (NameKind × String) :=
  (segment.prelude?.toList.flatMap Stylesheet.preludeTokens).map Token.label

/-- A segment that is no prelude declares nothing. -/
theorem segmentLabels_of_prelude?_none {segment : Stylesheet.Segment}
    (h : segment.prelude? = none) :
    segmentLabels segment = [] := by
  rw [segmentLabels, h]
  rfl

theorem segmentLabels_of_closer_ne {segment : Stylesheet.Segment} (h : segment.closer ≠ some '{') :
    segmentLabels segment = [] :=
  segmentLabels_of_prelude?_none (Stylesheet.Segment.prelude?_of_closer_ne h)

/-- The labels of a prelude are the names in its text. -/
theorem labels_preludeTokens {prelude : Slice} (h : Printed prelude.text) :
    (Stylesheet.preludeTokens prelude).map Token.label = namesIn prelude.text := by
  have hcalm : Mask.Calm (prelude.text ++ []) :=
    calm_append (fun c hc => isPlain_of_isFlat (h.isFlat c hc)) trivial (by decide)
  rw [List.append_nil] at hcalm
  rw [Stylesheet.preludeTokens, branches, Mask.paint, Mask.State.start,
    Mask.paintFrom_of_calm hcalm]
  exact labels_branchesFrom 0 prelude.offset [] prelude.text (List.forall_mem_nil _) h.isFlat

/-- A printed selector list before a brace is a prelude, unless it is blank and has no names. -/
theorem segmentLabels_of_printed (offset : Nat) {cs : List Char} (h : Printed cs) :
    segmentLabels ⟨⟨offset, cs⟩, some '{'⟩ = namesIn cs := by
  rw [← namesIn_trim ⟨offset, cs⟩ h]
  have hprinted : Printed ((⟨offset, cs⟩ : Slice).trim isBlank).text := by
    obtain ⟨before, after, htext, _⟩ := Slice.inside_trim isBlank ⟨offset, cs⟩
    intro c hc
    refine h c ?_
    change c ∈ (⟨offset, cs⟩ : Slice).text
    rw [htext]
    exact List.mem_append_left after (List.mem_append_right before hc)
  simp only [segmentLabels, Stylesheet.Segment.prelude?]
  generalize (⟨offset, cs⟩ : Slice).trim isBlank = prelude at hprinted
  split
  · rw [← labels_preludeTokens hprinted, Option.toList_some, List.flatMap_singleton]
  · next hnone =>
    -- printed text begins with no at sign, so only an empty prelude is left out
    have hempty : prelude.text = [] := by
      by_contra hne
      refine hnone ⟨trivial, hne, fun hhead => ?_⟩
      exact absurd (hprinted '@' (List.mem_of_mem_head? hhead)) (by decide)
    rw [hempty]
    rfl

/-- What the scanner finds in a cell. An at-rule has a prelude that starts with `@`. -/
theorem labels_segment_cell (offset : Nat) (cell : Cell) :
    segmentLabels ⟨⟨offset, cell.stretch⟩, some cell.closer⟩ = cell.names := by
  cases cell with
  | opening selectors =>
    have hspace : namesIn [' '] = [] := rfl
    have hblank : Printed [' '] := by decide
    refine (segmentLabels_of_printed offset (selectors.printed.append hblank)).trans ?_
    rw [namesIn_append selectors.printed.isFlat hblank.isFlat (endsName_cons (by decide) _), hspace,
      List.append_nil, selectors.namesIn_text]
    rfl
  -- with an at sign in front the segment is no prelude
  | atOpening name params =>
    refine segmentLabels_of_prelude?_none (if_neg fun hif => hif.2.2 ?_)
    exact Slice.head?_trim (by decide) offset _
  | closing => rfl
  | atStatement name params => exact segmentLabels_of_closer_ne (by decide : some ';' ≠ some '{')
  | declaration property value =>
    exact segmentLabels_of_closer_ne (by decide : some ';' ≠ some '{')

/-- A plain stretch and its separator are one segment. -/
theorem segmentsFrom_append_cons (start : Nat) {stretch xs cs : List Char} {closer : Char}
    (hxs : ∀ c ∈ xs, isPlain c = true) (hcloser : closer = '{' ∨ closer = '}' ∨ closer = ';') :
    Stylesheet.segmentsFrom start stretch (xs ++ closer :: cs) =
      ⟨⟨start, stretch.reverse ++ xs⟩, some closer⟩ ::
        Stylesheet.segmentsFrom (start + byteLen stretch + byteLen xs + 1) [] cs := by
  induction xs generalizing stretch with
  | nil =>
    rw [List.nil_append, Stylesheet.segmentsFrom, if_pos hcloser, List.append_nil]
    rfl
  | cons c xs ih =>
    have hc := hxs c List.mem_cons_self
    have hno : ¬(c = '{' ∨ c = '}' ∨ c = ';') := by
      rintro (h | h | h)
      · exact ne_of_isPlain hc (by decide) h
      · exact ne_of_isPlain hc (by decide) h
      · exact ne_of_isPlain hc (by decide) h
    rw [List.cons_append, Stylesheet.segmentsFrom, if_neg hno,
      ih fun d hd => hxs d (List.mem_cons_of_mem c hd), List.reverse_cons, List.append_assoc]
    congr 2
    simp only [byteLen_cons]
    omega

/-- The segments of a printed tape declare the names of its cells. -/
theorem labels_segmentsFrom_tape (start : Nat) (tape : List Cell) :
    (Stylesheet.segmentsFrom start [] (tapeText tape)).flatMap segmentLabels =
      tape.flatMap Cell.names := by
  induction tape generalizing start with
  | nil => rfl
  | cons cell tape ih =>
    have hcloser : cell.closer = '{' ∨ cell.closer = '}' ∨ cell.closer = ';' := by
      cases cell <;> simp [Cell.closer]
    rw [tapeText, segmentsFrom_append_cons start cell.isPlain_stretch hcloser, List.flatMap_cons,
      List.flatMap_cons, ih]
    exact congrArg (· ++ _) (labels_segment_cell start cell)

/-- The labels that a stylesheet declares are read segment by segment. -/
theorem map_label_declaredTokens (css : Slice) :
    (Stylesheet.declaredTokens css).map Token.label =
      (Stylesheet.segments ⟨css.offset, mask css.text⟩).flatMap segmentLabels := by
  rw [Stylesheet.declaredTokens, Stylesheet.preludes]
  induction Stylesheet.segments ⟨css.offset, mask css.text⟩ with
  | nil => rfl
  | cons segment segments ih =>
    rw [List.flatMap_cons, ← ih, List.filterMap_cons, segmentLabels]
    cases segment.prelude? with
    | none => rfl
    | some prelude =>
      rw [← List.map_append]
      simp

/-- The declarations of the printed text of a stylesheet are the class and id names in its
selectors, at every depth and in order. -/
theorem selectors_itemsText (items : List Item) :
    (Stylesheet.selectors (itemsText items)).map (fun s => (s.kind, s.name)) =
      itemsNames items := by
  have hlabels : (Stylesheet.selectors (itemsText items)).map (fun s => (s.kind, s.name)) =
      (Stylesheet.declaredTokens (.ofText (itemsText items))).map Token.label := List.map_map
  have hmask : mask (itemsText items) = tapeText (itemsTape items) := by
    rw [← tapeText_itemsTape]
    exact Mask.mask_of_calm (calm_tapeText _)
  rw [hlabels, map_label_declaredTokens, ← names_itemsTape]
  change (Stylesheet.segmentsFrom 0 [] (mask (itemsText items))).flatMap segmentLabels = _
  rw [hmask]
  exact labels_segmentsFrom_tape 0 (itemsTape items)

example : itemsText [.atRule (.ofIdentifier "media" (by decide)) ⟨"(width > 9em)".toList, by decide⟩
    [.rule (.one
      (.one (.part (.element none) (.marked .className (.ofIdentifier "a" (by decide))))))
      [.declaration (.ofIdentifier "color" (by decide)) ⟨"#fff".toList, by decide⟩]]] =
    "@media (width > 9em) \x7b.a \x7bcolor: #fff;\x7d\x7d".toList := by decide

end Tree

end StyleAudit
