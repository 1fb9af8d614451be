import StyleAudit.Proofs.OpenTags

/-!
# Attributes of a tag

An attribute may be written in several ways: with blanks around its `=`, with its value in quotes of
either kind or in none, after any blanks. The attributes of a tag are looked for in the whole tag,
from `<` to `>`, so the name of the tag and the values must not be taken for attributes.

* **`Markup.WrittenAttribute`** is an attribute together with a way to write it, and
  **`Markup.attributeValue?_of_fitsQuotes`** reads its value.
* **`Markup.scan_opening`**: the name of the tag is passed over.
* **`Markup.tagAttributes_rowText`**: the attributes of a tag are read as they are written.
-/

namespace StyleAudit

namespace Text

/-! ### Letters -/

/-- Only an ASCII letter is a lower case letter when folded. -/
theorem isAlpha_of_toLower {c : Char} (h : c.toLower.isLower = true) :
    c.isAlpha = true ∧ c.toNat < 128 := by
  unfold Char.isAlpha
  rw [Bool.or_eq_true]
  unfold Char.toLower at h
  split at h
  · next hupper =>
    have hcode : c.toNat ≤ 90 := UInt32.le_iff_toNat_le.mp hupper.2
    exact ⟨Or.inl (decide_eq_true hupper), by omega⟩
  · have hbounds := h
    unfold Char.isLower at hbounds
    rw [Bool.and_eq_true, decide_eq_true_eq, decide_eq_true_eq] at hbounds
    have hcode : c.toNat ≤ 122 := UInt32.le_iff_toNat_le.mp hbounds.2
    exact ⟨Or.inr h, by omega⟩

/-- What folds to a letter can stand in a word. -/
theorem isWord_of_foldsTo {w c : Char} (hw : w.isLower = true) (h : foldsTo w c = true) :
    isWord c = true ∧ foldsToLetter c = true := by
  simp only [foldsTo, Bool.or_eq_true, Bool.and_eq_true, beq_iff_eq] at h
  rcases h with (rfl | ⟨_, rfl⟩) | ⟨_, rfl⟩
  · obtain ⟨halpha, hascii⟩ := isAlpha_of_toLower hw
    rw [isWord, if_pos hascii, foldsToLetter]
    unfold Char.isAlphanum
    rw [halpha]
    exact ⟨rfl, rfl⟩
  · exact ⟨by decide +kernel, by decide⟩
  · exact ⟨by decide +kernel, by decide⟩

/-- What holds of every character that folds to one of the word holds in every spelling. -/
theorem Spells.forall_mem {P : Char → Prop} {word piece : List Char} (h : Spells word piece)
    (hP : ∀ w ∈ word, ∀ c, foldsTo w c = true → P c) : ∀ c ∈ piece, P c := by
  induction h with
  | nil => exact fun c hc => absurd hc List.not_mem_nil
  | cons hc _ ih =>
    obtain ⟨hfirst, hmore⟩ := List.forall_mem_cons.mp hP
    exact List.forall_mem_cons.mpr ⟨hfirst _ hc, ih hmore⟩

end Text

open Text

namespace Markup

/-! ### Attributes as they are written -/

/-- Whether the text is a letter, followed by letters, digits and hyphens. -/
def isPlainName : List Char → Bool
  | [] => false
  | c :: cs => c.isAlpha && cs.all fun d => d.isAlphanum || d == '-'

/-- Whether a value can be written between two quotes, or without any. -/
def fitsQuotes : Option Char → List Char → Bool
  | some quote, value => (quote == '\x27' || quote == '\x22') && !value.contains quote
  | none, value => !value.isEmpty && value.all fun c => !isBlank c && !"\"'`=<".toList.contains c

/-- An attribute, the blanks in it and in front of it, and the quotes around its value. -/
structure WrittenAttribute extends TagAttribute where
  gap : List Char
  quote : Option Char
  beforeEqual : List Char := []
  afterEqual : List Char := []
  spaced : gap ≠ [] := by decide
  blank : (gap ++ beforeEqual ++ afterEqual).all isBlank = true := by decide
  plain : isPlainName name = true := by decide
  fits : fitsQuotes quote value = true := by decide
  unended : '>' ∉ value := by decide

namespace WrittenAttribute

def valueText (a : WrittenAttribute) : List Char := a.quote.toList ++ (a.value ++ a.quote.toList)

/-- The attribute from its name on. -/
def core (a : WrittenAttribute) : List Char :=
  a.name ++ (a.beforeEqual ++ '=' :: (a.afterEqual ++ a.valueText))

def text (a : WrittenAttribute) : List Char := a.gap ++ a.core

/-- Attributes in a row, and blanks behind them. -/
def rowText (attributes : List WrittenAttribute) (gap : List Char) : List Char :=
  attributes.flatMap text ++ gap

end WrittenAttribute

/-! ### Reading an attribute -/

theorem foldsToLetter_of_isBlank {c : Char} (h : isBlank c = true) : foldsToLetter c = false :=
  of_isBlank (P := fun c => foldsToLetter c = false) (by decide) h

theorem isAttributeNamePart_of_isBlank {c : Char} (h : isBlank c = true) :
    isAttributeNamePart c = false :=
  of_isBlank (P := fun c => isAttributeNamePart c = false) (by decide) h

/-- A blank ends a value without quotes. -/
theorem isBareValuePart_of_isBlank {c : Char} (h : isBlank c = true) :
    isBareValuePart c = false := by
  rw [isBareValuePart, h]
  rfl

/-- A plain name starts like a name of an attribute. -/
theorem exists_letter_of_isPlainName {name : List Char} (h : isPlainName name = true) :
    ∃ c cs, name = c :: cs ∧ foldsToLetter c = true := by
  cases name with
  | nil => exact absurd h (by decide)
  | cons c cs =>
    rw [isPlainName, Bool.and_eq_true] at h
    refine ⟨c, cs, rfl, ?_⟩
    rw [foldsToLetter, h.1]
    rfl

/-- A plain name is read to its end. -/
theorem isAttributeNamePart_of_isPlainName {name : List Char} (h : isPlainName name = true) :
    ∀ c ∈ name, isAttributeNamePart c = true := by
  have hletter : ∀ c : Char, c.isAlpha = true → isAttributeNamePart c = true := by
    intro c hc
    rw [isAttributeNamePart, foldsToLetter, hc]
    rfl
  cases name with
  | nil => exact absurd h (by decide)
  | cons c cs =>
    rw [isPlainName, Bool.and_eq_true, List.all_eq_true] at h
    refine List.forall_mem_cons.mpr ⟨hletter c h.1, fun d hd => ?_⟩
    have hpart := h.2 d hd
    unfold Char.isAlphanum at hpart
    rw [Bool.or_eq_true, Bool.or_eq_true] at hpart
    rcases hpart with (hd | hd) | hd
    · exact hletter d hd
    · simp [isAttributeNamePart, hd]
    · simp [isAttributeNamePart, hd]

/-- A value does not begin with a blank, so blanks before it are all skipped. -/
theorem isBlank_of_fitsQuotes {quote : Option Char} {value : List Char}
    (hfits : fitsQuotes quote value = true) (rest : List Char) :
    ∀ c ∈ (quote.toList ++ (value ++ quote.toList) ++ rest).head?, isBlank c = false := by
  intro c hc
  cases quote with
  | some quote =>
    simp only [fitsQuotes, Bool.and_eq_true, Bool.or_eq_true, beq_iff_eq] at hfits
    obtain rfl : quote = c := Option.some.inj hc
    rcases hfits.1 with rfl | rfl <;> rfl
  | none =>
    simp only [fitsQuotes, Bool.and_eq_true, List.all_eq_true] at hfits
    cases value with
    | nil => exact absurd hfits.1 (by decide)
    | cons d value =>
      obtain rfl : d = c := Option.some.inj hc
      simpa using (hfits.2 d List.mem_cons_self).1

/-- The value of an attribute is read, with or without quotes. -/
theorem attributeValue?_of_fitsQuotes {quote : Option Char} {value rest : List Char}
    (hfits : fitsQuotes quote value = true) (hend : '>' ∉ value)
    (hrest : ∀ c ∈ rest.head?, isBareValuePart c = false) :
    attributeValue? (quote.toList ++ (value ++ quote.toList) ++ rest) = some (value, rest) := by
  cases quote with
  | some quote =>
    simp only [fitsQuotes, Bool.and_eq_true, Bool.or_eq_true, beq_iff_eq, Bool.not_eq_true',
      List.contains_eq_mem, decide_eq_false_iff_not] at hfits
    obtain ⟨hquote, hvalue⟩ := hfits
    -- inside quotes the value runs to the same quote, whatever is behind it
    have hinside : ∀ d ∈ value, (d != quote) = true :=
      fun d hd => bne_iff_ne.mpr (ne_of_mem_of_not_mem hd hvalue)
    have hstop : ∀ d ∈ (quote :: rest).head?, (d != quote) = false := by simp
    obtain ⟨htake, hdrop⟩ := takeWhile_dropWhile_append hinside hstop
    have hcs : [quote] ++ (value ++ [quote]) ++ rest = quote :: (value ++ quote :: rest) := by simp
    show attributeValue? ([quote] ++ (value ++ [quote]) ++ rest) = _
    rw [hcs, attributeValue?, if_pos hquote, hdrop, htake]
  | none =>
    simp only [fitsQuotes, Bool.and_eq_true, List.all_eq_true] at hfits
    obtain ⟨hne, hplain⟩ := hfits
    have hbare : ∀ c ∈ value, isBareValuePart c = true := by
      intro c hc
      have hangle : c ≠ '>' := ne_of_mem_of_not_mem hc hend
      simpa [isBareValuePart, hangle, and_assoc, and_left_comm, and_comm] using hplain c hc
    -- without quotes, only what follows ends the value
    obtain ⟨htake, hdrop⟩ := takeWhile_dropWhile_append hbare hrest
    obtain ⟨c, cs, rfl⟩ : ∃ c cs, value = c :: cs := List.exists_cons_of_ne_nil (by simpa using hne)
    have hquote : ¬(c = '\x27' ∨ c = '\x22') := by
      rintro (rfl | rfl) <;> exact absurd (hbare _ List.mem_cons_self) (by decide)
    show attributeValue? ([] ++ (c :: cs ++ []) ++ rest) = _
    rw [List.nil_append, List.append_nil]
    rw [List.cons_append] at htake hdrop ⊢
    rw [attributeValue?, if_neg hquote, if_pos (hbare c List.mem_cons_self), htake, hdrop]

/-- A text that starts with blanks starts with one of them, or, if there are none, with what
follows. -/
theorem isBlank_or_eq_of_head? {gap rest : List Char} (hgap : ∀ d ∈ gap.head?, isBlank d = true)
    (c : Char) : ∀ d ∈ (gap ++ c :: rest).head?, isBlank d = true ∨ d = c := by
  intro d hd
  cases gap with
  | nil => exact Or.inr (Option.some.inj hd).symm
  | cons blank gap => exact Or.inl (hgap d hd)

namespace WrittenAttribute

/-- Around the name and the equals sign there are only blanks. -/
theorem isBlank_of_mem (a : WrittenAttribute) {c : Char}
    (h : c ∈ a.gap ++ a.beforeEqual ++ a.afterEqual) : isBlank c = true :=
  List.all_eq_true.mp a.blank c h

/-- An attribute is read from its name on, at the start of a word. -/
theorem attributeRecogniser_core (a : WrittenAttribute) {before rest : List Char} (offset : Nat)
    (hbefore : before.head?.any isWord = false)
    (hrest : ∀ c ∈ rest.head?, isBareValuePart c = false) :
    attributeRecogniser ⟨offset, before, a.core ++ rest⟩ =
      some (a.toTagAttribute, a.core.length) := by
  obtain ⟨first, more, hfirst, hletter⟩ := exists_letter_of_isPlainName a.plain
  have hstart : (Cursor.atWordStart ⟨offset, before, a.core ++ rest⟩ &&
      (a.core ++ rest).head?.any foldsToLetter) = true := by
    simp [Cursor.atWordStart, hbefore, core, hfirst, hletter]
  have hcore : a.core ++ rest =
      a.name ++ (a.beforeEqual ++ '=' :: (a.afterEqual ++ (a.valueText ++ rest))) := by
    simp [core]
  have hpad : ∀ c ∈ a.beforeEqual, isBlank c = true := fun c hc => a.isBlank_of_mem (by simp [hc])
  have hpad' : ∀ c ∈ a.afterEqual, isBlank c = true := fun c hc => a.isBlank_of_mem (by simp [hc])
  -- the name ends at a blank or at the `=`
  have hequal : ∀ c ∈ (a.beforeEqual ++ '=' :: (a.afterEqual ++ (a.valueText ++ rest))).head?,
      isAttributeNamePart c = false := by
    intro c hc
    have hhead : ∀ d ∈ a.beforeEqual.head?, isBlank d = true :=
      fun d hd => hpad d (List.mem_of_mem_head? hd)
    rcases isBlank_or_eq_of_head? hhead '=' c hc with hblank | rfl
    · exact isAttributeNamePart_of_isBlank hblank
    · rfl
  obtain ⟨hname, hafter⟩ :=
    takeWhile_dropWhile_append (isAttributeNamePart_of_isPlainName a.plain) hequal
  have hbeforeEqual : (a.beforeEqual ++ '=' :: (a.afterEqual ++ (a.valueText ++ rest))).dropWhile
      isBlank = '=' :: (a.afterEqual ++ (a.valueText ++ rest)) :=
    (takeWhile_dropWhile_append hpad (by rintro c ⟨⟩; rfl)).2
  have hafterEqual : (a.afterEqual ++ (a.valueText ++ rest)).dropWhile isBlank =
      a.valueText ++ rest :=
    (takeWhile_dropWhile_append hpad' (isBlank_of_fitsQuotes a.fits rest)).2
  have hvalue : attributeValue? (a.valueText ++ rest) = some (a.value, rest) :=
    attributeValue?_of_fitsQuotes a.fits a.unended hrest
  have hdistance := Cursor.distance_append offset before a.core rest
  rw [attributeRecogniser, if_pos hstart]
  rw [hcore] at hdistance ⊢
  simp only [hname, hafter, hbeforeEqual, after?, if_true]
  show (attributeValue? (List.dropWhile isBlank _)).bind _ = _
  rw [hafterEqual, hvalue, Option.bind_some]
  exact congrArg (fun n => some (a.toTagAttribute, n)) hdistance

end WrittenAttribute

/-! ### Places without an attribute -/

/-- No attribute begins but with a letter. -/
theorem attributeRecogniser_of_not_letter {offset : Nat} {before cs : List Char} {c : Char}
    (h : foldsToLetter c = false) : attributeRecogniser ⟨offset, before, c :: cs⟩ = none := by
  simp [attributeRecogniser, h]

/-- No attribute begins inside a word. -/
theorem attributeRecogniser_of_isWord {offset : Nat} {before cs : List Char} {c : Char}
    (h : isWord c = true) : attributeRecogniser ⟨offset, c :: before, cs⟩ = none := by
  simp [attributeRecogniser, Cursor.atWordStart, h]

/-- A name without an equals sign behind it is no attribute. -/
theorem attributeRecogniser_of_no_equal {cur : Cursor}
    (h : after? ['='] ((cur.rest.dropWhile isAttributeNamePart).dropWhile isBlank) = none) :
    attributeRecogniser cur = none := by
  rw [attributeRecogniser]
  split
  · show (after? ['='] _).bind _ = none
    rw [h]
    rfl
  · rfl

/-- Blanks between the attributes are passed over. -/
theorem scan_blanks {gap : List Char} (hgap : ∀ c ∈ gap, isBlank c = true) (offset : Nat)
    (before rest : List Char) :
    attributeRecogniser.scan ⟨offset, before, gap ++ rest⟩ =
      attributeRecogniser.scan ⟨offset + byteLen gap, gap.reverse ++ before, rest⟩ := by
  refine Recogniser.scan_append_of_none fun front c back hsplit => ?_
  refine attributeRecogniser_of_not_letter (foldsToLetter_of_isBlank (hgap c ?_))
  rw [hsplit]
  exact List.mem_append_right _ List.mem_cons_self

/-! ### Reading the attributes of a tag -/

namespace WrittenAttribute

/-- A written attribute is read back, and the scan goes on behind it. -/
theorem scan_text (a : WrittenAttribute) {rest : List Char}
    (hrest : ∀ c ∈ rest.head?, isBareValuePart c = false) (offset : Nat) (before : List Char) :
    attributeRecogniser.scan ⟨offset, before, a.text ++ rest⟩ =
      a.toTagAttribute ::
        attributeRecogniser.scan ⟨offset + byteLen a.text, a.text.reverse ++ before, rest⟩ := by
  have hgap : ∀ c ∈ a.gap, isBlank c = true := fun c hc => a.isBlank_of_mem (by simp [hc])
  -- the attribute starts a word, as a blank stands before it
  have hbefore : (a.gap.reverse ++ before).head?.any isWord = false := by
    rw [List.head?_append_of_ne_nil _ (by simpa using a.spaced), List.head?_reverse,
      List.getLast?_eq_some_getLast a.spaced]
    exact isWord_of_isBlank (hgap _ (List.getLast_mem a.spaced))
  have hcore : a.core ≠ [] := by simp [core]
  rw [text, List.append_assoc, scan_blanks hgap,
    Recogniser.scan_of_some (by simp [hcore]) (List.length_pos_iff.mpr hcore)
      (a.attributeRecogniser_core _ hbefore hrest), Cursor.advance_append]
  simp [Nat.add_assoc]

/-- A row of attributes begins with a blank, if it is not empty. -/
theorem isBlank_head?_rowText (attributes : List WrittenAttribute) {gap : List Char}
    (hgap : ∀ c ∈ gap, isBlank c = true) :
    ∀ c ∈ (rowText attributes gap).head?, isBlank c = true := by
  intro c hc
  cases attributes with
  | nil => exact hgap c (List.mem_of_mem_head? hc)
  | cons a attributes =>
    rw [rowText, List.flatMap_cons, text, List.append_assoc, List.append_assoc,
      List.head?_append_of_ne_nil _ a.spaced] at hc
    exact a.isBlank_of_mem (by simp [List.mem_of_mem_head? hc])

theorem isBareValuePart_head?_rowText (attributes : List WrittenAttribute) {gap : List Char}
    (hgap : ∀ c ∈ gap, isBlank c = true) :
    ∀ c ∈ (rowText attributes gap ++ ['>']).head?, isBareValuePart c = false := by
  intro c hc
  rcases isBlank_or_eq_of_head? (isBlank_head?_rowText attributes hgap) '>' c hc with hblank | rfl
  · exact isBareValuePart_of_isBlank hblank
  · rfl

/-- The name of a tag is not followed by a `=`. -/
theorem after?_rowText (attributes : List WrittenAttribute) {gap : List Char}
    (hgap : ∀ c ∈ gap, isBlank c = true) :
    after? ['='] ((rowText attributes gap ++ ['>']).dropWhile isBlank) = none := by
  cases attributes with
  | nil =>
    have hdrop : (gap ++ ['>']).dropWhile isBlank = ['>'] :=
      (takeWhile_dropWhile_append hgap (by rintro c ⟨⟩; rfl)).2
    rw [rowText, List.flatMap_nil, List.nil_append, hdrop]
    rfl
  | cons a attributes =>
    obtain ⟨first, more, hfirst, hletter⟩ := exists_letter_of_isPlainName a.plain
    have hrow : ∃ tail, rowText (a :: attributes) gap ++ ['>'] = a.gap ++ first :: tail := by
      rw [rowText, List.flatMap_cons, text, core, hfirst]
      simp
    obtain ⟨tail, hrow⟩ := hrow
    have hblank : isBlank first = false := by
      refine Bool.eq_false_iff.mpr fun hblank => ?_
      rw [foldsToLetter_of_isBlank hblank] at hletter
      exact absurd hletter (by decide)
    have hdrop : (a.gap ++ first :: tail).dropWhile isBlank = first :: tail :=
      (takeWhile_dropWhile_append (fun c hc => a.isBlank_of_mem (by simp [hc]))
        (by rintro c ⟨⟩; exact hblank)).2
    -- the next name begins with a letter
    have hne : '=' ≠ first := by
      rintro rfl
      exact absurd hletter (by decide)
    rw [hrow, hdrop, after?, if_neg hne]

/-- Attributes in a row are read one by one. -/
theorem scan_rowText (attributes : List WrittenAttribute) {gap : List Char}
    (hgap : ∀ c ∈ gap, isBlank c = true) (offset : Nat) (before : List Char) :
    attributeRecogniser.scan ⟨offset, before, rowText attributes gap ++ ['>']⟩ =
      attributes.map toTagAttribute := by
  induction attributes generalizing offset before with
  | nil =>
    have hlast : attributeRecogniser ⟨offset + byteLen gap, gap.reverse ++ before, ['>']⟩ = none :=
      attributeRecogniser_of_not_letter rfl
    rw [rowText, List.flatMap_nil, List.nil_append, scan_blanks hgap,
      Recogniser.scan_of_none (by simp) hlast]
    exact Recogniser.scan_of_rest_nil rfl
  | cons a attributes ih =>
    have hrow : rowText (a :: attributes) gap ++ ['>'] =
        a.text ++ (rowText attributes gap ++ ['>']) := by
      simp [rowText]
    rw [hrow, a.scan_text (isBareValuePart_head?_rowText attributes hgap), ih, List.map_cons]

/-- A written attribute does not end its tag. -/
theorem not_mem_text (a : WrittenAttribute) : '>' ∉ a.text := by
  have hpad : '>' ∉ a.gap ++ a.beforeEqual ++ a.afterEqual :=
    fun h => absurd (a.isBlank_of_mem h) (by decide)
  have hname : '>' ∉ a.name :=
    fun h => absurd (isAttributeNamePart_of_isPlainName a.plain _ h) (by decide)
  have hquote : '>' ∉ a.quote.toList := by
    intro h
    have hfits := a.fits
    rw [Option.mem_toList.mp h] at hfits
    exact absurd hfits (by simp [fitsQuotes])
  simp only [List.mem_append, not_or] at hpad
  simp [text, core, valueText, hpad, hname, hquote, a.unended]

/-- A row of attributes does not end the tag. -/
theorem not_mem_rowText (attributes : List WrittenAttribute) {gap : List Char}
    (hgap : ∀ c ∈ gap, isBlank c = true) : '>' ∉ rowText attributes gap := by
  intro h
  rcases List.mem_append.mp h with hrow | hgap'
  · obtain ⟨a, _, ha⟩ := List.mem_flatMap.mp hrow
    exact a.not_mem_text ha
  · exact absurd (hgap _ hgap') (by decide)

end WrittenAttribute

/-- The name of a tag is no attribute. -/
theorem scan_opening {name : String} {opening rest : List Char}
    (hname : name.toList.all Char.isLower = true) (hopening : Spells (tagWord name) opening)
    (hend : ∀ c ∈ rest.head?, isAttributeNamePart c = false)
    (hequal : after? ['='] (rest.dropWhile isBlank) = none) (offset : Nat) (before : List Char) :
    attributeRecogniser.scan ⟨offset, before, opening ++ rest⟩ =
      attributeRecogniser.scan ⟨offset + byteLen opening, opening.reverse ++ before, rest⟩ := by
  obtain ⟨word, hword, rfl⟩ := Spells.exists_angle hopening
  have hletters : ∀ c ∈ word, isWord c = true ∧ foldsToLetter c = true :=
    hword.forall_mem fun w hw c => isWord_of_foldsTo (List.all_eq_true.mp hname w hw)
  have hparts : ∀ c ∈ word, isAttributeNamePart c = true := by
    intro c hc
    rw [isAttributeNamePart, (hletters c hc).2]
    rfl
  refine Recogniser.scan_append_of_none fun front c back hsplit => ?_
  cases front with
  | nil =>
    obtain ⟨rfl, _⟩ := List.cons.inj hsplit
    exact attributeRecogniser_of_not_letter rfl
  | cons angle front =>
    obtain ⟨rfl, rfl⟩ := List.cons.inj hsplit
    rcases List.eq_nil_or_concat front with rfl | ⟨init, last, rfl⟩
    · -- the first character of the name starts a word, but no `=` follows the name
      have hdrop : (c :: back ++ rest).dropWhile isAttributeNamePart = rest :=
        (takeWhile_dropWhile_append hparts hend).2
      refine attributeRecogniser_of_no_equal ?_
      show after? ['='] (((c :: back ++ rest).dropWhile isAttributeNamePart).dropWhile isBlank) =
          none
      rw [hdrop]
      exact hequal
    · -- a later character of the name follows a word character
      have hlast := (hletters last (by simp)).1
      simp only [List.concat_eq_append, List.reverse_cons, List.reverse_append, List.reverse_nil,
        List.nil_append, List.append_assoc, List.cons_append]
      exact attributeRecogniser_of_isWord hlast

/-- The attributes of a tag are read as they are written. -/
theorem tagAttributes_rowText {name : String} {opening gap : List Char}
    (hname : name.toList.all Char.isLower = true) (hopening : Spells (tagWord name) opening)
    (attributes : List WrittenAttribute) (hgap : ∀ c ∈ gap, isBlank c = true) (offset : Nat) :
    tagAttributes ⟨offset, opening ++ (WrittenAttribute.rowText attributes gap ++ ['>'])⟩ =
      attributes.map WrittenAttribute.toTagAttribute := by
  have hend : ∀ c ∈ (WrittenAttribute.rowText attributes gap ++ ['>']).head?,
      isAttributeNamePart c = false := by
    intro c hc
    have hblank := WrittenAttribute.isBlank_head?_rowText attributes hgap
    rcases isBlank_or_eq_of_head? hblank '>' c hc with hblank | rfl
    · exact isAttributeNamePart_of_isBlank hblank
    · rfl
  have hequal := WrittenAttribute.after?_rowText attributes hgap
  show attributeRecogniser.scan ⟨offset, [], _⟩ = _
  rw [scan_opening hname hopening hend hequal]
  exact WrittenAttribute.scan_rowText attributes hgap _ _

end Markup

end StyleAudit
