import StyleAudit.Proofs.ClassWords
import StyleAudit.Proofs.LiteralArguments
import StyleAudit.Proofs.NestedRules

/-!
# Written names are read back

Three idioms name classes and ids: a class attribute lists them, a method of a class list takes them
as arguments, and a search takes a selector. Each idiom is read by passes of its own, and each of
them finds every name that is written in it, at its own place, and nothing else. A text is written
with pieces, which say what its names are and so where they stand.

* **`Piece.referencesAt`** gives the references that a written text should have.
* **`Tree.Name.singleName?_eq`** and **`tokenRecogniser_of_written`** read one name, without and
  with a marker.
* **`classWordsFrom_spacedPieces`**, **`NameLiteral.referencesAt_listPieces`** and
  **`tokens_selectorPieces`** go through all names of an idiom, one after the other.
* **`findAll_tagAssignment`**, **`findAll_classListCall`** and **`findAll_selectorCall`**: what is
  written is found, and nothing behind it, since no name holds an equals sign or a parenthesis.
-/

namespace StyleAudit

open Text

/-! ### Written texts -/

/-- A piece of a written text: a name, or what stands around names. -/
inductive Piece
  | other (cs : List Char)
  | named (kind : NameKind) (name : Tree.Name)

namespace Piece

def text : Piece → List Char
  | .other cs => cs
  | .named _ name => name.text

def textOf (pieces : List Piece) : List Char := pieces.flatMap text

/-- The references to all names of a text that starts at an offset, each at the place of its
name. -/
def referencesAt (site : ReferenceSite) (offset : Nat) : List Piece → List Reference
  | [] => []
  | .other cs :: pieces => referencesAt site (offset + byteLen cs) pieces
  | .named kind name :: pieces =>
    .ofSlice kind site ⟨offset, name.text⟩ :: referencesAt site (offset + byteLen name.text) pieces

@[simp] theorem textOf_nil : textOf [] = [] := rfl

@[simp] theorem textOf_cons (piece : Piece) (pieces : List Piece) :
    textOf (piece :: pieces) = piece.text ++ textOf pieces := rfl

@[simp] theorem textOf_append (front rest : List Piece) :
    textOf (front ++ rest) = textOf front ++ textOf rest := List.flatMap_append

/-- The references of two lists of pieces in a row; the second starts where the first ends. -/
theorem referencesAt_append (site : ReferenceSite) (offset : Nat) (front rest : List Piece) :
    referencesAt site offset (front ++ rest) = referencesAt site offset front ++
      referencesAt site (offset + byteLen (textOf front)) rest := by
  induction front generalizing offset with
  | nil => rfl
  | cons piece front ih =>
    cases piece <;> simp [referencesAt, ih, text, Nat.add_assoc]

end Piece

/-! ### Texts without placeholders -/

namespace Placeholder

/-- Whether a placeholder may open with `c`. -/
def isOpening (c : Char) : Bool := c == '$' || c == '{' || c == '<'

/-- A placeholder starts with an opening character. -/
theorem length?_of_not_isOpening {c : Char} (hc : isOpening c = false) (cs : List Char) :
    length? (c :: cs) = none := by
  simp only [isOpening, Bool.or_eq_false_iff, beq_eq_false_iff_ne] at hc
  obtain ⟨⟨hdollar, hbrace⟩, hangle⟩ := hc
  simp [length?, marks, after?, hdollar.symm, hbrace.symm, hangle.symm]

/-- Without opening characters nothing is painted as a placeholder. -/
theorem paint_of_not_isOpening {cs : List Char} (h : ∀ c ∈ cs, isOpening c = false) :
    paint cs = cs.map (·, false) := by
  induction cs with
  | nil => rfl
  | cons c cs ih =>
    obtain ⟨hc, hcs⟩ := List.forall_mem_cons.mp h
    rw [paint, paintFrom_of_none (length?_of_not_isOpening hc cs)]
    exact congrArg (_ :: ·) (ih hcs)

/-- Without opening characters there are no placeholders. -/
theorem all_of_not_isOpening {s : Slice} (h : ∀ c ∈ s.text, isOpening c = false) : all s = [] := by
  refine List.eq_nil_iff_forall_not_mem.mpr fun span hspan => ?_
  obtain ⟨cur, taken, hr, hcur, hne⟩ := Recogniser.mem_findAll hspan
  obtain ⟨n, hlength, _⟩ := Option.bind_eq_some_iff.mp hr
  obtain ⟨c, rest, hrest⟩ := List.exists_cons_of_ne_nil hne
  have hmem : c ∈ s.text := by
    rw [← hcur.1, hrest]
    simp
  rw [hrest, length?_of_not_isOpening (h c hmem)] at hlength
  exact absurd hlength (by simp)

theorem maskAll_of_not_isOpening {cs : List Char} (h : ∀ c ∈ cs, isOpening c = false) :
    maskAll cs = cs := by
  rw [maskAll, paint_of_not_isOpening h, List.flatMap_map]
  exact List.flatMap_singleton' cs

end Placeholder

/-! ### Names as they are written -/

/-- Nothing is trimmed off a text that has nothing to trim. -/
theorem Slice.trim_eq_self {p : Char → Bool} {s : Slice} (h : ∀ c ∈ s.text, p c = false) :
    s.trim p = s := by
  have hdrop : ∀ cs : List Char, (∀ c ∈ cs, p c = false) →
      cs.takeWhile p = [] ∧ cs.dropWhile p = cs := by
    intro cs hcs
    cases cs with
    | nil => exact ⟨rfl, rfl⟩
    | cons c cs =>
      have hc : ¬p c = true := by simp [hcs c List.mem_cons_self]
      exact ⟨List.takeWhile_cons_of_neg hc, List.dropWhile_cons_of_neg hc⟩
  obtain ⟨htake, hleft⟩ := hdrop s.text h
  have hright := (hdrop s.text.reverse fun c hc => h c (List.mem_reverse.mp hc)).2
  rw [Slice.trim, Slice.trimLeft, Slice.trimRight, Text.trimRight, htake, hleft, hright,
    List.reverse_reverse]
  rfl

namespace Tree

theorem not_isQuote_of_isBare {c : Char} (h : isBare c = true) : Mask.isQuote c = false := by
  simp only [Mask.isQuote, Bool.or_eq_false_iff, beq_eq_false_iff_ne]
  exact ⟨⟨ne_of_isBare h (by decide), ne_of_isBare h (by decide)⟩, ne_of_isBare h (by decide)⟩

theorem not_isOpening_of_isBare {c : Char} (h : isBare c = true) :
    Placeholder.isOpening c = false := by
  simp only [Placeholder.isOpening, Bool.or_eq_false_iff, beq_eq_false_iff_ne]
  exact ⟨⟨ne_of_isBare h (by decide), ne_of_isBare h (by decide)⟩, ne_of_isBare h (by decide)⟩

theorem isInert_of_isBare {c : Char} (h : isBare c = true) : Script.isInert c = true :=
  Script.isInert_iff.mpr
    ⟨not_isQuote_of_isBare h, ne_of_isBare h (by decide), ne_of_isBare h (by decide)⟩

/-- A name is a single name: there is no padding around it, and nothing in it parts it. -/
theorem Name.singleName?_eq (name : Name) (offset : Nat) :
    singleName? ⟨offset, name.text⟩ = some ⟨offset, name.text⟩ := by
  have hblank : ∀ c ∈ name.text, isBlank c = false :=
    fun c hc => (isBare_iff.mp (name.isBare c hc)).2.1
  have htrim : Slice.trim isNamePadding ⟨offset, name.text⟩ = ⟨offset, name.text⟩ := by
    refine Slice.trim_eq_self fun c hc => ?_
    rw [isNamePadding, hblank c hc, not_isQuote_of_isBare (name.isBare c hc)]
    rfl
  have hnone : Placeholder.all ⟨offset, name.text⟩ = [] :=
    Placeholder.all_of_not_isOpening fun c hc => not_isOpening_of_isBare (name.isBare c hc)
  simp only [singleName?, htrim, hnone]
  rw [if_neg]
  simpa [name.nonempty] using hblank

theorem Name.written (name : Name) : Written name.text name.text := by
  have hbare := name.isBare
  generalize name.text = cs at hbare
  induction cs with
  | nil => exact .nil
  | cons c cs ih =>
    obtain ⟨hc, hcs⟩ := List.forall_mem_cons.mp hbare
    obtain ⟨hboundary, _, hbackslash, _⟩ := isBare_iff.mp hc
    exact (ih hcs).plain hboundary hbackslash

end Tree

/-! ### Class attributes -/

/-- A class value: names with ASCII blanks between them. -/
structure ClassValue where
  /-- Each name with the blanks before it. -/
  names : List (List Char × Tree.Name)
  /-- The blanks at the end. -/
  trail : List Char
  blank : (names.all fun p => p.1.all isAsciiBlank) = true := by decide
  parted : (names.tail.all fun p => !p.1.isEmpty) = true := by decide
  trailBlank : trail.all isAsciiBlank = true := by decide

/-- The pieces of names with blanks before them. -/
def spacedPieces (names : List (List Char × Tree.Name)) : List Piece :=
  names.flatMap fun p => [.other p.1, .named .className p.2]

def ClassValue.pieces (value : ClassValue) : List Piece :=
  spacedPieces value.names ++ [.other value.trail]

/-- Where the names of such pieces stand. -/
def namesAt (offset : Nat) : List (List Char × Tree.Name) → List Slice
  | [] => []
  | p :: names => ⟨offset + byteLen p.1, p.2.text⟩ ::
      namesAt (offset + byteLen p.1 + byteLen p.2.text) names

/-- The names of a class value refer to classes, at the places where they are written. -/
theorem referencesAt_spacedPieces (site : ReferenceSite) (offset : Nat)
    (names : List (List Char × Tree.Name)) :
    Piece.referencesAt site offset (spacedPieces names) =
      (namesAt offset names).map (Reference.ofSlice .className site) := by
  induction names generalizing offset with
  | nil => rfl
  | cons p names ih => exact congrArg (_ :: ·) (ih _)

/-- Blanks are passed over between words. -/
theorem classWordsFrom_blanks {gap : List Char} (h : gap.all isAsciiBlank = true) (start : Nat)
    (rest : List (Char × Bool)) :
    classWordsFrom start [] false (gap.map (·, false) ++ rest) =
      classWordsFrom (start + byteLen gap) [] false rest := by
  induction gap generalizing start with
  | nil => rfl
  | cons c gap ih =>
    obtain ⟨hc, hgap⟩ := Bool.and_eq_true_iff.mp h
    have hparts : partsWords (c, false) = true := by rw [partsWords, hc]; rfl
    rw [List.map_cons, List.cons_append, classWordsFrom_cons, if_pos hparts, byteLen_cons,
      utf8Size_of_isAsciiBlank hc]
    show classWordsFrom (start + 0 + 1) [] false _ = _
    rw [ih hgap]
    congr 1
    omega

/-- The characters of a name belong to one word. -/
theorem classWordsFrom_bare {cs : List Char} (h : ∀ c ∈ cs, Tree.isBare c = true) (start : Nat)
    (word : List Char) (rest : List (Char × Bool)) :
    classWordsFrom start word false (cs.map (·, false) ++ rest) =
      classWordsFrom start (cs.reverse ++ word) false rest := by
  induction cs generalizing word with
  | nil => rfl
  | cons c cs ih =>
    obtain ⟨hc, hcs⟩ := List.forall_mem_cons.mp h
    -- a name has no blanks, so it is not parted
    have hparts : ¬partsWords (c, false) = true := by
      intro hparts
      have hblank := isBlank_of_isAsciiBlank (Bool.and_eq_true_iff.mp hparts).1
      exact Bool.false_ne_true ((Tree.isBare_iff.mp hc).2.1.symm.trans hblank)
    rw [List.map_cons, List.cons_append, classWordsFrom_cons, if_neg hparts]
    show classWordsFrom start (c :: word) false _ = _
    rw [ih hcs, List.reverse_cons, List.append_assoc]
    rfl

/-- A word ends at the end, or where a character parts words. -/
theorem classWordsFrom_word {word : List Char} (hword : word ≠ []) {rest : List (Char × Bool)}
    (hrest : ∀ p ∈ rest.head?, partsWords p = true) (start : Nat) :
    classWordsFrom start word false rest =
      ⟨⟨start, word.reverse⟩, false⟩ :: classWordsFrom (start + byteLen word) [] false rest := by
  cases rest with
  | nil => simp [classWordsFrom, hword]
  | cons p rest =>
    rw [classWordsFrom_cons, classWordsFrom_cons, if_pos (hrest p rfl), if_pos (hrest p rfl),
      if_neg hword, if_pos rfl]
    rfl

/-- The words of a class value are its names. -/
theorem classWordsFrom_spacedPieces {names : List (List Char × Tree.Name)} {trail : List Char}
    (hnames : ∀ p ∈ names, p.1.all isAsciiBlank = true) (hparted : ∀ p ∈ names.tail, p.1 ≠ [])
    (htrail : trail.all isAsciiBlank = true) (start : Nat) :
    classWordsFrom start [] false
        ((Piece.textOf (spacedPieces names) ++ trail).map (·, false)) =
      (namesAt start names).map (⟨·, false⟩) := by
  induction names generalizing start with
  | nil =>
    have hblanks := classWordsFrom_blanks htrail start []
    rw [List.append_nil] at hblanks
    show classWordsFrom start [] false (trail.map (·, false)) = []
    rw [hblanks]
    rfl
  | cons p names ih =>
    obtain ⟨hp, hrest⟩ := List.forall_mem_cons.mp hnames
    have htext : (Piece.textOf (spacedPieces (p :: names)) ++ trail).map (·, false) =
        p.1.map (·, false) ++ (p.2.text.map (·, false) ++
          (Piece.textOf (spacedPieces names) ++ trail).map (·, false)) := by
      simp [spacedPieces, Piece.textOf, Piece.text]
    -- what follows the name is a blank, of the next name or of the end
    have hends : ∀ q ∈ ((Piece.textOf (spacedPieces names) ++ trail).map (·, false)).head?,
        partsWords q = true := by
      have hblank : ∀ cs : List Char, cs.all isAsciiBlank = true → ∀ q ∈ (cs.map (·, false)).head?,
          partsWords q = true := by
        intro cs hcs q hq
        obtain ⟨c, hc, rfl⟩ := List.mem_map.mp (List.mem_of_mem_head? hq)
        rw [partsWords, List.all_eq_true.mp hcs c hc]
        rfl
      cases names with
      | nil => exact hblank trail htrail
      | cons q names =>
        obtain ⟨c, cs, hgap⟩ := List.exists_cons_of_ne_nil (hparted q List.mem_cons_self)
        have hq := hblank q.1 (hrest q List.mem_cons_self)
        rw [hgap] at hq
        simpa [spacedPieces, Piece.textOf, Piece.text, hgap] using hq
    rw [htext, classWordsFrom_blanks hp, classWordsFrom_bare p.2.isBare, List.append_nil,
      classWordsFrom_word (by simpa using p.2.nonempty) hends, List.reverse_reverse,
      byteLen_reverse, ih hrest (fun q hq => hparted q (List.mem_of_mem_tail hq))]
    rfl

/-- A character of a class value is a blank or a character of a name. -/
theorem ClassValue.mem_text {value : ClassValue} {c : Char} (h : c ∈ Piece.textOf value.pieces) :
    isAsciiBlank c = true ∨ Tree.isBare c = true := by
  obtain ⟨piece, hpiece, hc⟩ := List.mem_flatMap.mp h
  rcases List.mem_append.mp hpiece with hspaced | htrail
  · obtain ⟨p, hp, hpiece⟩ := List.mem_flatMap.mp hspaced
    rcases List.mem_cons.mp hpiece with rfl | hname
    · exact .inl (List.all_eq_true.mp (List.all_eq_true.mp value.blank p hp) c hc)
    · rw [List.mem_singleton.mp hname] at hc
      exact .inr (p.2.isBare c hc)
  · rw [List.mem_singleton.mp htrail] at hc
    exact .inl (List.all_eq_true.mp value.trailBlank c hc)

/-- The names read from a class value are the names written in it, at their places. -/
theorem ClassValue.classNames_eq (value : ClassValue) (offset : Nat) :
    classNames ⟨offset, Piece.textOf value.pieces⟩ = namesAt offset value.names := by
  have hopening : ∀ c ∈ Piece.textOf value.pieces, Placeholder.isOpening c = false := by
    intro c hc
    rcases value.mem_text hc with hblank | hbare
    · simp only [isAsciiBlank, Bool.or_eq_true, beq_iff_eq] at hblank
      rcases hblank with (((h | h) | h) | h) | h <;> rw [h] <;> decide
    · exact Tree.not_isOpening_of_isBare hbare
  have hnone : Placeholder.all ⟨offset, Piece.textOf value.pieces⟩ = [] :=
    Placeholder.all_of_not_isOpening hopening
  have hparted : ∀ p ∈ value.names.tail, p.1 ≠ [] := by
    intro p hp
    simpa using List.all_eq_true.mp value.parted p hp
  have hwords : classWords ⟨offset, Piece.textOf value.pieces⟩ =
      (namesAt offset value.names).map (⟨·, false⟩) := by
    rw [classWords, Placeholder.paint_of_not_isOpening hopening]
    have htext : Piece.textOf value.pieces =
        Piece.textOf (spacedPieces value.names) ++ value.trail := by
      simp [pieces, Piece.text]
    rw [htext]
    exact classWordsFrom_spacedPieces (List.all_eq_true.mp value.blank) hparted
      value.trailBlank offset
  -- every word is a single name as it is
  have hsingle : ∀ (names : List (List Char × Tree.Name)) (offset : Nat),
      (namesAt offset names).filterMap singleName? = namesAt offset names := by
    intro names
    induction names with
    | nil => exact fun _ => rfl
    | cons p names ih =>
      intro offset
      rw [namesAt, List.filterMap_cons_some (p.2.singleName?_eq _), ih]
  rw [Bytes.classNames_eq_append, hnone, hwords, List.flatMap_nil, List.append_nil, List.filter_map,
    List.filterMap_map]
  show List.filterMap singleName? (List.filter (fun _ => true) _) = _
  rw [List.filter_true, hsingle]

def classAttribute (quote : Char) (value : ClassValue) : List Piece :=
  .other ("<p class=".toList ++ [quote]) :: (value.pieces ++ [.other [quote, '>']])

/-- An assignment has an equals sign. -/
theorem equals_mem_of_assignmentAt? {names : List (List Char)} {plus : Bool} {cur : Cursor}
    {a : Assignment} (h : assignmentAt? names plus cur = some a) : '=' ∈ cur.rest := by
  simp only [assignmentAt?] at h
  obtain ⟨word, _, hword⟩ := List.exists_of_findSome?_eq_some h
  obtain ⟨rest, hrest, hequals⟩ := Option.bind_eq_some_iff.mp hword
  obtain ⟨value, hvalue, _⟩ := Option.bind_eq_some_iff.mp hequals
  obtain ⟨more, hmore, _⟩ := suffix_of_afterEquals? hvalue
  have hmem := (hmore.trans (suffix_of_afterFolded? hrest)).subset List.mem_cons_self
  split at hmem
  · exact List.mem_of_mem_drop hmem
  · exact hmem

/-- Without an equals sign nothing is assigned. -/
theorem scan_assignments_of_not_mem {names : List (List Char)} {plus : Bool} {cur : Cursor}
    (h : '=' ∉ cur.rest) : (assignmentRecogniser names plus).scan cur = [] := by
  refine List.eq_nil_iff_forall_not_mem.mpr fun a ha => h ?_
  obtain ⟨pre, suf, taken, hr, hrest, _⟩ := Recogniser.mem_findFrom ha
  obtain ⟨found, hfound, _⟩ := Option.map_eq_some_iff.mp hr
  rw [hrest]
  refine List.mem_append_right pre ?_
  rcases Option.or_eq_some_iff.mp hfound with hstart | ⟨_, hlater⟩
  · split at hstart
    · exact equals_mem_of_assignmentAt? hstart
    · exact absurd hstart (by simp)
  · split at hlater
    · exact List.mem_of_mem_drop (equals_mem_of_assignmentAt? hlater)
    · exact absurd hlater (by simp)

/-- After a separator the assignment to a name is looked for. -/
theorem assignmentRecogniser_of_separator {names : List (List Char)} {plus : Bool} {offset : Nat}
    {before rest : List Char} {c : Char} (hbefore : before ≠ [])
    (hc : isAttributeSeparator c = true) :
    assignmentRecogniser names plus ⟨offset, before, c :: rest⟩ =
      (assignmentAt? names plus ⟨offset + c.utf8Size, c :: before, rest⟩).map fun a =>
        (a, Cursor.distance ⟨offset, before, c :: rest⟩ a.value.rest) := by
  have hfirst : before.isEmpty = false := by simpa using hbefore
  have hadvance : Cursor.advance 1 ⟨offset, before, c :: rest⟩ =
      ⟨offset + c.utf8Size, c :: before, rest⟩ := by
    simp [Cursor.advance]
  simp [assignmentRecogniser, hfirst, hc, hadvance]

/-- The assignment to the class of a tag, before `rest`. -/
def tagAssignment (rest : List Char) : Assignment :=
  ⟨⟨3, "<p ".toList.reverse, "class=".toList ++ rest⟩, false, ⟨9, "<p class=".toList.reverse, rest⟩⟩

/-- The class is all that is assigned in such a tag. -/
theorem findAll_tagAssignment {quote : Char} (hquote : quote = '\x27' ∨ quote = '\x22')
    {rest : List Char} (hrest : '=' ∉ rest) :
    (assignmentRecogniser ["class".toList, "classname".toList] true).findAll
      (.ofText ("<p class=".toList ++ quote :: rest)) = [tagAssignment (quote :: rest)] := by
  have hat : assignmentAt? ["class".toList, "classname".toList] true
      ⟨3, "<p ".toList.reverse, "class=".toList ++ quote :: rest⟩ =
        some (tagAssignment (quote :: rest)) := by
    -- the name is spelled out, but how far the value is away is not to be computed
    have hseek := Cursor.seek_append 3 "<p ".toList.reverse "class=".toList (quote :: rest)
    rcases hquote with rfl | rfl <;>
      exact congrArg (fun value => some (Assignment.mk _ false value)) hseek
  have hfound : assignmentRecogniser ["class".toList, "classname".toList] true
      ⟨2, "<p".toList.reverse, " class=".toList ++ quote :: rest⟩ =
        some (tagAssignment (quote :: rest), 7) := by
    refine (assignmentRecogniser_of_separator (by decide) (by decide)).trans ?_
    refine (congrArg (Option.map _) hat).trans ?_
    exact congrArg (fun n => some (_, n))
      (Cursor.distance_append 2 _ " class=".toList (quote :: rest))
  -- nothing is assigned at the two places before
  show (assignmentRecogniser ["class".toList, "classname".toList] true).scan
    ⟨2, "<p".toList.reverse, " class=".toList ++ quote :: rest⟩ = _
  rw [Recogniser.scan_of_some (by simp) (by decide) hfound, scan_assignments_of_not_mem]
  show '=' ∉ quote :: rest
  rcases hquote with rfl | rfl <;> simpa using hrest

/-- The value of the attribute is what stands between the quotes. -/
theorem value?_tagAssignment {quote : Char} (hquote : quote = '\x27' ∨ quote = '\x22')
    {value : List Char} (hvalue : quote ∉ value) (rest : List Char) :
    (tagAssignment (quote :: (value ++ quote :: rest))).value? = some ⟨⟨10, value⟩, false⟩ := by
  have htake : (value ++ quote :: rest).takeWhile (fun d => d != quote) = value := by
    have hne : ∀ c ∈ value, (c != quote) = true :=
      fun c hc => bne_iff_ne.mpr (ne_of_mem_of_not_mem hc hvalue)
    rw [List.takeWhile_append_of_pos hne]
    simp
  have hread : (tagAssignment (quote :: (value ++ quote :: rest))).value? =
      some ⟨⟨10, (value ++ quote :: rest).takeWhile fun d => d != quote⟩, false⟩ := by
    rcases hquote with rfl | rfl <;> rfl
  rw [hread, htake]

/-- The names of a class attribute are all found, and nothing else. -/
theorem classAttributeReferences_classAttribute {quote : Char}
    (hquote : quote = '\x27' ∨ quote = '\x22') (value : ClassValue) :
    classAttributeReferences (.ofText (Piece.textOf (classAttribute quote value))) =
      Piece.referencesAt .classAttribute 0 (classAttribute quote value) := by
  have htext : Piece.textOf (classAttribute quote value) =
      "<p class=".toList ++ quote :: (Piece.textOf value.pieces ++ [quote, '>']) := by
    simp [classAttribute, Piece.text]
  -- neither a quote nor an equals sign stands in the value
  have hne : ∀ d, isBlank d = false → Tree.isBare d = false → d ∉ Piece.textOf value.pieces := by
    intro d hblank hbare hmem
    rcases value.mem_text hmem with h | h
    · exact ne_of_isBlank (isBlank_of_isAsciiBlank h) hblank rfl
    · exact Tree.ne_of_isBare h hbare rfl
  have hend : quote ∉ Piece.textOf value.pieces := by
    rcases hquote with rfl | rfl <;> exact hne _ (by decide) (by decide)
  have hequals : '=' ∉ Piece.textOf value.pieces ++ [quote, '>'] := by
    refine List.not_mem_append (hne _ (by decide) (by decide)) ?_
    rcases hquote with rfl | rfl <;> decide
  unfold classAttributeReferences
  rw [htext, findAll_tagAssignment hquote hequals, List.flatMap_singleton,
    value?_tagAssignment hquote hend]
  show (classNames ⟨10, Piece.textOf value.pieces⟩).map _ = _
  have hopening : byteLen ("<p class=".toList ++ [quote]) = 10 := by
    rcases hquote with rfl | rfl <;> rfl
  rw [value.classNames_eq, ← referencesAt_spacedPieces, classAttribute, Piece.referencesAt,
    hopening, Piece.referencesAt_append, ClassValue.pieces, Piece.referencesAt_append]
  simp [Piece.referencesAt]

/-! ### Calls -/

/-- Without a parenthesis nothing is called. -/
theorem scan_calls_of_not_mem {callee : List Char → Option (List Char)} (hcallee : ReadsCall callee)
    {cur : Cursor} (h : '(' ∉ cur.rest) : (callRecogniser callee).scan cur = [] := by
  refine List.eq_nil_iff_forall_not_mem.mpr fun call hcall => h ?_
  obtain ⟨pre, suf, taken, hr, hrest, _⟩ := Recogniser.mem_findFrom hcall
  unfold callRecogniser at hr
  split at hr
  · obtain ⟨after, hafter, _⟩ := Option.map_eq_some_iff.mp hr
    obtain ⟨hsuffix, hhead⟩ := hcallee hafter
    rw [hrest]
    exact List.mem_append_right pre (hsuffix.subset (List.mem_of_mem_head? hhead))
  · exact absurd hr (by simp)

/-! ### Class lists -/

/-- A name in quotes as an argument, with the blanks before it. -/
structure NameLiteral where
  gap : List Char
  quote : Char
  name : Tree.Name
  blank : gap.all isBlank = true := by decide
  isQuote : Mask.isQuote quote = true := by decide

namespace NameLiteral

def argument (l : NameLiteral) : Script.Argument where
  gap := l.gap
  quote := l.quote
  body := l.name.text
  blank := l.blank
  isQuote := l.isQuote
  inert := List.all_eq_true.mpr fun c hc => Tree.isInert_of_isBare (l.name.isBare c hc)

def pieces (l : NameLiteral) : List Piece :=
  [.other (l.gap ++ [l.quote]), .named .className l.name, .other [l.quote]]

/-- The pieces of arguments, with commas between them. -/
def listPieces : List NameLiteral → List Piece
  | [] => []
  | [l] => l.pieces
  | l :: m :: rest => l.pieces ++ .other [','] :: listPieces (m :: rest)

theorem textOf_pieces (l : NameLiteral) : Piece.textOf l.pieces = l.argument.text := by
  simp [pieces, Piece.text, Script.Argument.text, Script.Argument.literalText, argument]

/-- Written out, the names of a list are the arguments of a call. -/
theorem textOf_listPieces (ls : List NameLiteral) :
    Piece.textOf (listPieces ls) = Script.argumentsText (ls.map argument) := by
  fun_induction listPieces ls with
  | case1 => rfl
  | case2 l => exact l.textOf_pieces
  | case3 l m rest ih =>
    rw [Piece.textOf_append, l.textOf_pieces, Piece.textOf_cons, ih]
    rfl

/-- The references to the names that are written as arguments. -/
theorem referencesAt_listPieces (site : ReferenceSite) (offset : Nat) (ls : List NameLiteral) :
    Piece.referencesAt site offset (listPieces ls) =
      (((Script.literalsAt offset (ls.map argument)).map Script.Literal.body).filterMap
        singleName?).map (Reference.ofSlice .className site) := by
  have hquote : ∀ l : NameLiteral, byteLen [l.quote] = 1 := by
    intro l
    rw [byteLen_cons, Mask.utf8Size_of_isQuote l.isQuote]
    rfl
  have hone : ∀ (l : NameLiteral) (offset : Nat), Piece.referencesAt site offset l.pieces =
      [.ofSlice .className site ⟨offset + byteLen l.gap + 1, l.name.text⟩] := by
    intro l offset
    simp only [pieces, Piece.referencesAt, byteLen_append, hquote, Nat.add_assoc]
  -- the body of each literal is the name itself
  have hbody : ∀ (l : NameLiteral) (offset : Nat), singleName? (l.argument.literal offset).body =
      some ⟨offset + byteLen l.gap + 1, l.name.text⟩ := fun l offset => l.name.singleName?_eq _
  induction ls generalizing offset with
  | nil => rfl
  | cons l rest ih =>
    rw [List.map_cons, Script.literalsAt, List.map_cons, List.filterMap_cons_some (hbody l offset),
      List.map_cons]
    cases rest with
    | nil => exact hone l offset
    | cons m rest =>
      rw [listPieces, Piece.referencesAt_append, hone, Piece.referencesAt, l.textOf_pieces, ih]
      rfl

end NameLiteral

def classListEdit (method : String) (names : List NameLiteral) : List Piece :=
  .other ("x.classList.".toList ++ method.toList ++ ['(']) ::
    (NameLiteral.listPieces names ++ [.other [')']])

/-- The call is the only one of its text. -/
theorem findAll_classListCall {method : String} (hmethod : method ∈ classListMethods)
    {rest : List Char} (hrest : '(' ∉ rest) :
    classListCall.findAll (.ofText (("x.classList.".toList ++ method.toList) ++ '(' :: rest)) =
      [⟨12 + byteLen method.toList, '(' :: rest⟩] := by
  have hcall : classListCall ⟨2, "x.".toList.reverse,
      ("classList.".toList ++ method.toList) ++ '(' :: rest⟩ =
        some (⟨2 + byteLen ("classList.".toList ++ method.toList), '(' :: rest⟩,
          ("classList.".toList ++ method.toList).length + 1) := by
    refine callRecogniser_eq_some rfl ?_
    simp only [classListMethods, List.mem_cons, List.not_mem_nil, or_false] at hmethod
    rcases hmethod with rfl | rfl | rfl | rfl | rfl <;> rfl
  obtain ⟨callee, hcallee, heq⟩ := exists_readsCall_classListCall
  -- neither of the two places before the word starts a call
  show classListCall.scan ⟨2, "x.".toList.reverse,
    ("classList.".toList ++ method.toList) ++ '(' :: rest⟩ = _
  rw [Recogniser.scan_of_some (by simp) (by omega) hcall, heq, scan_calls_of_not_mem hcallee]
  · rw [byteLen_append, ← Nat.add_assoc]
    rfl
  · show '(' ∉ (("classList.".toList ++ method.toList) ++ '(' :: rest).drop _
    rw [← List.drop_drop, List.drop_left]
    exact hrest

/-- The names that are passed to a method of a class list are all found, and nothing else. -/
theorem classListReferences_classListEdit {method : String} (hmethod : method ∈ classListMethods)
    (names : List NameLiteral) :
    classListReferences (.ofText (Piece.textOf (classListEdit method names))) =
      Piece.referencesAt .classList 0 (classListEdit method names) := by
  have htext : Piece.textOf (classListEdit method names) =
      ("x.classList.".toList ++ method.toList) ++
        '(' :: (Script.argumentsText (names.map NameLiteral.argument) ++ [')']) := by
    simp [classListEdit, Piece.text, NameLiteral.textOf_listPieces]
  -- no second call begins among the arguments
  have hparen : '(' ∉ Script.argumentsText (names.map NameLiteral.argument) ++ [')'] := by
    refine List.not_mem_append (Script.not_mem_argumentsText (by decide) (by decide) (by decide) ?_)
      (by decide)
    intro a ha hmem
    obtain ⟨l, _, rfl⟩ := List.mem_map.mp ha
    exact Tree.ne_of_isBare (l.name.isBare _ hmem) (by decide) rfl
  have hopening : byteLen ("x.classList.".toList ++ method.toList ++ ['(']) =
      12 + byteLen method.toList + 1 := by
    rw [byteLen_append, byteLen_append]
    rfl
  unfold classListReferences
  rw [htext, findAll_classListCall hmethod hparen, List.flatMap_singleton,
    Script.filterMap_literalAt?_callArguments, ← NameLiteral.referencesAt_listPieces, classListEdit,
    Piece.referencesAt, hopening, Piece.referencesAt_append]
  simp [Piece.referencesAt]

/-! ### Selectors -/

/-- The pieces of a selector: classes and ids in a row. -/
def selectorPieces (parts : List (NameKind × Tree.Name)) : List Piece :=
  parts.flatMap fun p => [.other [p.1.marker], .named p.1 p.2]

theorem textOf_selectorPieces_cons (p : NameKind × Tree.Name)
    (parts : List (NameKind × Tree.Name)) :
    Piece.textOf (selectorPieces (p :: parts)) =
      p.1.marker :: (p.2.text ++ Piece.textOf (selectorPieces parts)) := rfl

/-- A character of a selector is a marker or a character of a name. -/
theorem forall_mem_selectorPieces {P : Char → Prop} (hdot : P '.') (hhash : P '#')
    (hbare : ∀ {c}, Tree.isBare c = true → P c) (parts : List (NameKind × Tree.Name)) :
    ∀ c ∈ Piece.textOf (selectorPieces parts), P c := by
  intro c hc
  obtain ⟨piece, hpiece, hc⟩ := List.mem_flatMap.mp hc
  obtain ⟨⟨kind, name⟩, _, hpiece⟩ := List.mem_flatMap.mp hpiece
  rcases List.mem_cons.mp hpiece with rfl | hname
  · rw [List.mem_singleton.mp hc]
    cases kind
    · exact hdot
    · exact hhash
  · rw [List.mem_singleton.mp hname] at hc
    exact hbare (name.isBare c hc)

/-- A part of a selector starts with a marker, so it ends the name before it. -/
theorem endsName_selectorPieces (parts : List (NameKind × Tree.Name)) :
    EndsName (Piece.textOf (selectorPieces parts)) := by
  cases parts with
  | nil => exact fun c hc => absurd hc (by simp [selectorPieces])
  | cons p parts => exact Tree.endsName_cons (by cases p.1 <;> decide) _

/-- Each part of a selector is read as its name, from its marker to the marker of the next part. -/
theorem tokens_selectorPieces (parts : List (NameKind × Tree.Name)) (offset : Nat)
    (before : List Char) :
    ((tokenRecogniser.scan ⟨offset, before, Piece.textOf (selectorPieces parts)⟩).filterMap id).map
        Reference.ofToken =
      Piece.referencesAt .querySelector offset (selectorPieces parts) := by
  induction parts generalizing offset before with
  | nil => rfl
  | cons p parts ih =>
    obtain ⟨kind, name⟩ := p
    have hdynamic : Mask.dynamic ∉ name.text :=
      fun hmem => (Tree.isBare_iff.mp (name.isBare _ hmem)).2.2.2 rfl
    have hfirst := tokenRecogniser_of_written name.written name.nonempty hdynamic name.noDigit kind
      offset before (endsName_selectorPieces parts)
    have hmarker : byteLen [kind.marker] = 1 := by cases kind <;> rfl
    -- the name is taken with its marker, and the next part starts behind it
    have hadvance : Cursor.advance (1 + name.text.length)
        ⟨offset, before, kind.marker :: (name.text ++ Piece.textOf (selectorPieces parts))⟩ =
          ⟨offset + 1 + byteLen name.text, name.text.reverse ++ kind.marker :: before,
            Piece.textOf (selectorPieces parts)⟩ := by
      have hall := Cursor.advance_append offset before ([kind.marker] ++ name.text)
        (Piece.textOf (selectorPieces parts))
      rw [List.length_append, byteLen_append, hmarker, ← Nat.add_assoc, List.reverse_append,
        List.append_assoc, List.append_assoc] at hall
      exact hall
    have hreferences : Piece.referencesAt .querySelector offset
        (selectorPieces ((kind, name) :: parts)) =
          .ofSlice kind .querySelector ⟨offset + 1, name.text⟩ ::
            Piece.referencesAt .querySelector (offset + 1 + byteLen name.text)
              (selectorPieces parts) := by
      rw [← hmarker]
      rfl
    rw [textOf_selectorPieces_cons, Recogniser.scan_of_some (by simp) (by omega) hfirst, hadvance,
      hreferences, ← ih]
    rfl

def selectorArgument (quote : Char) (hquote : Mask.isQuote quote = true)
    (parts : List (NameKind × Tree.Name)) : Script.Argument where
  gap := []
  quote := quote
  body := Piece.textOf (selectorPieces parts)
  isQuote := hquote
  inert := List.all_eq_true.mpr
    (forall_mem_selectorPieces (by decide) (by decide) Tree.isInert_of_isBare parts)

/-- A search for the elements that match a selector. -/
def selectorSearch (quote : Char) (parts : List (NameKind × Tree.Name)) : List Piece :=
  .other ("d.querySelector(".toList ++ [quote]) :: (selectorPieces parts ++ [.other [quote, ')']])

/-- The call is the only one of its text. -/
theorem findAll_selectorCall {rest : List Char} (hrest : '(' ∉ rest) :
    (callOf selectorFunctions).findAll (.ofText ("d.querySelector".toList ++ '(' :: rest)) =
      [⟨15, '(' :: rest⟩] := by
  have hcall : callOf selectorFunctions
      ⟨2, "d.".toList.reverse, "querySelector".toList ++ '(' :: rest⟩ =
        some (⟨15, '(' :: rest⟩, 14) := callRecogniser_eq_some rfl rfl
  -- neither of the two places before the word starts a call
  show (callOf selectorFunctions).scan
    ⟨2, "d.".toList.reverse, "querySelector".toList ++ '(' :: rest⟩ = _
  rw [Recogniser.scan_of_some (by simp) (by decide) hcall, callOf,
    scan_calls_of_not_mem (readsCall_atParenthesis?.afterWord? selectorFunctions)]
  exact hrest

/-- The names of a selector are all found, and nothing else. -/
theorem selectorCallReferences_selectorSearch {quote : Char} (hquote : Mask.isQuote quote = true)
    (parts : List (NameKind × Tree.Name)) :
    selectorCallReferences (.ofText (Piece.textOf (selectorSearch quote parts))) =
      Piece.referencesAt .querySelector 0 (selectorSearch quote parts) := by
  have htext : Piece.textOf (selectorSearch quote parts) = "d.querySelector".toList ++
      '(' :: ((selectorArgument quote hquote parts).text ++ [')']) := by
    simp [selectorSearch, Piece.text, selectorArgument, Script.Argument.text,
      Script.Argument.literalText]
  have hparen : '(' ∉ (selectorArgument quote hquote parts).text ++ [')'] := by
    have hbody : '(' ∉ Piece.textOf (selectorPieces parts) := fun hmem =>
      forall_mem_selectorPieces (P := fun c => c ≠ '(') (by decide) (by decide)
        (fun h => Tree.ne_of_isBare h (by decide)) parts _ hmem rfl
    have hargument : '(' ∉ Script.argumentsText [selectorArgument quote hquote parts] :=
      Script.not_mem_argumentsText (by decide) (by decide) (by decide) fun a ha => by
        rw [List.mem_singleton.mp ha]
        exact hbody
    exact List.not_mem_append hargument (by decide)
  have hselector : selectorText ((selectorArgument quote hquote parts).literal 16) =
      ⟨17, Piece.textOf (selectorPieces parts)⟩ := by
    -- a template is masked, but there is nothing to mask
    have hmask : Placeholder.maskAll (Piece.textOf (selectorPieces parts)) =
        Piece.textOf (selectorPieces parts) :=
      Placeholder.maskAll_of_not_isOpening
        (forall_mem_selectorPieces (by decide) (by decide) Tree.not_isOpening_of_isBare parts)
    unfold selectorText
    split
    · exact congrArg (Slice.mk 17) hmask
    · rfl
  have hopening : byteLen ("d.querySelector(".toList ++ [quote]) = 17 := by
    rw [byteLen_append, byteLen_cons, Mask.utf8Size_of_isQuote hquote]
    rfl
  have hcalls := findAll_selectorCall hparen
  unfold selectorCallReferences
  simp only [htext, hcalls, List.flatMap_singleton, firstLiteral?_argument, hselector]
  show ((tokenRecogniser.scan ⟨17, [], _⟩).filterMap id).map Reference.ofToken = _
  rw [tokens_selectorPieces, selectorSearch, Piece.referencesAt, hopening,
    Piece.referencesAt_append]
  simp [Piece.referencesAt]

/-- **Written idioms.** Whatever names are written in a class attribute, as arguments of a method of
a class list, or as the parts of a selector that a search is given: the references of the text are
those to the names, in order, each at the place where its name stands. -/
theorem written_names_are_read_back :
    (∀ quote, quote = '\x27' ∨ quote = '\x22' → ∀ value : ClassValue,
      classAttributeReferences (.ofText (Piece.textOf (classAttribute quote value))) =
        Piece.referencesAt .classAttribute 0 (classAttribute quote value)) ∧
    (∀ method ∈ classListMethods, ∀ names : List NameLiteral,
      classListReferences (.ofText (Piece.textOf (classListEdit method names))) =
        Piece.referencesAt .classList 0 (classListEdit method names)) ∧
    (∀ quote, Mask.isQuote quote = true → ∀ parts : List (NameKind × Tree.Name),
      selectorCallReferences (.ofText (Piece.textOf (selectorSearch quote parts))) =
        Piece.referencesAt .querySelector 0 (selectorSearch quote parts)) :=
  ⟨fun _ hquote => classAttributeReferences_classAttribute hquote,
    fun _ hmethod => classListReferences_classListEdit hmethod,
    fun _ hquote => selectorCallReferences_selectorSearch hquote⟩

/-- Two names in each idiom, with all three quotes. -/
theorem written_names_are_read_back_two_names :
    let a : Tree.Name := { text := "a".toList }
    let b : Tree.Name := { text := "b-é".toList }
    let tag := classAttribute '\x22' { names := [([], a), ("\n ".toList, b)], trail := [' '] }
    let edit := classListEdit "toggle"
      [{ gap := [], quote := '\x27', name := a }, { gap := [' '], quote := '\x60', name := b }]
    let search := selectorSearch '\x60' [(.idName, a), (.className, b)]
    Piece.textOf tag = "<p class=\"a\n b-é \">".toList ∧
      classAttributeReferences (.ofText (Piece.textOf tag)) =
        [⟨10, 1, .className, "a", .classAttribute⟩, ⟨13, 4, .className, "b-é", .classAttribute⟩] ∧
    Piece.textOf edit = "x.classList.toggle('a', `b-é`)".toList ∧
      classListReferences (.ofText (Piece.textOf edit)) =
        [⟨20, 1, .className, "a", .classList⟩, ⟨25, 4, .className, "b-é", .classList⟩] ∧
    Piece.textOf search = "d.querySelector(`#a.b-é`)".toList ∧
      selectorCallReferences (.ofText (Piece.textOf search)) =
        [⟨18, 1, .idName, "a", .querySelector⟩, ⟨20, 4, .className, "b-é", .querySelector⟩] := by
  intro a b tag edit search
  obtain ⟨htag, hedit, hsearch⟩ := written_names_are_read_back
  exact ⟨by decide, htag _ (.inr rfl) _, by decide, hedit _ (by decide) _, by decide,
    hsearch _ (by decide) _⟩

end StyleAudit
