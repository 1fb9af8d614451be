import StyleAudit.Proofs.OpenTags

/-!
# Style elements

A page is text with style elements in it. Each element is read from the first place where its name
is opened to the first end tag, and the next one is looked for behind that. So the elements of a
page are found one by one, whatever stands between them and in them, as long as the text before an
element does not open one and the text of an element does not hold an end tag.

* **`Markup.styleBody_append`**: the text of an element goes on where no end tag starts.
* **`Markup.styleRecogniser_start`** reads one element, with or without an end tag.
* **`Markup.scan_elements`** goes through the elements of a page.
-/

namespace StyleAudit.Markup

open Text

/-- The word that an end tag of a style element starts with. -/
def styleEnd : List Char := "</style".toList

/-! ### The text of an element -/

/-- Text without an end tag belongs to the element. -/
theorem styleBody_append {css rest : List Char} (hcss : ¬Occurs styleEnd css)
    (hrest : ∀ d ∈ rest.head?, d = '<') :
    styleBody (css ++ rest) = (css ++ (styleBody rest).1, (styleBody rest).2) := by
  induction css with
  | nil => rfl
  | cons c css ih =>
    have hnone : afterStyleEnd? (c :: (css ++ rest)) = none := by
      have hhere : ¬Occurs styleEnd ([] ++ c :: css) := hcss
      have hword : afterFolded? styleEnd (c :: (css ++ rest)) = none :=
        afterFolded?_of_not_occurs (by decide) hhere hrest
      show (afterFolded? styleEnd _).bind _ = none
      rw [hword]
      rfl
    rw [List.cons_append, styleBody, hnone, ih fun h => hcss (h.of_suffix (List.suffix_cons c css))]
    rfl

/-- The end tag of a style element. -/
theorem styleBody_closing {closing gap : List Char} (hclosing : Spells styleEnd closing)
    (hgap : gap.all isBlank = true) (rest : List Char) :
    styleBody (closing ++ (gap ++ '>' :: rest)) = ([], rest) := by
  have hafter : afterStyleEnd? (closing ++ (gap ++ '>' :: rest)) = some rest := by
    have hdrop : (gap ++ '>' :: rest).dropWhile isBlank = '>' :: rest := by
      rw [List.dropWhile_append_of_pos (List.all_eq_true.mp hgap)]
      rfl
    show (afterFolded? styleEnd _).bind _ = _
    rw [afterFolded?_append hclosing, Option.bind_some, hdrop]
    rfl
  obtain ⟨more, _, rfl⟩ := Spells.exists_angle hclosing
  rw [List.cons_append] at hafter ⊢
  rw [styleBody, hafter]

/-! ### Elements of a page -/

/-- A style element without its end tag, and the text in front of it. -/
structure StyleStart where
  front : List Char
  opening : List Char
  attributes : List Char
  css : List Char
  apart : ¬Occurs (tagWord "style") front := by decide
  opens : Spells (tagWord "style") opening := by decide
  unended : '>' ∉ attributes := by decide
  spaced : attributes.head?.all isBlank = true := by decide
  inner : ¬Occurs styleEnd css := by decide

namespace StyleStart

/-- The open tag. -/
def tag (e : StyleStart) : List Char := e.opening ++ (e.attributes ++ ['>'])

def text (e : StyleStart) : List Char := e.front ++ (e.tag ++ e.css)

/-- The text of the element, when `front` starts at an offset. -/
def block (offset : Nat) (e : StyleStart) : Slice :=
  ⟨offset + byteLen e.front + byteLen e.tag, e.css⟩

end StyleStart

/-- A style element and the text in front of it. -/
structure StyleElement extends StyleStart where
  closing : List Char
  gap : List Char
  closes : Spells styleEnd closing := by decide
  blank : gap.all isBlank = true := by decide

namespace StyleElement

def endTag (e : StyleElement) : List Char := e.closing ++ (e.gap ++ ['>'])

def text (e : StyleElement) : List Char := e.toStyleStart.text ++ e.endTag

end StyleElement

/-- A page with style elements, before its last piece of text. -/
def pageText (elements : List StyleElement) : List Char := elements.flatMap StyleElement.text

/-- Where no style tag opens, no style element starts. -/
theorem styleRecogniser_of_openTag? (cur : Cursor) (h : openTag? "style" cur.rest = none) :
    styleRecogniser cur = none := by
  show (openTag? "style" cur.rest).bind _ = none
  rw [h]
  rfl

/-- An element is read up to where its text and its end tag, if it has one, lead. -/
theorem styleRecogniser_start (e : StyleStart) {ending rest : List Char} (offset : Nat)
    (before : List Char) (hending : styleBody (ending ++ rest) = ([], rest))
    (hangle : ∀ d ∈ (ending ++ rest).head?, d = '<') :
    styleRecogniser ⟨offset, before, e.tag ++ e.css ++ ending ++ rest⟩ =
      some (⟨offset + byteLen e.tag, e.css⟩, (e.tag ++ e.css ++ ending).length) := by
  have hspaced : ∀ c ∈ e.attributes.head?, isBlank c = true := (Option.all_eq_true _ _).mp e.spaced
  have htag := openTag?_append e.opens e.unended hspaced (e.css ++ (ending ++ rest))
  have hcursor : e.opening ++ (e.attributes ++ '>' :: (e.css ++ (ending ++ rest))) =
      e.tag ++ (e.css ++ (ending ++ rest)) := by
    simp [StyleStart.tag]
  rw [hcursor] at htag
  -- what follows starts with a `<` or is empty, so no end tag begins in the text and ends behind it
  have hbody : styleBody (e.css ++ (ending ++ rest)) = (e.css, rest) := by
    rw [styleBody_append e.inner hangle, hending, List.append_nil]
  have hlength := Cursor.distance_append offset before (e.tag ++ e.css ++ ending) rest
  have hseek := Cursor.seek_append offset before e.tag (e.css ++ (ending ++ rest))
  rw [List.append_assoc, List.append_assoc] at hlength ⊢
  show (openTag? "style" (e.tag ++ (e.css ++ (ending ++ rest)))).bind _ = _
  rw [htag, Option.bind_some]
  simp only [hbody, hseek, hlength]
  rfl

/-- One element, with the text in front of it and what ends it. -/
theorem scan_start (e : StyleStart) {ending rest : List Char}
    (hending : styleBody (ending ++ rest) = ([], rest))
    (hangle : ∀ d ∈ (ending ++ rest).head?, d = '<') (offset : Nat) (before : List Char) :
    styleRecogniser.scan ⟨offset, before, e.text ++ ending ++ rest⟩ =
      e.block offset :: styleRecogniser.scan ⟨offset + byteLen (e.text ++ ending),
        (e.text ++ ending).reverse ++ before, rest⟩ := by
  have htext : e.text ++ ending ++ rest = e.front ++ (e.tag ++ e.css ++ ending ++ rest) := by
    simp [StyleStart.text]
  have hhead : (e.tag ++ e.css ++ ending).head? = some '<' := by
    simp only [StyleStart.tag, List.append_assoc]
    exact e.opens.head?_append _
  have hread := styleRecogniser_start e (offset + byteLen e.front) (e.front.reverse ++ before)
    hending hangle
  rw [htext, scan_append_of_some (by decide) styleRecogniser_of_openTag? e.apart hhead hread]
  simp only [StyleStart.text, StyleStart.block, List.append_assoc]

/-- An element is found, and the scan goes on behind it. -/
theorem scan_element (e : StyleElement) (offset : Nat) (before rest : List Char) :
    styleRecogniser.scan ⟨offset, before, e.text ++ rest⟩ =
      e.block offset ::
        styleRecogniser.scan ⟨offset + byteLen e.text, e.text.reverse ++ before, rest⟩ := by
  have hassoc : e.endTag ++ rest = e.closing ++ (e.gap ++ '>' :: rest) := by
    simp [StyleElement.endTag]
  have hending : styleBody (e.endTag ++ rest) = ([], rest) := by
    rw [hassoc]
    exact styleBody_closing e.closes e.blank rest
  have hangle : ∀ d ∈ (e.endTag ++ rest).head?, d = '<' := by
    rw [hassoc, e.closes.head?_append]
    exact fun d hd => (Option.some.inj hd).symm
  exact scan_start e.toStyleStart hending hangle offset before

/-- Elements with end tags are found one by one, and what follows them is searched afterwards. -/
theorem scan_elements (elements : List StyleElement) (offset : Nat) (before rest : List Char) :
    styleRecogniser.scan ⟨offset, before, pageText elements ++ rest⟩ =
      (elements.mapIdx fun i e => e.block (offset + byteLen (pageText (elements.take i)))) ++
        styleRecogniser.scan ⟨offset + byteLen (pageText elements),
          (pageText elements).reverse ++ before, rest⟩ := by
  induction elements generalizing offset before with
  | nil => rfl
  | cons e elements ih =>
    have htext : pageText (e :: elements) ++ rest = e.text ++ (pageText elements ++ rest) := by
      simp [pageText]
    rw [htext, scan_element, ih, List.mapIdx_cons, List.cons_append]
    simp only [List.take_succ_cons, pageText, List.flatMap_cons, byteLen_append, Nat.add_assoc,
      List.reverse_append, List.append_assoc]
    rfl

/-- **Style elements are extracted.** A page is a row of style elements, each with text in front of
it that opens none, and text behind the last one. Tags may be spelled in any mix of cases, the
attributes of an open tag are set apart by a blank and hold no `>`, and the text of an element holds
no end tag. What is found are the texts of the elements, in order, each at the place where it stands
in the page. If the last element has no end tag, its text runs to the end of the page. -/
theorem style_elements_are_extracted (elements : List StyleElement) :
    (∀ tail : List Char, ¬Occurs (tagWord "style") tail →
      styleBlocks (.ofText (pageText elements ++ tail)) =
        elements.mapIdx fun i e => e.block (byteLen (pageText (elements.take i)))) ∧
    ∀ last : StyleStart,
      styleBlocks (.ofText (pageText elements ++ last.text)) =
        (elements.mapIdx fun i e => e.block (byteLen (pageText (elements.take i)))) ++
          [last.block (byteLen (pageText elements))] := by
  -- the elements of the page come first, whatever follows them
  have hpage : ∀ rest, styleBlocks (.ofText (pageText elements ++ rest)) =
      (elements.mapIdx fun i e => e.block (byteLen (pageText (elements.take i)))) ++
        styleRecogniser.scan ⟨byteLen (pageText elements), (pageText elements).reverse, rest⟩ := by
    intro rest
    have hscan := scan_elements elements 0 [] rest
    simp only [Nat.zero_add, List.append_nil] at hscan
    exact hscan
  refine ⟨fun tail htail => ?_, fun last => ?_⟩
  · rw [hpage, scan_of_not_occurs (by decide) styleRecogniser_of_openTag? htail, List.append_nil]
  · -- an element that is not closed is ended by nothing
    have hended : styleBody ([] ++ []) = ([], []) := rfl
    have hlast := scan_start last hended (by simp)
    simp only [List.append_nil] at hlast
    rw [hpage, hlast, Recogniser.scan_of_rest_nil rfl]

/-- An open tag and the start of an end tag are text inside an element, `ſ` is an `s`, and offsets
count bytes. -/
theorem style_elements_are_extracted_long_s :
    let first : StyleElement :=
      { front := ['é'], opening := "<STYLE".toList, attributes := " id=a".toList
        css := "p</styl".toList, closing := "</ſtyle".toList, gap := ['\n'] }
    let second : StyleElement :=
      { front := [], opening := "<style".toList, attributes := [], css := "<style>".toList
        closing := "</style".toList, gap := [] }
    let last : StyleStart := { front := ['-'], opening := "<style".toList, attributes := []
                               css := "</sty".toList }
    pageText [first, second] = "é<STYLE id=a>p</styl</ſtyle\n><style><style></style>".toList ∧
    ¬Occurs (tagWord "style") "</style>".toList ∧
    styleBlocks (.ofText (pageText [first, second] ++ "</style>".toList)) =
      [⟨14, "p</styl".toList⟩, ⟨38, "<style>".toList⟩] ∧
    styleBlocks (.ofText (pageText [first] ++ last.text)) =
      [⟨14, "p</styl".toList⟩, ⟨39, "</sty".toList⟩] := by
  intro first second last
  have htail : ¬Occurs (tagWord "style") "</style>".toList := by decide
  have hclosed := (style_elements_are_extracted [first, second]).1 _ htail
  have hopen := (style_elements_are_extracted [first]).2 last
  exact ⟨by decide, htail, hclosed.trans (by decide), hopen.trans (by decide)⟩

end StyleAudit.Markup
