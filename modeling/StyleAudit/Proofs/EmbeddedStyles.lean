import StyleAudit.Bytes.Stylesheet
import StyleAudit.Proofs.MaskedText
import StyleAudit.Proofs.ReportedPlaces

/-!
# Stylesheets inside of pages

A style element is read as a stylesheet of its own that starts somewhere in the page. Nothing that
is found in it depends on where it starts, except for offsets, and lines and columns are those of
the page.

* **`tokens_shift`**, **`branches_shift`** and **`Stylesheet.segmentsFrom_shift`** are about the
  cuts of a stylesheet, **`Stylesheet.declaredTokens_shift`** about all of them together.
* **`Stylesheet.selectorsAt_embedded`** adds positions.
* **`Markup.styleBlocks_ordered`**: style elements follow each other, so their declarations do.
* **`embedded_styles_are_remapped`** is the result for pages.
-/

namespace StyleAudit

open Text

/-! ### Names and cuts of a text that is shifted -/

theorem ofRaw?_shift (base offset : Nat) (kind : NameKind) (raw : List Char) :
    Token.ofRaw? (base + offset) kind raw =
      (Token.ofRaw? offset kind raw).map (Token.shift base) := by
  simp only [Token.ofRaw?]
  split <;> rfl

/-- Moving a slice moves its tokens. -/
theorem tokens_shift (base : Nat) (s : Slice) :
    tokens (s.shift base) = (tokens s).map (Token.shift base) := by
  have hfind : tokenRecogniser.findAll (s.shift base) =
      (tokenRecogniser.findAll s).map (Option.map (Token.shift base)) := by
    apply Recogniser.findAll_shift
    rintro ⟨offset, before, rest⟩
    cases rest with
    | nil => rfl
    | cons c cs =>
      show tokenRecogniser ⟨base + offset, before, c :: cs⟩ = _
      simp only [tokenRecogniser, ofRaw?_shift]
      -- an escape, an attribute or a string has no offset; a name has that of its marker
      split_ifs
      · rfl
      · rfl
      · rfl
      · cases NameKind.ofMarker? c <;> rfl
  unfold tokens
  rw [hfind, List.filterMap_map, List.map_filterMap]
  rfl

/-- Moving a prelude moves its branches. -/
theorem branchesFrom_shift (base depth start : Nat) (branch : List Char)
    (painted : List (Char × Mask.Paint)) :
    branchesFrom depth (base + start) branch painted =
      (branchesFrom depth start branch painted).map (Slice.shift base) := by
  induction painted generalizing depth start branch with
  | nil => rfl
  | cons first rest ih =>
    obtain ⟨c, paint⟩ := first
    unfold branchesFrom
    rw [show base + start + byteLen branch + 1 = base + (start + byteLen branch + 1) by omega]
    simp only [ih]
    split_ifs <;> rfl

theorem branches_shift (base : Nat) (s : Slice) :
    branches (s.shift base) = (branches s).map (Slice.shift base) :=
  branchesFrom_shift base 0 s.offset [] (Mask.paint s.text)

theorem Slice.trim_shift (p : Char → Bool) (base : Nat) (s : Slice) :
    (s.shift base).trim p = (s.trim p).shift base := by
  unfold trim trimLeft trimRight shift
  rw [Nat.add_assoc]

namespace Stylesheet

/-- The stretch seen from a text that starts `base` bytes earlier. -/
def Segment.shift (base : Nat) (segment : Segment) : Segment :=
  ⟨segment.slice.shift base, segment.closer⟩

/-- Moving a stylesheet moves its segments. -/
theorem segmentsFrom_shift (base start : Nat) (stretch cs : List Char) :
    segmentsFrom (base + start) stretch cs =
      (segmentsFrom start stretch cs).map (Segment.shift base) := by
  induction cs generalizing start stretch with
  | nil => rfl
  | cons c cs ih =>
    unfold segmentsFrom
    rw [show base + start + byteLen stretch + 1 = base + (start + byteLen stretch + 1) by omega]
    simp only [ih]
    split_ifs <;> rfl

/-- Whether a segment is a prelude does not depend on its place. -/
theorem prelude?_shift (base : Nat) (segment : Segment) :
    (segment.shift base).prelude? = segment.prelude?.map (Slice.shift base) := by
  unfold Segment.prelude?
  simp only [Segment.shift, Slice.trim_shift]
  rw [show ((segment.slice.trim isBlank).shift base).text =
    (segment.slice.trim isBlank).text from rfl]
  split_ifs <;> rfl

/-- Moving a stylesheet moves what it declares. -/
theorem declaredTokens_shift (base : Nat) (css : Slice) :
    declaredTokens (css.shift base) = (declaredTokens css).map (Token.shift base) := by
  have hpreludes : preludes (css.shift base) = (preludes css).map (Slice.shift base) := by
    show (segmentsFrom (base + css.offset) [] (mask css.text)).filterMap _ = _
    rw [segmentsFrom_shift, List.filterMap_map, preludes, List.map_filterMap]
    exact congrArg (List.filterMap · _) (funext (prelude?_shift base))
  have hnames : ∀ prelude : Slice,
      preludeTokens (prelude.shift base) = (preludeTokens prelude).map (Token.shift base) := by
    intro prelude
    unfold preludeTokens
    rw [branches_shift, List.flatMap_map, List.map_flatMap]
    exact congrArg (List.flatMap · _) (funext (tokens_shift base))
  unfold declaredTokens
  rw [hpreludes, List.flatMap_map, List.map_flatMap]
  exact congrArg (List.flatMap · _) (funext hnames)

end Stylesheet

/-! ### Positions in the page -/

/-- The declaration seen from a text in which `pre` stands before its stylesheet. -/
def Selector.shift (pre : List Char) (s : Selector) : Selector :=
  { s.toToken.shift (byteLen pre) with position := Position.shift (endPosition pre) s.position }

namespace Stylesheet

/-- The place of a token of an embedded stylesheet is its place in the stylesheet, counted on from
the end of the text before it. -/
theorem locate_embedded (pre post : List Char) {css : List Char} {t : Token}
    (h : t ∈ declaredTokens (.ofText css)) :
    locate (.ofText (pre ++ css ++ post)) (t.shift (byteLen pre)) =
      (locate (.ofText css) t).shift pre := by
  have hoffset := lt_byteLen_of_mem_declaredTokens h
  obtain ⟨p, hp, _⟩ := LineIndex.exists_position?_of_lt hoffset
  have hpage := LineIndex.position?_embedded pre post hoffset
  rw [hp, Option.map_some] at hpage
  unfold locate Selector.shift
  simp only [Token.shift, hp, hpage, Option.getD_some]

/-- An embedded stylesheet declares what it declares alone, moved behind the text before it. -/
theorem selectorsAt_embedded (pre css post : List Char) :
    selectorsAt ⟨byteLen pre, css⟩ (.ofText (pre ++ css ++ post)) =
      (selectors css).map (Selector.shift pre) := by
  have htokens : declaredTokens ⟨byteLen pre, css⟩ =
      (declaredTokens (.ofText css)).map (Token.shift (byteLen pre)) :=
    declaredTokens_shift (byteLen pre) (.ofText css)
  unfold selectors selectorsAt
  rw [htokens, List.map_map, List.map_map]
  exact List.map_congr_left fun t ht => locate_embedded pre post ht

/-- Places of declarations are not larger than the text. -/
theorem position_le_of_mem_selectorsAt {pre css post : List Char} {s : Selector}
    (h : s ∈ selectorsAt ⟨byteLen pre, css⟩ (.ofText (pre ++ css ++ post))) :
    s.position.line + s.position.col ≤ s.offset ∧ s.offset < byteLen (pre ++ css ++ post) := by
  obtain ⟨t, ht, rfl⟩ := List.mem_map.mp h
  have hoffset : t.offset < byteLen (pre ++ css ++ post) := by
    have hstop : t.offset < byteLen pre + byteLen css := lt_stop_of_mem_declaredTokens ht
    rw [byteLen_append, byteLen_append]
    omega
  obtain ⟨p, hp, hle⟩ := LineIndex.exists_position?_of_lt hoffset
  refine ⟨?_, hoffset⟩
  unfold locate
  rw [hp]
  exact hle

/-- Declarations follow each other, within their stylesheet. -/
theorem declaredTokens_ordered (css : Slice) :
    (declaredTokens css).Pairwise (fun a b => a.stop ≤ b.offset) ∧
      ∀ t ∈ declaredTokens css, css.offset ≤ t.offset ∧ t.stop ≤ css.stop := by
  have hparts : Slice.Parts ((preludes css).flatMap branches) ⟨css.offset, mask css.text⟩ :=
    (parts_preludes css).flatMap fun s _ => parts_branches s
  have hstop : Slice.stop ⟨css.offset, mask css.text⟩ = css.stop := by
    unfold Slice.stop
    rw [byteLen_mask]
  -- prelude by prelude and branch by branch is one pass over all branches
  have hpieces : declaredTokens css = ((preludes css).flatMap branches).flatMap tokens :=
    List.flatMap_assoc.symm
  rw [hpieces]
  refine ⟨hparts.tokens_ordered, fun t ht => ?_⟩
  obtain ⟨piece, hpiece, ht⟩ := List.mem_flatMap.mp ht
  have hbounds := (hparts.cut piece hpiece).bounds
  have hwithin := (tokens_ordered piece).2 t ht
  rw [hstop] at hbounds
  exact ⟨hbounds.1.trans hwithin.1, hwithin.2.trans hbounds.2⟩

end Stylesheet

/-! ### Style elements of a page -/

theorem Cursor.offset_seek {cur : Cursor} {front rest : List Char} (h : cur.rest = front ++ rest) :
    (cur.seek rest).offset = cur.offset + byteLen front := by
  have hdistance : cur.distance rest = front.length := by
    rw [distance, h, List.length_append, Nat.add_sub_cancel]
  rw [seek, advance, hdistance, h, List.take_left]

namespace Markup

/-- The style blocks of a document do not overlap and come in the order of the text. -/
theorem styleBlocks_ordered (s : Slice) :
    (styleBlocks s).Pairwise fun a b => a.stop ≤ b.offset := by
  refine Recogniser.findAll_ordered (fun {cur found n} hr => ?_) s
  obtain ⟨⟨attributes, inner⟩, htag, hr⟩ := Option.bind_eq_some_iff.mp hr
  cases hr
  obtain ⟨c, tag, htag⟩ := exists_cons_suffix_of_openTag? htag
  obtain ⟨closing, hclosing⟩ := exists_append_styleBody inner
  have hinner : cur.rest = (tag ++ [c]) ++ inner := by
    rw [← htag, List.append_assoc, List.singleton_append]
  -- the tag, the style body and its closing tag are taken together
  have hrest : cur.rest = (tag ++ [c] ++ (styleBody inner).1 ++ closing) ++
      (styleBody inner).2 := by
    rw [hinner]
    conv_lhs => rw [hclosing]
    simp only [List.append_assoc]
  have hstart := Cursor.offset_seek hinner
  have hend : (cur.advance (cur.distance (styleBody inner).2)).offset = _ :=
    Cursor.offset_seek hrest
  refine ⟨?_, ?_, ?_⟩
  · -- at least the last character of the tag is taken
    show 0 < cur.rest.length - (styleBody inner).2.length
    rw [hrest]
    simp only [List.length_append, List.length_singleton]
    omega
  · show cur.offset ≤ (cur.seek inner).offset
    omega
  · show (cur.seek inner).offset + byteLen (styleBody inner).1 ≤ _
    rw [hend, hstart]
    simp only [byteLen_append]
    omega

/-- Declarations of a page follow each other, also across style elements. -/
theorem declaredTokens_ordered (s : Slice) :
    ((styleBlocks s).flatMap Stylesheet.declaredTokens).Pairwise fun a b => a.stop ≤ b.offset := by
  refine List.pairwise_flatMap.mpr ⟨fun css _ => (Stylesheet.declaredTokens_ordered css).1, ?_⟩
  refine (styleBlocks_ordered s).imp fun {a b} hab x hx y hy => ?_
  have hx := (Stylesheet.declaredTokens_ordered a).2 x hx
  have hy := (Stylesheet.declaredTokens_ordered b).2 y hy
  omega

end Markup

/-- The part of a text before a piece of it. -/
def Slice.textBefore (piece : Slice) (text : List Char) : List Char :=
  ((splitBytes? piece.offset text).map Prod.fst).getD []

/-- The text splits into what stands before a piece, the piece, and the rest. -/
theorem Slice.Inside.exists_textBefore {piece : Slice} {text : List Char}
    (h : piece.Inside (.ofText text)) :
    ∃ post, text = piece.textBefore text ++ piece.text ++ post ∧
      byteLen (piece.textBefore text) = piece.offset := by
  obtain ⟨pre, post, htext, hoffset⟩ := h.isPartOf
  have hbefore : piece.textBefore text = pre := by
    rw [textBefore, ← hoffset, htext, List.append_assoc, splitBytes?_append]
    rfl
  rw [hbefore]
  exact ⟨post, htext, hoffset⟩

namespace Document

variable {d : Document}

/-- A markup document declares what its style blocks declare, each behind the text before it. -/
theorem selectors_of_markup (hkind : d.kind = .markup) :
    d.selectors = (Markup.styleBlocks (.ofText d.text.toList)).flatMap fun block =>
      (Stylesheet.selectors block.text).map (Selector.shift (block.textBefore d.text.toList)) := by
  unfold Document.selectors
  rw [hkind]
  refine List.flatMap_congr fun block hblock => ?_
  obtain ⟨post, htext, hoffset⟩ := (Markup.inside_of_mem_styleBlocks hblock).exists_textBefore
  have hembedded :=
    Stylesheet.selectorsAt_embedded (block.textBefore d.text.toList) block.text post
  rw [← htext, hoffset] at hembedded
  exact hembedded

/-- The declarations of a markup document come in the order of its text. -/
theorem selectors_ordered_of_markup (hkind : d.kind = .markup) :
    (d.selectors.map fun s => s.offset).Pairwise (· < ·) := by
  have hoffsets : (d.selectors.map fun s => s.offset) =
      ((Markup.styleBlocks (.ofText d.text.toList)).flatMap Stylesheet.declaredTokens).map
        Token.offset := by
    unfold Document.selectors
    rw [hkind]
    simp only [Stylesheet.selectorsAt, List.map_flatMap, List.map_map]
    rfl
  rw [hoffsets, List.pairwise_map]
  refine (Markup.declaredTokens_ordered _).imp fun {a b} hab => ?_
  unfold Token.stop at hab
  omega

/-- At the offset of a declaration stands its marker. -/
theorem marker_of_mem_selectors {s : Selector} (hkind : d.kind = .markup) (h : s ∈ d.selectors) :
    String.Pos.Raw.extract d.text ⟨s.offset⟩ ⟨s.offset + 1⟩ = s.kind.marker.toString := by
  unfold Document.selectors at h
  rw [hkind] at h
  obtain ⟨block, hblock, h⟩ := List.mem_flatMap.mp h
  obtain ⟨t, ht, rfl⟩ := List.mem_map.mp h
  obtain ⟨front, raw, rest, htext, hoffset, _⟩ := Stylesheet.exists_split_of_mem_declaredTokens ht
  have hmarker : Slice.Inside ⟨t.offset, [t.kind.marker]⟩ block :=
    ⟨front, raw ++ rest, by simpa using htext, hoffset⟩
  have hextract := (hmarker.trans (Markup.inside_of_mem_styleBlocks hblock)).isPartOf.extract
  rw [Slice.stop, byteLen_cons, byteLen_nil, t.kind.utf8Size_marker] at hextract
  exact hextract

end Document

/-- What is not in the cache is read from the document. -/
theorem Audit.ownSelectors_of_miss {a : Audit} {d : Document} {p : Progress}
    (h : (p.ask a.world.now d.key d.version).1 = none) : (a.ownSelectors d p).1 = d.selectors := by
  unfold ownSelectors Document.ownPlan
  rw [Plan.run_bind, Plan.run_ask, h]
  rfl

/-- **Stylesheets inside of pages are remapped.** The declarations of a stylesheet with a text
before it, and any text after it, are those of the stylesheet on its own. Offsets move by the bytes
before it, lines by the line feeds before it, and columns of its first line by what stands before it
on that line. No number exceeds the size of the text.

The declarations of a page that the cache does not know are those of its style elements in order,
each with the text before it. Their offsets increase and point at their markers. -/
theorem embedded_styles_are_remapped :
    (∀ pre css post : List Char,
      let found := Stylesheet.selectorsAt ⟨byteLen pre, css⟩ (.ofText (pre ++ css ++ post))
      found = (Stylesheet.selectors css).map (Selector.shift pre) ∧
        ∀ s ∈ found, s.position.line + s.position.col ≤ s.offset ∧
          s.offset < byteLen (pre ++ css ++ post)) ∧
    ∀ (a : Audit) (d : Document) (p : Progress), d.kind = .markup →
      (p.ask a.world.now d.key d.version).1 = none →
        let text := d.text.toList
        let blocks := Markup.styleBlocks (.ofText text)
        let found := (a.ownSelectors d p).1
        (found = blocks.flatMap fun block =>
          (Stylesheet.selectors block.text).map (Selector.shift (block.textBefore text))) ∧
        (∀ block ∈ blocks, ∃ post, text = block.textBefore text ++ block.text ++ post ∧
          byteLen (block.textBefore text) = block.offset) ∧
        (found.map fun s => s.offset).Pairwise (· < ·) ∧
        ∀ s ∈ found,
          String.Pos.Raw.extract d.text ⟨s.offset⟩ ⟨s.offset + 1⟩ = s.kind.marker.toString := by
  refine ⟨fun pre css post => ?_, fun a d p hkind hmiss => ?_⟩
  · exact ⟨Stylesheet.selectorsAt_embedded pre css post,
      fun s hs => Stylesheet.position_le_of_mem_selectorsAt hs⟩
  · intro text blocks found
    have hfound : found = d.selectors := Audit.ownSelectors_of_miss hmiss
    rw [hfound]
    refine ⟨Document.selectors_of_markup hkind, fun block hblock => ?_,
      Document.selectors_ordered_of_markup hkind,
      fun s hs => Document.marker_of_mem_selectors hkind hs⟩
    exact (Markup.inside_of_mem_styleBlocks hblock).exists_textBefore

namespace TwoElements

/-- The first element starts in the middle of a line and ends on the next one. -/
def page : Document where
  key := "untitled:3"
  version := 2
  text := "<p>\n\té<style>.a\x7b\x7d\n#b\x7b\x7d</style>\n<STYLE x>.c\x7b\x7d"
  kind := .markup

def audit : Audit := ⟨{}, ⟨⟨[], [], []⟩, none, 0⟩, .never⟩

/-- The selectors of an earlier version of the page. -/
def progress : Progress :=
  audit.start ((⟨[], 300, 1800000⟩ : SelectorCache).set 0 0 page.key 1 [])

end TwoElements

open TwoElements in
theorem embedded_styles_are_remapped_two_elements :
    (progress.ask audit.world.now page.key page.version).1 = none ∧
      (audit.ownSelectors page progress).1 =
        [⟨⟨14, .className, "a", 1⟩, ⟨1, 10⟩⟩, ⟨⟨19, .idName, "b", 1⟩, ⟨2, 0⟩⟩,
          ⟨⟨41, .className, "c", 1⟩, ⟨3, 9⟩⟩] ∧
      ∀ s ∈ (audit.ownSelectors page progress).1,
        String.Pos.Raw.extract page.text ⟨s.offset⟩ ⟨s.offset + 1⟩ = s.kind.marker.toString := by
  have hmiss : (progress.ask audit.world.now page.key page.version).1 = none := by decide +kernel
  obtain ⟨hfound, _, _, hmarker⟩ := embedded_styles_are_remapped.2 audit page progress rfl hmiss
  refine ⟨hmiss, ?_, hmarker⟩
  rw [hfound]
  decide +kernel

end StyleAudit
