import Mathlib.Data.List.Forall2
import StyleAudit.Proofs.DeclarationPlaces
import StyleAudit.Proofs.LinePositions
import StyleAudit.Proofs.Verdicts
import StyleAudit.Report
import StyleAudit.Server

/-!
# Places of diagnostics

A diagnostic is about a name that is written in the document, and covers just the bytes of that
name. So both of its ends are places between two characters, and every way to write them down leads
back to them: the lines and columns of a report, and the positions that an editor gets.

* **`Markup.inside_of_mem_styleBlocks`**, **`Stylesheet.inside_of_mem_declaredTokens`**: what a
  document declares is written in it, also if it stands in a style element of a page.
* **`Diagnostic.CoversName`** says that a diagnostic covers a name; **`coversName_of_runs`** is
  about all diagnostics of a request, also of one that is cancelled.
* **`Diagnostic.CoversName.split`** cuts the document at the two ends.
* **`Position.Marks`** says what an editor needs of a position, and **`marks_utf16Position`** that
  it gets it.
-/

namespace StyleAudit

open Text

/-! ### Declarations of a document -/

namespace Markup

/-- An open tag is not empty. -/
theorem exists_cons_suffix_of_openTag? {name : String} {cs attributes after : List Char}
    (h : openTag? name cs = some (attributes, after)) : ∃ c, c :: after <:+ cs := by
  unfold openTag? at h
  obtain ⟨rest, hrest, h⟩ := Option.bind_eq_some_iff.mp h
  have hsuffix := suffix_of_afterFolded? hrest
  simp only at h
  split at h
  · exact absurd h (by simp)
  · split at h
    · exact absurd h (by simp)
    · next c more hmore =>
      -- the `>` and what follows it are an ending of the tag's text
      obtain ⟨_, rfl⟩ := Prod.mk.inj (Option.some.inj h)
      refine ⟨c, List.IsSuffix.trans ?_ hsuffix⟩
      rw [← hmore]
      exact List.dropWhile_suffix _

theorem suffix_of_openTag? {name : String} {cs attributes after : List Char}
    (h : openTag? name cs = some (attributes, after)) : after <:+ cs := by
  obtain ⟨c, hc⟩ := exists_cons_suffix_of_openTag? h
  exact (List.suffix_cons c after).trans hc

theorem suffix_of_afterStyleEnd? {cs rest : List Char} (h : afterStyleEnd? cs = some rest) :
    rest <:+ cs := by
  obtain ⟨name, hname, h⟩ := Option.bind_eq_some_iff.mp h
  exact ((suffix_of_after? h).trans (List.dropWhile_suffix _)).trans (suffix_of_afterFolded? hname)

/-- The text of a style element, its end tag, and what follows. -/
theorem exists_append_styleBody (cs : List Char) :
    ∃ closing, cs = (styleBody cs).1 ++ closing ++ (styleBody cs).2 := by
  induction cs with
  | nil => exact ⟨[], rfl⟩
  | cons c cs ih =>
    unfold styleBody
    split
    · next rest hrest =>
      obtain ⟨closing, hclosing⟩ := suffix_of_afterStyleEnd? hrest
      exact ⟨closing, hclosing.symm⟩
    · obtain ⟨closing, hclosing⟩ := ih
      refine ⟨closing, ?_⟩
      rw [List.cons_append, List.cons_append, ← hclosing]

/-- The text of a style element is a piece of the page. -/
theorem inside_of_mem_styleBlocks {s block : Slice} (h : block ∈ styleBlocks s) :
    block.Inside s := by
  obtain ⟨cur, taken, hr, hcur, _⟩ := Recogniser.mem_findAll h
  obtain ⟨⟨attributes, inner⟩, htag, hr⟩ := Option.bind_eq_some_iff.mp hr
  cases hr
  obtain ⟨closing, hclosing⟩ := exists_append_styleBody inner
  have htext : (cur.seek inner).toSlice.text =
      (styleBody inner).1 ++ (closing ++ (styleBody inner).2) := by
    show (cur.seek inner).rest = _
    rw [Cursor.rest_seek (suffix_of_openTag? htag), ← List.append_assoc, ← hclosing]
  exact (Slice.inside_of_append htext).trans (hcur.seek inner).toSlice_inside

end Markup

/-- A declared name is written after its marker. -/
theorem Stylesheet.inside_of_mem_declaredTokens {css : Slice} {t : Token}
    (h : t ∈ declaredTokens css) :
    ∃ raw, Slice.Inside ⟨t.offset + 1, raw⟩ css ∧ t.rawLen = byteLen raw ∧ raw ≠ [] := by
  obtain ⟨front, raw, rest, htext, hoffset, hlen, hne⟩ := exists_split_of_mem_declaredTokens h
  refine ⟨raw, ⟨front ++ [t.kind.marker], rest, ?_, ?_⟩, hlen, hne⟩
  · rw [htext]
    simp
  · show t.offset + 1 = css.offset + byteLen (front ++ [t.kind.marker])
    rw [byteLen_append, byteLen_cons, byteLen_nil, t.kind.utf8Size_marker]
    omega

/-- The name of a declared selector is a piece of the document, whatever kind of document it is. -/
theorem Document.inside_of_mem_selectors {d : Document} {s : Selector} (h : s ∈ d.selectors) :
    ∃ raw, Slice.Inside ⟨s.offset + 1, raw⟩ (.ofText d.text.toList) ∧ s.rawLen = byteLen raw ∧
      raw ≠ [] := by
  -- one stylesheet that is a piece of the document
  have hsheet : ∀ (css : Slice) (index : LineIndex), css.Inside (.ofText d.text.toList) →
      s ∈ Stylesheet.selectorsAt css index →
        ∃ raw, Slice.Inside ⟨s.offset + 1, raw⟩ (.ofText d.text.toList) ∧ s.rawLen = byteLen raw ∧
          raw ≠ [] := by
    intro css index hcss hs
    obtain ⟨t, ht, rfl⟩ := List.mem_map.mp hs
    obtain ⟨raw, hraw, hlen, hne⟩ := Stylesheet.inside_of_mem_declaredTokens ht
    exact ⟨raw, hraw.trans hcss, hlen, hne⟩
  unfold Document.selectors at h
  cases hkind : d.kind with
  | style =>
    rw [hkind] at h
    exact hsheet _ _ (Slice.Inside.refl _) h
  | markup =>
    rw [hkind] at h
    obtain ⟨block, hblock, hs⟩ := List.mem_flatMap.mp h
    exact hsheet block _ (Markup.inside_of_mem_styleBlocks hblock) hs
  | script =>
    rw [hkind] at h
    exact absurd h (by simp)

/-! ### Diagnostics of a request -/

/-- `w.CoversName text`: the diagnostic covers a name that is written in the text. -/
def Diagnostic.CoversName (w : Diagnostic) (text : List Char) : Prop :=
  ∃ raw : List Char, Slice.Inside ⟨w.offset, raw⟩ (.ofText text) ∧ w.len = byteLen raw ∧ raw ≠ []

/-- An undefined name is marked where it is written. -/
theorem Reference.coversName {text : List Char} {c : Reference}
    (h : c ∈ references (.ofText text)) : c.undefinedWarning.CoversName text := by
  obtain ⟨⟨offset, raw⟩, hraw, hoffset, hlen, hne, hname⟩ := pointsInto_of_mem_references h
  obtain rfl : c.offset = offset := hoffset
  refine ⟨raw, hraw, hlen, ?_⟩
  rintro rfl
  apply hne
  rw [hname]
  split <;> rfl

/-- An unused selector is marked where it is declared. -/
theorem Selector.coversName {d : Document} {s : Selector} (h : s ∈ d.selectors) :
    s.unusedWarning.CoversName d.text.toList :=
  Document.inside_of_mem_selectors h

namespace Auditor

variable {v : Auditor} {world : World} {interrupt : Interrupt} {d : Document} {root : Option Path}
  {p : Progress}

theorem coversName_of_mem_unusedWarnings {used : Names} {w : Diagnostic}
    (h : w ∈ unusedWarnings d.selectors used) : w.CoversName d.text.toList := by
  obtain ⟨s, hs, rfl⟩ := List.mem_map.mp h
  exact Selector.coversName (List.mem_filter.mp hs).1

/-- The warnings on a document that refers to names lie on names of that document. -/
theorem coversName_of_mem_referenceDiagnostics {m : StyleMap} (hown : [(d.key, d.selectors)] <+: m)
    {w : Diagnostic} (h : w ∈ v.referenceDiagnostics d m) : w.CoversName d.text.toList := by
  rw [referenceDiagnostics_eq v hown] at h
  rcases List.mem_append.mp h with h | h
  · obtain ⟨c, hc, rfl⟩ := List.mem_map.mp h
    exact Reference.coversName (mem_of_mem_firstReferences (List.mem_filter.mp hc).1)
  · obtain ⟨s, hs, rfl⟩ := List.mem_map.mp h
    exact Selector.coversName (mem_selectors_of_mem_unusedSelectors hs)

/-- The diagnostics of a report cover names, if it lists declarations and references that do. -/
theorem coversName_of_mem_finish (hlint : v.lint = none) {found : List Diagnostic}
    (hfound : ∀ w ∈ found, w.CoversName d.text.toList) :
    ∀ w ∈ v.finish d found, w.CoversName d.text.toList :=
  fun w hw => hfound w ((finish_spec hlint d found).2.subset hw)

/-- Every diagnostic covers a name, whether or not the request was cancelled: a failed check leaves
no diagnostics. -/
theorem coversName_of_runs {load : Audit.BatchLoader}
    (hload : (v.audit world .never).Interleaves load) (hlint : v.lint = none)
    (hkept : d.IsKeptRight p.cache) {a : Audit} {r : List Diagnostic × Progress}
    (h : (v.plan world load d root).Runs a p r) : ∀ w ∈ r.1, w.CoversName d.text.toList := by
  let P : List Diagnostic → Prop := fun found => ∀ w ∈ found, w.CoversName d.text.toList
  have hnone : P [] := fun _ hw => absurd hw List.not_mem_nil
  cases hcovers : v.covers d root with
  | false =>
    simp only [plan, hcovers, Bool.not_false, if_true] at h
    exact Plan.All.runs (P := P) (t := pure []) hnone h
  | true =>
    by_cases hkind : d.kind = .style
    · simp only [plan, hcovers, hkind, Bool.not_true, Bool.false_eq_true, if_false] at h
      obtain ⟨own, q, hown, hrest⟩ := Plan.runs_bind.mp h
      rw [hkept.eq_selectors hown] at hrest
      refine (Plan.All.check (P := P) hnone ?_).runs hrest
      refine coversName_of_mem_finish hlint fun w hw => ?_
      unfold styleDiagnostics at hw
      split at hw
      · exact coversName_of_mem_unusedWarnings hw
      · exact hnone w hw
    · -- the loaded stylesheets may lie in any order, but the document's own comes first
      rw [plan_of_ne_style v world load hcovers hkind] at h
      obtain ⟨m, q, hcollect, hrest⟩ := Plan.runs_bind.mp h
      have hown := Audit.own_prefix hload hcollect hkept
      refine (Plan.All.check (P := P) hnone (.check hnone ?_)).runs hrest
      exact coversName_of_mem_finish hlint fun w => coversName_of_mem_referenceDiagnostics hown

end Auditor

/-- The text before a diagnostic, what it covers, and what follows. -/
theorem Diagnostic.CoversName.split {w : Diagnostic} {text : List Char} (h : w.CoversName text) :
    ∃ before c raw after, text = before ++ c :: raw ++ after ∧ w.offset = byteLen before ∧
      w.stop = byteLen (before ++ c :: raw) := by
  obtain ⟨raw, ⟨before, after, htext, hoffset⟩, hlen, hne⟩ := h
  obtain ⟨c, raw, rfl⟩ := List.exists_cons_of_ne_nil hne
  have hstart : w.offset = byteLen before := hoffset.trans (Nat.zero_add _)
  refine ⟨before, c, raw, after, htext, hstart, ?_⟩
  unfold Diagnostic.stop
  rw [hstart, hlen, byteLen_append]

/-! ### Positions for an editor -/

/-- `pos.Marks text offset`: an editor that gets the position sees the offset. -/
structure Position.Marks (pos : Position) (text : List Char) (offset : Nat) : Prop where
  decoded : pos.decode? text = some offset
  /-- The column counts the characters between the start of the line and the offset. -/
  counted : ∃ start line, (LineIndex.ofText text).lineStart pos.line = some start ∧
    between? start offset text = some line ∧ pos.col = utf16Len line
  line_lt : pos.line < 2 ^ 32
  col_lt : pos.col < 2 ^ 32

/-- Below four gigabytes the position of an offset leads back to it, and its numbers fit in 32
bits. -/
theorem marks_utf16Position {before rest : List Char} (hsize : byteLen (before ++ rest) < 2 ^ 32) :
    ((LineIndex.ofText (before ++ rest)).utf16Position (before ++ rest) (byteLen before)).Marks
      (before ++ rest) (byteLen before) := by
  rw [LineIndex.utf16Position_of_split]
  rw [byteLen_append] at hsize
  have hstart : (LineIndex.ofText (before ++ rest)).lineStart (before.count '\n') =
      some (byteLen (earlierLines before)) := LineIndex.starts_count before rest
  refine ⟨Position.decode?_of_split before rest, ?_, ?_, ?_⟩
  · exact ⟨_, _, hstart, between?_of_split before rest, rfl⟩
  · have hcount := count_le_byteLen '\n' before
    show before.count '\n' < 2 ^ 32
    omega
  · have hunits := utf16Len_le_byteLen (lastLine before)
    have hline := byteLen_earlierLines_le before
    show utf16Len (lastLine before) < 2 ^ 32
    omega

/-! ### Lines of a report -/

/-- `e.Marks text offset`: the line and the column of an entry, counted from 1, lead to the
offset. -/
structure Report.Entry.Marks (e : Report.Entry) (text : List Char) (offset : Nat) : Prop where
  located : ∃ index, LineIndex.withOrigin text 1 = .ok index ∧
    index.offset? e.line e.col = some offset
  line_lt : e.line < 2 ^ 32
  col_lt : e.col < 2 ^ 32

/-- The entries of a report, if each diagnostic starts at a character of the text. -/
theorem marks_entries {text : List Char} (hsize : byteLen text < 2 ^ 32) (path : Path)
    {found : List Diagnostic} (h : ∀ w ∈ found, ∃ before c after, text = before ++ c :: after ∧
      w.offset = byteLen before) :
    List.Forall₂ (fun w e => e.Marks text w.offset) found (Report.entries path text found) := by
  show List.Forall₂ _ found (found.map _)
  rw [List.forall₂_map_right_iff, List.forall₂_same]
  intro w hw
  obtain ⟨before, c, after, rfl, hoffset⟩ := h w hw
  have hpos := c.utf8Size_pos
  have hlt : byteLen before < byteLen before + c.utf8Size := by omega
  have hposition : (LineIndex.ofText (before ++ c :: after)).position? (byteLen before) =
      some ⟨before.count '\n', byteLen before - byteLen (earlierLines before)⟩ :=
    LineIndex.position?_of_split (Nat.le_refl _) hlt
  rw [byteLen_append, byteLen_cons] at hsize
  rw [hoffset, hposition, Option.getD_some]
  -- line and column are counted from one, so both are one more than what is bounded
  refine ⟨⟨_, rfl, LineIndex.offset?_of_split (Nat.le_refl _) hlt 1⟩, ?_, ?_⟩
  · have hcount := count_le_byteLen '\n' before
    show before.count '\n' + 1 < 2 ^ 32
    omega
  · show byteLen before - byteLen (earlierLines before) + 1 < 2 ^ 32
    omega

/-- **Diagnostics are found again.** Take any request without a linter, from a cache that is right
about the document. Each diagnostic covers a range of the document that is not empty and whose ends
are boundaries of characters. The line and the column that a report gives lead back to its offset,
and the positions that an editor gets lead to its two ends. -/
theorem diagnostics_locate_bytes (v : Auditor) (world : World) (interrupt : Interrupt)
    (d : Document) (root : Option Path) (cache : SelectorCache) (hlint : v.lint = none)
    (hkept : d.IsKeptRight cache) (hsize : d.text.utf8ByteSize < 2 ^ 32) :
    let text := d.text.toList
    let found := (v.validate world interrupt d root ((v.audit world interrupt).start cache)).1
    (∀ w ∈ found, w.offset < w.stop ∧ w.stop ≤ d.text.utf8ByteSize ∧
      String.Pos.Raw.IsValid d.text ⟨w.offset⟩ ∧ String.Pos.Raw.IsValid d.text ⟨w.stop⟩) ∧
    (∀ path, List.Forall₂ (fun w e => e.Marks text w.offset) found
      (Report.entries path text found)) ∧
    ∀ w ∈ found, let placed := Server.placeDiagnostic text (.ofText text) w
      placed.start.Marks text w.offset ∧ placed.stop.Marks text w.stop := by
  intro text found
  have hbytes : byteLen text < 2 ^ 32 := by
    rw [Slice.byteLen_eq_utf8Len, ← String.utf8ByteSize_ofList, String.ofList_toList]
    exact hsize
  have hsplit : ∀ w ∈ found, ∃ before c raw after, text = before ++ c :: raw ++ after ∧
      w.offset = byteLen before ∧ w.stop = byteLen (before ++ c :: raw) :=
    fun w hw =>
      (Auditor.coversName_of_runs (v.audit world interrupt).interleaves_addFiles hlint hkept
      (Plan.runs_run _ _ _) w hw).split
  refine ⟨?_, ?_, ?_⟩
  · intro w hw
    obtain ⟨before, c, raw, after, htext, hoffset, hstop⟩ := hsplit w hw
    have hpart : Slice.IsPartOf ⟨byteLen before, c :: raw⟩ text := ⟨before, after, htext, rfl⟩
    have hend : w.stop = Slice.stop ⟨byteLen before, c :: raw⟩ := by
      rw [hstop, byteLen_append]
      rfl
    have hpos := c.utf8Size_pos
    refine ⟨?_, ?_, ?_, ?_⟩
    · rw [hstop, hoffset, byteLen_append, byteLen_cons]
      omega
    · rw [hend]
      exact hpart.stop_le
    · rw [hoffset]
      exact hpart.isValid.1
    · rw [hend]
      exact hpart.isValid.2
  · -- an entry marks a character, so one must stand at the offset
    intro path
    apply marks_entries hbytes path
    intro w hw
    obtain ⟨before, c, raw, after, htext, hoffset, _⟩ := hsplit w hw
    refine ⟨before, c, raw ++ after, ?_, hoffset⟩
    rw [htext, List.append_assoc, List.cons_append]
  · intro w hw
    obtain ⟨before, c, raw, after, htext, hoffset, hstop⟩ := hsplit w hw
    unfold Server.placeDiagnostic
    simp only
    rw [hoffset, hstop, htext]
    rw [htext] at hbytes
    refine ⟨?_, marks_utf16Position hbytes⟩
    rw [List.append_assoc] at hbytes ⊢
    exact marks_utf16Position hbytes

namespace TwoLines

/-- A page whose second line has a character of two units before a name that nothing declares. -/
def page : Document where
  key := "untitled:1"
  version := 3
  text := "<style>/*é*/ .ö😀\x7b\x7d</style>\n<p title=😀 class='gone'>"
  kind := .markup

def auditor : Auditor := ⟨{}, ⟨[]⟩, none⟩

def world : World := ⟨⟨[], [], []⟩, none, 0⟩

/-- A cache that has this version of the page. -/
def cache : SelectorCache := ⟨[⟨page.key, page.version, page.selectors, 0, 1⟩], 1, 60000⟩

def warning : Diagnostic := ⟨.undefinedClass, 53, 4, "CSS class 'gone' not found", false⟩

end TwoLines

open TwoLines in
theorem diagnostics_locate_bytes_two_lines :
    page.IsKeptRight cache ∧ page.text.utf8ByteSize < 2 ^ 32 ∧
      warning ∈ (auditor.validate world .never page none
        ((auditor.audit world .never).start cache)).1 ∧
      Position.Marks ⟨1, 19⟩ page.text.toList 53 ∧ Position.Marks ⟨1, 23⟩ page.text.toList 57 := by
  have hkept : page.IsKeptRight cache := by
    intro e he _ _
    rw [List.mem_singleton.mp he]
  have hsize : page.text.utf8ByteSize < 2 ^ 32 := by decide
  have hfound : warning ∈ (auditor.validate world .never page none
      ((auditor.audit world .never).start cache)).1 := by
    rw [Auditor.validate_eq_finish (by decide +kernel) (by decide) (by decide +kernel)]
    apply (Auditor.finish_spec rfl page _).2.symm.subset
    decide +kernel
  have hplaces := (diagnostics_locate_bytes auditor world .never page none cache rfl hkept
    hsize).2.2 warning hfound
  have hplaced : Server.placeDiagnostic page.text.toList (.ofText page.text.toList) warning =
      ⟨⟨1, 19⟩, ⟨1, 23⟩, warning⟩ := by decide +kernel
  simp only [hplaced] at hplaces
  exact ⟨hkept, hsize, hfound, hplaces⟩

end StyleAudit
