import Mathlib.Data.List.Nodup
import Mathlib.Data.List.SplitBy
import StyleAudit.Proofs.TagAttributes

/-!
# Stylesheet links

A page links to a stylesheet by a tag that says so in its `rel` and has the address in its `href`.
What a tag links to is decided by its attributes, whatever their order and whatever others it has,
and the links of a page are those of its tags.

* **`Text.HasWord`** says by places in a text that a word stands between blanks, and
  **`Text.any_runs_iff`** that the runs of the text are searched for it.
* **`Markup.Links`** says what a tag links to, and **`Markup.LinkTag.stylesheetHref?_tag_iff`** that
  this is found.
* **`Markup.filterMap_scan_linkPage`** goes through the tags of a page.
-/

namespace StyleAudit

namespace Text

/-! ### Parts of a text -/

/-- `IsPart p part cs`: on both sides of the part is a character of class `p`, or an end of the
text. -/
def IsPart (p : Char → Bool) (part cs : List Char) : Prop :=
  ∃ before after, cs = before ++ (part ++ after) ∧ (∀ c ∈ before.getLast?, p c = true) ∧
    ∀ c ∈ after.head?, p c = true

variable {p : Char → Bool} {part cs : List Char}

/-- A run is a whole part: no more of it stands on either side. -/
theorem isPart_of_mem_runs (h : part ∈ runs p cs) : IsPart p part cs := by
  obtain ⟨hmem, hhead⟩ := List.mem_filter.mp h
  have hclass : ∀ c ∈ part, p c = false := by
    refine (List.isChain_of_mem_splitBy hmem).induction (fun c => p c = false) part ?_ fun hne => ?_
    · intro x y hxy hx
      rw [← hx]
      exact (beq_iff_eq.mp hxy).symm
    · rw [List.head?_eq_some_head hne] at hhead
      exact Bool.not_eq_true' _ ▸ hhead
  obtain ⟨xs, ys, hsplit⟩ := List.append_of_mem hmem
  have hcs := List.flatten_splitBy (fun a b => p a == p b) cs
  have hchain := List.isChain_getLast_head_splitBy (fun a b => p a == p b) cs
  rw [hsplit] at hcs hchain
  obtain ⟨_, hright, hleft⟩ := List.isChain_append.mp hchain
  refine ⟨xs.flatten, ys.flatten, by simpa using hcs.symm, ?_, ?_⟩
  · intro c hc
    -- the last character of the run before this one is of the other class
    rcases List.eq_nil_or_concat xs with rfl | ⟨init, last, rfl⟩
    · exact absurd hc (by simp)
    · obtain ⟨hlast, hhead, hdiffer⟩ := hleft last (by simp) part (by simp)
      rw [List.concat_eq_append, List.flatten_concat, List.getLast?_append_of_ne_nil _ hlast,
        List.getLast?_eq_some_getLast hlast] at hc
      rw [hclass _ (List.head_mem hhead), Option.some.inj hc] at hdiffer
      simpa using hdiffer
  · intro c hc
    -- and so is the first character of the run behind it
    cases ys with
    | nil => exact absurd hc (by simp)
    | cons next ys =>
      obtain ⟨hlast, hnext, hdiffer⟩ := (List.isChain_cons_cons.mp hright).1
      rw [List.flatten_cons, List.head?_append_of_ne_nil _ hnext,
        List.head?_eq_some_head hnext] at hc
      rw [hclass _ (List.getLast_mem hlast), Option.some.inj hc] at hdiffer
      simpa using hdiffer

/-- Every whole part without separators is a run. -/
theorem mem_runs_of_isPart (h : IsPart p part cs) (hne : part ≠ [])
    (hpart : ∀ c ∈ part, p c = false) :
    part ∈ runs p cs := by
  obtain ⟨before, after, rfl, hbefore, hafter⟩ := h
  have hleft : ∀ x ∈ before.getLast?, ∀ y ∈ (part ++ after).head?, (p x == p y) = false := by
    intro x hx y hy
    rw [List.head?_append_of_ne_nil _ hne] at hy
    rw [hbefore x hx, hpart y (List.mem_of_mem_head? hy)]
    rfl
  have hright : ∀ x ∈ part.getLast?, ∀ y ∈ after.head?, (p x == p y) = false := by
    intro x hx y hy
    rw [hpart x (List.mem_of_mem_getLast? hx), hafter y hy]
    rfl
  -- inside the part there is no change, so the splitting leaves it whole
  have hchain : part.IsChain fun x y => (p x == p y) = true := by
    refine (List.pairwise_of_forall_mem_list fun x hx y hy => ?_).isChain
    rw [hpart x hx, hpart y hy]
    rfl
  have hself : (part.head?.any fun c => !p c) = true := by
    rw [List.head?_eq_some_head hne, Option.any_some, hpart _ (List.head_mem hne)]
    rfl
  rw [runs, List.splitBy_append hleft, List.splitBy_append hright,
    List.splitBy_of_isChain hne hchain]
  simp [hself]

/-- A word stands between blanks, in some mix of cases. -/
def HasWord (word cs : List Char) : Prop :=
  ∃ part, IsPart isBlank part cs ∧ toAsciiLower part = word

/-- The search for a word among the runs finds it where it stands as a word, in any case. -/
theorem any_runs_iff {word : List Char} (hne : word ≠ []) (hlower : toAsciiLower word = word)
    (hword : word.any isBlank = false) :
    (runs isBlank cs).any (eqIgnoreAsciiCase word) = true ↔ HasWord word cs := by
  have heq : ∀ part, eqIgnoreAsciiCase word part = true ↔ toAsciiLower part = word := by
    intro part
    rw [eqIgnoreAsciiCase, beq_iff_eq, hlower, eq_comm]
  rw [List.any_eq_true]
  constructor
  · rintro ⟨part, hmem, hpart⟩
    exact ⟨part, isPart_of_mem_runs hmem, (heq part).mp hpart⟩
  · rintro ⟨part, hpart, rfl⟩
    have hpartNe : part ≠ [] := by simpa [toAsciiLower] using hne
    refine ⟨part, mem_runs_of_isPart hpart hpartNe fun c hc => ?_, (heq part).mpr rfl⟩
    -- a blank is its own lower case, so it would stand in the word
    refine Bool.eq_false_iff.mpr fun hblank => ?_
    have hsame : c.toLower = c := of_isBlank (P := fun c => c.toLower = c) (by decide) hblank
    have hmem : c ∈ toAsciiLower part := List.mem_map.mpr ⟨c, hc, hsame⟩
    exact List.any_eq_false.mp hword c hmem hblank

end Text

open Text

namespace Markup

/-! ### Link tags -/

/-- A link tag and the text in front of it. The names of its attributes differ, in any case. -/
structure LinkTag where
  front : List Char
  opening : List Char
  attributes : List WrittenAttribute
  gap : List Char := []
  apart : ¬Occurs (tagWord "link") front := by decide
  opens : Spells (tagWord "link") opening := by decide
  distinct : (attributes.map fun a => toAsciiLower a.name).Nodup := by decide
  blank : gap.all isBlank = true := by decide

namespace LinkTag

/-- The tag from `<` to `>`. -/
def tag (t : LinkTag) : List Char :=
  t.opening ++ (WrittenAttribute.rowText t.attributes t.gap ++ ['>'])

def text (t : LinkTag) : List Char := t.front ++ t.tag

/-- The attributes of the tag, however they are written. -/
def given (t : LinkTag) : List TagAttribute := t.attributes.map WrittenAttribute.toTagAttribute

theorem isBlank_of_mem_gap (t : LinkTag) : ∀ c ∈ t.gap, isBlank c = true :=
  List.all_eq_true.mp t.blank

/-- The attributes of a written tag are read back. -/
theorem tagAttributes_tag (t : LinkTag) (offset : Nat) : tagAttributes ⟨offset, t.tag⟩ = t.given :=
  tagAttributes_rowText (by decide) t.opens t.attributes t.isBlank_of_mem_gap offset

end LinkTag

/-! ### The address of a link -/

/-- `Links attributes address`: one of the attributes says that the tag links to a stylesheet, and
one holds the address. -/
structure Links (attributes : List TagAttribute) (address : String) : Prop where
  rel : ∃ a ∈ attributes, toAsciiLower a.name = "rel".toList ∧ HasWord "stylesheet".toList a.value
  href : ∃ a ∈ attributes, toAsciiLower a.name = "href".toList ∧
    trim isBlank a.value = address.toList
  ne : address ≠ ""

/-- The names of the attributes that decide about a link. -/
def linkNames : List (List Char) := ["rel".toList, "href".toList]

/-- Only the attributes with these names matter. -/
theorem Links.of_linkNames {xs ys : List TagAttribute} {address : String} (h : Links xs address)
    (hsub : ∀ a ∈ xs, toAsciiLower a.name ∈ linkNames → a ∈ ys) : Links ys address := by
  obtain ⟨⟨a, ha, hrel, hstyle⟩, ⟨b, hb, hhref, htrim⟩, hne⟩ := h
  refine ⟨⟨a, hsub a ha ?_, hrel, hstyle⟩, ⟨b, hsub b hb ?_, hhref, htrim⟩, hne⟩
  · rw [hrel]
    decide
  · rw [hhref]
    decide

/-- `t.SameLink u`: the tag `u` has the attributes of `t` in some order, and maybe more that do not
decide about a link. -/
def LinkTag.SameLink (t u : LinkTag) : Prop :=
  ∃ others : List TagAttribute, (∀ a ∈ others, toAsciiLower a.name ∉ linkNames) ∧
    u.given.Perm (others ++ t.given)

/-- Attributes with other names do not matter for what a tag links. -/
theorem LinkTag.SameLink.links_iff {t u : LinkTag} (h : t.SameLink u) (address : String) :
    Links u.given address ↔ Links t.given address := by
  obtain ⟨others, hothers, hperm⟩ := h
  constructor
  · intro hlinks
    refine hlinks.of_linkNames fun a ha hname => ?_
    rcases List.mem_append.mp (hperm.mem_iff.mp ha) with hother | hgiven
    · exact absurd hname (hothers a hother)
    · exact hgiven
  · intro hlinks
    exact hlinks.of_linkNames fun a ha _ => hperm.mem_iff.mpr (List.mem_append_right _ ha)

/-- Of attributes with different names, the last one with a name is the one with this name. -/
theorem lastValue?_eq_some_iff {attributes : List TagAttribute} {name : String} {value : List Char}
    (h : (attributes.map fun a => toAsciiLower a.name).Nodup) :
    lastValue? name attributes = some value ↔
      ∃ a ∈ attributes, toAsciiLower a.name = name.toList ∧ a.value = value := by
  rw [lastValue?, Option.map_eq_some_iff]
  constructor
  · rintro ⟨a, hfind, hvalue⟩
    have hname := List.find?_some hfind
    exact ⟨a, List.mem_reverse.mp (List.mem_of_find?_eq_some hfind), beq_iff_eq.mp hname, hvalue⟩
  · rintro ⟨a, hmem, hname, hvalue⟩
    have hfound : (attributes.reverse.find? fun a =>
        toAsciiLower a.name == name.toList).isSome := by
      rw [List.find?_isSome]
      exact ⟨a, List.mem_reverse.mpr hmem, beq_iff_eq.mpr hname⟩
    obtain ⟨b, hfind⟩ := Option.isSome_iff_exists.mp hfound
    have hb : b ∈ attributes := List.mem_reverse.mp (List.mem_of_find?_eq_some hfind)
    have hfoundName := List.find?_some hfind
    -- no two attributes share a name, so the last one with the name is the only one
    have hsame : b = a :=
      List.inj_on_of_nodup_map h hb hmem ((beq_iff_eq.mp hfoundName).trans hname.symm)
    exact ⟨b, hfind, hsame ▸ hvalue⟩

/-- A written tag links an address when its attributes say so. -/
theorem LinkTag.stylesheetHref?_tag_iff (t : LinkTag) (offset : Nat) (address : String) :
    stylesheetHref? ⟨offset, t.tag⟩ = some address ↔ Links t.given address := by
  have hdistinct : (t.given.map fun a => toAsciiLower a.name).Nodup := by
    rw [given, List.map_map]
    exact t.distinct
  have hword : ∀ rel, (runs isBlank rel).any (eqIgnoreAsciiCase "stylesheet".toList) = true ↔
      HasWord "stylesheet".toList rel :=
    fun rel => any_runs_iff (by decide) (by decide) (by decide)
  -- the condition of the search, said of the two values
  have hcond : ∀ rel href, ((runs isBlank rel).any (eqIgnoreAsciiCase "stylesheet".toList) &&
      !(trim isBlank href).isEmpty) = true ↔
        HasWord "stylesheet".toList rel ∧ trim isBlank href ≠ [] := by
    intro rel href
    rw [Bool.and_eq_true, hword, Bool.not_eq_true', List.isEmpty_eq_false_iff]
  constructor
  · intro h
    rw [stylesheetHref?, t.tagAttributes_tag] at h
    obtain ⟨rel, hrel, h⟩ := Option.bind_eq_some_iff.mp h
    obtain ⟨href, hhref, h⟩ := Option.bind_eq_some_iff.mp h
    obtain ⟨hif, haddress⟩ := Option.ite_none_right_eq_some.mp h
    obtain ⟨a, ha, hrelName, rfl⟩ := (lastValue?_eq_some_iff hdistinct).mp hrel
    obtain ⟨b, hb, hhrefName, rfl⟩ := (lastValue?_eq_some_iff hdistinct).mp hhref
    obtain ⟨hstyle, hne⟩ := (hcond _ _).mp hif
    obtain rfl := Option.some.inj haddress
    refine ⟨⟨a, ha, hrelName, hstyle⟩, ⟨b, hb, hhrefName, String.toList_ofList.symm⟩, ?_⟩
    simpa using hne
  · rintro ⟨⟨a, ha, hrelName, hstyle⟩, ⟨b, hb, hhrefName, htrim⟩, hne⟩
    have hrel := (lastValue?_eq_some_iff hdistinct).mpr ⟨a, ha, hrelName, rfl⟩
    have hhref := (lastValue?_eq_some_iff hdistinct).mpr ⟨b, hb, hhrefName, rfl⟩
    have hif := (hcond a.value b.value).mpr ⟨hstyle, by simpa [htrim] using hne⟩
    rw [stylesheetHref?, t.tagAttributes_tag, hrel, hhref]
    show (if _ then some (String.ofList (trim isBlank b.value)) else none) = _
    rw [if_pos hif, htrim, String.ofList_toList]

/-- What a tag links to depends on its attributes only. -/
theorem LinkTag.stylesheetHref?_congr {t u : LinkTag}
    (h : ∀ address, Links u.given address ↔ Links t.given address) (offset : Nat) :
    stylesheetHref? ⟨offset, u.tag⟩ = stylesheetHref? (.ofText t.tag) := by
  refine Option.ext fun address => ?_
  rw [u.stylesheetHref?_tag_iff, h]
  exact (t.stylesheetHref?_tag_iff 0 address).symm

/-! ### Links of a page -/

/-- A page with link tags, before its last piece of text. -/
def linkPage (tags : List LinkTag) : List Char := tags.flatMap LinkTag.text

theorem linkRecogniser_of_openTag? (cur : Cursor) (h : openTag? "link" cur.rest = none) :
    linkRecogniser cur = none := by
  show (openTag? "link" cur.rest).bind _ = none
  rw [h]
  rfl

namespace LinkTag

/-- A written tag is recognised whole. -/
theorem linkRecogniser_tag (t : LinkTag) (offset : Nat) (before rest : List Char) :
    linkRecogniser ⟨offset, before, t.tag ++ rest⟩ = some (⟨offset, t.tag⟩, t.tag.length) := by
  have hend := WrittenAttribute.not_mem_rowText t.attributes t.isBlank_of_mem_gap
  have hblank := WrittenAttribute.isBlank_head?_rowText t.attributes t.isBlank_of_mem_gap
  have htag := openTag?_append t.opens hend hblank rest
  have hcursor : t.opening ++ (WrittenAttribute.rowText t.attributes t.gap ++ '>' :: rest) =
      t.tag ++ rest := by
    simp [tag]
  rw [hcursor] at htag
  show (openTag? "link" (t.tag ++ rest)).bind _ = _
  rw [htag, Option.bind_some]
  simp only [Cursor.distance_append, List.take_left]
  rfl

/-- Scanning passes the text before a tag and finds the tag. -/
theorem scan_text (t : LinkTag) (offset : Nat) (before rest : List Char) :
    linkRecogniser.scan ⟨offset, before, t.text ++ rest⟩ =
      ⟨offset + byteLen t.front, t.tag⟩ ::
        linkRecogniser.scan ⟨offset + byteLen t.text, t.text.reverse ++ before, rest⟩ := by
  have hhead : t.tag.head? = some '<' := t.opens.head?_append _
  rw [text, List.append_assoc]
  exact scan_append_of_some (by decide) linkRecogniser_of_openTag? t.apart hhead
    (t.linkRecogniser_tag _ _ _)

end LinkTag

/-- The links of a page are those of its tags. -/
theorem filterMap_scan_linkPage (tags : List LinkTag) {tail : List Char}
    (htail : ¬Occurs (tagWord "link") tail) (offset : Nat) (before : List Char) :
    (linkRecogniser.scan ⟨offset, before, linkPage tags ++ tail⟩).filterMap stylesheetHref? =
      tags.filterMap fun t => stylesheetHref? (.ofText t.tag) := by
  induction tags generalizing offset before with
  | nil =>
    show (linkRecogniser.scan ⟨offset, before, tail⟩).filterMap _ = []
    rw [scan_of_not_occurs (by decide) linkRecogniser_of_openTag? htail]
    rfl
  | cons t tags ih =>
    have hpage : linkPage (t :: tags) ++ tail = t.text ++ (linkPage tags ++ tail) := by
      simp [linkPage]
    have hplace := LinkTag.stylesheetHref?_congr (fun address => Iff.refl (Links t.given address))
      (offset + byteLen t.front)
    rw [hpage, t.scan_text, List.filterMap_cons, List.filterMap_cons, hplace, ih]

/-- Tags with the same links, one by one. -/
theorem filterMap_eq_of_sameLink {tags others : List LinkTag}
    (h : List.Forall₂ LinkTag.SameLink tags others) :
    (others.filterMap fun u => stylesheetHref? (.ofText u.tag)) =
      tags.filterMap fun t => stylesheetHref? (.ofText t.tag) := by
  induction h with
  | nil => rfl
  | cons hsame _ ih =>
    have hhref := LinkTag.stylesheetHref?_congr hsame.links_iff 0
    rw [List.filterMap_cons, List.filterMap_cons, ih]
    rw [Slice.ofText, hhref]

/-- **Stylesheet links are found.** A page is a row of link tags, each with text in front of it that
opens none, and text behind the last one. Tags and names of attributes may be spelled in any mix of
cases, the attributes of a tag come in any order and have different names, and their values are
written in quotes of either kind or in none. The links of the page are those of its tags, in order.
A tag links to what is left of its `href` between blanks, if that is not empty and a word of its
`rel` is `stylesheet`. The order of the attributes and attributes with other names have no part in
this. -/
theorem stylesheet_links_are_found :
    (∀ (tags : List LinkTag) (tail : List Char), ¬Occurs (tagWord "link") tail →
      stylesheetLinks (.ofText (linkPage tags ++ tail)) =
        tags.filterMap fun t => stylesheetHref? (.ofText t.tag)) ∧
    (∀ (t : LinkTag) (address : String),
      stylesheetHref? (.ofText t.tag) = some address ↔ Links t.given address) ∧
    ∀ (tags others : List LinkTag) (tail : List Char), ¬Occurs (tagWord "link") tail →
      List.Forall₂ LinkTag.SameLink tags others →
        stylesheetLinks (.ofText (linkPage others ++ tail)) =
          stylesheetLinks (.ofText (linkPage tags ++ tail)) := by
  have hlinks : ∀ (tags : List LinkTag) (tail : List Char), ¬Occurs (tagWord "link") tail →
      stylesheetLinks (.ofText (linkPage tags ++ tail)) =
        tags.filterMap fun t => stylesheetHref? (.ofText t.tag) :=
    fun tags tail htail => filterMap_scan_linkPage tags htail 0 []
  -- a page is the row of its tags, so tags that link the same give the same row
  refine ⟨hlinks, fun t => t.stylesheetHref?_tag_iff 0, fun tags others tail htail hsame => ?_⟩
  rw [hlinks tags tail htail, hlinks others tail htail, filterMap_eq_of_sameLink hsame]

/-- A value that looks like an attribute, a name that ends in `href`, an address without quotes, and
a tag that links to something else. -/
theorem stylesheet_links_are_found_lookalikes :
    let rel : WrittenAttribute := { name := "REL".toList, value := "next StyleSheet".toList
                                    gap := ['\n'], quote := some '\x22', beforeEqual := [' '] }
    let href : WrittenAttribute := { name := "href".toList, value := "a.css".toList
                                     gap := [' '], quote := none }
    let title : WrittenAttribute := { name := "title".toList, value := "rel=icon href=b".toList
                                      gap := [' '], quote := some '\x27' }
    let data : WrittenAttribute := { name := "data-href".toList, value := "c.css".toList
                                     gap := [' '], quote := none }
    let icon : WrittenAttribute := { name := "rel".toList, value := "icon".toList
                                     gap := [' '], quote := none }
    let first : LinkTag := { front := ['é'], opening := "<LINK".toList
                             attributes := [title, href, data, rel], gap := [' '] }
    let second : LinkTag := { front := "<lin".toList, opening := "<linK".toList
                              attributes := [icon, href] }
    let bare : LinkTag := { front := [], opening := "<link".toList, attributes := [rel, href] }
    first.text = String.toList
      "é<LINK title='rel=icon href=b' href=a.css data-href=c.css\nREL =\"next StyleSheet\" >" ∧
    ¬Occurs (tagWord "link") "<lin".toList ∧
    stylesheetLinks (.ofText (linkPage [first, second] ++ "<lin".toList)) = ["a.css"] ∧
    Links first.given "a.css" ∧
    List.Forall₂ LinkTag.SameLink [bare, second] [first, second] ∧
    stylesheetLinks (.ofText (linkPage [bare, second] ++ "<lin".toList)) = ["a.css"] := by
  intro rel href title data icon first second bare
  obtain ⟨hpage, hlinks, hsame⟩ := stylesheet_links_are_found
  have htail : ¬Occurs (tagWord "link") "<lin".toList := by decide
  have hfound : stylesheetLinks (.ofText (linkPage [first, second] ++ "<lin".toList)) = ["a.css"] :=
    (hpage [first, second] _ htail).trans (by decide +kernel)
  have hfirst : bare.SameLink first :=
    ⟨[title.toTagAttribute, data.toTagAttribute], by decide, by decide⟩
  have hsecond : second.SameLink second := ⟨[], by decide, by decide⟩
  have hrow : List.Forall₂ LinkTag.SameLink [bare, second] [first, second] :=
    .cons hfirst (.cons hsecond .nil)
  exact ⟨by decide, htail, hfound, (hlinks first "a.css").mp (by decide +kernel), hrow,
    (hsame _ _ _ htail hrow).symm.trans hfound⟩

end Markup

end StyleAudit
