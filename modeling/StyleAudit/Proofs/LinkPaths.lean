import Mathlib.Logic.Relation
import StyleAudit.Proofs.LinkSuffixes
import StyleAudit.Proofs.PathParts

/-!
# One file, one path

A file can be linked to in many spellings: `./` may stand between any two steps, a detour into a
directory and out of it again leads nowhere, and separators may be repeated. Caches and style maps
go by what is shown of a path, so all spellings have to end up as one.

* **`Path.walk`** follows the parts of a path with a stack of names. It is the only thing that
  `normalize` looks at (**`Path.foldComponents_components`**), and walks are put together like
  paths.
* **`Path.walk_spelledParts_normalize`**: a normal path leads to the same names. Hence `normalize`
  is idempotent (**`Path.normalize_normalize`**) and may be put off past a join
  (**`Path.normalize_join_normalize`**).
* **`Path.Respells`** is one such change of a spelling, anywhere in a text, and
  **`Path.walk_of_respells`** says that no walk notices it, wherever the walk starts. So it makes no
  difference that `..` stays at the root.
* **`link_paths_canonical`** puts this together for links. A link without any text is none, whatever
  its other spellings are (**`empty_href_has_no_target`**).
-/

namespace StyleAudit

namespace Path

/-! ### Walks -/

/-- The names on the way after one more part. The last name comes first. -/
def walkPart (names : List Spelling) (part : Spelling) : List Spelling :=
  match Component.ofPart part with
  | .name spelling => spelling :: names
  | .parent => names.tail
  | _ => names

/-- The names on the way after some parts, when `names` were passed before. -/
def walk (names : List Spelling) (parts : List Spelling) : List Spelling :=
  parts.foldl walkPart names

theorem walk_append (names : List Spelling) (parts more : List Spelling) :
    walk names (parts ++ more) = walk (walk names parts) more := List.foldl_append

theorem walk_here (names : List Spelling) : walkPart names [dot] = names := rfl

theorem walk_parent (names : List Spelling) : walkPart names [dot, dot] = names.tail := rfl

/-- A plain name goes one directory down. -/
theorem walk_name {part : Spelling} (h : IsName part) (names : List Spelling) :
    walkPart names part = part :: names := by
  rw [walkPart, h.ofPart_eq]

/-- The parts that are no components make no difference. -/
theorem foldComponents_map_filter (parts : List (Nat × Spelling)) (names : List Spelling) :
    foldComponents ((parts.filter fun part => part.1 = 0 || part.2 ≠ [dot]).map
      fun part => .ofPart part.2) names = (walk names (parts.map (·.2))).reverse := by
  induction parts generalizing names with
  | nil => rfl
  | cons part parts ih =>
    show _ = (walk (walkPart names part.2) (parts.map (·.2))).reverse
    rw [← ih, List.filter_cons]
    split
    · rw [List.map_cons, walkPart]
      cases Component.ofPart part.2 <;> rfl
    · next hdropped =>
      -- only a `.` is dropped
      have hdot : part.2 = [dot] := by
        simpa using (not_or.mp (mt Bool.or_eq_true_iff.mpr hdropped)).2
      rw [hdot, walk_here]

/-- Folding the components of a path is walking its parts. -/
theorem foldComponents_components (p : Path) :
    foldComponents p.components [] = (walk [] (spelledParts p.raw)).reverse := by
  have hparts := foldComponents_map_filter (partsFrom 0 p.raw) []
  unfold components
  split
  · exact hparts
  · exact hparts

theorem isName_of_mem_walk {names : List Spelling} {parts : List Spelling}
    (hnames : ∀ name ∈ names, IsName name)
    (hparts : ∀ part ∈ parts, part ≠ [] ∧ Path.separator ∉ part) :
    ∀ name ∈ walk names parts, IsName name := by
  induction parts generalizing names with
  | nil => exact hnames
  | cons part parts ih =>
    have hmore : ∀ other ∈ parts, other ≠ [] ∧ Path.separator ∉ other := fun other h =>
      hparts other (List.mem_cons_of_mem part h)
    refine ih ?_ hmore
    intro name hname
    obtain ⟨hne, hsep⟩ := hparts part List.mem_cons_self
    -- only a part that is neither `.` nor `..` is put on the stack
    unfold walkPart Component.ofPart at hname
    split at hname
    · next text hpart =>
      split at hpart
      · cases hpart
      · split at hpart
        · cases hpart
        · next hhere hparent =>
          cases hpart
          rcases List.mem_cons.mp hname with rfl | hname
          · exact ⟨hne, hsep, hhere, hparent⟩
          · exact hnames name hname
    · exact hnames name (List.mem_of_mem_tail hname)
    · exact hnames name hname

/-- Plain names are passed one after the other. -/
theorem walk_of_isName {names : List Spelling} (h : ∀ name ∈ names, IsName name)
    (passed : List Spelling) : walk passed names = names.reverse ++ passed := by
  induction names generalizing passed with
  | nil => rfl
  | cons name names ih =>
    show walk (walkPart passed name) (names) = _
    rw [walk_name (h name List.mem_cons_self),
      ih fun other ho => h other (List.mem_cons_of_mem _ ho),
      List.reverse_cons, List.append_assoc, List.singleton_append]

/-! ### Normal paths -/

/-- The names that a path leads to from the root, by its spelling. -/
def names (p : Path) : List Spelling := (walk [] (spelledParts p.raw)).reverse

/-- The names of a path are plain: no `.`, no `..`, no separator. -/
theorem isName_of_mem_names {p : Path} : ∀ name ∈ p.names, IsName name := fun name h =>
  isName_of_mem_walk (fun _ hnone => absurd hnone List.not_mem_nil)
    (fun _ h => of_mem_spelledParts h) name
    (List.mem_reverse.mp h)

/-- To walk a joined path is to walk the first and go on with the second. -/
theorem walk_join (p : Path) {rel : Path} (hrel : rel.isAbsolute = false) :
    walk [] (spelledParts (p.join rel).raw) =
      walk (walk [] (spelledParts p.raw)) (spelledParts rel.raw) := by
  rw [spelledParts_join p hrel, walk_append]

section Absolute

variable {p q : Path} (hp : p.isAbsolute = true)

include hp

/-- A normalised path is spelled as its names, with one separator before each. -/
theorem raw_normalize : p.normalize.raw = separator :: joined p.names := by
  rw [normalize, foldComponents_components, if_pos hp]
  rfl

theorem isAbsolute_normalize : p.normalize.isAbsolute = true := by
  rw [isAbsolute, raw_normalize hp]
  rfl

theorem spelledParts_normalize :
    spelledParts p.normalize.raw = p.names := by
  rw [raw_normalize hp, ← List.nil_append (Path.separator :: joined p.names),
    spelledParts_separator, spelledParts_joined isName_of_mem_names]
  rfl

/-- A normalised path leads where the path leads. -/
theorem walk_spelledParts_normalize :
    walk [] (spelledParts p.normalize.raw) = walk [] (spelledParts p.raw) := by
  rw [spelledParts_normalize hp, walk_of_isName isName_of_mem_names, List.append_nil, names,
    List.reverse_reverse]

/-- A normalised path has no component but the root and its names. -/
theorem components_normalize : p.normalize.components = .root :: p.names.map .name := by
  have hparts : p.normalize.parts = partsFrom 0 p.normalize.raw := by
    refine List.filter_eq_self.mpr fun part hpart => ?_
    have hspelled : part.2 ∈ spelledParts p.normalize.raw := List.mem_map_of_mem hpart
    rw [spelledParts_normalize hp] at hspelled
    simp [(isName_of_mem_names _ hspelled).2.2.1]
  have hnames : p.normalize.parts.map (fun part => Component.ofPart part.2) =
      p.names.map .name := by
    have hspelled := congrArg (List.map Component.ofPart) (spelledParts_normalize hp)
    rw [spelledParts, List.map_map, ← hparts] at hspelled
    refine hspelled.trans (List.map_congr_left fun name hname => ?_)
    exact (isName_of_mem_names name hname).ofPart_eq
  unfold components
  rw [if_pos (isAbsolute_normalize hp)]
  exact congrArg _ hnames

/-- Two absolute paths with the same names are the same when they are normal. -/
theorem normalize_congr (hq : q.isAbsolute = true)
    (h : walk [] (spelledParts p.raw) = walk [] (spelledParts q.raw)) :
    p.normalize = q.normalize := by
  have hnames : p.names = q.names := by rw [names, names, h]
  have hraw : p.normalize.raw = q.normalize.raw := by
    rw [raw_normalize hp, raw_normalize hq, hnames]
  exact congrArg Path.mk hraw

theorem normalize_normalize : p.normalize.normalize = p.normalize :=
  normalize_congr (isAbsolute_normalize hp) hp (walk_spelledParts_normalize hp)

/-- The directory of a link may be normalised first. -/
theorem normalize_join_normalize {rel : Path} (hrel : rel.isAbsolute = false) :
    (p.join rel).normalize = (p.normalize.join rel).normalize := by
  have hnormal := isAbsolute_normalize hp
  refine normalize_congr (isAbsolute_join hp hrel) (isAbsolute_join hnormal hrel) ?_
  rw [walk_join p hrel, walk_join p.normalize hrel, walk_spelledParts_normalize hp]

end Absolute

/-! ### Other spellings -/

/-- `Respells cs ds`: `ds` is `cs` with one thing written into it that leads nowhere. -/
inductive Respells : Spelling → Spelling → Prop
  /-- A `./` before a step or at the end. -/
  | here {front : Spelling} (hfront : EndsDirectory front) (back : Spelling) :
      Respells (front ++ back) (front ++ dot :: Path.separator :: back)
  /-- A directory, and the way out of it. -/
  | detour {front name : Spelling} (hfront : EndsDirectory front) (hname : IsName name)
      (back : Spelling) :
      Respells (front ++ back) (front ++
        (name ++ Path.separator :: dot :: dot :: Path.separator :: back))
  /-- A separator after another one. -/
  | separator (front back : Spelling) :
      Respells (front ++ Path.separator :: back) (front ++ Path.separator :: Path.separator :: back)

theorem spelledParts_here (back : Spelling) :
    spelledParts (dot :: Path.separator :: back) = [dot] :: spelledParts back :=
  spelledParts_separator [dot] back

theorem spelledParts_parent (back : Spelling) :
    spelledParts (dot :: dot :: Path.separator :: back) = [dot, dot] :: spelledParts back :=
  spelledParts_separator [dot, dot] back

/-- One change of spelling does not change where a path leads. -/
theorem walk_of_respells {cs ds : Spelling} (h : Respells cs ds) (names : List Spelling) :
    walk names (spelledParts cs) = walk names (spelledParts ds) := by
  cases h with
  | here hfront back =>
    rw [spelledParts_directory hfront, spelledParts_directory hfront, walk_append, walk_append,
      spelledParts_here]
    rfl
  | detour hfront hname back =>
    rw [spelledParts_directory hfront, spelledParts_directory hfront, walk_append, walk_append,
      spelledParts_separator, spelledParts_of_not_mem hname.1 hname.2.1, spelledParts_parent]
    -- the name is passed, and taken back again by what follows
    show _ = walk (walkPart (walkPart _ _) [dot, dot]) (spelledParts back)
    rw [walk_name hname, walk_parent, List.tail_cons]
  | separator front back =>
    have hrepeated := spelledParts_separator [] back
    rw [List.nil_append] at hrepeated
    rw [spelledParts_separator, spelledParts_separator, hrepeated]
    rfl

/-- Changes of spelling in any number and direction do not change where a path leads. -/
theorem walk_of_eqvGen {cs ds : Spelling} (h : Relation.EqvGen Respells cs ds)
    (names : List Spelling) : walk names (spelledParts cs) = walk names (spelledParts ds) := by
  induction h with
  | rel cs ds h => exact walk_of_respells h names
  | refl cs => rfl
  | symm cs ds _ ih => exact ih.symm
  | trans cs ds es _ _ ih ih' => exact ih.trans ih'

end Path

open Text StyleAudit.Path

/-! ### Links -/

/-- `IsRelativeHref href`: a link that starts in the directory of its document, and is a path
only. -/
structure IsRelativeHref (href : String) : Prop where
  relative : (Path.ofText href).isAbsolute = false
  plain : ∀ c ∈ href.toList, c ≠ ':' ∧ c ≠ '?' ∧ c ≠ '#'
  trimmed : trim isBlank href.toList = href.toList

namespace IsRelativeHref

variable {href : String} (h : IsRelativeHref href)

include h

/-- A relative reference does not begin with a slash. -/
theorem head?_ne : href.toList.head? ≠ some '/' := by
  intro hhead
  obtain ⟨rest, hrest⟩ := List.head?_eq_some_iff.mp hhead
  have habsolute := h.relative
  rw [isAbsolute, ofText, hrest] at habsolute
  exact Bool.noConfusion habsolute

theorem isLocalText : LinkTarget.IsLocalText href.toList := by
  have hcolon : ':' ∉ href.toList := fun hmem => (h.plain ':' hmem).1 rfl
  refine ⟨fun hscheme => ?_, fun hhost => ?_, fun hdata => ?_⟩
  · exact hcolon (hscheme.subset (by simp))
  · obtain ⟨rest, hrest⟩ := hhost
    exact h.head?_ne (by rw [← hrest]; rfl)
  · exact hcolon (mem_of_mem_toAsciiLower (by decide) (hdata.subset (by simp)))

/-- A relative reference is resolved against the directory of its document. -/
theorem ofHref?_eq (hne : href ≠ "") (dir : Path) (root : Option Path) :
    LinkTarget.ofHref? href (some dir) root = some (.file (dir.join (.ofText href)).normalize) := by
  have hmarks : ∀ c ∈ href.toList, ¬ LinkTarget.IsSuffixMark c := fun c hc hmark =>
    hmark.elim (h.plain c hc).2.1 (h.plain c hc).2.2
  have hall := @takeWhile_href href hmarks [] (by simp)
  rw [List.append_nil] at hall
  have hlist : href.toList ≠ [] := mt String.toList_eq_nil_iff.mp hne
  have hlocate : LinkTarget.locate href.toList (some dir) root =
      some (dir.join (.ofText href)) := by
    have hhead := h.head?_ne
    unfold LinkTarget.locate
    split
    · next hslash => exact absurd (by rw [hslash]; rfl) hhead
    · next hslash => exact absurd (by rw [hslash]; rfl) hhead
    · rfl
  have hlocal : LinkTarget.IsLocalText (trim isBlank href.toList) := h.trimmed.symm ▸ h.isLocalText
  rw [LinkTarget.ofHref?_of_isLocalText hlocal, h.trimmed, hall,
    if_neg (mt List.isEmpty_iff.mp hlist), hlocate]
  rfl

end IsRelativeHref

/-- **The paths of links are canonical.** An absolute path in normal form is absolute and has
neither `.` nor `..`, is in normal form, and stands for the path it was made from when another one
is joined to it. Hence links that are spelled in different ways, but have some text, lead to the
same file and have the same key, from every directory. -/
theorem link_paths_canonical {a b : Path} (ha : a.isAbsolute = true) (hb : b.isAbsolute = false) :
    a.normalize.isAbsolute = true ∧
    (∀ component ∈ a.normalize.components, component ≠ .here ∧ component ≠ .parent) ∧
    (∀ part ∈ spelledParts a.normalize.raw, IsName part) ∧
    a.normalize.normalize = a.normalize ∧
    (a.join b).normalize = (a.normalize.join b).normalize ∧
    ∀ (dir : Path) (root : Option Path) (href href' : String), dir.isAbsolute = true →
      IsRelativeHref href → IsRelativeHref href' → href ≠ "" → href' ≠ "" →
      Relation.EqvGen Respells (ofText href).raw (ofText href').raw →
      ∃ path, LinkTarget.ofHref? href (some dir) root = some (.file path) ∧
        LinkTarget.ofHref? href' (some dir) root = some (.file path) ∧
        (LinkTarget.ofHref? href (some dir) root).map LinkTarget.key = some path.key ∧
        (LinkTarget.ofHref? href' (some dir) root).map LinkTarget.key = some path.key := by
  refine ⟨isAbsolute_normalize ha, ?_, ?_, normalize_normalize ha,
    normalize_join_normalize ha hb, ?_⟩
  · rw [components_normalize ha]
    intro component hcomponent
    rcases List.mem_cons.mp hcomponent with rfl | hcomponent
    · exact ⟨nofun, nofun⟩
    · obtain ⟨name, _, rfl⟩ := List.mem_map.mp hcomponent
      exact ⟨nofun, nofun⟩
  · rw [spelledParts_normalize ha]
    intro part hpart
    exact isName_of_mem_names part hpart
  · intro dir root href href' hdir hhref hhref' hne hne' hspelled
    have hsame : (dir.join (.ofText href)).normalize = (dir.join (.ofText href')).normalize := by
      refine normalize_congr (isAbsolute_join hdir hhref.relative)
        (isAbsolute_join hdir hhref'.relative) ?_
      -- both walk to the directory first, and the rest of the way is spelled alike
      rw [walk_join dir hhref.relative, walk_join dir hhref'.relative]
      exact walk_of_eqvGen hspelled _
    have htarget := hhref.ofHref?_eq hne dir root
    have htarget' := hhref'.ofHref?_eq hne' dir root
    rw [← hsame] at htarget'
    refine ⟨_, htarget, htarget', ?_, ?_⟩
    · rw [htarget]
      rfl
    · rw [htarget']
      rfl

/-- Two spellings of a link that leads up past the root, with a `./`, a detour and a repeated
separator in the second one. -/
theorem link_paths_canonical_past_root :
    Relation.EqvGen Respells (ofText "../../x/a.css").raw (ofText ".././../y/..//x/a.css").raw ∧
    (Path.ofText "/a/../../b/./c").normalize = (.ofText "/b/c") ∧
    (Path.ofText "/b/c").normalize = (.ofText "/b/c") ∧
    ((Path.ofText "/a/../../b/./c").join (.ofText "../x")).normalize =
      ((Path.ofText "/b/c").join (.ofText "../x")).normalize ∧
    LinkTarget.ofHref? "../../x/a.css" (some (.ofText "/d")) none =
      some (.file (.ofText "/x/a.css")) ∧
    LinkTarget.ofHref? ".././../y/..//x/a.css" (some (.ofText "/d")) none =
      some (.file (.ofText "/x/a.css")) := by
  have hspelled : Relation.EqvGen Respells (ofText "../../x/a.css").raw
      (ofText ".././../y/..//x/a.css").raw := by
    have hhere : Respells (ofText "../../x/a.css").raw (ofText ".././../x/a.css").raw :=
      @Respells.here (ofText "../").raw (Or.inr rfl) (ofText "../x/a.css").raw
    have hdetour : Respells (ofText ".././../x/a.css").raw (ofText ".././../y/../x/a.css").raw :=
      @Respells.detour (ofText ".././../").raw (ofText "y").raw (Or.inr rfl) (by decide)
        (ofText "x/a.css").raw
    have hseparator : Respells (ofText ".././../y/../x/a.css").raw
        (ofText ".././../y/..//x/a.css").raw :=
      .separator (ofText ".././../y/..").raw (ofText "x/a.css").raw
    exact ((Relation.EqvGen.rel _ _ hhere).trans _ _ _ (.rel _ _ hdetour)).trans _ _ _
      (.rel _ _ hseparator)
  have hup : IsRelativeHref "../../x/a.css" := ⟨by decide, by simp, by decide⟩
  have hround : IsRelativeHref ".././../y/..//x/a.css" := ⟨by decide, by simp, by decide⟩
  have hnormal : (Path.ofText "/a/../../b/./c").normalize = (.ofText "/b/c") := by decide +kernel
  obtain ⟨_, _, _, hagain, hjoin, hlinks⟩ :=
    @link_paths_canonical (.ofText "/a/../../b/./c") (.ofText "../x") (by decide) (by decide)
  rw [hnormal] at hagain hjoin
  obtain ⟨path, htarget, htarget', _⟩ :=
    hlinks (.ofText "/d") none _ _ (by decide) hup hround (by decide) (by decide) hspelled
  have hpath : LinkTarget.ofHref? "../../x/a.css" (some (.ofText "/d")) none =
      some (.file (.ofText "/x/a.css")) := by
    decide +kernel
  exact ⟨hspelled, hnormal, hagain, hjoin, hpath, htarget'.trans (htarget.symm.trans hpath)⟩

/-- A link without any text has no target, though the same link with `./` in it has one. -/
theorem empty_href_has_no_target :
    IsRelativeHref "" ∧ IsRelativeHref "./" ∧ Respells (ofText "").raw (ofText "./").raw ∧
    LinkTarget.ofHref? "./" (some (.ofText "/d")) none = some (.file (.ofText "/d")) ∧
    LinkTarget.ofHref? "" (some (.ofText "/d")) none = none := by
  refine ⟨⟨by decide, by simp, by decide⟩, ⟨by decide, by simp, by decide⟩, ?_, ?_, ?_⟩
  · exact .here (Or.inl rfl) []
  · decide +kernel
  · decide +kernel

end StyleAudit
