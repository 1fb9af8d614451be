import Mathlib.Data.List.Nodup
import StyleAudit.Proofs.StyleFiles

/-!
# A project in two places

The files of a project are found below its root, and their paths start with the root as it is
written. This module compares the discoveries below two roots that hold the same files.

* **`FileTree.namesBelow`** are the ways down to the files that are not skipped, in order. Copies
  have the same ones (**`FileTree.namesBelow_congr`**), in whatever order a disk lists them.
* **`excludes_descend_iff`**: of the excluded directories only those of the root itself are left to
  look at, since the others are never entered.
* **`FileTree.IsRoot.filesBelow_eq`**: so a discovery below a root selects among `namesBelow` and
  writes the root before each, and below a root that leads through an excluded directory it finds
  nothing (**`FileTree.IsRoot.filesBelow_of_passes`**).
* **`discovery_ignores_location`** compares two roots. What is left of the location is the excluded
  directories of the root as it is written, and globs of style files that match more than a name
  (**`location_decides_discovery`**).
-/

namespace StyleAudit

open Text StyleAudit.Path

/-! ### Copies of a directory -/

namespace FileTree

/-- `t.IsSound`: files and directories have names, and a place holds one file or is a directory. -/
structure IsSound (t : FileTree) : Prop where
  named : ∀ place ∈ t.files.map (·.1), ∀ name ∈ place, IsName name
  distinct : (t.files.map (·.1)).Nodup
  apart : ∀ place ∈ t.files.map (·.1), t.item? place ≠ some .directory

instance (t : FileTree) : Decidable t.IsSound :=
  decidable_of_iff (_ ∧ _ ∧ _)
    ⟨fun h => ⟨h.1, h.2.1, h.2.2⟩, fun h => ⟨h.named, h.distinct, h.apart⟩⟩

def Item.isFile : Item → Bool
  | .file _ => true
  | .directory => false

/-- `SameBelow t loc t' loc'`: below the two places, files are where files are and directories are
where directories are. -/
def SameBelow (t : FileTree) (loc : Location) (t' : FileTree) (loc' : Location) : Prop :=
  ∀ names, (t.item? (loc ++ names)).map Item.isFile = (t'.item? (loc' ++ names)).map Item.isFile

/-- The way from a location to a place is what has to be added to it. -/
theorem way?_eq_some_iff {loc place : Location} {names : List Spelling} :
    way? loc place = some names ↔ place = loc ++ names := by
  unfold way?
  constructor
  · intro h
    split at h
    · next hprefix =>
      rw [← Option.some.inj h]
      exact (List.prefix_iff_eq_append.mp (List.isPrefixOf_iff_prefix.mp hprefix)).symm
    · cases h
  · rintro rfl
    rw [if_pos (List.isPrefixOf_iff_prefix.mpr (List.prefix_append loc names)), List.drop_left]

/-- The files below a location are those that a way leads to. -/
theorem below_eq (t : FileTree) (loc : Location) :
    t.below loc = (t.files.map (·.1)).filterMap (way? loc) := by
  rw [List.filterMap_map]
  rfl

/-- A way leads to a file below a location when the place it leads to is a file's. -/
theorem mem_below_iff {t : FileTree} {loc : Location} {names : List Spelling} :
    names ∈ t.below loc ↔ loc ++ names ∈ t.files.map (·.1) := by
  rw [below_eq, List.mem_filterMap]
  simp only [way?_eq_some_iff]
  constructor
  · rintro ⟨_, hmem, rfl⟩
    exact hmem
  · exact fun hmem => ⟨_, hmem, rfl⟩

/-- The items below a place, by the names on the way from there. -/
def itemsBelow (t : FileTree) (loc : Location) : List (List Spelling) :=
  ([] :: t.directories ++ t.files.map (·.1)).filterMap (way? loc)

/-- A way that leads to no item below a location leads to nothing. -/
theorem item?_eq_none {t : FileTree} {loc : Location} {names : List Spelling}
    (h : names ∉ t.itemsBelow loc) : t.item? (loc ++ names) = none := by
  have hplace : loc ++ names ∉ [] :: t.directories ++ t.files.map (·.1) := fun hmem =>
    h (List.mem_filterMap.mpr ⟨_, hmem, way?_eq_some_iff.mpr rfl⟩)
  rw [List.mem_append, List.mem_cons, not_or, not_or] at hplace
  obtain ⟨⟨hne, hdirectory⟩, hfile⟩ := hplace
  have hlookup : t.files.lookup (loc ++ names) = none := by
    refine List.lookup_eq_none_iff.mpr fun entry hentry => ?_
    exact bne_iff_ne.mpr fun heq => hfile (List.mem_map.mpr ⟨entry, hentry, heq.symm⟩)
  rw [item?, if_neg, hlookup, Option.map_none]
  simp only [Bool.or_eq_true, List.isEmpty_iff, List.contains_iff_mem]
  exact not_or.mpr ⟨hne, hdirectory⟩

/-- For two locations to look the same, only the ways to items below either matter. -/
theorem sameBelow_iff {t t' : FileTree} {loc loc' : Location} :
    SameBelow t loc t' loc' ↔ ∀ names ∈ t.itemsBelow loc ++ t'.itemsBelow loc',
      (t.item? (loc ++ names)).map Item.isFile = (t'.item? (loc' ++ names)).map Item.isFile := by
  refine ⟨fun h names _ => h names, fun h names => ?_⟩
  by_cases hmem : names ∈ t.itemsBelow loc ++ t'.itemsBelow loc'
  · exact h names hmem
  · rw [List.mem_append, not_or] at hmem
    rw [item?_eq_none hmem.1, item?_eq_none hmem.2]

instance (t : FileTree) (loc : Location) (t' : FileTree) (loc' : Location) :
    Decidable (SameBelow t loc t' loc') := decidable_of_iff _ sameBelow_iff.symm

theorem IsSound.nodup_below {t : FileTree} (h : t.IsSound) (loc : Location) :
    (t.below loc).Nodup := by
  rw [below_eq]
  refine h.distinct.filterMap fun place place' names hplace hplace' => ?_
  rw [way?_eq_some_iff.mp hplace, way?_eq_some_iff.mp hplace']

/-- In a sound tree there is a file at a place when the tree lists one. -/
theorem IsSound.item?_isFile_iff {t : FileTree} (h : t.IsSound) {place : Location} :
    (t.item? place).map Item.isFile = some true ↔ place ∈ t.files.map (·.1) := by
  constructor
  · intro hitem
    unfold item? at hitem
    split at hitem
    · cases hitem
    · have hsome : (t.files.lookup place).isSome = true := by
        cases hfile : t.files.lookup place with
        | none => rw [hfile] at hitem; cases hitem
        | some file => rfl
      obtain ⟨entry, hentry, hplace⟩ := List.lookup_isSome_iff.mp hsome
      exact List.mem_map.mpr ⟨entry, hentry, (eq_of_beq hplace).symm⟩
  · intro hmem
    -- no directory of a sound tree stands at the place of a file
    have happart := h.apart place hmem
    obtain ⟨entry, hentry, hplace⟩ := List.mem_map.mp hmem
    have hsome : (t.files.lookup place).isSome = true :=
      List.lookup_isSome_iff.mpr ⟨entry, hentry, by simp [hplace]⟩
    obtain ⟨file, hfile⟩ := Option.isSome_iff_exists.mp hsome
    unfold item? at happart ⊢
    split at happart
    · exact absurd rfl happart
    · next hplain =>
      rw [if_neg hplain, hfile]
      rfl

/-- Locations that look the same have the same files below them, in some order. -/
theorem below_perm {t t' : FileTree} {loc loc' : Location} (h : t.IsSound) (h' : t'.IsSound)
    (hsame : SameBelow t loc t' loc') : (t.below loc).Perm (t'.below loc') := by
  -- each file is listed once, so the lists have only to hold the same ways
  rw [List.perm_ext_iff_of_nodup (h.nodup_below loc) (h'.nodup_below loc')]
  intro names
  rw [mem_below_iff, mem_below_iff, ← h.item?_isFile_iff, ← h'.item?_isFile_iff, hsame names]

end FileTree

/-! ### Ways down in order -/

/-- The order of ways down is that of the paths they make. -/
def namesLe (names other : List Spelling) : Bool := componentsLe (names.map .name) (other.map .name)

theorem namesLe_trans (a b c : List Spelling) (hab : namesLe a b = true)
    (hbc : namesLe b c = true) :
    namesLe a c = true := componentsLe_trans hab hbc

theorem namesLe_total (a b : List Spelling) : (namesLe a b || namesLe b a) = true :=
  Bool.or_eq_true_iff.mpr (componentsLe_total _ _)

theorem namesLe_antisymm {a b : List Spelling} (hab : namesLe a b = true)
    (hba : namesLe b a = true) :
    a = b := by
  have hcomponents := componentsLe_antisymm hab hba
  exact List.map_injective_iff.mpr (fun _ _ h => Component.name.inj h) hcomponents

/-- The order of paths below a root is the order of the names below it, whatever the root. -/
theorem le_descend {root : Path} (hroot : root.raw ≠ []) {names other : List Spelling}
    (hnames : ∀ name ∈ names, IsName name) (hne : names ≠ [])
    (hother : ∀ name ∈ other, IsName name) (hne' : other ≠ []) :
    (root.descend names).le (root.descend other) = namesLe names other := by
  rw [Path.le, components_descend hnames hne hroot, components_descend hother hne' hroot,
    componentsLe_append_left]
  rfl

/-- The ways down from a place to the files that are not skipped, in order. -/
def FileTree.namesBelow (t : FileTree) (loc : Location) : List (List Spelling) :=
  ((t.below loc).filter (!isSkipped ·)).mergeSort namesLe

/-- The ways down from a place to the style files, with the place under the path `root`. -/
def FileTree.stylesBelow (t : FileTree) (loc : Location) (styles : GlobSet) (root : Path) :
    List (List Spelling) :=
  (t.namesBelow loc).filter fun names => styles.acceptsStyle (root.descend names)

/-- Locations that look the same list the same names below them, in the same order. -/
theorem FileTree.namesBelow_congr {t t' : FileTree} {loc loc' : Location} (h : t.IsSound)
    (h' : t'.IsSound) (hsame : SameBelow t loc t' loc') :
    t.namesBelow loc = t'.namesBelow loc' := by
  have hperm := (below_perm h h' hsame).filter (!isSkipped ·)
  refine List.Perm.eq_of_pairwise (fun _ _ _ _ hab hba => namesLe_antisymm hab hba)
    (List.pairwise_mergeSort namesLe_trans namesLe_total _)
    (List.pairwise_mergeSort namesLe_trans namesLe_total _) ?_
  exact (List.mergeSort_perm _ _).trans (hperm.trans (List.mergeSort_perm _ _).symm)

/-! ### Excluded directories -/

/-- `root.PassesExcluded`: the path as it is written leads through an excluded directory. -/
def Path.PassesExcluded (root : Path) : Prop :=
  ∃ name ∈ excludedNames, utf8 name.toList ∈ spelledParts root.raw

instance (root : Path) : Decidable root.PassesExcluded :=
  inferInstanceAs (Decidable (∃ name ∈ excludedNames, utf8 name.toList ∈ spelledParts root.raw))

/-- Below a root, the built-in set decides by the root alone. -/
theorem builtInSet_isMatch_descend {names : List Spelling} (hnames : ∀ name ∈ names, IsName name)
    (hne : names ≠ []) (hskipped : isSkipped names = false) (root : Path) :
    builtInSet.isMatch (root.descend names).raw = true ↔ root.PassesExcluded := by
  -- a directory on the way down would not have been entered
  have hentered : ∀ name ∈ excludedNames, utf8 name.toList ∉ names.dropLast := by
    intro name hname hmem
    have hlisted : isSkippedName (utf8 name.toList) = true := by
      have hall : ∀ name ∈ excludedNames, isSkippedName (utf8 name.toList) = true := by
        decide +kernel
      exact hall name hname
    have hany := List.any_eq_true.mpr ⟨_, hmem, hlisted⟩
    rw [isSkipped] at hskipped
    rw [hskipped] at hany
    exact Bool.noConfusion hany
  have hnamed : ∀ name ∈ excludedNames, IsName (utf8 name.toList) := by decide +kernel
  rw [GlobSet.isMatch, List.any_eq_true]
  constructor
  · rintro ⟨_, hglob, hmatch⟩
    obtain ⟨name, hname, rfl⟩ := List.mem_map.mp hglob
    rcases (Glob.isMatch_descend hnames hne root (hnamed name hname)).mp hmatch with h | h
    · exact ⟨name, hname, h⟩
    · exact absurd h (hentered name hname)
  · rintro ⟨name, hname, h⟩
    refine ⟨_, List.mem_map_of_mem hname, ?_⟩
    exact (Glob.isMatch_descend hnames hne root (hnamed name hname)).mpr (Or.inl h)

theorem descend_empty {names : List Spelling} (hnames : ∀ name ∈ names, IsName name)
    (hne : names ≠ []) : (⟨[]⟩ : Path).descend names = ⟨joined names⟩ :=
  congrArg Path.mk (raw_descend hnames ⟨[]⟩ hne)

/-- A file that the walk reaches is excluded when the root's own path passes an excluded name. -/
theorem excludes_descend_iff {names : List Spelling} (hnames : ∀ name ∈ names, IsName name)
    (hne : names ≠ []) (hskipped : isSkipped names = false) {root : Path} (hroot : root.raw ≠ []) :
    builtInSet.excludes (root.descend names) root = true ↔ root.PassesExcluded := by
  -- seen from the root, there is nothing before the way down
  have hrelative : builtInSet.isMatch (⟨joined names⟩ : Path).raw = false := by
    rw [Bool.eq_false_iff, Ne, ← descend_empty hnames hne,
      builtInSet_isMatch_descend hnames hne hskipped]
    rintro ⟨name, _, hmem⟩
    exact absurd hmem List.not_mem_nil
  rw [GlobSet.excludes, relativeTo?_descend hnames hne hroot, Option.any_some, hrelative,
    Bool.or_false]
  exact builtInSet_isMatch_descend hnames hne hskipped root

/-! ### Discoveries below a root -/

namespace FileTree

/-- `t.IsRoot root loc`: `root` is a path of the directory at `loc`. -/
structure IsRoot (t : FileTree) (root : Path) (loc : Location) : Prop where
  sound : t.IsSound
  located : t.locate root = .ok loc
  directory : t.item? loc = some .directory

instance (t : FileTree) (root : Path) (loc : Location) : Decidable (t.IsRoot root loc) :=
  decidable_of_iff (_ ∧ _ ∧ _)
    ⟨fun h => ⟨h.1, h.2.1, h.2.2⟩, fun h => ⟨h.sound, h.located, h.directory⟩⟩

namespace IsRoot

variable {t : FileTree} {root : Path} {loc : Location} (h : t.IsRoot root loc)

include h

theorem raw_ne : root.raw ≠ [] := by
  intro hraw
  have hlocated := h.located
  rw [locate, hraw] at hlocated
  cases hlocated

theorem isName_of_mem_below {names : List Spelling} (hnames : names ∈ t.below loc) :
    ∀ name ∈ names, IsName name := fun name hname =>
  h.sound.named _ (mem_below_iff.mp hnames) name (List.mem_append_right loc hname)

theorem ne_nil_of_mem_below {names : List Spelling} (hnames : names ∈ t.below loc) :
    names ≠ [] := by
  rintro rfl
  have hplace := mem_below_iff.mp hnames
  rw [List.append_nil] at hplace
  exact h.sound.apart loc hplace h.directory

/-- Names that are listed are plain, at least one, and not skipped. -/
theorem of_mem_namesBelow {names : List Spelling} (hnames : names ∈ t.namesBelow loc) :
    (∀ name ∈ names, IsName name) ∧ names ≠ [] ∧ isSkipped names = false := by
  rw [namesBelow, List.mem_mergeSort, List.mem_filter] at hnames
  exact ⟨h.isName_of_mem_below hnames.1, h.ne_nil_of_mem_below hnames.1, by simpa using hnames.2⟩

/-- Relative to the root, a file below it is the path of its names. -/
theorem relativeTo?_descend {names : List Spelling} (hnames : names ∈ t.namesBelow loc) :
    (root.descend names).relativeTo? root = some ⟨joined names⟩ := by
  obtain ⟨hnamed, hne, _⟩ := h.of_mem_namesBelow hnames
  exact Path.relativeTo?_descend hnamed hne h.raw_ne

/-- Below a root, what is excluded depends on the root alone. -/
theorem excludes_iff {names : List Spelling} (hmem : names ∈ t.below loc)
    (hskipped : isSkipped names = false) :
    builtInSet.excludes (root.descend names) root = true ↔ root.PassesExcluded :=
  excludes_descend_iff (h.isName_of_mem_below hmem) (h.ne_nil_of_mem_below hmem) hskipped h.raw_ne

/-- Where a directory cannot be opened, nothing is found. -/
theorem filesBelow_of_closed (hclosed : hasClosedDirectory t root loc = true) (excluded : GlobSet)
    (accept : Path → Bool) :
    filesBelow t root excluded accept = .error (.gather root.text) := by
  rw [filesBelow, h.located]
  exact if_pos hclosed

/-- Where every directory can be read, the paths found are those of the files below the root. -/
theorem pathsBelow_eq (hopen : hasClosedDirectory t root loc = false) (excluded : GlobSet) :
    pathsBelow t root excluded =
      (((t.below loc).filter (!isSkipped ·)).map root.descend).filter
        (!excluded.excludes · root) := by
  rw [pathsBelow, h.located]
  exact if_neg (by rw [hopen]; exact Bool.false_ne_true)

section Open

variable (hopen : hasClosedDirectory t root loc = false)

include hopen

/-- Nothing is found below a root that leads through an excluded directory. -/
theorem filesBelow_of_passes (hpasses : root.PassesExcluded) (accept : Path → Bool) :
    filesBelow t root builtInSet accept = .ok [] := by
  have hnone : pathsBelow t root builtInSet = [] := by
    rw [h.pathsBelow_eq hopen]
    refine List.filter_eq_nil_iff.mpr fun path hpath => ?_
    obtain ⟨names, hnames, rfl⟩ := List.mem_map.mp hpath
    obtain ⟨hmem, hskipped⟩ := List.mem_filter.mp hnames
    simp [(h.excludes_iff hmem (by simpa using hskipped)).mpr hpasses]
  rw [filesBelow_of_locate h.located hopen, hnone, List.filter_nil, List.mergeSort_nil]

/-- Below any other root, what is found are ways down with the root before them. -/
theorem filesBelow_eq (hpasses : ¬ root.PassesExcluded) (accept : Path → Bool) :
    filesBelow t root builtInSet accept =
      .ok (((t.namesBelow loc).filter fun names => accept (root.descend names)).map
        root.descend) := by
  have hpaths : pathsBelow t root builtInSet =
      ((t.below loc).filter (!isSkipped ·)).map root.descend := by
    rw [h.pathsBelow_eq hopen]
    refine List.filter_eq_self.mpr fun path hpath => ?_
    obtain ⟨names, hnames, rfl⟩ := List.mem_map.mp hpath
    obtain ⟨hmem, hskipped⟩ := List.mem_filter.mp hnames
    have hkept := mt (h.excludes_iff hmem (by simpa using hskipped)).mp hpasses
    simp [hkept]
  -- paths that start with the root are in the order of what follows it
  have horder : ∀ names ∈ t.below loc, ∀ other ∈ t.below loc,
      namesLe names other = (root.descend names).le (root.descend other) := by
    intro names hnames other hother
    exact (le_descend h.raw_ne (h.isName_of_mem_below hnames) (h.ne_nil_of_mem_below hnames)
      (h.isName_of_mem_below hother) (h.ne_nil_of_mem_below hother)).symm
  rw [filesBelow_of_locate h.located hopen, hpaths, List.filter_map, namesBelow,
    Sorting.filter_mergeSort namesLe_trans namesLe_total]
  refine congrArg _ (List.map_mergeSort fun names hnames other hother => ?_).symm
  apply horder
  · exact (List.mem_filter.mp (List.mem_filter.mp hnames).1).1
  · exact (List.mem_filter.mp (List.mem_filter.mp hother).1).1

end Open

end IsRoot

end FileTree

/-! ### Documents -/

/-- The kind of the file at the end of a way down. -/
def Settings.kindOfNames? (s : Settings) (names : List Spelling) : Option DocumentKind :=
  ((names.getLast?.bind extensionOf?).bind ofUtf8?).bind fun ext =>
    s.kindOfExtension? (String.ofList ext)

def Settings.documentsAmong (s : Settings) (ways : List (List Spelling)) :
    List (Path × DocumentKind) :=
  ways.filterMap fun names =>
    (s.kindOfNames? names).map fun kind => (⟨joined names⟩, kind)

/-- Documents as they are seen from a root. -/
def documentsFrom (root : Path) (documents : List (Path × DocumentKind)) :
    List (Option Path × DocumentKind) := documents.map fun d => (d.1.relativeTo? root, d.2)

/-- The paths of ways down from where these start. -/
def relativePaths (ways : List (List Spelling)) : List Path :=
  ways.map fun names => ⟨joined names⟩

/-- Paths as they are seen from a root. -/
def pathsFrom (root : Path) (paths : List Path) : List (Option Path) :=
  paths.map fun path => path.relativeTo? root

namespace FileTree.IsRoot

variable {t : FileTree} {root : Path} {loc : Location} (h : t.IsRoot root loc) {settings : Settings}
  (hexclude : settings.exclude = [])

include h

/-- The kind of a file below a root depends on its names alone. -/
theorem kindOfPath?_descend (settings : Settings) {names : List Spelling}
    (hnames : names ∈ t.namesBelow loc) :
    settings.kindOfPath? (root.descend names) = settings.kindOfNames? names := by
  obtain ⟨hnamed, hne, _⟩ := h.of_mem_namesBelow hnames
  rw [Settings.kindOfPath?, extension?, fileName?_descend hnamed hne]
  rfl

/-- What is selected among the ways down can be told from the paths. -/
theorem mem_relativePaths_filter_iff (accept : List Spelling → Bool) {names : List Spelling}
    (hnames : names ∈ t.namesBelow loc) :
    ⟨joined names⟩ ∈ relativePaths ((t.namesBelow loc).filter accept) ↔
      accept names = true := by
  rw [relativePaths, List.mem_map]
  constructor
  · rintro ⟨other, hother, heq⟩
    obtain ⟨hother, haccept⟩ := List.mem_filter.mp hother
    have hjoined : joined other = joined names := congrArg Path.raw heq
    have hparts := congrArg spelledParts hjoined
    rw [spelledParts_joined (h.of_mem_namesBelow hother).1,
      spelledParts_joined (h.of_mem_namesBelow hnames).1] at hparts
    exact hparts ▸ haccept
  · exact fun haccept => ⟨names, List.mem_filter.mpr ⟨hnames, haccept⟩, rfl⟩

include hexclude

/-- A directory that cannot be read fails the search for documents. -/
theorem documentsBelow_of_closed (hclosed : hasClosedDirectory t root loc = true) :
    documentsBelow t root settings = .error (.gather root.text) := by
  unfold documentsBelow
  rw [excludeSet_eq hexclude]
  simp only [bind, Except.bind, h.filesBelow_of_closed hclosed]

variable (hopen : hasClosedDirectory t root loc = false)

include hopen

/-- Below a root whose path passes an excluded name there are no documents. -/
theorem documentsBelow_of_passes (hpasses : root.PassesExcluded) :
    documentsBelow t root settings = .ok [] := by
  unfold documentsBelow
  rw [excludeSet_eq hexclude]
  simp only [bind, Except.bind, h.filesBelow_of_passes hopen hpasses]
  rfl

/-- Seen from the root, the documents are those among the ways down. -/
theorem documentsBelow_eq (hpasses : ¬ root.PassesExcluded) :
    (documentsBelow t root settings).map (documentsFrom root) =
      .ok ((settings.documentsAmong (t.namesBelow loc)).map fun d => (some d.1, d.2)) := by
  unfold documentsBelow
  rw [excludeSet_eq hexclude]
  simp only [bind, Except.bind, h.filesBelow_eq hopen hpasses, pure, Except.pure, Except.map,
    Except.ok.injEq]
  rw [documentsFrom, Settings.documentsAmong, List.map_filterMap, List.map_filterMap,
    List.filterMap_map, List.filterMap_filter]
  refine List.filterMap_congr fun names hnames => ?_
  rw [Function.comp_apply, h.kindOfPath?_descend settings hnames]
  cases settings.kindOfNames? names with
  | none => rfl
  | some kind =>
    simp only [Option.isSome_some, if_true, Option.map_some, h.relativeTo?_descend hnames]

end FileTree.IsRoot

/-! ### Style files -/

namespace Glob

theorem partsDepth_literals (cs : List Char) :
    partsDepth (tokensExpression (cs.map .literal)) = 0 := by
  -- a character is a sequence of bytes, and those have no depth
  have hbytes : ∀ (bytes : List UInt8) (rest : List Expression),
      partsDepth (bytes.map .byte ++ rest) = partsDepth rest := by
    intro bytes rest
    induction bytes with
    | nil => rfl
    | cons b bytes ih =>
      rw [List.map_cons, List.cons_append, partsDepth, ih, Expression.depth, Nat.zero_max]
  induction cs with
  | nil => rfl
  | cons c cs ih =>
    rw [List.map_cons, tokensExpression, Token.expression, hbytes, ih]

/-- The glob of a literal ending is not too deep. -/
theorem isTooDeep_endingTokens (ending : List Char) :
    (⟨endingTokens ending⟩ : Glob).isTooDeep = false := by
  have hdepth : (⟨endingTokens ending⟩ : Glob).depth = 1 + partsDepth
      (Token.expression .leadingDirs ++ (Token.expression .many ++
        tokensExpression (ending.map .literal))) := rfl
  rw [isTooDeep, hdepth]
  simp only [Token.expression, List.cons_append, List.nil_append, partsDepth, partsDepth_literals]
  decide

end Glob

/-- An ending without a separator is one of the last part. -/
theorem Path.suffix_append_iff {dir ending : Spelling} (hdir : EndsDirectory dir)
    (hsep : separator ∉ ending) (part : Spelling) : ending <:+ dir ++ part ↔ ending <:+ part := by
  refine ⟨fun h => ?_, fun h => h.trans (List.suffix_append dir part)⟩
  rcases List.suffix_or_suffix_of_suffix h (List.suffix_append dir part) with hshort | hlong
  · exact hshort
  · obtain ⟨more, rfl⟩ := hlong
    obtain ⟨front, hfront⟩ := h
    rw [← List.append_assoc] at hfront
    have hmore : front ++ more = dir := List.append_cancel_right hfront
    cases hend : more.getLast? with
    | none =>
      rw [List.getLast?_eq_none_iff.mp hend]
      exact List.suffix_rfl
    | some c =>
      -- the ending would hold the separator that `dir` ends in
      have hlast : dir.getLast? = some c := by rw [← hmore, List.getLast?_append, hend]; rfl
      have hmem := List.mem_of_getLast? hend
      rcases hdir with rfl | hdir
      · cases hlast
      · rw [hlast] at hdir
        obtain rfl := Option.some.inj hdir
        exact absurd (List.mem_append_left part hmem) hsep

/-- A path that ends in a name does not lead upwards. -/
theorem Glob.lastPart_ne_of_isName {dir name : Spelling} (hdir : EndsDirectory dir)
    (hname : IsName name) : lastPart (dir ++ name) ≠ upward := by
  obtain ⟨_, hsep, _, hparent⟩ := hname
  intro hup
  have hends : upward <:+ dir ++ name := by
    rcases lastPart_eq_upward hup with h | h
    · exact h ▸ List.suffix_rfl
    · exact (List.suffix_cons separator _).trans h
  obtain ⟨front, rfl⟩ := (suffix_append_iff hdir (by decide) name).mp hends
  have hfront : front ≠ [] := fun h => hparent (by rw [h]; rfl)
  -- the name has one more byte before its two dots, which is no separator
  obtain ⟨more, b, rfl⟩ := List.eq_nil_or_concat front |>.resolve_left hfront
  rcases lastPart_eq_upward hup with h | ⟨front, h⟩
  · have hlength := congrArg List.length h
    simp only [List.length_append, List.length_concat] at hlength
    omega
  · have hreverse : separator = b ∧ front.reverse = more.reverse ++ dir.reverse := by
      simpa [upward] using congrArg List.reverse h
    exact hsep (hreverse.1 ▸ by simp)

section Styles

variable {settings : Settings} {styles : GlobSet}

/-- Plain extensions make a glob set. -/
theorem Settings.styleSet_of_isPlainExtension
    (hexts : ∀ ext ∈ settings.styleExtensions, IsPlainExtension ext) :
    ∃ styles, settings.styleSet = .ok styles := by
  refine ⟨_, @readGlobs_eq_ok settings.styleGlobs (settings.styleGlobs.map fun pattern =>
    ⟨Glob.endingTokens (pattern.toList.drop 4)⟩) ?_ ?_⟩
  · rw [List.map_map]
    refine List.map_congr_left fun pattern hpattern => ?_
    obtain ⟨ext, hext, rfl⟩ := mem_styleGlobs.mp hpattern
    rw [(hexts ext hext).parse_extensionGlob]
    simp [extensionGlob, globEnding, String.toList_append]
  · simp [Glob.isTooDeep_endingTokens]

/-- With plain extensions a path matches by the end of its last name. -/
theorem isMatch_name_iff (hstyles : settings.styleSet = .ok styles)
    (hexts : ∀ ext ∈ settings.styleExtensions, IsPlainExtension ext) {dir name : Spelling}
    (hdir : EndsDirectory dir) (hname : IsName name) :
    styles.isMatch (dir ++ name) = true ↔
      ∃ ext ∈ settings.styleExtensions, utf8 (globEnding ext) <:+ name := by
  rw [styles_isMatch_iff hstyles hexts]
  refine exists_congr fun ext => and_congr_right fun hext => ?_
  rw [Glob.isMatch_endingTokens_of_ne (Glob.lastPart_ne_of_isName hdir hname),
    suffix_append_iff hdir (Glob.separator_not_mem_utf8 (hexts ext hext).slash_not_mem)]

/-- Below any root, a style file is one by its name. -/
theorem acceptsStyle_descend_iff (hstyles : settings.styleSet = .ok styles)
    (hexts : ∀ ext ∈ settings.styleExtensions, IsPlainExtension ext) {names : List Spelling}
    (hnames : ∀ name ∈ names, IsName name) (hne : names ≠ []) (root : Path) :
    styles.acceptsStyle (root.descend names) = true ↔
      ∃ ext ∈ settings.styleExtensions, utf8 (globEnding ext) <:+ names.getLast hne := by
  have hlast := hnames _ (List.getLast_mem hne)
  have hraw : (root.descend names).raw =
      (root.descend names.dropLast).slashed ++ names.getLast hne := by
    conv_lhs => rw [← List.dropLast_concat_getLast hne, descend, List.foldl_append]
    exact raw_child _ hlast
  have hname := isMatch_name_iff hstyles hexts (Or.inl rfl : EndsDirectory []) hlast
  rw [List.nil_append] at hname
  -- the whole path and its last name are matched, and both say the same
  rw [GlobSet.acceptsStyle, fileName?_descend hnames hne, List.getLast?_eq_some_getLast hne,
    Option.any_some, Bool.or_eq_true_iff, hname, hraw,
    isMatch_name_iff hstyles hexts (endsDirectory_slashed _) hlast, or_self]

end Styles

namespace FileTree.IsRoot

variable {t : FileTree} {root : Path} {loc : Location} (h : t.IsRoot root loc) {settings : Settings}
  (hexclude : settings.exclude = []) {styles : GlobSet} (hstyles : settings.styleSet = .ok styles)

include h hexclude hstyles

/-- A directory that cannot be read fails the search for stylesheets. -/
theorem styleFilesBelow_of_closed (hclosed : hasClosedDirectory t root loc = true) :
    styleFilesBelow t root settings = .error (.gather root.text) := by
  unfold styleFilesBelow
  rw [excludeSet_eq hexclude, hstyles]
  simp only [bind, Except.bind, h.filesBelow_of_closed hclosed]

variable (hopen : hasClosedDirectory t root loc = false)

include hopen

/-- Below a root whose path passes an excluded name there are no stylesheets. -/
theorem styleFilesBelow_of_passes (hpasses : root.PassesExcluded) :
    styleFilesBelow t root settings = .ok [] := by
  unfold styleFilesBelow
  rw [excludeSet_eq hexclude, hstyles]
  simp only [bind, Except.bind, h.filesBelow_of_passes hopen hpasses, List.take_nil]
  rfl

/-- Seen from the root, the style files are the accepted ones of the ways down. -/
theorem styleFilesBelow_eq (hpasses : ¬ root.PassesExcluded) :
    (styleFilesBelow t root settings).map (pathsFrom root) =
      .ok (((relativePaths (t.stylesBelow loc styles root)).take
        settings.maxWorkspaceFiles).map some) := by
  unfold styleFilesBelow
  rw [excludeSet_eq hexclude, hstyles]
  simp only [bind, Except.bind, h.filesBelow_eq hopen hpasses, pure, Except.pure, Except.map,
    Except.ok.injEq]
  rw [pathsFrom, relativePaths, List.map_take, List.map_take, List.map_map, List.map_map]
  refine congrArg _ (List.map_congr_left fun names hnames => ?_)
  exact h.relativeTo?_descend (List.mem_filter.mp hnames).1

end FileTree.IsRoot

/-! ### Two roots -/

section TwoRoots

open FileTree

variable {t t' : FileTree} {root root' : Path} {loc loc' : Location} {settings : Settings}
  (h : t.IsRoot root loc) (h' : t'.IsRoot root' loc') (hsame : SameBelow t loc t' loc')
  (hexclude : settings.exclude = []) (hopen : hasClosedDirectory t root loc = false)
  (hopen' : hasClosedDirectory t' root' loc' = false)

include h h' hsame hexclude hopen hopen'

/-- Roots that look the same have the same documents, if both or neither pass an excluded name. -/
theorem documents_agree (hpasses : root.PassesExcluded ↔ root'.PassesExcluded) :
    ∃ found : List (Path × DocumentKind),
      (documentsBelow t root settings).map (documentsFrom root) =
        .ok (found.map fun d => (some d.1, d.2)) ∧
      (documentsBelow t' root' settings).map (documentsFrom root') =
        .ok (found.map fun d => (some d.1, d.2)) := by
  by_cases hroot : root.PassesExcluded
  · refine ⟨[], ?_, ?_⟩
    · rw [h.documentsBelow_of_passes hexclude hopen hroot]
      rfl
    · rw [h'.documentsBelow_of_passes hexclude hopen' (hpasses.mp hroot)]
      rfl
  · refine ⟨_, h.documentsBelow_eq hexclude hopen hroot, ?_⟩
    rw [h'.documentsBelow_eq hexclude hopen' (mt hpasses.mpr hroot),
      namesBelow_congr h.sound h'.sound hsame]

/-- Roots that look the same have the same stylesheets, if the extensions are plain. -/
theorem style_files_agree (hexts : ∀ ext ∈ settings.styleExtensions, IsPlainExtension ext)
    (hpasses : root.PassesExcluded ↔ root'.PassesExcluded) :
    ∃ found : List Path,
      (styleFilesBelow t root settings).map (pathsFrom root) = .ok (found.map some) ∧
      (styleFilesBelow t' root' settings).map (pathsFrom root') = .ok (found.map some) := by
  obtain ⟨styles, hstyles⟩ := Settings.styleSet_of_isPlainExtension hexts
  -- either both roots are excluded as a whole or neither is
  by_cases hroot : root.PassesExcluded
  · refine ⟨[], ?_, ?_⟩
    · rw [h.styleFilesBelow_of_passes hexclude hstyles hopen hroot]
      rfl
    · rw [h'.styleFilesBelow_of_passes hexclude hstyles hopen' (hpasses.mp hroot)]
      rfl
  · refine ⟨_, h.styleFilesBelow_eq hexclude hstyles hopen hroot, ?_⟩
    rw [h'.styleFilesBelow_eq hexclude hstyles hopen' (mt hpasses.mpr hroot), stylesBelow,
      stylesBelow, namesBelow_congr h.sound h'.sound hsame]
    -- both roots accept by the last name
    have haccepts : ∀ names ∈ t'.namesBelow loc', styles.acceptsStyle (root'.descend names) =
        styles.acceptsStyle (root.descend names) := by
      intro names hnames
      obtain ⟨hnamed, hne, _⟩ := h'.of_mem_namesBelow hnames
      rw [Bool.eq_iff_iff, acceptsStyle_descend_iff hstyles hexts hnamed hne,
        acceptsStyle_descend_iff hstyles hexts hnamed hne]
    rw [List.filter_congr haccepts]

/-- With room for the style files below both roots, they agree if the globs do. -/
theorem style_files_agree_iff {styles : GlobSet} (hstyles : settings.styleSet = .ok styles)
    (hroot : ¬ root.PassesExcluded) (hroot' : ¬ root'.PassesExcluded)
    (hroom : (t.stylesBelow loc styles root).length ≤ settings.maxWorkspaceFiles)
    (hroom' : (t'.stylesBelow loc' styles root').length ≤ settings.maxWorkspaceFiles) :
    (styleFilesBelow t root settings).map (pathsFrom root) =
        (styleFilesBelow t' root' settings).map (pathsFrom root') ↔
      ∀ names ∈ t.namesBelow loc,
        styles.acceptsStyle (root.descend names) = styles.acceptsStyle (root'.descend names) := by
  rw [h.styleFilesBelow_eq hexclude hstyles hopen hroot,
    h'.styleFilesBelow_eq hexclude hstyles hopen' hroot',
    List.take_of_length_le (by rwa [relativePaths, List.length_map]),
    List.take_of_length_le (by rwa [relativePaths, List.length_map]), stylesBelow, stylesBelow,
    ← namesBelow_congr h.sound h'.sound hsame]
  constructor
  · intro heq names hnames
    -- nothing is cut off the lists, so equal lists have equal members
    have hlists := List.map_injective_iff.mpr (fun _ _ => Option.some.inj) (Except.ok.inj heq)
    have hfound := h.mem_relativePaths_filter_iff
      (fun names => styles.acceptsStyle (root.descend names)) hnames
    rw [hlists] at hfound
    exact Bool.eq_iff_iff.mpr (hfound.symm.trans (h.mem_relativePaths_filter_iff _ hnames))
  · intro haccepts
    rw [List.filter_congr haccepts]

end TwoRoots

/-- Below two roots that hold copies of a project which excludes nothing itself, the same documents
are found, and the same style files if their extensions are plain, unless one of the roots as it is
written leads through an excluded directory and the other does not. Below a root that does, nothing
is found. For extensions that are globs themselves, the style files agree if the globs do. All this
is so if the directories below both roots can be opened; otherwise a search fails. -/
theorem discovery_ignores_location {t t' : FileTree} {root root' : Path} {loc loc' : Location}
    {settings : Settings} (h : t.IsRoot root loc) (h' : t'.IsRoot root' loc')
    (hsame : t.SameBelow loc t' loc') (hexclude : settings.exclude = []) :
    (hasClosedDirectory t root loc = false → hasClosedDirectory t' root' loc' = false →
      ((root.PassesExcluded ↔ root'.PassesExcluded) →
        (∃ found : List (Path × DocumentKind),
          (documentsBelow t root settings).map (documentsFrom root) =
            .ok (found.map fun d => (some d.1, d.2)) ∧
          (documentsBelow t' root' settings).map (documentsFrom root') =
            .ok (found.map fun d => (some d.1, d.2))) ∧
        ((∀ ext ∈ settings.styleExtensions, IsPlainExtension ext) → ∃ found : List Path,
          (styleFilesBelow t root settings).map (pathsFrom root) = .ok (found.map some) ∧
          (styleFilesBelow t' root' settings).map (pathsFrom root') = .ok (found.map some))) ∧
      (¬ root.PassesExcluded → ¬ root'.PassesExcluded →
        ∀ styles, settings.styleSet = .ok styles →
          (t.stylesBelow loc styles root).length ≤ settings.maxWorkspaceFiles →
          (t'.stylesBelow loc' styles root').length ≤ settings.maxWorkspaceFiles →
          ((styleFilesBelow t root settings).map (pathsFrom root) =
              (styleFilesBelow t' root' settings).map (pathsFrom root') ↔
            ∀ names ∈ t.namesBelow loc, styles.acceptsStyle (root.descend names) =
              styles.acceptsStyle (root'.descend names)))) ∧
    (hasClosedDirectory t root loc = false → root.PassesExcluded →
      documentsBelow t root settings = .ok [] ∧
      ∀ styles, settings.styleSet = .ok styles → styleFilesBelow t root settings = .ok []) ∧
    (hasClosedDirectory t root loc = true →
      documentsBelow t root settings = .error (.gather root.text) ∧
      ∀ styles, settings.styleSet = .ok styles →
        styleFilesBelow t root settings = .error (.gather root.text)) := by
  refine ⟨fun hopen hopen' => ⟨fun hpasses => ⟨?_, ?_⟩, ?_⟩, fun hopen hroot => ⟨?_, ?_⟩,
    fun hclosed => ⟨?_, ?_⟩⟩
  · exact documents_agree h h' hsame hexclude hopen hopen' hpasses
  · exact fun hexts => style_files_agree h h' hsame hexclude hopen hopen' hexts hpasses
  · exact fun hroot hroot' styles hstyles hroom hroom' =>
      style_files_agree_iff h h' hsame hexclude hopen hopen' hstyles hroot hroot' hroom hroom'
  · exact h.documentsBelow_of_passes hexclude hopen hroot
  · exact fun styles hstyles => h.styleFilesBelow_of_passes hexclude hstyles hopen hroot
  · exact h.documentsBelow_of_closed hexclude hclosed
  · exact fun styles hstyles => h.styleFilesBelow_of_closed hexclude hstyles hclosed

namespace Copies

/-- A project whose sheet stands in a directory, with what was built from it. -/
def original : FileTree :=
  (((FileTree.empty (.ofTexts ["w"])).write (.ofTexts ["w", "app", "css", "a.css"])
    ⟨.text "", 1⟩).write (.ofTexts ["w", "app", "index.html"]) ⟨.text "", 2⟩).write
    (.ofTexts ["w", "app", "target", "b.css"]) ⟨.text "", 3⟩

/-- The same project elsewhere, listed in another order. -/
def copy : FileTree :=
  (((FileTree.empty (.ofTexts ["w"])).write (.ofTexts ["srv", "copy", "target", "b.css"])
    ⟨.text "", 4⟩).write (.ofTexts ["srv", "copy", "index.html"]) ⟨.text "", 5⟩).write
    (.ofTexts ["srv", "copy", "css", "a.css"]) ⟨.text "", 6⟩

def alone (dir name : String) : FileTree :=
  (FileTree.empty (.ofTexts ["w"])).write (.ofTexts ["w", dir, name]) ⟨.text "", 1⟩

/-- Settings with an extension that matches more than a name. -/
def wide : Settings := { styleExtensions := ["d/*"] }

end Copies

theorem discovery_ignores_location_copy :
    Copies.original.IsRoot (.ofText "app") (.ofTexts ["w", "app"]) ∧
    Copies.copy.IsRoot (.ofText "/srv/copy") (.ofTexts ["srv", "copy"]) ∧
    Copies.original.SameBelow (.ofTexts ["w", "app"]) Copies.copy (.ofTexts ["srv", "copy"]) ∧
    ({} : Settings).exclude = [] ∧
    hasClosedDirectory Copies.original (.ofText "app") (.ofTexts ["w", "app"]) = false ∧
    hasClosedDirectory Copies.copy (.ofText "/srv/copy") (.ofTexts ["srv", "copy"]) = false ∧
    (∀ ext ∈ ({} : Settings).styleExtensions, IsPlainExtension ext) ∧
    Copies.original.namesBelow (.ofTexts ["w", "app"]) =
      [Location.ofTexts ["css", "a.css"], Location.ofTexts ["index.html"]] ∧
    (∃ found : List (Path × DocumentKind),
      (documentsBelow Copies.original (.ofText "app") {}).map (documentsFrom (.ofText "app")) =
        .ok (found.map fun d => (some d.1, d.2)) ∧
      (documentsBelow Copies.copy (.ofText "/srv/copy") {}).map
          (documentsFrom (.ofText "/srv/copy")) =
        .ok (found.map fun d => (some d.1, d.2))) ∧
    (∃ found : List Path,
      (styleFilesBelow Copies.original (.ofText "app") {}).map (pathsFrom (.ofText "app")) =
        .ok (found.map some) ∧
      (styleFilesBelow Copies.copy (.ofText "/srv/copy") {}).map (pathsFrom (.ofText "/srv/copy")) =
        .ok (found.map some)) := by
  have hroot : Copies.original.IsRoot (.ofText "app") (.ofTexts ["w", "app"]) := by decide +kernel
  have hroot' : Copies.copy.IsRoot (.ofText "/srv/copy") (.ofTexts ["srv", "copy"]) := by
    decide +kernel
  have hsame : Copies.original.SameBelow (.ofTexts ["w", "app"]) Copies.copy
      (.ofTexts ["srv", "copy"]) := by
    decide +kernel
  have hopen : hasClosedDirectory Copies.original (.ofText "app") (.ofTexts ["w", "app"]) =
      false := by
    decide +kernel
  have hopen' : hasClosedDirectory Copies.copy (.ofText "/srv/copy") (.ofTexts ["srv", "copy"]) =
      false := by
    decide +kernel
  have hpasses : (Path.ofText "app").PassesExcluded ↔ (Path.ofText "/srv/copy").PassesExcluded := by
    decide +kernel
  have hexts : ∀ ext ∈ ({} : Settings).styleExtensions, IsPlainExtension ext := by decide +kernel
  obtain ⟨hdocuments, hstyles⟩ :=
    ((discovery_ignores_location hroot hroot' hsame (show ({} : Settings).exclude = [] from rfl)).1
      hopen hopen').1 hpasses
  refine ⟨hroot, hroot', hsame, rfl, hopen, hopen', hexts, ?_, hdocuments, hstyles hexts⟩
  exact List.mergeSort_of_pairwise (by decide +kernel)

/-- What a root is called counts if that is the name of an excluded directory, or if a glob of style
files reaches up to it. -/
theorem location_decides_discovery :
    (Copies.alone "app" "a.css").SameBelow (.ofTexts ["w", "app"]) (Copies.alone "target" "a.css")
      (.ofTexts ["w", "target"]) ∧
    ({} : Settings).exclude = [] ∧
    (documentsBelow (Copies.alone "app" "a.css") (.ofText "app") {}).map
        (documentsFrom (.ofText "app")) = .ok [(some (.ofText "a.css"), .style)] ∧
    documentsBelow (Copies.alone "target" "a.css") (.ofText "target") {} = .ok [] ∧
    (Copies.alone "x.d" "a.txt").SameBelow (.ofTexts ["w", "x.d"]) (Copies.alone "x" "a.txt")
      (.ofTexts ["w", "x"]) ∧
    Copies.wide.exclude = [] ∧
    (styleFilesBelow (Copies.alone "x.d" "a.txt") (.ofText "x.d") Copies.wide).map
        (pathsFrom (.ofText "x.d")) = .ok [some (.ofText "a.txt")] ∧
    (styleFilesBelow (Copies.alone "x" "a.txt") (.ofText "x") Copies.wide).map
        (pathsFrom (.ofText "x")) = .ok [] := by
  have hroot : ∀ dir ∈ ["app", "target"],
      (Copies.alone dir "a.css").IsRoot (.ofText dir) (.ofTexts ["w", dir]) ∧
      hasClosedDirectory (Copies.alone dir "a.css") (.ofText dir) (.ofTexts ["w", dir]) =
        false := by
    decide +kernel
  have hdotted : ∀ dir ∈ ["x.d", "x"],
      (Copies.alone dir "a.txt").IsRoot (.ofText dir) (.ofTexts ["w", dir]) ∧
      hasClosedDirectory (Copies.alone dir "a.txt") (.ofText dir) (.ofTexts ["w", dir]) =
        false := by
    decide +kernel
  -- this extension matches by the name of the directory
  have hstyles : Copies.wide.styleSet = .ok ⟨[⟨Glob.endingTokens ".d/".toList ++ [.many]⟩]⟩ := by
    have hglobs : Copies.wide.styleGlobs = ["**/*.d/*"] := by
      rw [Settings.styleGlobs, show Copies.wide.styleExtensions.map Settings.extensionGlob =
        ["**/*.d/*"] by decide +kernel, List.mergeSort_singleton]
      rfl
    rw [Settings.styleSet, hglobs]
    exact Settings.readGlobs_eq_ok rfl (by decide +kernel)
  have hnames : ∀ dir name : String,
      (Copies.alone dir name).namesBelow (.ofTexts ["w", dir]) = [Location.ofTexts [name]] := by
    intro dir name
    have hbelow : (Copies.alone dir name).below (.ofTexts ["w", dir]) =
        [Location.ofTexts [name]] := by
      simp [Copies.alone, FileTree.below, FileTree.way?, FileTree.write, FileTree.addDirectory,
        FileTree.empty, Location.ofTexts]
    rw [FileTree.namesBelow, hbelow]
    exact List.mergeSort_singleton _
  obtain ⟨happ, happOpen⟩ := hroot "app" (by decide)
  obtain ⟨htarget, htargetOpen⟩ := hroot "target" (by decide)
  obtain ⟨hd, hdOpen⟩ := hdotted "x.d" (by decide)
  obtain ⟨hx, hxOpen⟩ := hdotted "x" (by decide)
  refine ⟨by decide +kernel, rfl, ?_, ?_, by decide +kernel, rfl, ?_, ?_⟩
  · rw [happ.documentsBelow_eq rfl happOpen (by decide +kernel), hnames]
    decide +kernel
  · exact htarget.documentsBelow_of_passes rfl htargetOpen (by decide +kernel)
  · rw [hd.styleFilesBelow_eq rfl hstyles hdOpen (by decide +kernel), FileTree.stylesBelow, hnames]
    decide +kernel
  · rw [hx.styleFilesBelow_eq rfl hstyles hxOpen (by decide +kernel), FileTree.stylesBelow, hnames]
    decide +kernel

end StyleAudit
