import StyleAudit.Discovery
import StyleAudit.Proofs.GlobDirectories
import StyleAudit.Proofs.StableSort

/-!
# Style files that are found twice

A style file is found as a source of selectors by the globs of the settings, and as a document by
its extension. This module says when the two ways find the same files, in the same order.

* **`filesBelow_of_locate`**: both ways look at the same paths, **`pathsBelow`**, and sort what they
  accept. Sorting and selecting may be exchanged, so only the two conditions matter
  (**`discoveriesAgree_iff`**).
* **`acceptsStyle_iff`** / **`kindOfPath?_eq_style_iff`** are the two conditions, said of the name
  of the file. The first asks how the name ends, in lower case; the second asks for what follows the
  last dot, in any case, and for something before that dot.
* **`style_discoveries_agree_iff`** compares them. They differ on capitals
  (**`capitals_found_once`**) and on names that are only an extension.
-/

namespace StyleAudit

open Text

/-! ### Globs of extensions -/

/-- Extensions are listed in any case. -/
theorem listsExtension_iff {extensions : List String} {ext : String} :
    Settings.listsExtension extensions ext = true ↔
      ∃ e ∈ extensions, toAsciiLower e.toList = toAsciiLower ext.toList := by
  simp [Settings.listsExtension, eqIgnoreAsciiCase]

/-- How the names end that the glob of an extension matches. -/
def globEnding (ext : String) : List Char :=
  '.' :: toAsciiLower (ext.toList.dropWhile (· = '.'))

/-- `IsPlainExtension ext`: the glob of `ext` stands for an ending. -/
def IsPlainExtension (ext : String) : Prop := ∀ c ∈ ext.toList, Glob.IsOrdinary c ∧ c ≠ '/'

/-- `IsLiteralExtension ext`: the glob of `ext` stands for an ending that is more than dots. -/
def IsLiteralExtension (ext : String) : Prop :=
  IsPlainExtension ext ∧ ∃ c ∈ ext.toList, c ≠ '.'

/-- `IsSimpleExtension ext`: besides, there is no dot in `ext`. -/
def IsSimpleExtension (ext : String) : Prop := IsLiteralExtension ext ∧ '.' ∉ ext.toList

-- the characters of `ext` are tried, never all characters there are
instance (ext : String) : Decidable (IsPlainExtension ext) := List.decidableBAll _ _

instance (ext : String) : Decidable (IsLiteralExtension ext) :=
  @instDecidableAnd _ _ _ (List.decidableBEx _ _)

instance (ext : String) : Decidable (IsSimpleExtension ext) := inferInstanceAs (Decidable (_ ∧ _))

/-- The ending of the glob adds a dot and folds letters, and nothing else. -/
theorem mem_of_mem_globEnding {ext : String} {w : Char} (hdot : w ≠ '.')
    (hw : ¬ (97 ≤ w.toNat ∧ w.toNat ≤ 122)) (h : w ∈ globEnding ext) : w ∈ ext.toList := by
  rcases List.mem_cons.mp h with h | h
  · exact absurd h hdot
  · exact (List.dropWhile_sublist _).subset (mem_of_mem_toAsciiLower hw h)

namespace IsPlainExtension

variable {ext : String}

theorem slash_not_mem (h : IsPlainExtension ext) : '/' ∉ globEnding ext := fun hmem =>
  (h '/' (mem_of_mem_globEnding (by decide) (by decide) hmem)).2 rfl

/-- The glob of a plain extension matches by its ending. -/
theorem parse_extensionGlob (h : IsPlainExtension ext) :
    Glob.parse (Settings.extensionGlob ext) = .ok ⟨Glob.endingTokens (globEnding ext)⟩ := by
  refine Glob.parse_ending fun w hw => ?_
  intro hspecial
  have hsmall : ¬ (97 ≤ w.toNat ∧ w.toNat ≤ 122) := by
    simp only [List.mem_cons, List.not_mem_nil, or_false] at hspecial
    rcases hspecial with rfl | rfl | rfl | rfl | rfl | rfl <;> decide
  have hmem := (List.dropWhile_sublist _).subset (mem_of_mem_toAsciiLower hsmall hw)
  exact (h w hmem).1 hspecial

end IsPlainExtension

namespace IsLiteralExtension

variable {ext : String}

theorem plain (h : IsLiteralExtension ext) : IsPlainExtension ext := h.1

/-- The ending has a character besides its dot. -/
theorem exists_ne_dot (h : IsLiteralExtension ext) : ∃ c ∈ globEnding ext, c ≠ '.' := by
  obtain ⟨c, hc, hdot⟩ := h.2
  -- only dots are dropped
  have hkept : c ∈ ext.toList.dropWhile (· = '.') := by
    rw [← @List.takeWhile_append_dropWhile _ (fun c => decide (c = '.')) ext.toList] at hc
    rcases List.mem_append.mp hc with hc | hc
    · have hall := List.all_eq_true.mp (@List.all_takeWhile _ (fun c => decide (c = '.')) _) c hc
      exact absurd (of_decide_eq_true hall) hdot
    · exact hc
  refine ⟨c.toLower, List.mem_cons_of_mem _ (List.mem_map_of_mem hkept), fun hlower => hdot ?_⟩
  exact eq_of_toLower_eq (by decide) hlower

end IsLiteralExtension

/-- The ending of a simple extension is a dot and the extension in lower case. -/
theorem IsSimpleExtension.globEnding_eq {ext : String} (h : IsSimpleExtension ext) :
    globEnding ext = '.' :: toAsciiLower ext.toList := by
  have hkept : ext.toList.dropWhile (· = '.') = ext.toList := by
    cases hlist : ext.toList with
    | nil => rfl
    | cons c cs =>
      have hc : c ≠ '.' := fun hc => h.2 (by rw [hlist, hc]; exact List.mem_cons_self)
      exact List.dropWhile_cons_of_neg (by simpa using hc)
  rw [globEnding, hkept]

/-! ### Sets of globs -/

/-- The results of a row of steps are those of its items. -/
theorem mem_of_mapM_ok {ε α β : Type} {f : α → Except ε β} {xs : List α} {ys : List β}
    (h : xs.mapM f = .ok ys) {y : β} : y ∈ ys ↔ ∃ x ∈ xs, f x = .ok y := by
  induction xs generalizing ys with
  | nil =>
    cases h
    simp
  | cons x xs ih =>
    rw [List.mapM_cons] at h
    cases hx : f x with
    | error fault => rw [hx] at h; cases h
    | ok first =>
      cases hxs : xs.mapM f with
      | error fault => rw [hx, hxs] at h; cases h
      | ok more =>
        rw [hx, hxs] at h
        cases h
        rw [List.mem_cons, ih hxs]
        simp [hx, eq_comm]

/-- A set that can be built holds the given globs. -/
theorem GlobSet.eq_of_ofGlobs {globs : List Glob} {set : GlobSet}
    (h : GlobSet.ofGlobs globs = .ok set) : set = ⟨globs⟩ := by
  unfold GlobSet.ofGlobs at h
  split at h
  · cases h
  · split at h <;> cases h
    rfl

theorem exists_of_bind_ok {ε α β : Type} {x : Except ε α} {f : α → Except ε β} {b : β}
    (h : (x >>= f) = .ok b) : ∃ a, x = .ok a ∧ f a = .ok b := by
  cases x with
  | error fault => cases h
  | ok a => exact ⟨a, rfl, h⟩

theorem mapError_eq_ok_iff {ε ε' α : Type} {f : ε → ε'} {x : Except ε α} {a : α} :
    x.mapError f = .ok a ↔ x = .ok a := by
  cases x <;> simp [Except.mapError]

/-- The globs of a set are those that its patterns parse to. -/
theorem Settings.mem_globs_of_readGlobs {patterns : List String} {set : GlobSet}
    (h : Settings.readGlobs patterns = .ok set) {glob : Glob} :
    glob ∈ set.globs ↔ ∃ pattern ∈ patterns, Glob.parse pattern = .ok glob := by
  obtain ⟨globs, hglobs, hset⟩ := exists_of_bind_ok h
  rw [GlobSet.eq_of_ofGlobs (mapError_eq_ok_iff.mp hset), mem_of_mapM_ok hglobs]
  simp only [mapError_eq_ok_iff]

/-- Steps that all succeed never tell an error. -/
theorem mapM_mapError_eq_ok {ε ε' α β : Type} {f : α → Except ε β} (g : α → ε → ε') {xs : List α}
    {ys : List β} (h : xs.map f = ys.map .ok) :
    (xs.mapM fun x => (f x).mapError (g x)) = .ok ys := by
  induction xs generalizing ys with
  | nil =>
    cases ys with
    | nil => rfl
    | cons y ys => cases h
  | cons x xs ih =>
    cases ys with
    | nil => cases h
    | cons y ys =>
      obtain ⟨hx, hxs⟩ := List.cons.inj h
      rw [List.mapM_cons, hx, ih hxs]
      rfl

/-- Globs that are not too deep make a set. -/
theorem GlobSet.ofGlobs_of_all {globs : List Glob} (h : globs.all (!·.isTooDeep) = true) :
    GlobSet.ofGlobs globs = .ok ⟨globs⟩ := by
  have hshallow : ∀ criterion, ∀ glob ∈ GlobSet.withCriterion globs criterion,
      glob.isTooDeep = false := by
    intro criterion glob hglob
    simpa using List.all_eq_true.mp h glob (List.mem_filter.mp hglob).1
  unfold GlobSet.ofGlobs
  rw [List.find?_eq_none.mpr fun glob hglob => by simp [hshallow _ glob hglob],
    List.findIdx?_eq_none_iff.mpr fun glob hglob => hshallow _ glob hglob]

/-- Texts that are globs, none of them too deep, make up a set. -/
theorem Settings.readGlobs_eq_ok {patterns : List String} {globs : List Glob}
    (hparse : patterns.map Glob.parse = globs.map .ok)
    (hdeep : globs.all (!·.isTooDeep) = true) : Settings.readGlobs patterns = .ok ⟨globs⟩ := by
  unfold Settings.readGlobs
  rw [mapM_mapError_eq_ok _ hparse]
  show (GlobSet.ofGlobs globs).mapError _ = _
  rw [GlobSet.ofGlobs_of_all hdeep]
  rfl

/-- There is one style glob for each style extension. -/
theorem Settings.mem_styleGlobs {settings : Settings} {pattern : String} :
    pattern ∈ settings.styleGlobs ↔
      ∃ ext ∈ settings.styleExtensions, Settings.extensionGlob ext = pattern := by
  rw [Settings.styleGlobs, List.mem_eraseDups, List.mem_mergeSort, List.mem_map]

/-- The directories whose content is excluded in every project. -/
def excludedNames : List String := ["node_modules", ".git", "target"]

/-- The set of excluded paths when a project excludes nothing itself. -/
def builtInSet : GlobSet := ⟨excludedNames.map fun name => ⟨Glob.directoryTokens name.toList⟩⟩

/-- The globs that are always excluded are those of the directories. -/
theorem excludeSet_eq {settings : Settings} (h : settings.exclude = []) :
    settings.excludeSet = .ok builtInSet := by
  rw [Settings.excludeSet, h]
  exact Settings.readGlobs_eq_ok rfl (by decide +kernel)

/-! ### The two conditions -/

section Conditions

variable {settings : Settings} {styles : GlobSet}

/-- A path matches the style globs when it matches the ending of one extension. -/
theorem styles_isMatch_iff (hstyles : settings.styleSet = .ok styles)
    (hexts : ∀ ext ∈ settings.styleExtensions, IsPlainExtension ext) (path : Spelling) :
    styles.isMatch path = true ↔ ∃ ext ∈ settings.styleExtensions,
      (⟨Glob.endingTokens (globEnding ext)⟩ : Glob).isMatch path = true := by
  rw [GlobSet.isMatch, List.any_eq_true]
  constructor
  · rintro ⟨glob, hglob, hmatch⟩
    obtain ⟨pattern, hpattern, hparse⟩ := (Settings.mem_globs_of_readGlobs hstyles).mp hglob
    obtain ⟨ext, hext, rfl⟩ := Settings.mem_styleGlobs.mp hpattern
    rw [(hexts ext hext).parse_extensionGlob] at hparse
    cases hparse
    exact ⟨ext, hext, hmatch⟩
  · rintro ⟨ext, hext, hmatch⟩
    refine ⟨_, ?_, hmatch⟩
    exact (Settings.mem_globs_of_readGlobs hstyles).mpr
      ⟨_, Settings.mem_styleGlobs.mpr ⟨ext, hext, rfl⟩, (hexts ext hext).parse_extensionGlob⟩

/-- The globs of extensions match names with one of their endings. -/
theorem isMatch_iff (hstyles : settings.styleSet = .ok styles)
    (hexts : ∀ ext ∈ settings.styleExtensions, IsLiteralExtension ext) (path : Spelling) :
    styles.isMatch path = true ↔
      ∃ ext ∈ settings.styleExtensions, utf8 (globEnding ext) <:+ path := by
  rw [styles_isMatch_iff hstyles fun ext hext => (hexts ext hext).plain]
  refine exists_congr fun ext => and_congr_right fun hext => ?_
  have hlit := hexts ext hext
  exact Glob.isMatch_endingTokens hlit.plain.slash_not_mem hlit.exists_ne_dot path

/-- The style files are those whose names end like an extension, in lower case. -/
theorem acceptsStyle_iff (hstyles : settings.styleSet = .ok styles)
    (hexts : ∀ ext ∈ settings.styleExtensions, IsLiteralExtension ext) (path : Path) :
    styles.acceptsStyle path = true ↔ ∃ name, path.fileName? = some name ∧
      ∃ ext ∈ settings.styleExtensions, utf8 (globEnding ext) <:+ name := by
  rw [GlobSet.acceptsStyle, Bool.or_eq_true_iff, isMatch_iff hstyles hexts, Option.any_eq_true]
  simp only [isMatch_iff hstyles hexts]
  constructor
  · rintro (⟨name, hname, hends⟩ | ⟨ext, hext, hends⟩)
    · exact ⟨name, hname, hends⟩
    · -- an ending of the whole path is one of the name
      have hlit := hexts ext hext
      obtain ⟨name, hname, hends⟩ :=
        Path.fileName?_of_suffix hends (Glob.separator_not_mem_utf8 hlit.plain.slash_not_mem)
          (Glob.exists_ne_dot_utf8 hlit.exists_ne_dot)
      exact ⟨name, hname, ext, hext, hends⟩
  · exact fun h => Or.inl h

/-- The documents that are style files have an extension of the list, in any case. -/
theorem kindOfPath?_eq_style_iff (settings : Settings) (path : Path) :
    settings.kindOfPath? path = some .style ↔ ∃ name, path.fileName? = some name ∧
      ∃ ext : String, Path.extensionOf? name = some (utf8 ext.toList) ∧
        Settings.listsExtension settings.styleExtensions ext = true := by
  -- style extensions are looked at first, so no other list can hide them
  have hkind : ∀ ext, settings.kindOfExtension? ext = some .style ↔
      Settings.listsExtension settings.styleExtensions ext = true := by
    intro ext
    unfold Settings.kindOfExtension?
    split
    · simp [*]
    · simp only [*]
      split
      · simp
      · split <;> simp
  rw [Settings.kindOfPath?, Path.extension?, Option.bind_eq_some_iff]
  simp only [hkind, Option.bind_eq_some_iff, ofUtf8?_eq_some_iff]
  constructor
  · rintro ⟨cs, ⟨_, ⟨name, hname, hext⟩, rfl⟩, hlist⟩
    exact ⟨name, hname, String.ofList cs, by rwa [String.toList_ofList], hlist⟩
  · rintro ⟨name, hname, ext, hext, hlist⟩
    exact ⟨ext.toList, ⟨_, ⟨name, hname, hext⟩, rfl⟩, by rwa [String.ofList_toList]⟩

end Conditions

/-! ### The paths below a directory -/

/-- The paths of files below `root` that are neither skipped nor excluded. There are none if the
directories cannot all be opened. -/
def pathsBelow (tree : FileTree) (root : Path) (excluded : GlobSet) : List Path :=
  match tree.locate root with
  | .error _ => []
  | .ok loc =>
    if hasClosedDirectory tree root loc then [] else
    (((tree.below loc).filter (!isSkipped ·)).map fun names => names.foldl Path.child root).filter
      (!excluded.excludes · root)

/-- The paths of the style files among some documents. -/
def stylePaths (documents : List (Path × DocumentKind)) : List Path :=
  (documents.filter (·.2 = .style)).map (·.1)

/-- `DiscoveriesAgree tree root settings`: the style files below `root` are the documents below it
that are style files, in the same order. -/
def DiscoveriesAgree (tree : FileTree) (root : Path) (settings : Settings) : Prop :=
  styleFilesBelow tree root settings = (documentsBelow tree root settings).map stylePaths

section Below

variable {tree : FileTree} {root : Path} {settings : Settings} {styles excluded : GlobSet}

/-- Where all directories can be opened, what is accepted of the paths is found, in order. -/
theorem filesBelow_of_locate {loc : Location} (h : tree.locate root = .ok loc)
    (hopen : hasClosedDirectory tree root loc = false) (accept : Path → Bool) :
    filesBelow tree root excluded accept =
      .ok (((pathsBelow tree root excluded).filter accept).mergeSort Path.le) := by
  rw [filesBelow, pathsBelow, h]
  simp only [hopen, Bool.false_eq_true, if_false, List.filter_filter]

/-- A search fails whatever it looks for, and then there are no paths, or it does not fail. -/
theorem filesBelow_cases (tree : FileTree) (root : Path) (excluded : GlobSet) :
    ((∀ accept, filesBelow tree root excluded accept = .error (.gather root.text)) ∧
      pathsBelow tree root excluded = []) ∨
    ∀ accept, filesBelow tree root excluded accept =
      .ok (((pathsBelow tree root excluded).filter accept).mergeSort Path.le) := by
  cases hloc : tree.locate root with
  | error fault => exact Or.inl ⟨fun accept => by rw [filesBelow, hloc], by rw [pathsBelow, hloc]⟩
  | ok loc =>
    cases hopen : hasClosedDirectory tree root loc with
    | false => exact Or.inr (filesBelow_of_locate hloc hopen)
    | true =>
      refine Or.inl ⟨fun accept => ?_, ?_⟩
      · rw [filesBelow, hloc]
        exact if_pos hopen
      · rw [pathsBelow, hloc]
        exact if_pos hopen

/-- The style files among the documents are the paths of that kind. -/
theorem stylePaths_filterMap (settings : Settings) (paths : List Path) :
    stylePaths (paths.filterMap fun path => (settings.kindOfPath? path).map fun kind =>
      (path, kind)) =
      paths.filter fun path => settings.kindOfPath? path = some .style := by
  induction paths with
  | nil => rfl
  | cons path paths ih =>
    rw [List.filterMap_cons]
    cases hkind : settings.kindOfPath? path with
    | none => simpa [hkind] using ih
    | some kind =>
      simp only [Option.map_some]
      by_cases hstyle : kind = .style
      · simpa [stylePaths, hkind, hstyle] using ih
      · simpa [stylePaths, hkind, hstyle] using ih

/-- The two ways find the same files in the same order if they agree on each path. -/
theorem discoveriesAgree_iff (hstyles : settings.styleSet = .ok styles)
    (hexcluded : settings.excludeSet = .ok excluded)
    (hroom : ((pathsBelow tree root excluded).filter styles.acceptsStyle).length ≤
      settings.maxWorkspaceFiles) :
    DiscoveriesAgree tree root settings ↔ ∀ path ∈ pathsBelow tree root excluded,
      (styles.acceptsStyle path = true ↔ settings.kindOfPath? path = some .style) := by
  unfold DiscoveriesAgree styleFilesBelow documentsBelow
  rw [hstyles, hexcluded]
  rcases filesBelow_cases tree root excluded with ⟨hfails, hnone⟩ | hfound
  · refine iff_of_true ?_ (by simp [hnone])
    simp only [bind, Except.bind, hfails]
    rfl
  · simp only [bind, Except.bind, hfound, pure, Except.pure, Except.map, Except.ok.injEq]
    have hstyle : ∀ path : Path, (decide (settings.kindOfPath? path = some .style) &&
        (settings.kindOfPath? path).isSome) = decide (settings.kindOfPath? path = some .style) := by
      intro path
      cases settings.kindOfPath? path <;> simp
    rw [List.take_of_length_le (by rwa [List.length_mergeSort]), stylePaths_filterMap,
      Sorting.filter_mergeSort Path.le_trans Path.le_total, List.filter_filter,
      List.filter_congr fun path _ => hstyle path, Sorting.mergeSort_filter_eq_iff]
    simp only [decide_eq_true_eq]

/-! ### Simple extensions -/

section Simple

variable (hexts : ∀ ext ∈ settings.styleExtensions, IsSimpleExtension ext)

include hexts

/-- Names that the globs match have a listed extension in lower case. -/
theorem exists_globEnding_iff {name : Spelling} :
    (∃ ext ∈ settings.styleExtensions, utf8 (globEnding ext) <:+ name) ↔
      ∃ stem, ∃ ext : String, Path.DividesAtDot name stem (utf8 ext.toList) ∧
        Settings.listsExtension settings.styleExtensions ext = true ∧
        toAsciiLower ext.toList = ext.toList := by
  have hbytes : ∀ cs, utf8 ('.' :: cs) = Path.dot :: utf8 cs := fun _ => rfl
  simp only [listsExtension_iff]
  constructor
  · rintro ⟨ext, hext, stem, hname⟩
    have hsimple := hexts ext hext
    rw [hsimple.globEnding_eq, hbytes] at hname
    -- the extension has no dot, so the dot of the ending is the last one of the name
    have hdot : Path.dot ∉ utf8 (toAsciiLower ext.toList) := by
      rw [@mem_utf8_iff '.' Path.dot (by decide) rfl]
      exact fun hmem => hsimple.2 (mem_of_mem_toAsciiLower (by decide) hmem)
    refine ⟨stem, String.ofList (toAsciiLower ext.toList), ?_, ⟨ext, hext, by simp⟩, by simp⟩
    rw [String.toList_ofList]
    exact ⟨hname.symm, hdot⟩
  · rintro ⟨stem, ext, ⟨hname, _⟩, ⟨listed, hlisted, hlower⟩, hsmall⟩
    refine ⟨listed, hlisted, stem, ?_⟩
    rw [(hexts listed hlisted).globEnding_eq, hlower, hsmall, hbytes, hname]

/-- The two conditions differ on a listed extension that is not in lower case, and on one that
nothing stands before, unless both is so. -/
theorem conditions_agree_iff (hstyles : settings.styleSet = .ok styles) (path : Path) :
    (styles.acceptsStyle path = true ↔ settings.kindOfPath? path = some .style) ↔
      ∀ name stem, ∀ ext : String, path.fileName? = some name →
        Path.DividesAtDot name stem (utf8 ext.toList) →
        Settings.listsExtension settings.styleExtensions ext = true →
        (stem ≠ [] ↔ toAsciiLower ext.toList = ext.toList) := by
  rw [acceptsStyle_iff hstyles (fun ext hext => (hexts ext hext).1), kindOfPath?_eq_style_iff]
  simp only [exists_globEnding_iff hexts, Path.extensionOf?_eq_some_iff]
  constructor
  · intro h name stem ext hname hdot hlisted
    constructor
    · intro hstem
      obtain ⟨name', hname', stem', ext', hdot', _, hsmall⟩ :=
        h.mpr ⟨name, hname, ext, ⟨stem, hstem, hdot⟩, hlisted⟩
      -- one path has one name, which the last dot divides in one way
      obtain rfl := Option.some.inj (hname.symm.trans hname')
      rwa [utf8_inj.mp (hdot.unique hdot').2]
    · intro hsmall
      obtain ⟨name', hname', ext', ⟨stem', hstem', hdot'⟩, _⟩ :=
        h.mp ⟨name, hname, stem, ext, hdot, hlisted, hsmall⟩
      obtain rfl := Option.some.inj (hname.symm.trans hname')
      rwa [(hdot.unique hdot').1]
  · intro h
    constructor
    · rintro ⟨name, hname, stem, ext, hdot, hlisted, hsmall⟩
      refine ⟨name, hname, ext, ⟨stem, ?_, hdot⟩, hlisted⟩
      exact (h name stem ext hname hdot hlisted).mpr hsmall
    · rintro ⟨name, hname, ext, ⟨stem, hstem, hdot⟩, hlisted⟩
      exact ⟨name, hname, stem, ext, hdot, hlisted, (h name stem ext hname hdot hlisted).mp hstem⟩

end Simple

/-- **The two discoveries agree as far as their conditions do.** With room for all style files, the
style files below a directory are the documents of that kind, in the same order, if and only if the
globs and the extensions agree on each path that is looked at. For literal extensions these are
conditions on the name of a file. For simple extensions they agree unless a listed extension is
written with capitals, or nothing stands before it. -/
theorem style_discoveries_agree_iff (hstyles : settings.styleSet = .ok styles)
    (hexcluded : settings.excludeSet = .ok excluded)
    (hroom : ((pathsBelow tree root excluded).filter styles.acceptsStyle).length ≤
      settings.maxWorkspaceFiles) :
    (DiscoveriesAgree tree root settings ↔ ∀ path ∈ pathsBelow tree root excluded,
      (styles.acceptsStyle path = true ↔ settings.kindOfPath? path = some .style)) ∧
    ((∀ ext ∈ settings.styleExtensions, IsLiteralExtension ext) →
      (DiscoveriesAgree tree root settings ↔ ∀ path ∈ pathsBelow tree root excluded,
        ∀ name, path.fileName? = some name →
          ((∃ ext ∈ settings.styleExtensions, utf8 (globEnding ext) <:+ name) ↔
            ∃ ext : String, Path.extensionOf? name = some (utf8 ext.toList) ∧
              Settings.listsExtension settings.styleExtensions ext = true))) ∧
    ((∀ ext ∈ settings.styleExtensions, IsSimpleExtension ext) →
      (DiscoveriesAgree tree root settings ↔ ∀ path ∈ pathsBelow tree root excluded,
        ∀ name stem, ∀ ext : String, path.fileName? = some name →
          Path.DividesAtDot name stem (utf8 ext.toList) →
          Settings.listsExtension settings.styleExtensions ext = true →
          (stem ≠ [] ↔ toAsciiLower ext.toList = ext.toList))) := by
  have hagree := discoveriesAgree_iff hstyles hexcluded hroom
  refine ⟨hagree, fun hexts => hagree.trans ?_, fun hexts => hagree.trans ?_⟩
  · refine forall₂_congr fun path _ => ?_
    rw [acceptsStyle_iff hstyles hexts, kindOfPath?_eq_style_iff]
    cases path.fileName? with
    | none => simp
    | some name => simp
  · exact forall₂_congr fun path _ => conditions_agree_iff hexts hstyles path

end Below

/-! ### A workspace with capitals -/

namespace Sheets

/-- A sheet with capitals is skipped, and another one has no name but its extension. -/
def agreeing : FileTree :=
  (((FileTree.empty (.ofTexts ["w"])).write (.ofTexts ["w", "a.css"]) ⟨.text "", 1⟩).write
    (.ofTexts ["w", "b", ".CSS"]) ⟨.text "", 2⟩).write (.ofTexts ["w", "target", "c.CSS"])
    ⟨.text "", 3⟩

/-- A sheet whose extension has capitals. -/
def capitals : FileTree :=
  (FileTree.empty (.ofTexts ["w"])).write (.ofTexts ["w", "a.CSS"]) ⟨.text ".x\x7b\x7d", 1⟩

/-- The globs of the default settings. -/
def styles : GlobSet :=
  ⟨[".css", ".less", ".scss"].map fun ending => ⟨Glob.endingTokens ending.toList⟩⟩

/-- The style globs of the default settings. -/
theorem styleSet_default : ({} : Settings).styleSet = .ok styles := by
  have hmap : ({} : Settings).styleExtensions.map Settings.extensionGlob =
      ["**/*.css", "**/*.scss", "**/*.less"] := by decide +kernel
  have hglobs : ({} : Settings).styleGlobs = ["**/*.css", "**/*.less", "**/*.scss"] := by
    rw [Settings.styleGlobs, hmap]
    simp [List.mergeSort, List.MergeSort.Internal.splitInTwo]
    decide +kernel
  rw [Settings.styleSet, hglobs]
  exact Settings.readGlobs_eq_ok rfl (by decide +kernel)

/-- With the default settings, the style files of a tree whose paths are in order. -/
theorem styleFilesBelow_default {tree : FileTree} {root : Path} {paths : List Path} (loc : Location)
    (hloc : tree.locate root = .ok loc) (hopen : hasClosedDirectory tree root loc = false)
    (hpaths : (pathsBelow tree root builtInSet).filter styles.acceptsStyle = paths)
    (hsorted : paths.Pairwise (Path.le · ·))
    (hroom : paths.length ≤ ({} : Settings).maxWorkspaceFiles) :
    styleFilesBelow tree root {} = .ok paths := by
  unfold styleFilesBelow
  rw [styleSet_default, excludeSet_eq rfl]
  simp only [bind, Except.bind, filesBelow_of_locate hloc hopen, hpaths,
    List.mergeSort_of_pairwise hsorted, pure, Except.pure]
  rw [List.take_of_length_le hroom]

end Sheets

theorem style_discoveries_agree_iff_skipped_capitals :
    ({} : Settings).styleSet = .ok Sheets.styles ∧
    ({} : Settings).excludeSet = .ok builtInSet ∧
    (∀ ext ∈ ({} : Settings).styleExtensions, IsSimpleExtension ext) ∧
    pathsBelow Sheets.agreeing (.ofText ".") builtInSet = [.ofText "./a.css", .ofText "./b/.CSS"] ∧
    DiscoveriesAgree Sheets.agreeing (.ofText ".") {} ∧
    ∀ path ∈ pathsBelow Sheets.agreeing (.ofText ".") builtInSet, ∀ name stem, ∀ ext : String,
      path.fileName? = some name → Path.DividesAtDot name stem (utf8 ext.toList) →
        Settings.listsExtension ({} : Settings).styleExtensions ext = true →
        (stem ≠ [] ↔ toAsciiLower ext.toList = ext.toList) := by
  have hsimple : ∀ ext ∈ ({} : Settings).styleExtensions, IsSimpleExtension ext := by decide +kernel
  have hpaths : pathsBelow Sheets.agreeing (.ofText ".") builtInSet =
      [.ofText "./a.css", .ofText "./b/.CSS"] := by decide +kernel
  have hroom : ((pathsBelow Sheets.agreeing (.ofText ".") builtInSet).filter
      Sheets.styles.acceptsStyle).length ≤ ({} : Settings).maxWorkspaceFiles := by
    rw [hpaths]
    decide +kernel
  obtain ⟨hconditions, _, hnames⟩ :=
    style_discoveries_agree_iff Sheets.styleSet_default (excludeSet_eq rfl) hroom
  have hagree : DiscoveriesAgree Sheets.agreeing (.ofText ".") {} := by
    apply hconditions.mpr
    rw [hpaths]
    decide +kernel
  exact ⟨Sheets.styleSet_default, (excludeSet_eq rfl), hsimple, hpaths, hagree,
    (hnames hsimple).mp hagree⟩

/-- A sheet whose extension has capitals is a document, but no source of selectors. -/
theorem capitals_found_once :
    styleFilesBelow Sheets.capitals (.ofText ".") {} = .ok [] ∧
    documentsBelow Sheets.capitals (.ofText ".") {} = .ok [(.ofText "./a.CSS", .style)] ∧
    ¬ DiscoveriesAgree Sheets.capitals (.ofText ".") {} := by
  have hloc : Sheets.capitals.locate (.ofText ".") = .ok (.ofTexts ["w"]) := by decide +kernel
  have hopen : hasClosedDirectory Sheets.capitals (.ofText ".") (.ofTexts ["w"]) = false := by
    decide +kernel
  have hpaths : pathsBelow Sheets.capitals (.ofText ".") builtInSet = [.ofText "./a.CSS"] := by
    decide +kernel
  have hfiles : styleFilesBelow Sheets.capitals (.ofText ".") {} = .ok [] :=
    Sheets.styleFilesBelow_default _ hloc hopen (by rw [hpaths]; decide +kernel) .nil (by decide)
  have hdocuments :
      documentsBelow Sheets.capitals (.ofText ".") {} = .ok [(.ofText "./a.CSS", .style)] := by
    have hone : [Path.ofText "./a.CSS"].filter
        (fun path => (({} : Settings).kindOfPath? path).isSome) = [.ofText "./a.CSS"] := by
      decide +kernel
    unfold documentsBelow
    rw [excludeSet_eq rfl]
    simp only [bind, Except.bind, filesBelow_of_locate hloc hopen, hpaths, hone,
      List.mergeSort_singleton]
    decide +kernel
  refine ⟨hfiles, hdocuments, ?_⟩
  rw [DiscoveriesAgree, hfiles, hdocuments]
  decide

end StyleAudit
