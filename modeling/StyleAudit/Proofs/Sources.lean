import StyleAudit.Audit.StyleMap

/-!
# The sources of a style map

What a source holds can be said without a cache: it is read off the file tree, the answers of the
web and the settings. This module says it, and says which style maps are right for a set of
sources, whatever the order in which the sources came in.

* **`Audit.sourceResult`** are the selectors of a file or of an address, or why there are none;
  **`Audit.sourceSelectors?`** is what a target adds to a style map.
* **`Audit.sources`** lists the targets of a document: its links, then the files of its workspace.
  **`Audit.asked`** are those of them that are loaded.
* **`Audit.KeysTell`**: no two files that are asked for share a key. Then sources with one key are
  one source (**`Audit.KeysTell.eq_of_key_eq`**), since the keys of files start with `fs://` and a
  link to the web never does (`LinkTarget.ofHref?_ownsKey`).
* **`StyleMap.IsOf`** is the specification of a style map for a set of sources;
  **`StyleMap.IsOf.withSource`** adds one source, and **`StyleMap.IsOf.foldl`** a list of them.
-/

namespace StyleAudit

/-! ### What a source holds -/

namespace Audit

/-- The selectors of a file, or why there are none. -/
def fileResult (a : Audit) (path : Path) : Except Error (List Selector) :=
  match a.world.tree.stat path with
  | .error fault => .error (.file path.text fault.message)
  | .ok stat =>
    if a.settings.maxFileSize < stat.size then
      .error (.tooLarge path.text stat.size a.settings.maxFileSize)
    else
      match a.world.tree.read path with
      | .error fault => .error (.file path.text fault.message)
      | .ok text => .ok (selectorsUpTo a.settings.maxContentLength text)

/-- The selectors of an address, or why there are none. -/
def remoteResult (a : Audit) (url : String) : Except Error (List Selector) :=
  match a.world.remote with
  | none => .error (.fetch url "remote stylesheets are disabled")
  | some answer =>
    match answer url with
    | .error reason => .error (.fetch url reason)
    | .ok text => .ok (selectorsUpTo a.settings.maxContentLength text)

/-- The selectors of a source, or why there are none. -/
def sourceResult (a : Audit) : LinkTarget → Except Error (List Selector)
  | .file path => a.fileResult path
  | .remote url => a.remoteResult url

/-- The freshness that a load asks the cache for, if the source can be looked up. -/
def freshness? (a : Audit) : LinkTarget → Option Int
  | .file path => (a.world.tree.stat path).toOption.map FileStat.modified
  | .remote _ => some remoteFreshness

def admits (a : Audit) : LinkTarget → Bool
  | .file _ => true
  | .remote _ => a.fetches

/-- The selectors that a target adds to a style map, if the settings admit it and it loads. -/
def sourceSelectors? (a : Audit) (target : LinkTarget) : Option (List Selector) :=
  if a.admits target then (a.sourceResult target).toOption else none

/-- The style files of a workspace that the settings admit. -/
def gathered (a : Audit) (root : Option Path) : List Path :=
  match root with
  | some root =>
    if a.settings.workspaceScan then
      (styleFilesBelow a.world.tree root a.settings).toOption.getD []
    else []
  | none => []

/-- The sources of a document besides itself. -/
def sources (a : Audit) (d : Document) (root : Option Path) : List LinkTarget :=
  linkTargets d root ++ (a.gathered root).map .file

/-- The sources that are asked for: the key of the document is taken. -/
def asked (a : Audit) (d : Document) (root : Option Path) : List LinkTarget :=
  (a.sources d root).filter fun t => a.admits t && t.key ≠ d.key

/-- Adds a source unless its key is there or it does not load. -/
def withSource (a : Audit) (m : StyleMap) (target : LinkTarget) : StyleMap :=
  match a.sourceSelectors? target with
  | some selectors => m.add target.key selectors
  | none => m

/-- The style map of a document and its sources, taken one after another. -/
def styles (a : Audit) (d : Document) (root : Option Path) : StyleMap :=
  (a.sources d root).foldl a.withSource [(d.key, d.selectors)]

end Audit

/-- What can be looked up is a directory, which has no text, or a file of the tree. -/
theorem FileTree.stat_cases {t : FileTree} {path : Path} {stat : FileStat}
    (h : t.stat path = .ok stat) :
    (stat = ⟨0, directorySize⟩ ∧ (t.read path).toOption = none) ∨
      ∃ entry ∈ t.files, stat = ⟨max 0 entry.2.modified, entry.2.size⟩ := by
  unfold FileTree.stat at h
  cases hitem : t.resolve path with
  | error fault => rw [hitem] at h; cases h
  | ok item =>
    rw [hitem] at h
    cases item with
    | directory =>
      cases h
      refine Or.inl ⟨rfl, ?_⟩
      simp only [FileTree.read, hitem]
      rfl
    | file file =>
      cases h
      refine Or.inr ?_
      -- what is found at the place of the path is one of the tree's files
      unfold FileTree.resolve at hitem
      cases hloc : t.locate path with
      | error fault => rw [hloc] at hitem; cases hitem
      | ok loc =>
        rw [hloc] at hitem
        simp only [bind, Except.bind, FileTree.item?] at hitem
        split at hitem
        · next hfound =>
          split at hfound
          · cases hfound; cases hitem
          · obtain ⟨found, hlookup, hfile⟩ := Option.map_eq_some_iff.mp hfound
            cases hfile
            cases hitem
            obtain ⟨_, _, hfiles, _⟩ := List.lookup_eq_some_iff.mp hlookup
            exact ⟨(loc, file), by rw [hfiles]; simp, rfl⟩
        · cases hitem

/-- No file has the freshness of an address. -/
theorem FileTree.stat_modified_ne {t : FileTree} {path : Path} {stat : FileStat}
    (h : t.stat path = .ok stat) : stat.modified ≠ Audit.remoteFreshness := by
  have hnonneg : 0 ≤ stat.modified := by
    rcases FileTree.stat_cases h with ⟨rfl, _⟩ | ⟨entry, _, rfl⟩
    · exact Int.le_refl 0
    · exact Int.le_max_left 0 _
  intro heq
  rw [heq] at hnonneg
  exact absurd hnonneg (by decide)

/-- The freshness of a file is the time of its last change. -/
theorem Audit.stat_of_freshness? {a : Audit} {path : Path} {freshness : Int}
    (h : a.freshness? (.file path) = some freshness) :
    ∃ stat, a.world.tree.stat path = .ok stat ∧ stat.modified = freshness := by
  obtain ⟨stat, hstat, hmodified⟩ := Option.map_eq_some_iff.mp h
  cases hresult : a.world.tree.stat path with
  | error fault => rw [hresult] at hstat; cases hstat
  | ok found =>
    rw [hresult] at hstat
    cases hstat
    exact ⟨stat, rfl, hmodified⟩

/-- A file and an address are never asked for with the same freshness. -/
theorem Audit.freshness?_file_ne {a : Audit} (path : Path) :
    a.freshness? (.file path) ≠ some remoteFreshness := by
  intro h
  obtain ⟨stat, hstat, hmodified⟩ := stat_of_freshness? h
  exact FileTree.stat_modified_ne hstat hmodified

/-- The selectors of a document depend on its text and kind only. -/
theorem Document.selectors_congr {d d' : Document} (htext : d.text = d'.text)
    (hkind : d.kind = d'.kind) : d.selectors = d'.selectors := by
  simp only [Document.selectors, htext, hkind]

/-! ### Keys -/

/-- A path that is a text can be told from its key. -/
theorem Path.eq_of_key_ofText {s t : String} (h : (ofText s).key = (ofText t).key) : s = t := by
  rw [Path.key, Path.key, text_ofText, text_ofText] at h
  exact String.append_right_inj _ |>.mp h

/-! Two names that are no text. Both are shown with a replacement character. -/

namespace SharedKey

def first : Spelling := 0xFE :: Text.utf8 ".css".toList

def second : Spelling := 0xFF :: Text.utf8 ".css".toList

end SharedKey

namespace LinkTarget

/-- `t.OwnsKey`: the key of `t` is that of a file only if `t` is a file. -/
def OwnsKey : LinkTarget → Prop
  | remote url => ∀ path : Path, url ≠ path.key
  | file _ => True

/-- A text whose first character is not `f` is not the key of a file. -/
theorem ne_key_of_head {s : String} (hs : s.toList.head? ≠ some 'f') (path : Path) :
    s ≠ path.key := by
  rintro rfl
  rw [Path.key, String.toList_append] at hs
  exact hs rfl

/-- A text that starts with a word, its capitals lowered, has a first character that the first of
the word is the lower case of. -/
theorem exists_head_of_after?_lower {w : Char} {ws cs : List Char}
    (h : (Text.after? (w :: ws) (Text.toAsciiLower cs)).isSome) :
    ∃ c rest, cs = c :: rest ∧ c.toLower = w := by
  cases cs with
  | nil => simp [Text.toAsciiLower, Text.after?] at h
  | cons c rest =>
    refine ⟨c, rest, rfl, ?_⟩
    simp only [Text.toAsciiLower, List.map_cons, Text.after?] at h
    split at h
    · next hw => exact hw.symm
    · simp at h

/-- A link to the web never has the key of a file: it starts with `http`, in any case. -/
theorem ofHref?_ownsKey {href : String} {dir root : Option Path} {t : LinkTarget}
    (h : ofHref? href dir root = some t) : t.OwnsKey := by
  unfold ofHref? at h
  simp only at h
  split at h
  · -- a remote address begins with `h`, a path key with another letter
    next hscheme =>
    have hhead : ∃ c rest, Text.trim Text.isBlank href.toList = c :: rest ∧ c.toLower = 'h' := by
      rcases Bool.or_eq_true_iff.mp hscheme with hhttp | hhttps
      · exact exists_head_of_after?_lower hhttp
      · exact exists_head_of_after?_lower hhttps
    obtain ⟨c, rest, htrim, hc⟩ := hhead
    rw [htrim] at h
    cases h
    refine fun path => ne_key_of_head ?_ path
    rw [String.toList_ofList, List.head?_cons]
    intro hf
    rw [Option.some.inj hf] at hc
    exact absurd hc (by decide)
  · split at h
    · cases h
      exact fun path => ne_key_of_head (by simp) path
    · split at h
      · exact absurd h (by simp)
      · split at h
        · exact absurd h (by simp)
        · obtain ⟨path, _, hpath⟩ := Option.map_eq_some_iff.mp h
          rw [← hpath]
          trivial

end LinkTarget

/-- A link to the web has a key of its own. -/
theorem Audit.ownsKey_of_mem_linkTargets {d : Document} {root : Option Path} {t : LinkTarget}
    (ht : t ∈ Audit.linkTargets d root) : t.OwnsKey := by
  unfold Audit.linkTargets at ht
  split at ht
  · obtain ⟨href, _, hhref⟩ := List.mem_filterMap.mp ht
    exact LinkTarget.ofHref?_ownsKey hhref
  · exact absurd ht List.not_mem_nil

theorem Audit.mem_asked_iff {a : Audit} {d : Document} {root : Option Path} {t : LinkTarget} :
    t ∈ a.asked d root ↔ t ∈ a.sources d root ∧ a.admits t = true ∧ t.key ≠ d.key := by
  simp [asked]

/-- `a.KeysTell d root`: no two files that are asked for share a key. -/
def Audit.KeysTell (a : Audit) (d : Document) (root : Option Path) : Prop :=
  ∀ path path', .file path ∈ a.asked d root → .file path' ∈ a.asked d root →
    path.key = path'.key → path = path'

/-- Paths that are text do not share a key. -/
theorem Audit.KeysTell.of_text {a : Audit} {d : Document} {root : Option Path}
    (h : ∀ path, .file path ∈ a.asked d root → ∃ text, path = .ofText text) :
    a.KeysTell d root := by
  intro path path' hpath hpath' hkey
  obtain ⟨text, rfl⟩ := h path hpath
  obtain ⟨text', rfl⟩ := h path' hpath'
  rw [Path.eq_of_key_ofText hkey]

/-- Then a source can be told from its key. -/
theorem Audit.KeysTell.eq_of_key_eq {a : Audit} {d : Document} {root : Option Path}
    (h : a.KeysTell d root) {t t' : LinkTarget} (ht : t ∈ a.sources d root)
    (ht' : t' ∈ a.sources d root) (hne : t.key ≠ d.key) (hkey : t.key = t'.key) : t = t' := by
  have howns : ∀ t ∈ a.sources d root, t.OwnsKey := by
    intro t ht
    rcases List.mem_append.mp ht with hlink | hfile
    · exact ownsKey_of_mem_linkTargets hlink
    · obtain ⟨path, _, rfl⟩ := List.mem_map.mp hfile
      trivial
  cases t with
  | remote url =>
    cases t' with
    | remote url' => exact congrArg LinkTarget.remote hkey
    | file path => exact absurd hkey (howns _ ht path)
  | file path =>
    cases t' with
    | remote url => exact absurd hkey.symm (howns _ ht' path)
    | file path' =>
      have hasked := mem_asked_iff.mpr ⟨ht, rfl, hne⟩
      have hasked' := mem_asked_iff.mpr ⟨ht', rfl, fun heq => hne (hkey.trans heq)⟩
      exact congrArg LinkTarget.file (h path path' hasked hasked' hkey)

/-! ### Style maps of a set of sources -/

namespace StyleMap

/-- A map has the keys of its entries. -/
theorem has_iff {m : StyleMap} {key : String} :
    m.has key = true ↔ key ∈ m.map Prod.fst := by
  induction m with
  | nil => simp [has]
  | cons e m ih =>
    obtain ⟨k, selectors⟩ := e
    unfold has at ih ⊢
    by_cases hk : key = k
    · simp [hk]
    · have hbeq : (key == k) = false := by simpa using hk
      rw [List.lookup_cons, hbeq]
      simp only [List.map_cons, List.mem_cons, hk, false_or]
      exact ih

/-- Adding to a map loses no key. -/
theorem has_add {m : StyleMap} {key : String} (h : m.has key = true) (k : String)
    (selectors : List Selector) : (m.add k selectors).has key = true := by
  unfold add
  split
  · exact h
  · rw [has_iff] at h ⊢
    rw [List.map_append]
    exact List.mem_append_left _ h

/-- Looking up a key in a map with one entry added at its end. -/
theorem lookup_snoc {m : StyleMap} {key k : String} {selectors : List Selector}
    (hk : m.has k = false) :
    (m ++ [(k, selectors)]).lookup key = if key = k then some selectors else m.lookup key := by
  rw [List.lookup_append]
  by_cases hkey : key = k
  · have hnone : m.lookup k = none := by simpa [has] using hk
    simp [hkey, hnone]
  · have hbeq : (key == k) = false := by simpa using hkey
    simp [hkey, List.lookup_cons, hbeq]

end StyleMap

namespace Audit

theorem withSource_of_has (a : Audit) {m : StyleMap} {t : LinkTarget} (h : m.has t.key = true) :
    a.withSource m t = m := by
  unfold withSource
  cases a.sourceSelectors? t with
  | none => rfl
  | some selectors => simp only [StyleMap.add, h, if_true]

/-- A key that is there stays there. -/
theorem has_withSource (a : Audit) {m : StyleMap} {key : String} (h : m.has key = true)
    (t : LinkTarget) : (a.withSource m t).has key = true := by
  unfold withSource
  cases a.sourceSelectors? t with
  | none => exact h
  | some selectors => exact StyleMap.has_add h _ _

/-- Sources whose keys are there add nothing. -/
theorem foldl_withSource_of_has (a : Audit) (ts : List LinkTarget) {m : StyleMap}
    (h : ∀ t ∈ ts, m.has t.key = true) : ts.foldl a.withSource m = m := by
  induction ts with
  | nil => rfl
  | cons t ts ih =>
    rw [List.foldl_cons, a.withSource_of_has (h t (by simp))]
    exact ih fun t' ht' => h t' (by simp [ht'])

end Audit

namespace StyleMap

/-- `m.IsOf a d S`: the map of the document `d` and the sources in `S`. Keys are distinct, the key
of the document has its selectors, and any other key has the selectors of a source with that
key. -/
structure IsOf (m : StyleMap) (a : Audit) (d : Document) (S : LinkTarget → Prop) : Prop where
  nodup : (m.map Prod.fst).Nodup
  own : m.lookup d.key = some d.selectors
  source : ∀ key, key ≠ d.key → ∀ selectors, m.lookup key = some selectors ↔
    ∃ t, S t ∧ t.key = key ∧ a.sourceSelectors? t = some selectors

variable {a : Audit} {d : Document} {S : LinkTarget → Prop} {m : StyleMap}

/-- To begin with a map holds the document's own selectors only. -/
theorem isOf_own : IsOf [(d.key, d.selectors)] a d (fun _ => False) := by
  refine ⟨by simp, by simp, ?_⟩
  intro key hkey selectors
  have hbeq : (key == d.key) = false := by simpa using hkey
  simp [List.lookup_cons, hbeq]

/-- Only the members of a set of sources matter. -/
theorem IsOf.congr {S' : LinkTarget → Prop} (h : m.IsOf a d S) (hS : ∀ t, S t ↔ S' t) :
    m.IsOf a d S' := by
  refine ⟨h.nodup, h.own, ?_⟩
  intro key hkey selectors
  simp only [h.source key hkey selectors, hS]

/-- A map that has the key of a source has that source already, or has the document under it. -/
theorem IsOf.of_has (h : m.IsOf a d S) {t : LinkTarget}
    (hone : ∀ t', S t' → t'.key ≠ d.key → t'.key = t.key → t' = t) (hhas : m.has t.key = true) :
    m.IsOf a d (fun t' => S t' ∨ t' = t) := by
  refine ⟨h.nodup, h.own, ?_⟩
  intro key hkey selectors
  rw [h.source key hkey selectors]
  constructor
  · rintro ⟨t', hS, hrest⟩
    exact ⟨t', Or.inl hS, hrest⟩
  · rintro ⟨t', hS | rfl, hk, hsel⟩
    · exact ⟨t', hS, hk, hsel⟩
    · -- some source of `S` has this key, and it can only be `t` itself
      obtain ⟨found, hfound⟩ := Option.isSome_iff_exists.mp hhas
      rw [hk] at hfound
      obtain ⟨t'', hS'', hk'', _⟩ := (h.source key hkey found).mp hfound
      have heq := hone t'' hS'' (hk'' ▸ hkey) (hk''.trans hk.symm)
      rw [heq] at hS''
      exact ⟨_, hS'', hk, hsel⟩

/-- A source that does not load adds no entry and removes none. -/
theorem IsOf.of_failed (h : m.IsOf a d S) {t : LinkTarget} (ht : a.sourceSelectors? t = none) :
    m.IsOf a d (fun t' => S t' ∨ t' = t) := by
  refine ⟨h.nodup, h.own, ?_⟩
  intro key hkey selectors
  rw [h.source key hkey selectors]
  constructor
  · rintro ⟨t', hS, hrest⟩
    exact ⟨t', Or.inl hS, hrest⟩
  · rintro ⟨t', hS | rfl, hk, hsel⟩
    · exact ⟨t', hS, hk, hsel⟩
    · rw [ht] at hsel
      exact absurd hsel (by simp)

/-- A source that loads, under a key that is not there, adds one entry. -/
theorem IsOf.snoc (h : m.IsOf a d S) {t : LinkTarget} {selectors : List Selector}
    (ht : a.sourceSelectors? t = some selectors) (hhas : m.has t.key = false) :
    IsOf (m ++ [(t.key, selectors)]) a d (fun t' => S t' ∨ t' = t) := by
  -- the document's own key is in the map from the start
  have hne : t.key ≠ d.key := by
    intro heq
    have hown : m.has d.key = true := by simp [has, h.own]
    rw [heq, hown] at hhas
    exact absurd hhas (by simp)
  refine ⟨?_, ?_, ?_⟩
  · have hnot : t.key ∉ m.map Prod.fst := by
      intro hmem
      rw [has_iff.mpr hmem] at hhas
      exact absurd hhas (by simp)
    rw [List.map_append, List.map_cons, List.map_nil]
    refine List.nodup_append.mpr ⟨h.nodup, by simp, ?_⟩
    intro k hk k' hk'
    rw [List.mem_singleton.mp hk']
    intro heq
    rw [heq] at hk
    exact hnot hk
  · rw [lookup_snoc hhas, if_neg (fun heq => hne heq.symm)]
    exact h.own
  · intro key hkey sels
    rw [lookup_snoc hhas]
    by_cases hk : key = t.key
    · rw [if_pos hk]
      have hnone : ∀ sels, m.lookup key ≠ some sels := by
        intro sels hsome
        simp [has, ← hk, hsome] at hhas
      constructor
      · intro hsels
        exact ⟨t, Or.inr rfl, hk.symm, ht.trans hsels⟩
      · rintro ⟨t', hS | rfl, hk', hsel⟩
        · exact absurd ((h.source key hkey sels).mpr ⟨t', hS, hk', hsel⟩) (hnone sels)
        · exact ht.symm.trans hsel
    · rw [if_neg hk, h.source key hkey sels]
      constructor
      · rintro ⟨t', hS, hrest⟩
        exact ⟨t', Or.inl hS, hrest⟩
      · rintro ⟨t', hS | rfl, hk', hsel⟩
        · exact ⟨t', hS, hk', hsel⟩
        · exact absurd hk'.symm hk

/-- Adding one source, which is the only one with its key. -/
theorem IsOf.withSource (h : m.IsOf a d S) {t : LinkTarget}
    (hone : ∀ t', S t' → t'.key ≠ d.key → t'.key = t.key → t' = t) :
    (a.withSource m t).IsOf a d (fun t' => S t' ∨ t' = t) := by
  unfold Audit.withSource
  cases hsel : a.sourceSelectors? t with
  | none => exact h.of_failed hsel
  | some selectors =>
    simp only [StyleMap.add]
    split
    · next hhas => exact h.of_has hone hhas
    · next hhas => exact h.snoc hsel (Bool.eq_false_iff.mpr hhas)

/-- Adding sources one after another. The order does not show in the specification. -/
theorem IsOf.foldl (ts : List LinkTarget) (h : m.IsOf a d S)
    (hone : ∀ t t', S t ∨ t ∈ ts → S t' ∨ t' ∈ ts → t.key ≠ d.key → t.key = t'.key → t = t') :
    IsOf (ts.foldl a.withSource m) a d (fun t => S t ∨ t ∈ ts) := by
  induction ts generalizing m S with
  | nil => exact h.congr (by simp)
  | cons t ts ih =>
    rw [List.foldl_cons]
    have hassoc : ∀ t', ((S t' ∨ t' = t) ∨ t' ∈ ts) ↔ (S t' ∨ t' ∈ t :: ts) := fun t' => by
      simp only [List.mem_cons, or_assoc]
    have hnext := h.withSource fun t' hS =>
      hone t' t (Or.inl hS) (Or.inr List.mem_cons_self)
    refine (ih hnext fun t' t'' ht' ht'' => ?_).congr hassoc
    exact hone t' t'' ((hassoc t').mp ht') ((hassoc t'').mp ht'')

/-- Two maps of the same sources have the same entries. -/
theorem IsOf.lookup_eq {m' : StyleMap} (h : m.IsOf a d S) (h' : m'.IsOf a d S) (key : String) :
    m.lookup key = m'.lookup key := by
  by_cases hkey : key = d.key
  · rw [hkey, h.own, h'.own]
  · apply Option.ext
    intro selectors
    rw [h.source key hkey selectors, h'.source key hkey selectors]

end StyleMap

end StyleAudit
