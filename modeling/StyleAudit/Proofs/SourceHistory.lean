import StyleAudit.Proofs.Coherence

/-!
# What sources ever held

Files change during a run, and the cache keeps what they held before. It tells old contents from new
ones by the times of their changes, and one file from another by their keys.

* **`SourcesTell`** is what has to hold of the sources that a run asks for: keys tell files, the
  time of its last change tells what a file holds, and an address always gives the same answer.
* **`sourceHistory`** collects what these sources ever held. It agrees with each of them at every
  moment at which it is asked for (**`SourcesTell.agrees`**).
-/

namespace StyleAudit

/-- The answer of an address, if anything is fetched at all. -/
def World.answer? (w : World) (url : String) : Option (Except String String) :=
  w.remote.map fun answer => answer url

/-- What is assumed of the sources that are asked for in the worlds of a run. -/
structure SourcesTell (asks : World → LinkTarget → Prop) : Prop where
  /-- No two files share a key. -/
  keys : ∀ world world' path path', asks world (.file path) → asks world' (.file path') →
    path.key = path'.key → path = path'
  /-- Path and time of the last change tell size, readability and text of a file. The time is the
  one that the file is looked up with, where times before 1970 are all the same. -/
  files : ∀ world world' path stat stat', asks world (.file path) → asks world' (.file path) →
    world.tree.stat path = .ok stat → world'.tree.stat path = .ok stat' →
    stat.modified = stat'.modified → stat.size = stat'.size ∧
      (world.tree.read path).toOption = (world'.tree.read path).toOption
  /-- An address always has the same answer. -/
  answers : ∀ world world' url, asks world (.remote url) → asks world' (.remote url) →
    world.answer? url = world'.answer? url

/-- All that the sources of a run ever held, read with the given settings. -/
def sourceHistory (settings : Settings) (asks : World → LinkTarget → Prop) : Ledger :=
  fun key freshness selectors => ∃ world t, asks world t ∧ key = t.key ∧
    Audit.freshness? ⟨settings, world, .never⟩ t = some freshness ∧
    Audit.sourceResult ⟨settings, world, .never⟩ t = .ok selectors

namespace Audit

/-- Files with the same size and the same text have the same selectors. -/
theorem fileResult_ok_congr {a a' : Audit} {path : Path} {stat stat' : FileStat}
    {selectors : List Selector} (hsettings : a.settings = a'.settings)
    (hstat : a.world.tree.stat path = .ok stat) (hstat' : a'.world.tree.stat path = .ok stat')
    (hsize : stat.size = stat'.size)
    (hread : (a.world.tree.read path).toOption = (a'.world.tree.read path).toOption)
    (h : a.fileResult path = .ok selectors) : a'.fileResult path = .ok selectors := by
  simp only [fileResult, hstat] at h
  simp only [fileResult, hstat', ← hsettings, ← hsize]
  -- a file that is too large gives no selectors in either world
  split at h
  · cases h
  · next hsmall =>
    rw [if_neg hsmall]
    cases htext : a.world.tree.read path with
    | error fault => rw [htext] at h; cases h
    | ok text =>
      rw [htext] at h hread
      cases htext' : a'.world.tree.read path with
      | error fault => rw [htext'] at hread; cases hread
      | ok text' =>
        rw [htext'] at hread
        cases hread
        exact h

/-- The selectors of an address depend on its answer only. -/
theorem remoteResult_congr {a a' : Audit} {url : String} (hsettings : a.settings = a'.settings)
    (hanswer : a.world.answer? url = a'.world.answer? url) :
    a.remoteResult url = a'.remoteResult url := by
  unfold World.answer? at hanswer
  unfold remoteResult
  rw [← hsettings]
  -- the answers are equal as options, so one world has a web exactly if the other has
  cases hremote : a.world.remote with
  | none =>
    rw [hremote] at hanswer
    rw [Option.map_eq_none_iff.mp hanswer.symm]
  | some answer =>
    rw [hremote] at hanswer
    obtain ⟨answer', hremote', heq⟩ := Option.map_eq_some_iff.mp hanswer.symm
    rw [hremote']
    simp only at heq ⊢
    rw [heq]

/-- More may be in the ledger under other keys. -/
theorem Agrees.or {a : Audit} {L M : Ledger} {t : LinkTarget} (h : a.Agrees L t)
    (hother : ∀ freshness selectors, ¬ M t.key freshness selectors) :
    a.Agrees (fun key freshness selectors => L key freshness selectors ∨ M key freshness selectors)
      t := by
  intro freshness hfresh selectors
  rw [← h freshness hfresh selectors]
  exact or_iff_left (hother freshness selectors)

end Audit

/-- What a source ever held under its present freshness is what it holds now. -/
theorem SourcesTell.agrees {asks : World → LinkTarget → Prop} (h : SourcesTell asks)
    (settings : Settings) {world : World} {t : LinkTarget} (ht : asks world t) :
    Audit.Agrees ⟨settings, world, .never⟩ (sourceHistory settings asks) t := by
  intro freshness hfresh selectors
  constructor
  · rintro ⟨world', t', ht', hkey, hfresh', hresult⟩
    -- what has the key and the freshness of a source was held by the same source
    cases t with
    | file path =>
      cases t' with
      | file path' =>
        obtain rfl := h.keys world world' path path' ht ht' hkey
        obtain ⟨stat, hstat, hmodified⟩ := Audit.stat_of_freshness? hfresh
        obtain ⟨stat', hstat', hmodified'⟩ := Audit.stat_of_freshness? hfresh'
        obtain ⟨hsize, hread⟩ := h.files world' world path stat' stat ht' ht hstat' hstat
          (hmodified'.trans hmodified.symm)
        exact Audit.fileResult_ok_congr (a := ⟨settings, world', .never⟩) rfl hstat' hstat hsize
          hread hresult
      | remote url =>
        -- the freshness of an address is not the time of any file
        rw [← hfresh'] at hfresh
        exact absurd hfresh (Audit.freshness?_file_ne path)
    | remote url =>
      cases t' with
      | file path =>
        rw [← hfresh] at hfresh'
        exact absurd hfresh' (Audit.freshness?_file_ne path)
      | remote url' =>
        obtain rfl : url = url' := hkey
        rw [← hresult]
        exact Audit.remoteResult_congr rfl (h.answers world world' url ht ht')
  · exact fun hresult => ⟨world, t, ht, rfl, hfresh, hresult⟩

/-! ### A file that is rewritten -/

namespace Rewritten

/-- A tree with one style file, of the given text and time of change. -/
def tree (text : String) (modified : Int) : FileTree :=
  ⟨[(.ofTexts ["base.css"], ⟨.text text, modified⟩)], [], []⟩

def base : Path := .ofText "/base.css"

def old : FileTree := tree ".old { }" 1000

def new : FileTree := tree ".new { }" 2000

/-- The two contents of the file have different times of change. -/
theorem stat_base : old.stat base = .ok ⟨1000, 8⟩ ∧ new.stat base = .ok ⟨2000, 8⟩ := by
  decide +kernel

/-- A run that asks for no other file. -/
theorem sourcesTell {asks : World → LinkTarget → Prop}
    (remote : Option (String → Except String String))
    (hworld : ∀ world t, asks world t → (world.tree = old ∨ world.tree = new) ∧
      world.remote = remote)
    (hfile : ∀ world path, asks world (.file path) → path = base) : SourcesTell asks where
  keys world world' path path' hpath hpath' _ := by
    rw [hfile world path hpath, hfile world' path' hpath']
  files world world' path stat stat' hpath hpath' hstat hstat' hmodified := by
    -- one file in two worlds: where the worlds differ, so do the times
    obtain rfl := hfile world path hpath
    rcases (hworld world _ hpath).1 with ht | ht <;>
      rcases (hworld world' _ hpath').1 with ht' | ht' <;>
      rw [ht] at hstat ⊢ <;> rw [ht'] at hstat' ⊢
    · exact ⟨by rw [Except.ok.inj (hstat.symm.trans hstat')], rfl⟩
    · rw [stat_base.1] at hstat
      rw [stat_base.2] at hstat'
      cases hstat
      cases hstat'
      exact absurd hmodified (by decide)
    · rw [stat_base.2] at hstat
      rw [stat_base.1] at hstat'
      cases hstat
      cases hstat'
      exact absurd hmodified (by decide)
    · exact ⟨by rw [Except.ok.inj (hstat.symm.trans hstat')], rfl⟩
  answers world world' url hurl hurl' := by
    rw [World.answer?, World.answer?, (hworld world _ hurl).2, (hworld world' _ hurl').2]

end Rewritten

end StyleAudit
