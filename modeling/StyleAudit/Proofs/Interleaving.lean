import Mathlib.Data.List.Perm.Basic
import StyleAudit.Proofs.Coherence
import StyleAudit.Proofs.StyleFiles

/-!
# Loads in any order

A style map does not depend on how its files were loaded. The loads of a batch share one cache, drop
each other's entries and overtake each other; the batches are of any size, and any number of loads
may run at the same time. The map is the same, as long as no two of the files share a key.

Two files share a key if their paths differ only in bytes that are no text: a key is text, and has a
replacement character in their place. Of two such files the first one that is loaded gets the key.

* **`Audit.MayCollect`** lists the maps that a document may get.
* **`Audit.MayCollect.isOf`**: each of them is the map of the sources.
* **`collect_order_independent`** says that they are all the same and what they hold.
* **`collect_order_dependent`** has the two exceptions: files that share a key, and a document whose
  key is an address that was fetched.
-/

namespace StyleAudit

/-! ### Collections at any pace -/

namespace Audit

variable {a : Audit} {d : Document} {root : Option Path}

/-- The same request with batches of another size, another number of places and another
interrupt. -/
def paced (a : Audit) (batchSize maxConcurrency : Nat) (interrupt : Interrupt) : Audit :=
  { a with settings := { a.settings with batchSize, maxConcurrency }, interrupt }

/-- `a.MayCollect d root m`: some collection that is not cancelled gives `m`, at some pace, from
some cache that is coherent with the sources, with some interleaving of its loads. -/
def MayCollect (a : Audit) (d : Document) (root : Option Path) (m : StyleMap) : Prop :=
  ∃ batchSize maxConcurrency interrupt, ∃ cache : SelectorCache, ∃ load p,
    let b := a.paced batchSize maxConcurrency interrupt
    1 ≤ cache.maxEntries ∧ cache.Holds (a.sourceLedger d root) ∧ b.Interleaves load ∧
      b.Collects load d root cache (m, p) ∧ p.cancelled = false

/-- Whatever its pace, a collection that is not cancelled gives the map of the sources: nothing that
tells what a source holds depends on the pace. -/
theorem MayCollect.isOf (hkeys : a.KeysTell d root) {m : StyleMap} (h : a.MayCollect d root m) :
    m.IsOf a d (· ∈ a.sources d root) := by
  obtain ⟨batchSize, maxConcurrency, interrupt, cache, load, p, _, hcache, hload, hruns, hdone⟩ := h
  have hmap := Collects.isOf (a := a.paced batchSize maxConcurrency interrupt) hload hkeys hcache
    hruns hdone
  exact ⟨hmap.nodup, hmap.own, hmap.source⟩

/-- There is such a collection for every pace and every coherent cache: the one that loads one file
after another. -/
theorem mayCollect_collect (a : Audit) (d : Document) (root : Option Path)
    (batchSize maxConcurrency : Nat) {cache : SelectorCache} (hcapacity : 1 ≤ cache.maxEntries)
    (hcache : cache.Holds (a.sourceLedger d root)) :
    let b := a.paced batchSize maxConcurrency .never
    a.MayCollect d root (b.collect d root (b.start cache)).1 := by
  intro b
  have hruns : b.Collects b.addFiles d root cache (b.collect d root (b.start cache)) :=
    Plan.runs_run b _ (b.start cache)
  exact ⟨batchSize, maxConcurrency, .never, cache, b.addFiles, _, hcapacity, hcache,
    b.interleaves_addFiles, hruns, hruns.not_cancelled rfl rfl⟩

end Audit

/-- **The order of loads does not show.** Take a document such that no two files it asks for share a
key. All collections that are not cancelled give the same map, whatever the size of the batches, the
number of places, the interleaving of the loads, the order of their results and the coherent cache.
It has the document's own selectors under its key, and otherwise exactly one entry for each key of a
source that the settings admit and that loads, with the selectors of that source. Every pace and
every coherent cache allows such a collection. -/
theorem collect_order_independent (a : Audit) (d : Document) (root : Option Path)
    (hkeys : a.KeysTell d root) :
    (∀ m, a.MayCollect d root m → m.IsOf a d (· ∈ a.sources d root)) ∧
      (∀ m m', a.MayCollect d root m → a.MayCollect d root m' →
        ∀ key, m.lookup key = m'.lookup key) ∧
      ∀ batchSize maxConcurrency (cache : SelectorCache), 1 ≤ cache.maxEntries →
        cache.Holds (a.sourceLedger d root) →
        let b := a.paced batchSize maxConcurrency .never
        a.MayCollect d root (b.collect d root (b.start cache)).1 := by
  refine ⟨fun m hm => hm.isOf hkeys, ?_, ?_⟩
  · intro m m' hm hm' key
    exact (hm.isOf hkeys).lookup_eq (hm'.isOf hkeys) key
  · intro batchSize maxConcurrency cache hcapacity hcache
    exact a.mayCollect_collect d root batchSize maxConcurrency hcapacity hcache

namespace TwoFiles

/-- A page of no file, in a workspace with two style files of the given names. -/
def page : Document :=
  { key := "untitled:2", version := 1, text := "<p class=\"near far\"></p>", kind := .markup }

def audit (name name' : Spelling) : Audit where
  settings := {}
  world := ⟨⟨[([name], ⟨.text ".near { }", 1000⟩), ([name'], ⟨.text ".far { }", 1000⟩)], [], []⟩,
    none, 0⟩
  interrupt := .never

/-- The names `far.css` and `near.css`. -/
def far : Spelling := Text.utf8 "far.css".toList
def near : Spelling := Text.utf8 "near.css".toList

/-- What is gathered if the style files are known. -/
theorem gathered_eq {name name' : Spelling} {paths : List Path}
    (h : styleFilesBelow (audit name name').world.tree (.ofText "/") {} = .ok paths) :
    (audit name name').gathered (some (.ofText "/")) = paths :=
  congrArg (fun found => found.toOption.getD []) h

/-- Names that are texts tell the two files. -/
theorem keysTell : (audit far near).KeysTell page (some (.ofText "/")) := by
  have hfiles : styleFilesBelow (audit far near).world.tree (.ofText "/") {} =
      .ok [.ofText "/far.css", .ofText "/near.css"] :=
    Sheets.styleFilesBelow_default [] (by decide +kernel) (by decide +kernel)
      (by decide +kernel) (by decide +kernel) (by decide)
  have hasked : (audit far near).asked page (some (.ofText "/")) =
      [.file (.ofText "/far.css"), .file (.ofText "/near.css")] := by
    rw [Audit.asked, Audit.sources, gathered_eq hfiles]
    decide +kernel
  refine .of_text fun path hpath => ?_
  rw [hasked, List.mem_cons, List.mem_singleton] at hpath
  rcases hpath with hpath | hpath
  · exact ⟨_, LinkTarget.file.inj hpath⟩
  · exact ⟨_, LinkTarget.file.inj hpath⟩

end TwoFiles

open TwoFiles in
theorem collect_order_independent_two_files :
    let small := (audit far near).paced 1 1 .never
    let large := (audit far near).paced 10 5 .never
    let root := some (Path.ofText "/")
    (audit far near).KeysTell page root ∧ ∀ key,
      (small.collect page root (small.start ⟨[], 1, 0⟩)).1.lookup key =
        (large.collect page root (large.start ⟨[], 300, 1800000⟩)).1.lookup key := by
  intro small large root
  obtain ⟨_, hsame, hmay⟩ := collect_order_independent (audit far near) page root keysTell
  exact ⟨keysTell, hsame _ _ (hmay 1 1 _ (by decide) (Cache.holds_of_entries_nil rfl))
    (hmay 10 5 _ (by decide) (Cache.holds_of_entries_nil rfl))⟩

/-! ### Shared keys -/

/-- The order in which jobs are listed does not matter. -/
theorem Weaves.perm {ν β γ : Type} {places : Nat} {take : γ → ν → β → γ}
    {jobs jobs' : List (Job ν β)}
    {acc : γ} {t : Plan γ} (h : Weaves places take jobs acc t) (hperm : jobs.Perm jobs') :
    Weaves places take jobs' acc t := by
  -- the job that moves stands somewhere in the other list, among the same others
  have hsplit : ∀ {before after : List (Job ν β)} {job : Job ν β} {jobs' : List (Job ν β)},
      (before ++ job :: after).Perm jobs' → ∃ before' after', jobs' = before' ++ job :: after' ∧
        (before ++ after).Perm (before' ++ after') := by
    intro before after job jobs' hperm
    obtain ⟨before', after', rfl⟩ := List.append_of_mem (hperm.subset (by simp : job ∈ _))
    refine ⟨before', after', rfl, ?_⟩
    exact (List.perm_middle.symm.trans (hperm.trans List.perm_middle)).cons_inv
  have hput : ∀ {before after before' after' : List (Job ν β)} (job : Job ν β),
      (before ++ after).Perm (before' ++ after') →
        (before ++ job :: after).Perm (before' ++ job :: after') := fun job hothers =>
    List.perm_middle.trans ((hothers.cons job).trans List.perm_middle.symm)
  induction h generalizing jobs' with
  | done acc =>
    rw [← hperm.nil_eq]
    exact .done acc
  | start before after name plan hplace _ ih =>
    obtain ⟨before', after', rfl, hothers⟩ := hsplit hperm
    refine .start before' after' name plan ?_ (ih (hput _ hothers))
    rw [← hothers.countP_eq]
    exact hplace
  | step before after name action next t _ ih =>
    obtain ⟨before', after', rfl, hothers⟩ := hsplit hperm
    exact .step before' after' name action next t fun answer => ih answer (hput _ hothers)
  | join before after name result _ ih =>
    obtain ⟨before', after', rfl, hothers⟩ := hsplit hperm
    exact .join before' after' name result (ih hothers)

/-- Files may be loaded from the last to the first. -/
theorem Audit.interleaves_reverse (a : Audit) :
    a.Interleaves fun paths m => a.addFiles paths.reverse m := by
  intro paths m
  exact (a.interleaves_addFiles paths.reverse m).perm ((List.reverse_perm paths).map _)

namespace TwoFiles

def namesUnder (m : StyleMap) (key : String) : Option (List String) :=
  (m.lookup key).map fun selectors => selectors.map fun s => s.name

/-- A stylesheet under the address of another one. -/
def sheet : Document :=
  { key := "https://a.test/a.css", version := -1, text := ".own { }", kind := .style }

/-- A request that can fetch the other stylesheet. -/
def online : Audit where
  settings := {}
  world := ⟨⟨[], [], []⟩, some fun _ => .ok ".other { }", 0⟩
  interrupt := .never

end TwoFiles

open TwoFiles SharedKey in
/-- Two files whose names are no text share a key, and the order of their loads decides which of
them gets it. A document may share its key with an address; then its own selectors may be those of
the address, though the cache has nothing but what the address holds. -/
theorem collect_order_dependent :
    (∀ path : Path, page.key ≠ path.key ∧ sheet.key ≠ path.key) ∧
    (∃ m m', (audit first second).MayCollect page (some (.ofText "/")) m ∧
      (audit first second).MayCollect page (some (.ofText "/")) m' ∧
      namesUnder m (Path.child (.ofText "/") first).key = some ["near"] ∧
      namesUnder m' (Path.child (.ofText "/") first).key = some ["far"]) ∧
    let loaded := (online.loadRemote sheet.key (online.start ⟨[], 300, 1800000⟩)).2.cache
    namesUnder (online.collect sheet none (online.start loaded)).1 sheet.key = some ["other"] := by
  -- both files are gathered, in the order of their bytes
  have hfiles : styleFilesBelow (audit first second).world.tree (.ofText "/") {} =
      .ok [(Path.ofText "/").child first, (Path.ofText "/").child second] :=
    Sheets.styleFilesBelow_default [] (by decide +kernel) (by decide +kernel)
      (by decide +kernel) (by decide +kernel) (by decide)
  refine ⟨fun path => ⟨?_, ?_⟩, ?_, by decide +kernel⟩
  · exact LinkTarget.ne_key_of_head (by decide) path
  · exact LinkTarget.ne_key_of_head (by decide) path
  · let a := audit first second
    -- one collection for each way to load the two files
    have hmay : ∀ load, a.Interleaves load → a.MayCollect page (some (.ofText "/"))
        ((a.collectPlan load page (some (.ofText "/"))).run a (a.start ⟨[], 300, 1800000⟩)).1 := by
      intro load hload
      have hruns := Plan.runs_run a (a.collectPlan load page (some (.ofText "/")))
        (a.start ⟨[], 300, 1800000⟩)
      exact ⟨_, _, .never, _, load, _, by decide, Cache.holds_of_entries_nil rfl, hload, hruns,
        hruns.not_cancelled rfl rfl⟩
    refine ⟨_, _, hmay _ a.interleaves_addFiles, hmay _ a.interleaves_reverse, ?_, ?_⟩
    -- one batch, from which either file may be taken first
    all_goals
      simp only [Audit.collectPlan, Audit.addSources, Audit.addRoot, Audit.addWorkspace]
      rw [show a.settings = {} from rfl, hfiles]
      decide +kernel

end StyleAudit
