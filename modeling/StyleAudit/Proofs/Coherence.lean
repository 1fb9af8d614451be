import Mathlib.Data.List.Basic
import StyleAudit.Proofs.DeclaredNames
import StyleAudit.Proofs.Ledgers
import StyleAudit.Proofs.Sources

/-!
# Requests from a coherent cache

A cache that keeps to a ledger answers requests as the sources do, as long as the ledger agrees with
the sources that are asked. Each request leaves a cache that keeps to the ledger, also a request
that fails or is cancelled on its way. The files of a batch may be loaded side by side, in any
order.

* **`Audit.Agrees`** and **`Document.OwnAgrees`** say that the ledger has exactly what a source and
  a document hold.
* **`Audit.filePlan_yields`**, **`Audit.remotePlan_yields`** and **`Document.ownPlan_yields`** are
  about one source: the result is that of the source.
* **`Audit.load_yields`** is about a batch: its files are added in some order. It follows from what
  one file comes to, whatever the schedule.
* **`Audit.collectPlan_yields`** is about a collection. Its map is that of the sources
  (**`Audit.isOf_of_perm`**) if no two files share a key.
* **`Auditor.plan_yields`** is about a validation: it comes to `Auditor.verdict`, which knows
  neither cache nor order.
* **`Audit.sourceLedger`** is the ledger of a cache that is coherent with one document and its
  sources; **`Audit.Collects.isOf`** and **`Auditor.Validates.eq_verdict`** are about requests from
  such a cache.
-/

namespace StyleAudit

/-! ### One source -/

/-- The ledger has what a document declares, under its key and version. -/
def Document.OwnAgrees (d : Document) (L : Ledger) : Prop :=
  ∀ selectors, L d.key d.version selectors ↔ selectors = d.selectors

/-- The ledger has what a source holds, under its key and its freshness. -/
def Audit.Agrees (a : Audit) (L : Ledger) (t : LinkTarget) : Prop :=
  ∀ freshness, a.freshness? t = some freshness → ∀ selectors,
    L t.key freshness selectors ↔ a.sourceResult t = .ok selectors

/-- Whatever the cache holds of the document agrees with it, so either way its selectors come
out. -/
theorem Document.ownPlan_yields {d : Document} {L : Ledger} (hown : d.OwnAgrees L)
    (cancelled : Bool) : d.ownPlan.Yields L (fun _ own => own = d.selectors) cancelled :=
  Plan.yields_ask.mpr ⟨Plan.yields_keep.mpr ⟨(hown _).mpr rfl, rfl⟩, fun hit => (hown hit).mp⟩

namespace Audit

variable {a : Audit} {L : Ledger}

/-- Loading a file gives what the file gives, from the cache or not. -/
theorem filePlan_yields {path : Path} (hfile : a.Agrees L (.file path)) (cancelled : Bool) :
    (a.filePlan path).Yields L (fun _ result => result = a.fileResult path) cancelled := by
  refine Plan.yields_call.mpr fun later _ => ?_
  cases hstat : a.world.tree.stat path with
  | error fault =>
    rw [Plan.yields_pure, fileResult, hstat]
  | ok stat =>
    have hagrees := hfile stat.modified (by simp [freshness?, hstat, Except.toOption])
    refine Plan.yields_ask.mpr ⟨?_, fun hit hhit => ((hagrees hit).mp hhit).symm⟩
    -- nothing was kept: the size is looked at before the file is read
    by_cases hsize : a.settings.maxFileSize < stat.size
    · simp only [if_pos hsize]
      rw [Plan.yields_pure, fileResult, hstat]
      exact (if_pos hsize).symm
    · simp only [if_neg hsize]
      refine Plan.yields_call.mpr fun later _ => ?_
      cases hread : a.world.tree.read path with
      | error fault =>
        rw [Plan.yields_pure, fileResult, hstat, hread]
        exact (if_neg hsize).symm
      | ok text =>
        have hresult : a.fileResult path =
            .ok (selectorsUpTo a.settings.maxContentLength text) := by
          rw [fileResult, hstat, hread]
          exact if_neg hsize
        exact Plan.yields_keep.mpr ⟨(hagrees _).mpr hresult, hresult.symm⟩

/-- Fetching an address gives what the network gives, from the cache or not. -/
theorem remotePlan_yields {url : String} (hremote : a.Agrees L (.remote url)) (cancelled : Bool) :
    (a.remotePlan url).Yields L (fun _ result => result = a.remoteResult url) cancelled := by
  have hagrees := hremote remoteFreshness rfl
  refine Plan.yields_ask.mpr ⟨?_, fun hit hhit => ((hagrees hit).mp hhit).symm⟩
  cases hworld : a.world.remote with
  | none =>
    rw [Plan.yields_pure, remoteResult, hworld]
  | some answer =>
    refine Plan.yields_call.mpr fun later _ => ?_
    cases hanswer : answer url with
    | error reason =>
      simp only [Plan.yields_pure, remoteResult, hworld, hanswer]
    | ok text =>
      have hresult : a.remoteResult url =
          .ok (selectorsUpTo a.settings.maxContentLength text) := by
        simp only [remoteResult, hworld, hanswer]
      exact Plan.yields_keep.mpr ⟨(hagrees _).mpr hresult, hresult.symm⟩

/-- Taking the result of a source is adding that source. -/
theorem take_eq_withSource {t : LinkTarget} (ht : a.admits t = true) (m : StyleMap) :
    m.take t.key (a.sourceResult t) = a.withSource m t := by
  rw [withSource, sourceSelectors?, if_pos ht]
  cases a.sourceResult t <;> rfl

theorem addFile_yields {path : Path} (hfile : a.Agrees L (.file path)) (m : StyleMap)
    (cancelled : Bool) :
    (a.addFile path m).Yields L (fun _ m' => m' = a.withSource m (.file path)) cancelled := by
  refine (filePlan_yields hfile cancelled).bind ?_
  rintro c _ rfl
  exact take_eq_withSource (t := .file path) rfl m

theorem addRemote_yields {url : String} (hfetches : a.fetches = true)
    (hremote : a.Agrees L (.remote url)) (m : StyleMap) (cancelled : Bool) :
    (a.addRemote url m).Yields L (fun _ m' => m' = a.withSource m (.remote url)) cancelled := by
  refine (remotePlan_yields hremote cancelled).bind ?_
  rintro c _ rfl
  exact take_eq_withSource (t := .remote url) hfetches m

/-! ### Links -/

/-- A target that the settings do not admit adds nothing. -/
theorem withSource_of_not_admits {t : LinkTarget} (ht : a.admits t = false) (m : StyleMap) :
    a.withSource m t = m := by
  simp [withSource, sourceSelectors?, ht]

/-- Links are asked for only if the settings admit them and only under a new key, so the ledger need
not agree with the others. -/
theorem addLinks_yields {key : String} (targets : List LinkTarget)
    (hagrees : ∀ t ∈ targets, a.admits t = true → t.key ≠ key → a.Agrees L t) {m : StyleMap}
    (hm : m.has key = true) (cancelled : Bool) :
    (a.addLinks targets m).Yields L
      (fun c m' => c = false → m' = targets.foldl a.withSource m) cancelled := by
  induction targets generalizing m cancelled with
  | nil => exact fun _ => rfl
  | cons target targets ih =>
    have hlater : ∀ t ∈ targets, a.admits t = true → t.key ≠ key → a.Agrees L t :=
      fun t ht => hagrees t (List.mem_cons_of_mem _ ht)
    -- the map has the document's key, so a missing target is another one
    have hne : m.has target.key = false → target.key ≠ key := by
      intro hhas heq
      rw [heq, hm] at hhas
      exact Bool.noConfusion hhas
    rw [List.foldl_cons]
    cases target with
    | file path =>
      unfold addLinks
      split
      · next hhas =>
        rw [a.withSource_of_has (show m.has (LinkTarget.file path).key = true from hhas)]
        exact ih hlater hm cancelled
      · next hhas =>
        have hfile := hagrees (.file path) List.mem_cons_self rfl (hne (Bool.eq_false_iff.mpr hhas))
        refine (addFile_yields hfile m cancelled).bind ?_
        rintro c _ rfl
        exact ih hlater (a.has_withSource hm _) c
    | remote url =>
      unfold addLinks
      split
      · next hskip =>
        have hsame : a.withSource m (.remote url) = m := by
          rcases Bool.or_eq_true_iff.mp hskip with hoff | hhas
          · have hclosed : a.admits (.remote url) = false := by simpa [admits] using hoff
            exact withSource_of_not_admits hclosed m
          · exact a.withSource_of_has hhas
        rw [hsame]
        exact ih hlater hm cancelled
      · next hskip =>
        obtain ⟨hfetches, hhas⟩ : a.fetches = true ∧ m.has url = false := by simpa using hskip
        have hremote := hagrees (.remote url) List.mem_cons_self hfetches (hne hhas)
        refine Plan.yields_check.mpr ⟨fun _ => ?_, fun hnot => nomatch hnot⟩
        refine (addRemote_yields hfetches hremote m false).bind ?_
        rintro c _ rfl
        exact ih hlater (a.has_withSource hm _) c

/-! ### Batches -/

variable {load : BatchLoader}

/-- However the loads of a batch are interleaved, its files are added in some order. -/
theorem load_yields (hload : a.Interleaves load) {paths : List Path}
    (hfiles : ∀ path ∈ paths, a.Agrees L (.file path)) (m : StyleMap) (cancelled : Bool) :
    (load paths m).Yields L (fun _ m' => ∃ order : List Path, order.Perm paths ∧
      m' = (order.map .file).foldl a.withSource m) cancelled := by
  have hjobs : ∀ job ∈ a.loads paths,
      job.plan.Yields L (fun _ result => result = a.fileResult job.name) cancelled := by
    intro job hjob
    obtain ⟨path, hpath, rfl⟩ := List.mem_map.mp hjob
    exact filePlan_yields (hfiles path hpath) cancelled
  have hnames : (a.loads paths).map Job.name = paths := by
    simp [loads, Function.comp_def, Job.waiting]
  have hyields := (hload paths m).yields (R := fun path _ result => result = a.fileResult path)
    (fun _ _ h => h) hjobs
  rw [hnames] at hyields
  refine hyields.imp ?_
  rintro c _ _ ⟨taken, hperm, htaken, rfl⟩
  refine ⟨taken.map Prod.fst, hperm, ?_⟩
  rw [List.map_map, List.foldl_map]
  -- what was taken from each file is what the file gives, so the order is all that is left open
  refine List.foldl_ext _ _ _ fun m' e he => ?_
  rw [htaken e he]
  exact take_eq_withSource (t := .file e.1) rfl m'

/-- Batches add the files of all of them, each batch in some order. -/
theorem addBatches_yields (hload : a.Interleaves load) (batches : List (List Path))
    (hfiles : ∀ path ∈ batches.flatten, a.Agrees L (.file path)) (m : StyleMap) (cancelled : Bool) :
    (addBatches load batches m).Yields L (fun c m' => c = false → ∃ order : List Path,
      order.Perm batches.flatten ∧ m' = (order.map .file).foldl a.withSource m) cancelled := by
  induction batches generalizing m cancelled with
  | nil => exact fun _ => ⟨[], .nil, rfl⟩
  | cons batch more ih =>
    rw [List.flatten_cons] at hfiles
    have hbatch : ∀ path ∈ batch, a.Agrees L (.file path) := fun path hpath =>
      hfiles path (List.mem_append_left _ hpath)
    have hmore : ∀ path ∈ more.flatten, a.Agrees L (.file path) := fun path hpath =>
      hfiles path (List.mem_append_right _ hpath)
    refine Plan.yields_check.mpr ⟨fun _ => ?_, fun hnot => nomatch hnot⟩
    refine (load_yields hload hbatch m false).bind ?_
    rintro c _ ⟨order, horder, rfl⟩
    refine (ih hmore _ c).imp fun c' m' _ hm' hnot => ?_
    obtain ⟨order', horder', rfl⟩ := hm' hnot
    refine ⟨order ++ order', horder.append horder', ?_⟩
    rw [List.map_append, List.foldl_append]

/-- Cutting into batches loses nothing and keeps the order. -/
theorem flatten_batches {β : Type} (size : Nat) (xs : List β) : (batches size xs).flatten = xs := by
  fun_induction batches size xs with
  | case1 => rfl
  | case2 x rest ih => rw [List.flatten_cons, ih, List.cons_append, List.take_append_drop]

/-- The files of a workspace that a map does not have. -/
def pending (a : Audit) (root : Option Path) (m : StyleMap) : List Path :=
  (a.gathered root).filter fun path => !m.has path.key

/-- The size of the batches does not show in the map. -/
theorem addRoot_yields (hload : a.Interleaves load) {root : Option Path} {m : StyleMap}
    (hfiles : ∀ path ∈ a.pending root m, a.Agrees L (.file path)) (cancelled : Bool) :
    (a.addRoot load root m).Yields L (fun c m' => c = false → ∃ order : List Path,
      order.Perm (a.pending root m) ∧ m' = (order.map .file).foldl a.withSource m) cancelled := by
  have hsame : (pure m : Plan StyleMap).Yields L (fun c m' => c = false → ∃ order : List Path,
      order.Perm [] ∧ m' = (order.map .file).foldl a.withSource m) cancelled :=
    fun _ => ⟨[], .nil, rfl⟩
  unfold pending gathered at hfiles ⊢
  unfold addRoot
  cases root with
  | none => exact hsame
  | some root =>
    simp only at hfiles ⊢
    split
    · next hscan =>
      rw [if_pos hscan] at hfiles
      unfold addWorkspace
      cases hfound : styleFilesBelow a.world.tree root a.settings with
      | error _ => exact hsame
      | ok files =>
        rw [hfound] at hfiles
        have hbatches := addBatches_yields hload
          (batches (a.settings.batchSize - 1) (files.filter fun path => !m.has path.key))
          (by rw [flatten_batches]; exact hfiles) m cancelled
        rw [flatten_batches] at hbatches
        exact hbatches
    · exact hsame

/-! ### Collections -/

variable {d : Document} {root : Option Path}

/-- The map of a document and its links. -/
def linked (a : Audit) (d : Document) (root : Option Path) : StyleMap :=
  (linkTargets d root).foldl a.withSource [(d.key, d.selectors)]

theorem has_foldl_withSource (ts : List LinkTarget) {m : StyleMap} {key : String}
    (h : m.has key = true) : (ts.foldl a.withSource m).has key = true := by
  induction ts generalizing m with
  | nil => exact h
  | cons t ts ih => exact ih (a.has_withSource h t)

/-- A file that is pending is asked for: it does not have the key of the document. -/
theorem mem_asked_of_mem_pending {path : Path} (h : path ∈ a.pending root (a.linked d root)) :
    .file path ∈ a.asked d root := by
  obtain ⟨hmem, hnew⟩ := List.mem_filter.mp h
  refine mem_asked_iff.mpr ⟨List.mem_append_right _ (List.mem_map_of_mem hmem), rfl, fun heq => ?_⟩
  have hown : (a.linked d root).has d.key = true :=
    has_foldl_withSource _ (by simp [StyleMap.has])
  have hkey : path.key = d.key := heq
  rw [hkey, hown] at hnew
  exact Bool.noConfusion hnew

/-- A collection gives the links in their order and then the files of the workspace in some order,
unless it is cancelled. -/
theorem collectPlan_yields (hload : a.Interleaves load)
    (hsources : ∀ t ∈ a.asked d root, a.Agrees L t) (hown : d.OwnAgrees L) (cancelled : Bool) :
    (a.collectPlan load d root).Yields L (fun c m => c = false → ∃ order : List Path,
      order.Perm (a.pending root (a.linked d root)) ∧
        m = (order.map .file).foldl a.withSource (a.linked d root)) cancelled := by
  refine (Document.ownPlan_yields hown cancelled).bind ?_
  rintro c _ rfl
  refine Plan.yields_check.mpr ⟨fun _ => ?_, fun hnot => nomatch hnot⟩
  have hlinks : ∀ t ∈ linkTargets d root, a.admits t = true → t.key ≠ d.key → a.Agrees L t :=
    fun t ht hadmits hne =>
      hsources t (mem_asked_iff.mpr ⟨List.mem_append_left _ ht, hadmits, hne⟩)
  have hhas : StyleMap.has [(d.key, d.selectors)] d.key = true := by simp [StyleMap.has]
  -- after the links comes one more check, and only then the workspace
  refine (addLinks_yields _ hlinks hhas false).bind fun c m hm => ?_
  refine Plan.yields_check.mpr ⟨fun hnot => ?_, fun hnot => nomatch hnot⟩
  rw [hm hnot]
  exact addRoot_yields hload (fun path hpath => hsources _ (mem_asked_of_mem_pending hpath)) false

/-- Files in any order, after the links, make up the map of all sources. Files that are not pending
were linked to. -/
theorem isOf_of_perm (hkeys : a.KeysTell d root) {order : List Path}
    (horder : order.Perm (a.pending root (a.linked d root))) :
    ((order.map .file).foldl a.withSource (a.linked d root)).IsOf a d (· ∈ a.sources d root) := by
  let skipped := (a.gathered root).filter fun path => (a.linked d root).has path.key
  let all := linkTargets d root ++ skipped.map .file ++ order.map .file
  have hskipped : (skipped.map LinkTarget.file).foldl a.withSource (a.linked d root) =
      a.linked d root := by
    refine a.foldl_withSource_of_has _ ?_
    intro t ht
    obtain ⟨path, hpath, rfl⟩ := List.mem_map.mp ht
    exact (List.mem_filter.mp hpath).2
  have hmem : ∀ t, (False ∨ t ∈ all) ↔ t ∈ a.sources d root := by
    intro t
    have hgathered : ∀ path, path ∈ a.gathered root ↔ path ∈ skipped ∨ path ∈ order := by
      intro path
      rw [horder.mem_iff, pending, List.mem_filter, List.mem_filter]
      cases (a.linked d root).has path.key <;> simp
    simp only [all, false_or, sources, List.mem_append, List.mem_map, hgathered, or_and_right,
      exists_or, or_assoc]
  -- links, then the files that are there already, then the others
  have hall := StyleMap.IsOf.foldl all (StyleMap.isOf_own (a := a) (d := d))
    fun t t' ht ht' => hkeys.eq_of_key_eq ((hmem t).mp ht) ((hmem t').mp ht')
  rw [List.foldl_append, List.foldl_append] at hall
  change StyleMap.IsOf ((order.map LinkTarget.file).foldl a.withSource
    ((skipped.map LinkTarget.file).foldl a.withSource (a.linked d root))) a d _ at hall
  rw [hskipped] at hall
  exact hall.congr hmem

/-- The map that lists the sources in their order is that of the sources. -/
theorem isOf_styles (hkeys : a.KeysTell d root) :
    (a.styles d root).IsOf a d (· ∈ a.sources d root) := by
  refine (StyleMap.IsOf.foldl (a.sources d root) StyleMap.isOf_own ?_).congr fun t =>
    or_iff_right id
  intro t t' ht ht'
  exact hkeys.eq_of_key_eq (ht.resolve_left id) (ht'.resolve_left id)

/-- A collection gives the style map of the sources, unless it is cancelled. -/
theorem collectPlan_isOf (hload : a.Interleaves load)
    (hsources : ∀ t ∈ a.asked d root, a.Agrees L t) (hkeys : a.KeysTell d root)
    (hown : d.OwnAgrees L) (cancelled : Bool) :
    (a.collectPlan load d root).Yields L
      (fun c m => c = false → m.IsOf a d (· ∈ a.sources d root)) cancelled := by
  refine (collectPlan_yields hload hsources hown cancelled).imp fun c m _ hm hnot => ?_
  obtain ⟨order, horder, rfl⟩ := hm hnot
  exact isOf_of_perm hkeys horder

end Audit

/-! ### Validations -/

namespace Auditor

/-- The diagnostics of a document, read off its sources. -/
def verdict (v : Auditor) (world : World) (d : Document) (root : Option Path) : List Diagnostic :=
  if !v.covers d root then []
  else match d.kind with
    | .style => v.finish d (v.styleDiagnostics d d.selectors)
    | _ => v.finish d (v.referenceDiagnostics d ((v.audit world .never).styles d root))

/-- The sources that a validation asks for. A stylesheet has none. -/
def asked (v : Auditor) (world : World) (d : Document) (root : Option Path) : List LinkTarget :=
  if v.covers d root && d.kind ≠ .style then (v.audit world .never).asked d root else []

variable {v : Auditor} {world : World} {L : Ledger} {load : Audit.BatchLoader} {d : Document}
  {root : Option Path}

/-- For a document that refers to names, the plan collects the stylesheets and then reports. -/
theorem plan_of_ne_style (v : Auditor) (world : World) (load : Audit.BatchLoader) {d : Document}
    {root : Option Path} (hcovers : v.covers d root = true) (hkind : d.kind ≠ .style) :
    v.plan world load d root =
      (v.audit world .never).collectPlan load d root >>= v.reportPlan d := by
  unfold plan
  rw [hcovers]
  cases hd : d.kind with
  | style => exact absurd hd hkind
  | markup | script => rfl

/-- A report that is not cut off is complete. Both checks fail if the request was cancelled
before. -/
theorem reportPlan_yields (v : Auditor) (L : Ledger) (d : Document) (m : StyleMap)
    (cancelled : Bool) :
    (v.reportPlan d m).Yields L (fun c found => c = false →
      cancelled = false ∧ found = v.finish d (v.referenceDiagnostics d m)) cancelled := by
  refine Plan.yields_check.mpr ⟨fun hnot => ?_, fun hnot => nomatch hnot⟩
  exact Plan.yields_check.mpr ⟨fun _ _ => ⟨hnot, rfl⟩, fun hnot => nomatch hnot⟩

/-- A validation gives the diagnostics that its sources call for, unless it is cancelled. -/
theorem plan_yields (hload : (v.audit world .never).Interleaves load)
    (hsources : ∀ t ∈ v.asked world d root, (v.audit world .never).Agrees L t)
    (hkeys : ∀ path path', .file path ∈ v.asked world d root → .file path' ∈ v.asked world d root →
      path.key = path'.key → path = path')
    (hown : d.OwnAgrees L) (cancelled : Bool) :
    (v.plan world load d root).Yields L
      (fun c found => c = false → found = v.verdict world d root) cancelled := by
  cases hcovers : v.covers d root with
  | false =>
    simp only [plan, verdict, hcovers, Bool.not_false, if_true]
    exact fun _ => rfl
  | true =>
    by_cases hkind : d.kind = .style
    · simp only [plan, verdict, hcovers, hkind, Bool.not_true, Bool.false_eq_true, if_false]
      refine (Document.ownPlan_yields hown cancelled).bind ?_
      rintro c _ rfl
      exact Plan.yields_check.mpr ⟨fun _ _ => rfl, fun hnot => Bool.noConfusion hnot⟩
    · have hasked : v.asked world d root = (v.audit world .never).asked d root := by
        simp [asked, hcovers, hkind]
      have hverdict : v.verdict world d root =
          v.finish d (v.referenceDiagnostics d ((v.audit world .never).styles d root)) := by
        unfold verdict
        rw [hcovers]
        cases hd : d.kind with
        | style => exact absurd hd hkind
        | markup | script => rfl
      rw [hasked] at hsources hkeys
      rw [plan_of_ne_style v world load hcovers hkind, hverdict]
      refine (Audit.collectPlan_isOf hload hsources hkeys hown cancelled).bind fun c m hm => ?_
      refine (v.reportPlan_yields L d m c).imp fun c' found _ hfound hnot => ?_
      obtain ⟨hdone, rfl⟩ := hfound hnot
      have hmap := hm hdone
      have hstyles := Audit.isOf_styles hkeys
      rw [v.referenceDiagnostics_congr d hmap.nodup hstyles.nodup (hmap.lookup_eq hstyles)]

end Auditor

/-! ### Runs from a coherent cache -/

namespace Audit

variable {a : Audit} {load : BatchLoader} {d : Document} {root : Option Path}
  {cache : SelectorCache}

/-- `a.Collects load d root cache r`: a collection may come to `r` from a cache. -/
def Collects (a : Audit) (load : BatchLoader) (d : Document) (root : Option Path)
    (cache : SelectorCache) (r : StyleMap × Progress) : Prop :=
  (a.collectPlan load d root).Runs a (a.start cache) r

/-- What a cache may hold that is coherent with a document and its sources: the document under its
version, and the sources that are asked for under their freshness. Other entries are not its
concern. -/
def sourceLedger (a : Audit) (d : Document) (root : Option Path) : Ledger :=
  fun key freshness selectors =>
    (key = d.key → freshness = d.version → selectors = d.selectors) ∧
      ∀ t ∈ a.asked d root, key = t.key → a.freshness? t = some freshness →
        a.sourceResult t = .ok selectors

/-- Every source of a document agrees with the ledger of these sources. -/
theorem agrees_sourceLedger (hkeys : a.KeysTell d root) {t : LinkTarget}
    (ht : t ∈ a.asked d root) : a.Agrees (a.sourceLedger d root) t := by
  obtain ⟨hmem, _, hne⟩ := mem_asked_iff.mp ht
  intro freshness hfresh selectors
  constructor
  · exact fun h => h.2 t ht rfl hfresh
  · intro hresult
    refine ⟨fun heq _ => absurd heq hne, fun t' ht' heq _ => ?_⟩
    rw [← hkeys.eq_of_key_eq hmem (mem_asked_iff.mp ht').1 hne heq]
    exact hresult

/-- The document itself agrees with the ledger of its sources. -/
theorem ownAgrees_sourceLedger (a : Audit) (d : Document) (root : Option Path) :
    d.OwnAgrees (a.sourceLedger d root) := by
  intro selectors
  constructor
  · exact fun h => h.1 rfl rfl
  · intro heq
    exact ⟨fun _ _ => heq, fun t ht hkey _ => absurd hkey.symm (mem_asked_iff.mp ht).2.2⟩

/-- From a coherent cache, a collection that is not cancelled gives the map of the sources. -/
theorem Collects.isOf (hload : a.Interleaves load) (hkeys : a.KeysTell d root)
    (hcache : cache.Holds (a.sourceLedger d root)) {r : StyleMap × Progress}
    (h : a.Collects load d root cache r) (hdone : r.2.cancelled = false) :
    r.1.IsOf a d (· ∈ a.sources d root) := by
  have hyields := collectPlan_isOf hload (fun t ht => agrees_sourceLedger hkeys ht) hkeys
    (ownAgrees_sourceLedger a d root) (a.start cache).cancelled
  exact (hyields.runs hcache h).2 hdone

end Audit

namespace Auditor

variable {v : Auditor} {world : World} {interrupt : Interrupt} {load : Audit.BatchLoader}
  {d : Document} {root : Option Path} {cache : SelectorCache}

/-- `v.Validates world interrupt load d root cache r`: a validation may come to `r` from a cache. -/
def Validates (v : Auditor) (world : World) (interrupt : Interrupt) (load : Audit.BatchLoader)
    (d : Document) (root : Option Path) (cache : SelectorCache) (r : List Diagnostic × Progress) :
    Prop :=
  (v.plan world load d root).Runs (v.audit world interrupt)
    ((v.audit world interrupt).start cache) r

/-- From a coherent cache, a validation that is not cancelled gives what its sources call for. -/
theorem Validates.eq_verdict (hload : (v.audit world .never).Interleaves load)
    (hkeys : (v.audit world .never).KeysTell d root)
    (hcache : cache.Holds ((v.audit world .never).sourceLedger d root))
    {r : List Diagnostic × Progress} (h : v.Validates world interrupt load d root cache r)
    (hdone : r.2.cancelled = false) : r.1 = v.verdict world d root := by
  have hasked : v.asked world d root ⊆ (v.audit world .never).asked d root := by
    unfold asked
    split
    · exact List.Subset.refl _
    · exact List.nil_subset _
  have hyields := plan_yields hload
    (fun t ht => Audit.agrees_sourceLedger hkeys (hasked ht))
    (fun path path' hpath hpath' => hkeys path path' (hasked hpath) (hasked hpath'))
    (Audit.ownAgrees_sourceLedger _ d root) ((v.audit world interrupt).start cache).cancelled
  exact (hyields.runs hcache h).2 hdone

end Auditor

end StyleAudit
