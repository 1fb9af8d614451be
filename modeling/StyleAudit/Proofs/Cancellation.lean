import StyleAudit.Proofs.Coherence

/-!
# Cancelled requests

A request that is cancelled ends with a part of what it would have collected, and a validation that
is cancelled ends with nothing. Two runs of one plan are compared from the same cache: one with its
interrupt, and one that is never cancelled. The files of a batch may be loaded side by side.

The two runs go side by side as long as the interrupted one passes its checks: an interrupt shows in
the answers to checks and nowhere else. A check that fails ends the interrupted run, since all its
later checks fail as well, while the other goes on.

* **`Plan.Gives`** lists what a plan may come to when all its checks are answered alike.
* **`Plan.Cuts`** says that a plan that fails at a check comes to a part of what it comes to
  otherwise; **`Plan.Cuts.bind`** puts plans together, and **`Plan.Cuts.runs`** is about their runs.
* **`Weaves.unchecked`**: a batch makes no checks, whatever the order of its loads. It only adds to
  a map (**`Weaves.grows`**).
* **`Audit.collectPlan_cuts`** is about a collection and **`Auditor.plan_cuts`** about a validation.
* **`validate_all_or_nothing`** is the result.

Every moment of a cancellation is covered. What a run sees of its cancellation are its checks, and
`Interrupt.atCheck` may turn any of them.
-/

namespace StyleAudit

/-! ### What a plan may come to -/

namespace Plan

variable {α β : Type} {P : α → Prop} {Q : β → Prop}

/-- `t.All P`: whatever the answers, the result satisfies `P`. -/
def All (P : α → Prop) : Plan α → Prop
  | .done x => P x
  | .act _ next => ∀ answer, (next answer).All P

/-- `t.Gives failed x`: the plan may come to `x` when each of its checks has the answer `failed`. -/
def Gives (failed : Bool) (x : α) : Plan α → Prop
  | .done y => y = x
  | .act .check next => (next failed).Gives failed x
  | .act _ next => ∃ answer, (next answer).Gives failed x

theorem All.of_forall (h : ∀ x, P x) (t : Plan α) : t.All P := by
  induction t with
  | done x => exact h x
  | act action next ih => exact ih

theorem All.imp {P' : α → Prop} {t : Plan α} (h : t.All P) (himp : ∀ x, P x → P' x) : t.All P' := by
  induction t with
  | done x => exact himp x h
  | act action next ih => exact fun answer => ih answer (h answer)

/-- What holds of all results of a plan may be used for what comes after it. -/
theorem All.bind {t : Plan α} (h : t.All P) {rest : α → Plan β}
    (hrest : ∀ x, P x → (rest x).All Q) :
    (t >>= rest).All Q := by
  show (t.andThen rest).All Q
  induction t with
  | done x => exact hrest x h
  | act action next ih => exact fun answer => ih answer (h answer)

/-- A check gives the result of stopping or that of going on. -/
theorem All.check {stop : α} {rest : Plan α} (hstop : P stop) (hrest : rest.All P) :
    (Plan.check >>= fun failed => if failed then pure stop else rest).All P
  | true => hstop
  | false => hrest

/-- What holds of all results holds of each. -/
theorem All.gives {t : Plan α} (h : t.All P) {failed : Bool} {x : α} (hx : t.Gives failed x) :
    P x := by
  induction t with
  | done y =>
    obtain rfl : y = x := hx
    exact h
  | act action next ih =>
    cases action with
    | check => exact ih failed (h failed) hx
    | call | ask | keep =>
      obtain ⟨answer, hanswer⟩ := hx
      exact ih answer (h answer) hanswer

theorem All.runs {t : Plan α} (h : t.All P) {a : Audit} {p : Progress} {r : α × Progress}
    (hruns : t.Runs a p r) : P r.1 := by
  induction hruns with
  | done x p => exact h
  | act first second _ ih => exact ih (h _)

/-- The results of two plans in a row. -/
theorem gives_bind {t : Plan α} {rest : α → Plan β} {failed : Bool} {y : β} :
    (t >>= rest).Gives failed y ↔ ∃ x, t.Gives failed x ∧ (rest x).Gives failed y := by
  show (t.andThen rest).Gives failed y ↔ _
  induction t with
  | done x =>
    constructor
    · exact fun h => ⟨x, rfl, h⟩
    · rintro ⟨_, rfl, h⟩
      exact h
  | act action next ih =>
    cases action with
    | check => exact ih failed
    | call | ask | keep =>
      constructor
      · rintro ⟨answer, h⟩
        obtain ⟨x, hx, hrest⟩ := (ih answer).mp h
        exact ⟨x, ⟨answer, hx⟩, hrest⟩
      · rintro ⟨x, ⟨answer, hx⟩, hrest⟩
        exact ⟨answer, (ih answer).mpr ⟨x, hx, hrest⟩⟩

/-- All checks of a request that is cancelled fail, and it stays cancelled. -/
theorem Runs.gives_of_cancelled {t : Plan α} {a : Audit} {p : Progress} {r : α × Progress}
    (h : t.Runs a p r) (hp : p.cancelled = true) : t.Gives true r.1 ∧ r.2.cancelled = true := by
  induction h with
  | done x p => exact ⟨rfl, hp⟩
  | @act action next p r first second _ ih =>
    cases action with
    | check =>
      -- once cancelled, every check fails
      have hfailed : (a.check p).1 = true := by
        show (p.cancelled || _) = true
        rw [hp, Bool.true_or]
      have hrest := ih hfailed
      rw [show a.perform first second .check p = a.check p from rfl, hfailed] at hrest
      exact hrest
    | call c =>
      have hrest := ih (by show (p.cancelled || _) = true; rw [hp, Bool.true_or])
      exact ⟨⟨_, hrest.1⟩, hrest.2⟩
    | ask key freshness =>
      have hrest := ih hp
      exact ⟨⟨_, hrest.1⟩, hrest.2⟩
    | keep key freshness selectors =>
      have hrest := ih hp
      exact ⟨⟨_, hrest.1⟩, hrest.2⟩

/-- Without an interrupt all checks are passed. -/
theorem Runs.gives_of_never {t : Plan α} {a : Audit} {p : Progress} {r : α × Progress}
    (h : t.Runs a p r) (ha : a.interrupt = .never) (hp : p.cancelled = false) :
    t.Gives false r.1 := by
  induction h with
  | done x p => rfl
  | @act action next p r first second _ ih =>
    cases action with
    | check =>
      have hpassed : (a.check p).1 = false := by
        show (p.cancelled || a.interrupt.atCheck p.checks) = false
        rw [hp, ha]
        rfl
      have hrest := ih hpassed
      rw [show a.perform first second .check p = a.check p from rfl, hpassed] at hrest
      exact hrest
    | call c =>
      refine ⟨_, ih ?_⟩
      show (p.cancelled || a.interrupt.atCall c) = false
      rw [hp, ha]
      rfl
    | ask key freshness => exact ⟨_, ih hp⟩
    | keep key freshness selectors => exact ⟨_, ih hp⟩

/-! ### Plans that are cut off -/

/-- `t.Cuts le`: what the plan comes to when a check fails, and all later ones with it, is related
by `le` to all that it comes to when they are passed. -/
def Cuts (le : α → α → Prop) : Plan α → Prop
  | .done _ => True
  | .act .check next => (next false).Cuts le ∧
      ∀ x y, (next true).Gives true x → (next false).Gives false y → le x y
  | .act _ next => ∀ answer, (next answer).Cuts le

/-- A plan without checks. -/
def Unchecked : Plan α → Prop
  | .done _ => True
  | .act .check _ => False
  | .act _ next => ∀ answer, (next answer).Unchecked

/-- Cut results of the first plan give cut results of the whole. -/
theorem Cuts.bind {le : α → α → Prop} {le' : β → β → Prop} {t : Plan α} (h : t.Cuts le)
    {rest : α → Plan β} (hrest : ∀ x, (rest x).Cuts le')
    (hle : ∀ x y x' y', le x y → (rest x).Gives true x' → (rest y).Gives false y' → le' x' y') :
    (t >>= rest).Cuts le' := by
  show (t.andThen rest).Cuts le'
  induction t with
  | done x => exact hrest x
  | act action next ih =>
    cases action with
    | check =>
      refine ⟨ih false h.1, fun x' y' hx' hy' => ?_⟩
      obtain ⟨x, hx, hx'⟩ := gives_bind.mp hx'
      obtain ⟨y, hy, hy'⟩ := gives_bind.mp hy'
      exact hle x y x' y' (h.2 x y hx hy) hx' hy'
    | call | ask | keep => exact fun answer => ih answer (h answer)

/-- Plans without checks in a row have no check. -/
theorem Unchecked.bind {t : Plan α} (h : t.Unchecked) {rest : α → Plan β}
    (hrest : ∀ x, (rest x).Unchecked) : (t >>= rest).Unchecked := by
  show (t.andThen rest).Unchecked
  induction t with
  | done x => exact hrest x
  | act action next ih =>
    cases action with
    | check => exact h.elim
    | call | ask | keep => exact fun answer => ih answer (h answer)

/-- A plan without checks is nowhere cut off. -/
theorem Unchecked.cuts {le : α → α → Prop} {t : Plan α} (h : t.Unchecked) : t.Cuts le := by
  induction t with
  | done x => trivial
  | act action next ih =>
    cases action with
    | check => exact h.elim
    | call | ask | keep => exact fun answer => ih answer (h answer)

/-- What follows a plan without checks is cut off as if it stood alone. -/
theorem Unchecked.cuts_bind {le : β → β → Prop} {t : Plan α} (h : t.Unchecked) {rest : α → Plan β}
    (hrest : ∀ x, (rest x).Cuts le) : (t >>= rest).Cuts le := by
  have hnever : t.Cuts fun _ _ => False := h.cuts
  exact hnever.bind hrest fun _ _ _ _ hfalse => hfalse.elim

/-- A check that ends a plan with `stop`, if it fails. -/
theorem Cuts.check {le : α → α → Prop} {stop : α} {rest : Plan α} (h : rest.Cuts le)
    (hle : ∀ y, rest.Gives false y → le stop y) :
    (Plan.check >>= fun failed => if failed then pure stop else rest).Cuts le := by
  refine ⟨h, fun x y hx hy => ?_⟩
  obtain rfl : stop = x := hx
  exact hle y hy

/-- A request that is never cancelled passes its checks. -/
theorem check_of_never {b : Audit} {q : Progress} (hb : b.interrupt = .never)
    (hq : q.cancelled = false) :
    ∃ q', b.check q = (false, q') ∧ q'.cache = q.cache ∧ q'.cancelled = false := by
  refine ⟨{ q with checks := q.checks + 1, cancelled := false }, ?_, rfl, rfl⟩
  rw [Audit.check, hq, hb]
  rfl

/-- An interrupted run goes side by side with one that is never cancelled, up to the check at which
it is cut off. -/
theorem Cuts.runs {le : α → α → Prop} (hrefl : ∀ x, le x x) {t : Plan α} (h : t.Cuts le)
    {a b : Audit} (hb : b.interrupt = .never) {p q : Progress} {r : α × Progress}
    (hruns : t.Runs a p r) (hcache : q.cache = p.cache) (hq : q.cancelled = false) :
    ∃ r', t.Runs b q r' ∧ le r.1 r'.1 ∧ (r.2.cancelled = false → r.1 = r'.1) := by
  induction hruns generalizing q with
  | done x p => exact ⟨(x, q), .done x q, hrefl x, fun _ => rfl⟩
  | @act action next p r first second hrest ih =>
    cases action with
    | call c =>
      have hnot : (b.call c q).cancelled = false := by
        show (q.cancelled || b.interrupt.atCall c) = false
        rw [hq, hb]
        rfl
      obtain ⟨r', hr', hle⟩ := ih (h ()) (q := b.call c q) hcache hnot
      exact ⟨r', .act first second hr', hle⟩
    | ask key freshness =>
      -- both runs ask at the same time, so they find the same entry
      let q' : Progress := { q with cache := (p.ask first key freshness).2.cache }
      have hask : q.ask first key freshness = ((p.ask first key freshness).1, q') := by
        simp only [Progress.ask, hcache, q']
      obtain ⟨r', hr', hle⟩ := ih (h _) (q := q') rfl hq
      refine ⟨r', .act first second ?_, hle⟩
      show (next (q.ask first key freshness).1).Runs b (q.ask first key freshness).2 r'
      rw [hask]
      exact hr'
    | keep key freshness selectors =>
      obtain ⟨r', hr', hle⟩ := ih (h ()) (q := q.keep first second key freshness selectors)
        (by simp only [Progress.keep, Audit.perform, hcache]) hq
      exact ⟨r', .act first second hr', hle⟩
    | check =>
      obtain ⟨q', hpassed, hcache', hnot⟩ := check_of_never hb hq
      have hstep : ∀ {r'}, (next false).Runs b q' r' → (act .check next).Runs b q r' := by
        intro r' hr'
        refine .act first second ?_
        rw [show b.perform first second .check q = b.check q from rfl, hpassed]
        exact hr'
      change (next (a.check p).1).Runs a (a.check p).2 r at hrest
      cases hcheck : (a.check p).1 with
      | false =>
        change (next (a.check p).1).Cuts le → ∀ {q : Progress}, q.cache = (a.check p).2.cache →
          q.cancelled = false → ∃ r', (next (a.check p).1).Runs b q r' ∧ _ at ih
        rw [hcheck] at ih
        obtain ⟨r', hr', hle⟩ := ih h.1 (hcache'.trans hcache) hnot
        exact ⟨r', hstep hr', hle⟩
      | true =>
        -- here the interrupted run is cut off, and the other goes on by itself
        rw [hcheck] at hrest
        obtain ⟨hx, hcancelled⟩ := hrest.gives_of_cancelled hcheck
        have hothers := runs_run b (next false) q'
        refine ⟨_, hstep hothers, h.2 _ _ hx (hothers.gives_of_never hb hnot), fun hdone => ?_⟩
        rw [hcancelled] at hdone
        exact Bool.noConfusion hdone

end Plan

/-! ### Plans side by side -/

section

variable {ν β γ : Type} {places : Nat} {take : γ → ν → β → γ} {jobs : List (Job ν β)} {acc : γ}
  {t : Plan γ}

/-- Side by side, plans without checks make no checks. -/
theorem Weaves.unchecked (h : Weaves places take jobs acc t)
    (hjobs : ∀ job ∈ jobs, job.plan.Unchecked) : t.Unchecked := by
  induction h with
  | done acc => trivial
  | start before after name plan _ _ ih =>
    refine ih ?_
    rw [List.forall_mem_append, List.forall_mem_cons] at hjobs ⊢
    exact hjobs
  | step before after name action next t _ ih =>
    rw [List.forall_mem_append, List.forall_mem_cons] at hjobs
    obtain ⟨hbefore, hjob, hafter⟩ := hjobs
    have hnext : ∀ answer, (next answer).Unchecked → (t answer).Unchecked := by
      intro answer hanswer
      refine ih answer ?_
      rw [List.forall_mem_append, List.forall_mem_cons]
      exact ⟨hbefore, hanswer, hafter⟩
    cases action with
    -- a job without checks never offers one
    | check => exact hjob.elim
    | call | ask | keep => exact fun answer => hnext answer (hjob answer)
  | join before after name result _ ih =>
    refine ih ?_
    rw [List.forall_mem_append, List.forall_mem_cons] at hjobs
    rw [List.forall_mem_append]
    exact ⟨hjobs.1, hjobs.2.2⟩

/-- If each result that is taken adds to a map, so do all of them. -/
theorem Weaves.grows {take : StyleMap → ν → β → StyleMap} (htake : ∀ m name x, m <+: take m name x)
    {m : StyleMap} {t : Plan StyleMap} (h : Weaves places take jobs m t) : t.All (m <+: ·) := by
  induction h with
  | done m => exact List.prefix_refl m
  | start _ _ _ _ _ _ ih => exact ih
  | step _ _ _ _ _ _ _ ih => exact ih
  | join _ _ name result _ ih => exact ih.imp fun _ => (htake _ name result).trans

end

/-! ### Maps only grow -/

namespace StyleMap

theorem prefix_add (m : StyleMap) (key : String) (selectors : List Selector) :
    m <+: m.add key selectors := by
  unfold add
  split
  · exact List.prefix_refl m
  · exact List.prefix_append m _

theorem prefix_take (m : StyleMap) (key : String) (result : Except Error (List Selector)) :
    m <+: m.take key result := by
  cases result with
  | ok selectors => exact m.prefix_add key selectors
  | error _ => exact List.prefix_refl m

/-- A longer map answers what the shorter one answers. -/
theorem lookup_of_prefix {m m' : StyleMap} (h : m <+: m') {key : String}
    {selectors : List Selector} (hkey : m.lookup key = some selectors) :
    m'.lookup key = some selectors := by
  obtain ⟨added, rfl⟩ := h
  rw [List.lookup_append, hkey]
  rfl

end StyleMap

/-- Reading a document's own selectors is not interrupted. -/
theorem Document.ownPlan_unchecked (d : Document) : d.ownPlan.Unchecked := by
  intro answer
  cases answer with
  | some _ => trivial
  | none => exact fun _ => trivial

namespace Audit

variable {a : Audit} {load : BatchLoader}

theorem addFile_grows (path : Path) (m : StyleMap) : (a.addFile path m).All (m <+: ·) :=
  (Plan.All.of_forall (fun _ => trivial) (a.filePlan path)).bind fun result _ =>
    m.prefix_take path.key result

theorem addRemote_grows (url : String) (m : StyleMap) : (a.addRemote url m).All (m <+: ·) :=
  (Plan.All.of_forall (fun _ => trivial) (a.remotePlan url)).bind fun result _ =>
    m.prefix_take url result

/-- Adding links only adds to the map, wherever it stops. -/
theorem addLinks_grows (targets : List LinkTarget) (m : StyleMap) :
    (a.addLinks targets m).All (m <+: ·) := by
  induction targets generalizing m with
  | nil => exact List.prefix_refl m
  | cons target targets ih =>
    cases target with
    | file path =>
      unfold addLinks
      split
      · exact ih m
      · exact (addFile_grows path m).bind fun m' hm' => (ih m').imp fun _ => hm'.trans
    | remote url =>
      unfold addLinks
      split
      · exact ih m
      · refine Plan.All.check (List.prefix_refl m) ?_
        exact (addRemote_grows url m).bind fun m' hm' => (ih m').imp fun _ => hm'.trans

/-- Loading a batch only adds to the map, in whatever order. -/
theorem load_grows (hload : a.Interleaves load) (paths : List Path) (m : StyleMap) :
    (load paths m).All (m <+: ·) :=
  (hload paths m).grows fun m path result => StyleMap.prefix_take m (Path.key path) result

theorem addBatches_grows (hload : a.Interleaves load) (batches : List (List Path)) (m : StyleMap) :
    (addBatches load batches m).All (m <+: ·) := by
  induction batches generalizing m with
  | nil => exact List.prefix_refl m
  | cons batch more ih =>
    refine Plan.All.check (List.prefix_refl m) ?_
    exact (load_grows hload batch m).bind fun m' hm' => (ih m').imp fun _ => hm'.trans

/-- Adding the workspace only adds to the map, wherever it stops. -/
theorem addRoot_grows (hload : a.Interleaves load) (root : Option Path) (m : StyleMap) :
    (a.addRoot load root m).All (m <+: ·) := by
  unfold addRoot addWorkspace
  split
  · split
    · split
      · exact List.prefix_refl m
      · exact addBatches_grows hload _ m
    · exact List.prefix_refl m
  · exact List.prefix_refl m

theorem addSources_grows (hload : a.Interleaves load) (d : Document) (root : Option Path)
    (m : StyleMap) : (a.addSources load d root m).All (m <+: ·) := by
  refine (addLinks_grows (linkTargets d root) m).bind fun m' hm' => ?_
  exact Plan.All.check hm' ((addRoot_grows hload root m').imp fun _ => hm'.trans)

/-! ### Collections -/

/-- A file that is being loaded is loaded to the end. -/
theorem filePlan_unchecked (path : Path) : (a.filePlan path).Unchecked := by
  intro _
  cases a.world.tree.stat path with
  | error _ => trivial
  | ok stat =>
    intro answer
    cases answer with
    | some _ => trivial
    | none =>
      simp only
      split
      · trivial
      · intro _
        cases a.world.tree.read path with
        | error _ => trivial
        | ok _ => exact fun _ => trivial

/-- A fetch that was begun is carried to the end. -/
theorem remotePlan_unchecked (url : String) : (a.remotePlan url).Unchecked := by
  intro answer
  cases answer with
  | some _ => trivial
  | none =>
    cases a.world.remote with
    | none => trivial
    | some fetch =>
      intro _
      cases fetch url with
      | error _ => trivial
      | ok _ => exact fun _ => trivial

/-- Interrupted links leave a front of the whole map. -/
theorem addLinks_cuts (targets : List LinkTarget) (m : StyleMap) :
    (a.addLinks targets m).Cuts (· <+: ·) := by
  induction targets generalizing m with
  | nil => trivial
  | cons target targets ih =>
    cases target with
    | file path =>
      unfold addLinks
      split
      · exact ih m
      · refine Plan.Unchecked.cuts_bind ?_ fun m' => ih m'
        exact (filePlan_unchecked path).bind fun _ => trivial
    | remote url =>
      unfold addLinks
      split
      · exact ih m
      · refine Plan.Cuts.check ?_ fun m' hm' => ?_
        · refine Plan.Unchecked.cuts_bind ?_ fun m' => ih m'
          exact (remotePlan_unchecked url).bind fun _ => trivial
        · have hgrows := (addRemote_grows (a := a) url m).bind fun m' hm' =>
            (addLinks_grows (a := a) targets m').imp fun _ => hm'.trans
          exact hgrows.gives hm'

/-- A batch makes no checks, so it is cut off only as a whole. -/
theorem load_unchecked (hload : a.Interleaves load) (paths : List Path) (m : StyleMap) :
    (load paths m).Unchecked := by
  refine (hload paths m).unchecked fun job hjob => ?_
  obtain ⟨path, _, rfl⟩ := List.mem_map.mp hjob
  exact filePlan_unchecked path

/-- Interrupted batches leave a front of the whole map. -/
theorem addBatches_cuts (hload : a.Interleaves load) (batches : List (List Path)) (m : StyleMap) :
    (addBatches load batches m).Cuts (· <+: ·) := by
  induction batches generalizing m with
  | nil => trivial
  | cons batch more ih =>
    refine Plan.Cuts.check ((load_unchecked hload batch m).cuts_bind ih) fun m' hm' => ?_
    have hgrows := (load_grows hload batch m).bind fun m' hm' =>
      (addBatches_grows hload more m').imp fun _ => hm'.trans
    exact hgrows.gives hm'

/-- An interrupted workspace leaves a front of the whole map. -/
theorem addRoot_cuts (hload : a.Interleaves load) (root : Option Path) (m : StyleMap) :
    (a.addRoot load root m).Cuts (· <+: ·) := by
  unfold addRoot addWorkspace
  split
  · split
    · split
      · trivial
      · exact addBatches_cuts hload _ m
    · trivial
  · trivial

/-- If the links are cut off, so is the workspace: the check between the two fails as well. -/
theorem addSources_cuts (hload : a.Interleaves load) (d : Document) (root : Option Path)
    (m : StyleMap) : (a.addSources load d root m).Cuts (· <+: ·) := by
  refine (addLinks_cuts (linkTargets d root) m).bind (fun m => ?_) fun m m' x y hm hx hy => ?_
  · exact .check (addRoot_cuts hload root m) fun _ h => (addRoot_grows hload root m).gives h
  · obtain rfl : m = x := hx
    exact hm.trans ((addRoot_grows hload root m').gives hy)

/-- A collection that is cancelled has a leading part of the map. -/
theorem collectPlan_cuts (hload : a.Interleaves load) (d : Document) (root : Option Path) :
    (a.collectPlan load d root).Cuts (· <+: ·) := by
  refine d.ownPlan_unchecked.cuts_bind fun own => ?_
  exact .check (addSources_cuts hload d root _) fun _ h => (addSources_grows hload d root _).gives h

/-- The plan for the links does not depend on the interrupt. -/
theorem addLinks_interrupt (settings : Settings) (world : World) (i j : Interrupt)
    (targets : List LinkTarget) (m : StyleMap) :
    addLinks ⟨settings, world, i⟩ targets m = addLinks ⟨settings, world, j⟩ targets m := by
  induction targets generalizing m with
  | nil => rfl
  | cons target targets ih =>
    cases target with
    | file path =>
      simp only [addLinks, ih]
      rfl
    | remote url =>
      simp only [addLinks, ih]
      rfl

/-- The plan of a collection does not depend on its interrupt. -/
theorem collectPlan_interrupt (settings : Settings) (world : World) (i j : Interrupt)
    (load : BatchLoader) (d : Document) (root : Option Path) :
    collectPlan ⟨settings, world, i⟩ load d root =
      collectPlan ⟨settings, world, j⟩ load d root := by
  unfold collectPlan addSources
  simp only [addLinks_interrupt settings world i j]
  rfl

/-- The map of a collection begins with the document itself. -/
theorem own_prefix_of_runs (hload : a.Interleaves load) {d : Document} {root : Option Path}
    {b : Audit} {p : Progress} {r : StyleMap × Progress}
    (h : (a.collectPlan load d root).Runs b p r) :
    ∃ own q, d.ownPlan.Runs b p (own, q) ∧ [(d.key, own)] <+: r.1 := by
  obtain ⟨own, q, hown, hrest⟩ := Plan.runs_bind.mp h
  refine ⟨own, q, hown, ?_⟩
  exact (Plan.All.check (List.prefix_refl _) (addSources_grows hload d root _)).runs hrest

end Audit

/-! ### Validations -/

/-- A validation that is cancelled has no diagnostics: after the last check nothing can cut it
off. -/
theorem Auditor.plan_cuts {v : Auditor} {world : World} {load : Audit.BatchLoader}
    (hload : (v.audit world .never).Interleaves load) (d : Document) (root : Option Path) :
    (v.plan world load d root).Cuts fun found full => found = [] ∨ found = full := by
  cases hcovers : v.covers d root with
  | false =>
    simp only [plan, hcovers, Bool.not_false, if_true]
    trivial
  | true =>
    by_cases hkind : d.kind = .style
    · simp only [plan, hcovers, hkind, Bool.not_true, Bool.false_eq_true, if_false]
      exact d.ownPlan_unchecked.cuts_bind fun own => .check trivial fun _ _ => .inl rfl
    · rw [plan_of_ne_style v world load hcovers hkind]
      refine (Audit.collectPlan_cuts hload d root).bind (fun m => ?_)
        fun _ _ found _ _ hfound _ => ?_
      · exact .check (.check trivial fun _ _ => .inl rfl) fun _ _ => .inl rfl
      · -- after a failed check nothing is reported, whatever was collected
        obtain rfl : [] = found := hfound
        exact .inl rfl

/-! ### The result -/

/-- What an interrupted validation gives, compared with one that is not: nothing or all of it, and
all of it unless it was cancelled. -/
def Auditor.AllOrNothing (found full : List Diagnostic × Progress) : Prop :=
  (found.1 = [] ∨ found.1 = full.1) ∧ (found.2.cancelled = false → found.1 = full.1)

/-- What an interrupted collection gives, compared with one that is not: some of its entries, and
all of them unless it was cancelled. -/
def StyleMap.PartOf (part whole : StyleMap × Progress) : Prop :=
  (∀ key selectors, part.1.lookup key = some selectors → whole.1.lookup key = some selectors) ∧
    (part.2.cancelled = false → ∀ key, part.1.lookup key = whole.1.lookup key)

open Auditor StyleMap in
/-- **Cancellation is all or nothing.** Take any request, any interrupt, and any way to load the
files of a batch side by side. From any cache, there is a run of the same plan that is not
interrupted, and a validation gives nothing or what that one gives. A collection gives the
document's own selectors under its key, and otherwise only entries of the map of that run.

From a cache that is coherent with the sources, where no two files share a key, the interrupted run
may be compared with every other: whatever its cache and the order of its loads, an uninterrupted
validation gives the same, and so does an uninterrupted collection. -/
theorem validate_all_or_nothing (v : Auditor) (world : World) (interrupt : Interrupt) (d : Document)
    (root : Option Path) (cache : SelectorCache) {load : Audit.BatchLoader}
    (hload : (v.audit world .never).Interleaves load) :
    (∀ found, v.Validates world interrupt load d root cache found →
      ∃ full, v.Validates world .never load d root cache full ∧ AllOrNothing found full) ∧
    (∀ part, (v.audit world interrupt).Collects load d root cache part →
      (∃ own p, d.ownPlan.Runs (v.audit world interrupt) ((v.audit world interrupt).start cache)
        (own, p) ∧ part.1.lookup d.key = some own) ∧
      ∃ whole, (v.audit world .never).Collects load d root cache whole ∧ PartOf part whole ∧
        (part.2.cancelled = false → part.1 = whole.1)) ∧
    ((v.audit world .never).KeysTell d root →
      cache.Holds ((v.audit world .never).sourceLedger d root) →
      ∀ load' (cache' : SelectorCache), (v.audit world .never).Interleaves load' →
        cache'.Holds ((v.audit world .never).sourceLedger d root) →
        (∀ found full, v.Validates world interrupt load d root cache found →
          v.Validates world .never load' d root cache' full → AllOrNothing found full) ∧
        ∀ part whole, (v.audit world interrupt).Collects load d root cache part →
          (v.audit world .never).Collects load' d root cache' whole →
          part.1.lookup d.key = some d.selectors ∧ PartOf part whole) := by
  have hvalidate : ∀ found, v.Validates world interrupt load d root cache found →
      ∃ full, v.Validates world .never load d root cache full ∧ AllOrNothing found full := by
    intro found hfound
    obtain ⟨full, hfull, hpart, hsame⟩ := (plan_cuts hload d root).runs (fun _ => .inr rfl)
      (b := v.audit world .never) rfl hfound (q := (v.audit world .never).start cache) rfl rfl
    exact ⟨full, hfull, hpart, hsame⟩
  have hcollect : ∀ part, (v.audit world interrupt).Collects load d root cache part →
      ∃ whole, (v.audit world .never).Collects load d root cache whole ∧ PartOf part whole ∧
        (part.2.cancelled = false → part.1 = whole.1) := by
    intro part hpart
    have hplan : (v.audit world .never).collectPlan load d root =
        (v.audit world interrupt).collectPlan load d root := Audit.collectPlan_interrupt ..
    rw [Audit.Collects, ← hplan] at hpart
    obtain ⟨whole, hwhole, hle, hsame⟩ :=
      (Audit.collectPlan_cuts hload d root).runs List.prefix_refl
      (b := v.audit world .never) rfl hpart (q := (v.audit world .never).start cache) rfl rfl
    refine ⟨whole, hwhole, ⟨fun _ _ => lookup_of_prefix hle, fun hdone key => ?_⟩, hsame⟩
    rw [hsame hdone]
  have hown : ∀ part, (v.audit world interrupt).Collects load d root cache part →
      ∃ own p, d.ownPlan.Runs (v.audit world interrupt) ((v.audit world interrupt).start cache)
        (own, p) ∧ part.1.lookup d.key = some own := by
    intro part hpart
    obtain ⟨own, p, hruns, hfirst⟩ :=
      Audit.own_prefix_of_runs (a := v.audit world interrupt) hload hpart
    exact ⟨own, p, hruns, lookup_of_prefix hfirst (by simp)⟩
  refine ⟨hvalidate, fun part hpart => ⟨hown part hpart, hcollect part hpart⟩, ?_⟩
  intro hkeys hcache load' cache' hload' hcache'
  refine ⟨fun found full hfound hfull => ?_, fun part whole hpart hwhole => ⟨?_, ?_⟩⟩
  · -- the uninterrupted run with the same loader stands between the two
    obtain ⟨same, hsame, hfound⟩ := hvalidate found hfound
    rw [AllOrNothing, hfull.eq_verdict hload' hkeys hcache' (hfull.not_cancelled rfl rfl),
      ← hsame.eq_verdict hload hkeys hcache (hsame.not_cancelled rfl rfl)]
    exact hfound
  · obtain ⟨own, p, hruns, hlookup⟩ := hown part hpart
    have hyields := Document.ownPlan_yields
      (Audit.ownAgrees_sourceLedger (v.audit world .never) d root) interrupt.before
    rw [hlookup]
    exact congrArg some (hyields.runs hcache hruns).2
  · obtain ⟨same, hsame, hpart, _⟩ := hcollect part hpart
    have heq := (hsame.isOf hload hkeys hcache (hsame.not_cancelled rfl rfl)).lookup_eq
      (hwhole.isOf hload' hkeys hcache' (hwhole.not_cancelled rfl rfl))
    exact ⟨fun key selectors hkey => heq key ▸ hpart.1 key selectors hkey,
      fun hdone key => (hpart.2 hdone key).trans (heq key)⟩

namespace CutOff

/-- A page that uses a name of the stylesheet it links to. -/
def page : Document where
  key := "file:///w/page.html"
  version := 1
  text := "<link rel=\"stylesheet\" href=\"near.css\"><p class=\"near\"></p>"
  kind := .markup
  path := some (.ofText "/w/page.html")

def auditor : Auditor := ⟨{}, ⟨[]⟩, none⟩

def world : World :=
  ⟨⟨[(.ofTexts ["w", "near.css"], ⟨.text ".near { }", 1000⟩)], [.ofTexts ["w"]], []⟩, none, 0⟩

/-- Cancels a request right after it has the document's own selectors. -/
def early : Interrupt := ⟨false, fun _ => false, fun n => n = 0⟩

theorem keysTell : (auditor.audit world .never).KeysTell page none := by
  have hasked : (auditor.audit world .never).asked page none = [.file (.ofText "/w/near.css")] := by
    decide +kernel
  refine .of_text fun path hpath => ⟨"/w/near.css", ?_⟩
  rw [hasked, List.mem_singleton] at hpath
  exact LinkTarget.file.inj hpath

end CutOff

open CutOff in
theorem validate_all_or_nothing_early :
    let a := auditor.audit world early
    let b := auditor.audit world .never
    let cache : SelectorCache := ⟨[], 1, 0⟩
    b.KeysTell page none ∧ a.Interleaves a.addFiles ∧
      (a.collect page none (a.start cache)).1 = [(page.key, [])] ∧
      (b.collect page none (b.start cache)).1.has (Path.ofText "/w/near.css").key = true ∧
      Auditor.AllOrNothing (auditor.validate world early page none (a.start cache))
        (auditor.validate world .never page none (b.start cache)) ∧
      StyleMap.PartOf (a.collect page none (a.start cache))
        (b.collect page none (b.start cache)) := by
  intro a b cache
  have hcache : cache.Holds (b.sourceLedger page none) := Cache.holds_of_entries_nil rfl
  obtain ⟨hvalidate, hcollect⟩ := (@validate_all_or_nothing auditor world early page none cache
    a.addFiles a.interleaves_addFiles).2.2 keysTell hcache b.addFiles cache
      b.interleaves_addFiles hcache
  exact ⟨keysTell, a.interleaves_addFiles, by decide +kernel, by decide +kernel,
    hvalidate _ _ (Plan.runs_run ..) (Plan.runs_run ..),
    (hcollect _ _ (Plan.runs_run ..) (Plan.runs_run ..)).2⟩

end StyleAudit
