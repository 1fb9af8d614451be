import Mathlib.Data.Bool.Basic
import StyleAudit.Audit.Weave
import StyleAudit.Proofs.CacheEntries

/-!
# Plans that keep to a ledger

A ledger says which selectors may be stored under which key with which freshness. This module says
what a plan comes to, whatever the times of its actions, as long as the cache that it finds keeps to
a ledger. Others may change the cache between two actions, but only within the ledger.

* **`Plan.Yields`** is the weakest precondition of a plan: whatever the answers, it stores only what
  the ledger has, and its result satisfies a condition. An answer of the cache is one of the ledger,
  and a check that is passed says that the request was not cancelled before.
* **`Plan.Yields.bind`** puts plans together, and **`Plan.Yields.runs`** is about their runs.
* **`Weaves.yields`**: plans that are carried out side by side come to what each of them comes to
  alone, and the results are taken in some order.

Time, capacity and time to live do not occur: whether a lookup hits or misses, the condition is the
same.
-/

namespace StyleAudit

/-- What may be stored: key, freshness and selectors. -/
abbrev Ledger := String → Int → List Selector → Prop

/-! ### Plans -/

/-- `action.Ensures L cancelled K`: from a cache that keeps to the ledger, an action keeps to it,
and `K` holds afterwards of whether the request is cancelled, and of the answer. A request may be
cancelled during a call and at a check. -/
def Action.Ensures (L : Ledger) (cancelled : Bool) :
    (action : Action) → (Bool → action.Answer → Prop) → Prop
  | .call _, K => ∀ c, cancelled ≤ c → K c ()
  | .check, K => (cancelled = false → K false false) ∧ K true true
  | .ask key freshness, K => K cancelled none ∧ ∀ hit, L key freshness hit → K cancelled (some hit)
  | .keep key freshness selectors, K => L key freshness selectors ∧ K cancelled ()

/-- A request that is cancelled stays so. -/
theorem Action.Ensures.imp {L : Ledger} {action : Action} {cancelled : Bool}
    {K K' : Bool → action.Answer → Prop} (h : action.Ensures L cancelled K)
    (himp : ∀ c answer, cancelled ≤ c → K c answer → K' c answer) :
    action.Ensures L cancelled K' := by
  cases action with
  | call _ => exact fun c hc => himp c () hc (h c hc)
  | check =>
    exact ⟨fun hnot => himp _ _ (hnot ▸ Bool.le_refl _) (h.1 hnot), himp _ _ (Bool.le_true _) h.2⟩
  | ask key freshness =>
    exact ⟨himp _ _ (Bool.le_refl _) h.1, fun hit hhit => himp _ _ (Bool.le_refl _) (h.2 hit hhit)⟩
  | keep key freshness selectors => exact ⟨h.1, himp _ _ (Bool.le_refl _) h.2⟩

/-- What is ensured of an action holds when it is carried out, at any time. -/
theorem Action.Ensures.perform {L : Ledger} {action : Action} {p : Progress}
    {K : Bool → action.Answer → Prop} (h : action.Ensures L p.cancelled K) (hp : p.cache.Holds L)
    (a : Audit) (first second : Nat) :
    (a.perform first second action p).2.cache.Holds L ∧
      K (a.perform first second action p).2.cancelled (a.perform first second action p).1 := by
  cases action with
  | call c =>
    refine ⟨hp, h _ ?_⟩
    exact Bool.left_le_or _ _
  | check =>
    refine ⟨hp, ?_⟩
    -- a request that passes was not cancelled before
    rw [Audit.perform, a.check_cancelled]
    cases hcheck : (a.check p).1 with
    | false => exact h.1 (Audit.not_cancelled_of_check hcheck)
    | true => exact h.2
  | ask key freshness =>
    refine ⟨hp.getFresh first key freshness, ?_⟩
    -- a hit is in the ledger, since the cache keeps to it
    show K p.cancelled (p.cache.getFresh first key freshness).1
    cases hhit : (p.cache.getFresh first key freshness).1 with
    | none => exact h.1
    | some hit => exact h.2 hit (Cache.getFresh_hit hp hhit)
  | keep key freshness selectors => exact ⟨hp.set first second h.1, h.2⟩

namespace Plan

variable {α β : Type} {L : Ledger} {Q : Bool → α → Prop} {R : Bool → β → Prop} {cancelled : Bool}

/-- `t.Yields L Q cancelled`: from caches that keep to the ledger, the plan keeps to it, and `Q`
holds in the end of whether the request is cancelled, and of the result. -/
def Yields (L : Ledger) (Q : Bool → α → Prop) : Plan α → (cancelled : Bool) → Prop
  | .done x, cancelled => Q cancelled x
  | .act action next, cancelled =>
    action.Ensures L cancelled fun cancelled answer => (next answer).Yields L Q cancelled

theorem yields_pure {x : α} : (pure x : Plan α).Yields L Q cancelled ↔ Q cancelled x := Iff.rfl

/-- A request may be cancelled during a call. -/
theorem yields_call {c : Call} {rest : Unit → Plan α} :
    (call c >>= rest).Yields L Q cancelled ↔
      ∀ later, cancelled ≤ later → (rest ()).Yields L Q later := Iff.rfl

/-- A check passes only if the request was not cancelled before. -/
theorem yields_check {rest : Bool → Plan α} : (check >>= rest).Yields L Q cancelled ↔
    (cancelled = false → (rest false).Yields L Q false) ∧ (rest true).Yields L Q true := Iff.rfl

/-- The cache may answer with what the ledger has, and it may always answer with nothing. -/
theorem yields_ask {key : String} {freshness : Int} {rest : Option (List Selector) → Plan α} :
    (ask key freshness >>= rest).Yields L Q cancelled ↔ (rest none).Yields L Q cancelled ∧
      ∀ hit, L key freshness hit → (rest (some hit)).Yields L Q cancelled := Iff.rfl

/-- Only what the ledger has may be stored. -/
theorem yields_keep {key : String} {freshness : Int} {selectors : List Selector}
    {rest : Unit → Plan α} : (keep key freshness selectors >>= rest).Yields L Q cancelled ↔
      L key freshness selectors ∧ (rest ()).Yields L Q cancelled := Iff.rfl

namespace Yields

variable {t : Plan α}

/-- A weaker condition may be asked for, given how far the request was cancelled already. -/
theorem imp {Q' : Bool → α → Prop} (h : t.Yields L Q cancelled)
    (himp : ∀ c x, cancelled ≤ c → Q c x → Q' c x) : t.Yields L Q' cancelled := by
  induction t generalizing cancelled with
  | done x => exact himp cancelled x (Bool.le_refl _) h
  | act action next ih =>
    exact Action.Ensures.imp h fun c answer hc hnext =>
      ih answer hnext fun c' x hc' => himp c' x (Bool.le_trans hc hc')

theorem bind {rest : α → Plan β} (h : t.Yields L Q cancelled)
    (hrest : ∀ c x, Q c x → (rest x).Yields L R c) : (t >>= rest).Yields L R cancelled := by
  show (t.andThen rest).Yields L R cancelled
  induction t generalizing cancelled with
  | done x => exact hrest cancelled x h
  | act action next ih => exact Action.Ensures.imp h fun c answer _ hnext => ih answer hnext

/-- A condition that does not mind a cancellation holds also if the request was cancelled before. -/
theorem mono (hQ : ∀ x, Q false x → Q true x) {later : Bool} (h : t.Yields L Q cancelled)
    (hlater : cancelled ≤ later) : t.Yields L Q later := by
  induction t generalizing cancelled later with
  | done x =>
    -- a request that is cancelled stays cancelled
    cases cancelled <;> cases later
    · exact h
    · exact hQ x h
    · exact absurd hlater (by decide)
    · exact h
  | act action next ih =>
    cases action with
    | call c => exact fun c' hc' => h c' (Bool.le_trans hlater hc')
    | check =>
      refine ⟨fun hnot => h.1 ?_, h.2⟩
      exact Bool.eq_false_of_le_false (hnot ▸ hlater)
    | ask key freshness =>
      exact ⟨ih _ h.1 hlater, fun hit hhit => ih _ (h.2 hit hhit) hlater⟩
    | keep key freshness selectors => exact ⟨h.1, ih _ h.2 hlater⟩

/-- A plan that yields `Q` over a ledger keeps the cache in it and ends with `Q`. -/
theorem runs {a : Audit} {p : Progress} {r : α × Progress} (h : t.Yields L Q p.cancelled)
    (hp : p.cache.Holds L) (hruns : t.Runs a p r) : r.2.cache.Holds L ∧ Q r.2.cancelled r.1 := by
  induction hruns with
  | done x p => exact ⟨hp, h⟩
  | act first second _ ih =>
    obtain ⟨hcache, hnext⟩ := Action.Ensures.perform h hp a first second
    exact ih hnext hcache

end Yields

/-- Without an interrupt nothing is cancelled. -/
theorem Runs.not_cancelled {a : Audit} {t : Plan α} {p : Progress} {r : α × Progress}
    (h : t.Runs a p r) (ha : a.interrupt = .never) (hp : p.cancelled = false) :
    r.2.cancelled = false := by
  induction h with
  | done x p => exact hp
  | @act action next p r first second _ ih =>
    -- no action of such a run cancels it
    refine ih ?_
    cases action with
    | call c =>
      show (p.cancelled || a.interrupt.atCall c) = false
      rw [hp, ha]
      rfl
    | check =>
      show (p.cancelled || a.interrupt.atCheck p.checks) = false
      rw [hp, ha]
      rfl
    | ask key freshness => exact hp
    | keep key freshness selectors => exact hp

/-- A run of a plan is one of its first part and one of the rest. -/
theorem runs_bind {a : Audit} {t : Plan α} {rest : α → Plan β} {p : Progress} {r : β × Progress} :
    (t >>= rest).Runs a p r ↔
      ∃ x q, t.Runs a p (x, q) ∧ (rest x).Runs a q r := by
  -- by induction on the first plan: its actions come first
  show (t.andThen rest).Runs a p r ↔ _
  induction t generalizing p with
  | done x =>
    constructor
    · exact fun h => ⟨x, p, .done x p, h⟩
    · rintro ⟨_, _, hfirst, hrest⟩
      cases hfirst
      exact hrest
  | act action next ih =>
    constructor
    · intro h
      cases h with
      | act first second hnext =>
        obtain ⟨x, q, hfirst, hrest⟩ := (ih _).mp hnext
        exact ⟨x, q, .act first second hfirst, hrest⟩
    · rintro ⟨x, q, hfirst, hrest⟩
      cases hfirst with
      | act first second hnext => exact .act first second ((ih _).mpr ⟨x, q, hnext, hrest⟩)

end Plan

/-! ### Plans side by side -/

section

variable {ν β γ : Type} {places : Nat} {take : γ → ν → β → γ} {R : ν → Bool → β → Prop} {L : Ledger}

/-- `IsTaken take jobs acc R cancelled x`: `x` comes from `acc` by taking one result of each job, in
some order, and each of them satisfies `R`. -/
def IsTaken (take : γ → ν → β → γ) (names : List ν) (acc : γ) (R : ν → Bool → β → Prop)
    (cancelled : Bool) (x : γ) : Prop :=
  ∃ taken : List (ν × β), (taken.map Prod.fst).Perm names ∧ (∀ e ∈ taken, R e.1 cancelled e.2) ∧
    x = taken.foldl (fun acc e => take acc e.1 e.2) acc

/-- Plans side by side do not get into each other's way: each stores only what the ledger has, and
so finds what it would find alone. -/
theorem Weaves.yields (hR : ∀ name x, R name false x → R name true x)
    {jobs : List (Job ν β)} {acc : γ}
    {t : Plan γ} (h : Weaves places take jobs acc t) {cancelled : Bool}
    (hjobs : ∀ job ∈ jobs, job.plan.Yields L (R job.name) cancelled) :
    t.Yields L (IsTaken take (jobs.map Job.name) acc R) cancelled := by
  induction h generalizing cancelled with
  | done acc => exact ⟨[], .nil, by simp, rfl⟩
  | start before after name plan _ _ ih =>
    rw [List.map_append, List.map_cons] at ih ⊢
    refine ih ?_
    rw [List.forall_mem_append, List.forall_mem_cons] at hjobs ⊢
    exact hjobs
  | step before after name action next t _ ih =>
    rw [List.forall_mem_append, List.forall_mem_cons] at hjobs
    obtain ⟨hbefore, hjob, hafter⟩ := hjobs
    refine Action.Ensures.imp hjob fun c answer hc hnext => ?_
    have hlater := @ih answer c
    rw [List.map_append, List.map_cons, List.forall_mem_append, List.forall_mem_cons] at hlater
    rw [List.map_append, List.map_cons]
    -- the others have not moved, but the request may have been cancelled
    exact hlater ⟨fun job hmem => (hbefore job hmem).mono (hR job.name) hc, hnext,
      fun job hmem => (hafter job hmem).mono (hR job.name) hc⟩
  | join before after name result _ ih =>
    rw [List.forall_mem_append, List.forall_mem_cons] at hjobs
    obtain ⟨hbefore, hresult, hafter⟩ := hjobs
    have hrest := @ih cancelled (List.forall_mem_append.mpr ⟨hbefore, hafter⟩)
    refine hrest.imp ?_
    rintro c _ hc ⟨taken, hperm, htaken, rfl⟩
    -- this result is taken before those of the other jobs
    refine ⟨(name, result) :: taken, ?_, ?_, rfl⟩
    · rw [List.map_append] at hperm
      rw [List.map_append, List.map_cons, List.map_cons]
      exact (hperm.cons name).trans List.perm_middle.symm
    · intro e he
      rcases List.mem_cons.mp he with rfl | he
      · -- what held of it when it was taken holds also if the request was cancelled since
        cases cancelled <;> cases c
        · exact hresult
        · exact hR name result hresult
        · exact absurd hc (by decide)
        · exact hresult
      · exact htaken e he

end

end StyleAudit
