import StyleAudit.Audit.StyleMap

/-!
# Requests side by side

Several plans may be carried out at the same time: the files of a batch are, and so are the
validations of several documents. Their actions come in any order, and all of them use one cache.
Results are taken one by one, also in any order, as soon as they are there. Only a limited number of
plans runs at the same time; the others wait.

`Weaves` says which plans are made of others in this way. `Audit.Interleaves` says it of the files
of a batch; `Audit.addFiles`, which loads them one after another, is one such way.
-/

namespace StyleAudit

/-- A plan that is carried out side by side with others. -/
structure Job (ν β : Type) where
  name : ν
  started : Bool
  plan : Plan β

/-- A plan that waits for a place. -/
def Job.waiting {ν β : Type} (name : ν) (plan : Plan β) : Job ν β := ⟨name, false, plan⟩

/-- Whether a plan holds one of the places for running plans. -/
def Job.isRunning {ν β : Type} (job : Job ν β) : Bool := job.started && !job.plan.isDone

/-- `Weaves places take jobs acc t`: the plan `t` carries out the jobs side by side, not more than
`places` at a time. Their results are taken one by one, starting with `acc`. -/
inductive Weaves {ν β γ : Type} (places : Nat) (take : γ → ν → β → γ) :
    List (Job ν β) → γ → Plan γ → Prop
  /-- All results were taken. -/
  | done (acc : γ) : Weaves places take [] acc (.done acc)
  /-- A job that waits gets a place. -/
  | start (before after : List (Job ν β)) (name : ν) (plan : Plan β) {acc : γ} {t : Plan γ}
      (hplace : (before ++ after).countP Job.isRunning < places)
      (h : Weaves places take (before ++ ⟨name, true, plan⟩ :: after) acc t) :
      Weaves places take (before ++ ⟨name, false, plan⟩ :: after) acc t
  /-- A job takes its next action. What happens next may depend on the answer. -/
  | step (before after : List (Job ν β)) (name : ν) (action : Action)
      (next : action.Answer → Plan β) {acc : γ} (t : action.Answer → Plan γ)
      (h : ∀ answer, Weaves places take (before ++ ⟨name, true, next answer⟩ :: after)
        acc (t answer)) :
      Weaves places take (before ++ ⟨name, true, .act action next⟩ :: after) acc (.act action t)
  /-- A result that is there is taken. -/
  | join (before after : List (Job ν β)) (name : ν) (result : β) {acc : γ} {t : Plan γ}
      (h : Weaves places take (before ++ after) (take acc name result) t) :
      Weaves places take (before ++ ⟨name, true, .done result⟩ :: after) acc t

namespace Audit

/-- How many files may be loaded at the same time. -/
def places (a : Audit) : Nat := max a.settings.maxConcurrency 1

def loads (a : Audit) (paths : List Path) : List (Job Path (Except Error (List Selector))) :=
  paths.map fun path => .waiting path (a.filePlan path)

/-- `a.Interleaves load`: the files of each batch are loaded side by side in some way. -/
def Interleaves (a : Audit) (load : BatchLoader) : Prop :=
  ∀ paths m, Weaves a.places (fun m path result => StyleMap.take m path.key result)
    (a.loads paths) m
    (load paths m)

end Audit

/-! ### One after another -/

section

variable {ν β γ : Type} {places : Nat} {take : γ → ν → β → γ} {acc : γ} {rest : List (Job ν β)}

/-- A job runs up to its result, while the others wait. -/
theorem Weaves.head (name : ν) (plan : Plan β) {next : β → Plan γ}
    (h : ∀ x, Weaves places take rest (take acc name x) (next x)) :
    Weaves places take (⟨name, true, plan⟩ :: rest) acc (plan >>= next) := by
  induction plan with
  | done x => exact .join [] rest name x (h x)
  | act action more ih => exact .step [] rest name action more _ ih

/-- The first of the jobs that wait is carried out. -/
theorem Weaves.first (hplaces : 0 < places) (hrest : ∀ job ∈ rest, job.started = false) (name : ν)
    (plan : Plan β) {next : β → Plan γ}
    (h : ∀ x, Weaves places take rest (take acc name x) (next x)) :
    Weaves places take (.waiting name plan :: rest) acc (plan >>= next) := by
  refine .start [] rest name plan ?_ (.head name plan h)
  have hidle : rest.countP Job.isRunning = 0 := by
    rw [List.countP_eq_zero]
    intro job hjob
    simp [Job.isRunning, hrest job hjob]
  rw [List.nil_append, hidle]
  exact hplaces

end

/-- Loading files one after another is a way to load a batch. -/
theorem Audit.interleaves_addFiles (a : Audit) : a.Interleaves a.addFiles := by
  intro paths m
  induction paths generalizing m with
  | nil => exact .done m
  | cons path paths ih =>
    have hplaces : 0 < a.places := Nat.lt_of_lt_of_le Nat.zero_lt_one (Nat.le_max_right _ _)
    have hwait : ∀ job ∈ a.loads paths, job.started = false := by
      intro job hjob
      obtain ⟨path', _, rfl⟩ := List.mem_map.mp hjob
      rfl
    exact Weaves.first hplaces hwait path (a.filePlan path) fun result => ih _

end StyleAudit
