import StyleAudit.Path
import Mathlib.Data.List.Induction
import Mathlib.Data.List.TakeDrop

/-!
# The name at the end of a path

A path is read from its start, one part after another, but what a file is called and which extension
it has is decided at its end.

* **`Path.partsFrom_append`**: what follows the last separator of a path is its last part, wherever
  the parts before it stand. Hence an ending of a path that is neither a dot nor a parent is an
  ending of the file name (**`Path.fileName?_of_suffix`**).
* **`Path.extensionOf?_eq_some_iff`** is the rule for extensions, without the scan.
* **`Path.le_trans`** and **`Path.le_total`**: paths are ordered, and what they start with alike
  makes no difference (**`Path.componentsLe_append_left`**).
-/

namespace StyleAudit.Path

/-! ### The last part -/

/-- A spelling without a separator is one part. -/
theorem partsFrom_of_not_mem {n : Nat} {part : Spelling} (hne : part ≠ [])
    (hsep : separator ∉ part) :
    partsFrom n part = [(n, part)] := by
  induction part generalizing n with
  | nil => exact absurd rfl hne
  | cons c part ih =>
    obtain ⟨hc, hpart⟩ := not_or.mp (mt List.mem_cons.mpr hsep)
    rw [partsFrom, if_neg (Ne.symm hc)]
    cases part with
    | nil => rfl
    | cons d part =>
      rw [ih (List.cons_ne_nil d part) hpart]
      exact if_pos rfl

/-- `EndsDirectory dir`: nothing stands after the last separator of `dir`. -/
def EndsDirectory (dir : Spelling) : Prop := dir = [] ∨ dir.getLast? = some separator

/-- Ending a directory is a matter of the last character only. -/
theorem EndsDirectory.of_cons {c : UInt8} {dir : Spelling} (h : EndsDirectory (c :: dir)) :
    EndsDirectory dir := by
  cases dir with
  | nil => exact Or.inl rfl
  | cons d dir =>
    rcases h with h | h
    · exact absurd h (List.cons_ne_nil c _)
    · exact Or.inr (by rwa [List.getLast?_cons_cons] at h)

/-- What follows the last separator is the last part. -/
theorem partsFrom_append {n : Nat} {dir part : Spelling} (hdir : EndsDirectory dir)
    (hne : part ≠ []) (hsep : separator ∉ part) :
    ∃ front, partsFrom n (dir ++ part) = front ++ [(n + dir.length, part)] := by
  induction dir generalizing n with
  | nil => exact ⟨[], partsFrom_of_not_mem hne hsep⟩
  | cons c dir ih =>
    obtain ⟨front, hfront⟩ := @ih (n + 1) hdir.of_cons
    have hplace : n + 1 + dir.length = n + (c :: dir).length := by
      rw [List.length_cons]
      omega
    rw [hplace] at hfront
    rw [List.cons_append, partsFrom, hfront]
    split
    · exact ⟨front, rfl⟩
    · next hc =>
      cases front with
      | nil =>
        -- `c` is no separator, so one stands between it and the part
        have hlong : n + (c :: dir).length ≠ n + 1 := by
          rcases hdir with hnil | hlast
          · exact absurd hnil (List.cons_ne_nil c dir)
          · cases dir with
            | nil => exact absurd (Option.some.inj hlast) hc
            | cons d dir =>
              simp only [List.length_cons]
              omega
        exact ⟨[(n, [c])], if_neg hlong⟩
      | cons first front =>
        obtain ⟨m, found⟩ := first
        rw [List.cons_append]
        show ∃ front', (if m = n + 1 then _ else _) = _
        split
        · exact ⟨(n, c :: found) :: front, rfl⟩
        · exact ⟨(n, [c]) :: (m, found) :: front, rfl⟩

/-- A spelling is a directory and what follows it. -/
theorem exists_lastPart (cs : Spelling) :
    ∃ dir part, cs = dir ++ part ∧ EndsDirectory dir ∧ separator ∉ part := by
  induction cs using List.reverseRecOn with
  | nil => exact ⟨[], [], rfl, Or.inl rfl, List.not_mem_nil⟩
  | append_singleton cs c ih =>
    by_cases hc : c = separator
    · exact ⟨cs ++ [c], [], (List.append_nil _).symm, Or.inr (by simp [hc]), List.not_mem_nil⟩
    · obtain ⟨dir, part, rfl, hdir, hsep⟩ := ih
      refine ⟨dir, part ++ [c], List.append_assoc _ _ _, hdir, ?_⟩
      simp [hsep, Ne.symm hc]

/-- The name of a file is what follows the last separator, unless only dots do. -/
theorem fileName?_of_append {p : Path} {dir part : Spelling} (h : p.raw = dir ++ part)
    (hdir : EndsDirectory dir) (hsep : separator ∉ part) (hname : ∃ c ∈ part, c ≠ dot) :
    p.fileName? = some part := by
  obtain ⟨c, hc, hdot⟩ := hname
  have hhere : part ≠ [dot] := by
    rintro rfl
    exact hdot (List.mem_singleton.mp hc)
  have hparent : part ≠ [dot, dot] := by
    rintro rfl
    simp only [List.mem_cons, List.not_mem_nil, or_false, or_self] at hc
    exact hdot hc
  obtain ⟨front, hfront⟩ := @partsFrom_append 0 dir part hdir (List.ne_nil_of_mem hc) hsep
  -- the part `.` would be left out, but this part is another one
  have hlast : p.parts.getLast? = some (0 + dir.length, part) := by
    rw [parts, h, hfront, List.filter_append]
    simp [hhere]
  rw [fileName?, hlast]
  simp only [Component.ofPart, hhere, hparent, if_false]

/-- An ending of a path that is more than dots is one of the file name. -/
theorem fileName?_of_suffix {p : Path} {ending : Spelling} (h : ending <:+ p.raw)
    (hsep : separator ∉ ending) (hname : ∃ c ∈ ending, c ≠ dot) :
    ∃ name, p.fileName? = some name ∧ ending <:+ name := by
  obtain ⟨front, hraw⟩ := h
  obtain ⟨dir, stem, rfl, hdir, hstem⟩ := exists_lastPart front
  obtain ⟨c, hc, hdot⟩ := hname
  refine ⟨stem ++ ending, ?_, ?_⟩
  · refine fileName?_of_append (by rw [← hraw, List.append_assoc]) hdir ?_ ?_
    · simp [hstem, hsep]
    · exact ⟨c, List.mem_append_right stem hc, hdot⟩
  · exact List.suffix_append stem ending

/-! ### Extensions -/

/-- `DividesAtDot name stem ext`: the last dot of `name` stands between `stem` and `ext`. -/
def DividesAtDot (name stem ext : Spelling) : Prop := name = stem ++ dot :: ext ∧ dot ∉ ext

/-- The last dot divides a name in one way only. -/
theorem DividesAtDot.unique {name stem stem' ext ext' : Spelling} (h : DividesAtDot name stem ext)
    (h' : DividesAtDot name stem' ext') : stem = stem' ∧ ext = ext' := by
  obtain ⟨rfl, hext⟩ := h
  obtain ⟨heq, hext'⟩ := h'
  -- where one division is later, its dot stands in the extension of the other
  rcases List.append_eq_append_iff.mp heq with ⟨more, hstem, hrest⟩ | ⟨more, hstem, hrest⟩
  · cases more with
    | nil => exact ⟨by simpa using hstem.symm, (List.cons.inj hrest).2⟩
    | cons c more => exact absurd (by rw [(List.cons.inj hrest).2]; simp) hext
  · cases more with
    | nil => exact ⟨by simpa using hstem, (List.cons.inj hrest).2.symm⟩
    | cons c more => exact absurd (by rw [(List.cons.inj hrest).2]; simp) hext'

/-- An extension follows the last dot, and something stands before that dot. -/
theorem extensionOf?_eq_some_iff {name ext : Spelling} :
    extensionOf? name = some ext ↔ ∃ stem, stem ≠ [] ∧ DividesAtDot name stem ext := by
  unfold extensionOf?
  rw [List.span_eq_takeWhile_dropWhile]
  constructor
  · intro h
    have hsplit := @List.takeWhile_append_dropWhile _ (fun c => decide (c ≠ dot)) name.reverse
    have hdot : dot ∉ name.reverse.takeWhile (fun c => decide (c ≠ dot)) := fun hmem => by
      simpa using List.all_eq_true.mp (@List.all_takeWhile _ (fun c => decide (c ≠ dot)) _) _ hmem
    -- the name is read from its end, so the first dot met is the last one of the name
    cases hrest : name.reverse.dropWhile (fun c => decide (c ≠ dot)) with
    | nil => rw [hrest] at h; cases h
    | cons c rest =>
      obtain rfl : c = dot := by
        have hhead := List.head?_dropWhile_not (fun c => decide (c ≠ dot)) name.reverse
        rw [hrest] at hhead
        simpa using hhead
      cases rest with
      | nil => rw [hrest] at h; cases h
      | cons d rest =>
        rw [hrest] at h hsplit
        obtain rfl := Option.some.inj h
        refine ⟨(d :: rest).reverse, by simp, ?_, by simpa using hdot⟩
        calc name = name.reverse.reverse := (List.reverse_reverse name).symm
          _ = _ := by
            rw [← congrArg List.reverse hsplit]
            simp only [List.reverse_append, List.reverse_cons, List.append_assoc, List.cons_append,
              List.nil_append]
  · rintro ⟨stem, hstem, rfl, hext⟩
    have hkept : ∀ c ∈ ext.reverse, decide (c ≠ dot) = true := fun c hc => by
      rw [decide_eq_true_eq]
      rintro rfl
      exact hext (List.mem_reverse.mp hc)
    obtain ⟨d, rest, hrest⟩ := List.exists_cons_of_ne_nil (mt List.reverse_eq_nil_iff.mp hstem)
    rw [List.reverse_append, List.reverse_cons, List.append_assoc, List.singleton_append, hrest,
      List.takeWhile_append_of_pos hkept, List.dropWhile_append_of_pos hkept]
    simp

/-! ### Order -/

namespace Component

/-- Components are ordered by rank, and by spelling within one rank. -/
theorem lt_iff {a b : Component} :
    a.lt b = true ↔ a.rank < b.rank ∨ a.rank = b.rank ∧ a.spelling < b.spelling := by
  simp [lt]

theorem lt_trans {a b c : Component} (hab : a.lt b = true) (hbc : b.lt c = true) :
    a.lt c = true := by
  rw [lt_iff] at hab hbc ⊢
  rcases hab with hab | ⟨hab, htab⟩
  · exact Or.inl (by omega)
  · rcases hbc with hbc | ⟨hbc, htbc⟩
    · exact Or.inl (by omega)
    · exact Or.inr ⟨hab.trans hbc, List.lt_trans htab htbc⟩

/-- Rank and spelling tell a component apart from every other. -/
theorem eq_of_rank_eq {a b : Component} (hrank : a.rank = b.rank)
    (hspelling : a.spelling = b.spelling) :
    a = b := by
  cases a <;> cases b <;> simp_all [rank, spelling]

/-- Any two components can be compared. -/
theorem lt_or_eq_or_lt (a b : Component) : a.lt b = true ∨ a = b ∨ b.lt a = true := by
  rw [lt_iff, lt_iff]
  rcases Nat.lt_trichotomy a.rank b.rank with h | h | h
  · exact Or.inl (Or.inl h)
  · by_cases hab : a.spelling < b.spelling
    · exact Or.inl (Or.inr ⟨h, hab⟩)
    · by_cases hba : b.spelling < a.spelling
      · exact Or.inr (Or.inr (Or.inr ⟨h.symm, hba⟩))
      · exact Or.inr (Or.inl (eq_of_rank_eq h (List.le_antisymm hba hab)))
  · exact Or.inr (Or.inr (Or.inl h))

theorem lt_irrefl (a : Component) : a.lt a = false := by
  rw [Bool.eq_false_iff, Ne, lt_iff]
  rintro (h | ⟨_, h⟩)
  · exact Nat.lt_irrefl _ h
  · exact List.lt_irrefl _ h

end Component

/-- Lists of components are ordered like words in a dictionary. -/
theorem componentsLe_cons {a b : Component} {as bs : List Component} :
    componentsLe (a :: as) (b :: bs) = true ↔
      a.lt b = true ∨ a = b ∧ componentsLe as bs = true := by
  simp [componentsLe]

/-- The order of component lists is transitive. -/
theorem componentsLe_trans {as bs cs : List Component} (hab : componentsLe as bs = true)
    (hbc : componentsLe bs cs = true) : componentsLe as cs = true := by
  induction as generalizing bs cs with
  | nil => rfl
  | cons a as ih =>
    cases bs with
    | nil => cases hab
    | cons b bs =>
      cases cs with
      | nil => cases hbc
      | cons c cs =>
        rw [componentsLe_cons] at hab hbc ⊢
        rcases hab with hab | ⟨rfl, hab⟩
        · rcases hbc with hbc | ⟨rfl, _⟩
          · exact Or.inl (Component.lt_trans hab hbc)
          · exact Or.inl hab
        · rcases hbc with hbc | ⟨rfl, hbc⟩
          · exact Or.inl hbc
          · exact Or.inr ⟨rfl, ih hab hbc⟩

/-- Any two component lists can be compared. -/
theorem componentsLe_total (as bs : List Component) :
    componentsLe as bs = true ∨ componentsLe bs as = true := by
  induction as generalizing bs with
  | nil => exact Or.inl rfl
  | cons a as ih =>
    cases bs with
    | nil => exact Or.inr rfl
    | cons b bs =>
      rw [componentsLe_cons, componentsLe_cons]
      rcases Component.lt_or_eq_or_lt a b with h | rfl | h
      · exact Or.inl (Or.inl h)
      · rcases ih bs with h | h
        · exact Or.inl (Or.inr ⟨rfl, h⟩)
        · exact Or.inr (Or.inr ⟨rfl, h⟩)
      · exact Or.inr (Or.inl h)

/-- Components that are the same on both sides decide nothing. -/
theorem componentsLe_append_left (cs as bs : List Component) :
    componentsLe (cs ++ as) (cs ++ bs) = componentsLe as bs := by
  induction cs with
  | nil => rfl
  | cons c cs ih => simp [componentsLe, Component.lt_irrefl, ih]

/-- Component lists that come before each other are equal. -/
theorem componentsLe_antisymm {as bs : List Component} (hab : componentsLe as bs = true)
    (hba : componentsLe bs as = true) : as = bs := by
  induction as generalizing bs with
  | nil =>
    cases bs with
    | nil => rfl
    | cons b bs => cases hba
  | cons a as ih =>
    cases bs with
    | nil => cases hab
    | cons b bs =>
      rw [componentsLe_cons] at hab hba
      -- a component that is less than another one is not beyond it
      have hasymm : ∀ {a b : Component}, a.lt b = true → b.lt a = true → False := by
        intro a b hab hba
        have hself := Component.lt_trans hab hba
        rw [Component.lt_irrefl] at hself
        exact Bool.noConfusion hself
      rcases hab with hab | ⟨rfl, hab⟩
      · rcases hba with hba | ⟨rfl, _⟩
        · exact (hasymm hab hba).elim
        · exact (hasymm hab hab).elim
      · rcases hba with hba | ⟨_, hba⟩
        · exact (hasymm hba hba).elim
        · rw [ih hab hba]

theorem le_trans (p q r : Path) (hpq : p.le q = true) (hqr : q.le r = true) : p.le r = true :=
  componentsLe_trans hpq hqr

theorem le_total (p q : Path) : (p.le q || q.le p) = true :=
  Bool.or_eq_true_iff.mpr (componentsLe_total p.components q.components)

end StyleAudit.Path
