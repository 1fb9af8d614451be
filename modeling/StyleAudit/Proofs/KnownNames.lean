import Mathlib.Data.List.Nodup
import StyleAudit.Proofs.ClearedReports

/-!
# More known names

Whoever declares one more name gets no new warning and loses no use of another name. Which
references count does not depend on what is known: a reference takes its place whether its name is
known or not. So the warnings of a text are those of its references that count, less the known ones,
in order, and its used names are the known ones among the names of these references.

* **`nodup_firstAtPlace`**: no two references that count have the same place and kind. The scan
  keeps the places that it has seen, and never counts a reference at one of them.
* **`undefinedName?_of_mem_diagnostics`**: each warning names something that is not known.
* **`diagnostics_resolve_of_subset`**: with more known names, just the warnings about these go.
* **`used_resolve`**: the policy decides about warnings only.
-/

namespace StyleAudit

/-! ### Places of warnings -/

/-- The place of a reference, as the scan keeps it. -/
def Reference.place (c : Reference) : Nat × NameKind := (c.offset, c.kind)

/-- The places of the references that count differ from each other and from those seen before. -/
theorem nodup_firstAtPlace (seen : List (Nat × NameKind)) (cs : List Reference) :
    ((firstAtPlace seen cs).map Reference.place).Nodup ∧
      ∀ c ∈ firstAtPlace seen cs, c.place ∉ seen := by
  induction cs generalizing seen with
  | nil => exact ⟨List.nodup_nil, fun c hc => absurd hc List.not_mem_nil⟩
  | cons c cs ih =>
    unfold firstAtPlace
    split
    · exact ih seen
    · next hnew =>
      obtain ⟨hnodup, hseen⟩ := ih ((c.offset, c.kind) :: seen)
      -- the place of `c` has been seen by all that come later
      refine ⟨List.nodup_cons.mpr ⟨fun hmem => ?_, hnodup⟩, fun e he => ?_⟩
      · obtain ⟨e, he, hplace⟩ := List.mem_map.mp hmem
        exact hseen e he (hplace ▸ List.mem_cons_self)
      · rcases List.mem_cons.mp he with rfl | he
        · exact hnew
        · exact fun hmem => hseen e he (List.mem_cons_of_mem _ hmem)

/-- The kind of a warning tells the kind of the name. -/
theorem NameKind.undefined?_undefinedKind (kind : NameKind) :
    kind.undefinedKind.undefined? = some kind := by
  cases kind <;> rfl

/-- No two warnings have the same place and kind. -/
theorem nodup_diagnostics (known : Names) (policy : ReportingPolicy) (cs : List Reference) :
    ((resolve known policy cs).diagnostics.map fun d => (d.offset, d.kind)).Nodup := by
  have hfirst : ((firstReferences cs).map Reference.place).Nodup := by
    rw [← firstAtPlace_eq]
    exact (nodup_firstAtPlace [] cs).1
  have hkept := hfirst.sublist (List.Sublist.map Reference.place
    (List.filter_sublist (p := fun c => !known.contains c.kind c.name && policy.reports c)))
  -- a place is told from the kind of its diagnostic
  have hplace : Function.Injective fun place : Nat × NameKind =>
      (place.1, place.2.undefinedKind) := by
    rintro ⟨offset, kind⟩ ⟨offset', kind'⟩ h
    obtain ⟨hoffset, hkind⟩ := Prod.mk.inj h
    have hsame := congrArg DiagnosticKind.undefined? hkind
    rw [kind.undefined?_undefinedKind, kind'.undefined?_undefinedKind] at hsame
    exact Prod.ext hoffset (Option.some.inj hsame)
  have hwarnings := hkept.map hplace
  rw [List.map_map] at hwarnings
  rw [diagnostics_resolve, List.map_map]
  exact hwarnings

/-! ### Warnings and uses -/

/-- Each warning names something, which is not known. -/
theorem undefinedName?_of_mem_diagnostics {known : Names} {policy : ReportingPolicy}
    {cs : List Reference} {d : Diagnostic} (h : d ∈ (resolve known policy cs).diagnostics) :
    ∃ kind name, d.undefinedName? = some (kind, name) ∧ known.contains kind name = false := by
  rw [diagnostics_resolve] at h
  obtain ⟨c, hc, rfl⟩ := List.mem_map.mp h
  have hunknown := (Bool.and_eq_true_iff.mp (List.mem_filter.mp hc).2).1
  exact ⟨c.kind, c.name, c.undefinedName?_undefinedWarning, by simpa using hunknown⟩

/-- Whether what a warning names is one of the names. -/
def Names.includes (names : Names) (d : Diagnostic) : Bool :=
  d.undefinedName?.any fun (kind, name) => names.contains kind name

/-- Each of the names is one of the others. -/
def Names.Subset (known more : Names) : Prop :=
  known.classes ⊆ more.classes ∧ known.ids ⊆ more.ids

theorem Names.Subset.contains {known more : Names} (h : known.Subset more) {kind : NameKind}
    {name : String} (hknown : known.contains kind name = true) :
    more.contains kind name = true := by
  cases kind with
  | className => exact List.contains_iff_mem.mpr (h.1 (List.contains_iff_mem.mp hknown))
  | idName => exact List.contains_iff_mem.mpr (h.2 (List.contains_iff_mem.mp hknown))

/-- With more known names, the warnings about these go, and no others. -/
theorem diagnostics_resolve_of_subset {known more : Names} (h : known.Subset more)
    (policy : ReportingPolicy) (cs : List Reference) :
    (resolve more policy cs).diagnostics =
      (resolve known policy cs).diagnostics.filter fun d => !more.includes d := by
  rw [diagnostics_resolve, diagnostics_resolve, List.filter_map, List.filter_filter]
  refine congrArg _ (List.filter_congr fun c _ => ?_)
  have hnames : more.includes c.undefinedWarning = more.contains c.kind c.name := by
    rw [Names.includes, c.undefinedName?_undefinedWarning]
    rfl
  show _ = (!more.includes c.undefinedWarning && _)
  rw [hnames]
  -- what is not known with more names is not known without them
  cases hmore : more.contains c.kind c.name with
  | true => rfl
  | false =>
    have hknown : known.contains c.kind c.name = false := by
      rw [← Bool.not_eq_true]
      intro hknown
      rw [h.contains hknown] at hmore
      exact absurd hmore (by decide)
    rw [hknown, Bool.not_false, Bool.true_and, Bool.true_and]

/-- The names that are used are those of known references that count, whatever the policy. -/
theorem used_resolve (known : Names) (policy : ReportingPolicy) (cs : List Reference) :
    (resolve known policy cs).used =
      ((firstReferences cs).filter fun c => known.contains c.kind c.name).foldl
        (fun names c => names.insert c.kind c.name) Names.empty := by
  unfold resolve
  rw [List.partition_eq_filter_filter, firstAtPlace_eq]

/-- Of more known names, those are used that are used with fewer, and new ones. -/
theorem contains_used_iff_of_subset {known more : Names} (h : known.Subset more)
    (policy policy' : ReportingPolicy) (cs : List Reference) (kind : NameKind) (name : String) :
    (resolve known policy cs).used.contains kind name = true ↔
      (resolve more policy' cs).used.contains kind name = true ∧
        known.contains kind name = true := by
  rw [contains_used, contains_used, Bool.and_eq_true, Bool.and_eq_true]
  constructor
  · rintro ⟨hknown, hreferred⟩
    exact ⟨⟨h.contains hknown, hreferred⟩, hknown⟩
  · rintro ⟨⟨_, hreferred⟩, hknown⟩
    exact ⟨hknown, hreferred⟩

/-! ### The result -/

/-- **Resolution and known names.** Let all of `known` be among `more`. With `more`, a text has some
of the warnings that it has with `known`, in the same order. The classes used with `known` are those
used with `more` that are in `known`, and so are the ids, whatever the policies. The used names do
not depend on the policy at all. No two warnings of a text have the same place and kind, and each
names something that is not known. -/
theorem resolution_monotone (text : List Char) (known more : Names)
    (policy policy' : ReportingPolicy) (h : known.Subset more) :
    let before := resolveText text known policy
    let after := resolveText text more policy
    let other := resolveText text more policy'
    after.diagnostics.Sublist before.diagnostics ∧
    (∀ name, name ∈ before.used.classes ↔ name ∈ other.used.classes ∧ name ∈ known.classes) ∧
    (∀ name, name ∈ before.used.ids ↔ name ∈ other.used.ids ∧ name ∈ known.ids) ∧
    (resolveText text known policy').used = before.used ∧
    (before.diagnostics.map fun d => (d.offset, d.kind)).Nodup ∧
    ∀ d ∈ before.diagnostics, ∃ kind name,
      d.undefinedName? = some (kind, name) ∧ known.contains kind name = false := by
  intro before after other
  have hused := contains_used_iff_of_subset h policy policy' (references (.ofText text))
  refine ⟨?_, fun name => ?_, fun name => ?_, ?_, nodup_diagnostics .., fun d hd => ?_⟩
  · show (resolve more policy _).diagnostics.Sublist _
    rw [diagnostics_resolve_of_subset h]
    exact List.filter_sublist
  · have hclass := hused .className name
    simp only [Names.contains, List.contains_iff_mem] at hclass
    exact hclass
  · have hid := hused .idName name
    simp only [Names.contains, List.contains_iff_mem] at hid
    exact hid
  · show (resolve known policy' _).used = (resolve known policy _).used
    rw [used_resolve, used_resolve]
  · exact undefinedName?_of_mem_diagnostics hd

/-- Two names more: the warnings about them go, `b` is still reported at both of its places, and `a`
is still used. -/
theorem resolution_monotone_two_names :
    let text := "<p class='a b c b'>e.querySelector('#d > .c')".toList
    let known : Names := ⟨["a"], []⟩
    let more : Names := ⟨["c", "a"], ["d"]⟩
    known.Subset more ∧
      (resolveText text known {}).diagnostics.map (fun d => (d.offset, d.len)) =
        [(12, 1), (14, 1), (16, 1), (37, 1), (42, 1)] ∧
      (resolveText text more {}).diagnostics.map (fun d => (d.offset, d.len)) = [(12, 1), (16, 1)] ∧
      (resolveText text more {}).diagnostics.Sublist (resolveText text known {}).diagnostics ∧
      "a" ∈ (resolveText text more { reportUndefined := false }).used.classes := by
  intro text known more
  have hsubset : known.Subset more := by
    refine ⟨fun name hname => ?_, List.nil_subset _⟩
    rw [List.mem_singleton.mp hname]
    decide
  have hused : "a" ∈ (resolveText text known {}).used.classes := by decide +kernel
  obtain ⟨hwarnings, hclasses, _⟩ :=
    resolution_monotone text known more {} { reportUndefined := false } hsubset
  exact ⟨hsubset, by decide +kernel, by decide +kernel, hwarnings, ((hclasses "a").mp hused).1⟩

end StyleAudit
