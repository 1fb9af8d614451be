import StyleAudit.Audit.Validate

/-!
# Names that a style map declares

A report depends on a style map in two ways only: on the names that its sources declare, and on what
it has under the key of the document. In which order the sources came in does not matter.

* **`StyleMap.contains_names`**: the names of a map are those that a selector of one of its sources
  has (**`StyleMap.declares`**).
* **`StyleMap.mem_iff_lookup`**: with distinct keys, the sources of a map are those that are found
  in it.
* **`Auditor.referenceDiagnostics_congr`**: maps in which the same is found have the same report.
-/

namespace StyleAudit

/-! ### Sets of names -/

namespace Names

/-- A name that is inserted is there, and the others stay. -/
theorem contains_insert (names : Names) (kind kind' : NameKind) (name name' : String) :
    (names.insert kind name).contains kind' name' =
      (names.contains kind' name' || (kind == kind' && name == name')) := by
  have hlist : ∀ names : List String,
      (names.insert name).contains name' = (names.contains name' || name == name') := by
    intro names
    rw [Bool.eq_iff_iff, List.contains_iff_mem, List.mem_insert_iff, Bool.or_eq_true,
      List.contains_iff_mem, beq_iff_eq, or_comm, eq_comm]
  cases kind <;> cases kind'
  · exact hlist names.classes
  · exact (Bool.or_false _).symm
  · exact (Bool.or_false _).symm
  · exact hlist names.ids

/-- Names that are added one after another. -/
theorem contains_foldl_insert {α : Type} (kindOf : α → NameKind) (nameOf : α → String)
    (xs : List α) (names : Names) (kind : NameKind) (name : String) :
    (xs.foldl (fun names x => names.insert (kindOf x) (nameOf x)) names).contains kind name =
      (names.contains kind name || xs.any fun x => kindOf x == kind && nameOf x == name) := by
  induction xs generalizing names with
  | nil => simp
  | cons x xs ih => rw [List.foldl_cons, ih, contains_insert, List.any_cons, Bool.or_assoc]

theorem contains_empty (kind : NameKind) (name : String) : empty.contains kind name = false := by
  cases kind <;> rfl

/-- Adding selectors adds their names and no others. -/
theorem contains_addSelectors (names : Names) (selectors : List Selector) (kind : NameKind)
    (name : String) :
    (names.addSelectors selectors).contains kind name =
      (names.contains kind name || selectors.any fun s => s.kind == kind && s.name == name) := by
  unfold addSelectors addTokens
  rw [List.foldl_map, contains_foldl_insert]

end Names

/-- Whether a source of a style map declares a name. -/
def StyleMap.declares (m : StyleMap) (kind : NameKind) (name : String) : Bool :=
  m.any fun (_, selectors) => selectors.any fun s => s.kind == kind && s.name == name

theorem StyleMap.contains_names (m : StyleMap) (kind : NameKind) (name : String) :
    m.names.contains kind name = m.declares kind name := by
  suffices hnames : ∀ names : Names,
      (m.foldl (fun names (_, selectors) => names.addSelectors selectors) names).contains
          kind name =
        (names.contains kind name || m.declares kind name) by
    unfold StyleMap.names
    rw [hnames, Names.contains_empty, Bool.false_or]
  -- the fold starts with any names, so that the induction goes through
  induction m with
  | nil => simp [declares]
  | cons source m ih =>
    intro names
    rw [List.foldl_cons, ih, Names.contains_addSelectors, Bool.or_assoc]
    rfl

/-- What any of the sources declares is declared. -/
theorem StyleMap.declares_of_mem {m : StyleMap} {key : String} {selectors : List Selector}
    (hm : (key, selectors) ∈ m) {s : Selector} (hs : s ∈ selectors) :
    m.declares s.kind s.name = true := by
  refine List.any_eq_true.mpr ⟨_, hm, List.any_eq_true.mpr ⟨s, hs, ?_⟩⟩
  simp

/-! ### Maps in which the same is found -/

/-- With distinct keys, a source is found under its key. -/
theorem StyleMap.mem_iff_lookup {m : StyleMap} (h : (m.map Prod.fst).Nodup) {key : String}
    {selectors : List Selector} : (key, selectors) ∈ m ↔ m.lookup key = some selectors := by
  constructor
  · intro hmem
    obtain ⟨before, after, rfl⟩ := List.append_of_mem hmem
    rw [List.map_append, List.map_cons, List.nodup_append] at h
    refine List.lookup_eq_some_iff.mpr ⟨before, after, rfl, fun source hsource => ?_⟩
    -- a source before it has another key
    have hne := h.2.2 source.1 (List.mem_map_of_mem hsource) key List.mem_cons_self
    exact bne_iff_ne.mpr hne.symm
  · intro hlookup
    obtain ⟨before, after, rfl, _⟩ := List.lookup_eq_some_iff.mp hlookup
    exact List.mem_append_right before List.mem_cons_self

/-- Maps in which the same is found declare the same names. -/
theorem StyleMap.declares_congr {m m' : StyleMap} (hm : (m.map Prod.fst).Nodup)
    (hm' : (m'.map Prod.fst).Nodup) (h : ∀ key, m.lookup key = m'.lookup key) (kind : NameKind)
    (name : String) : m.declares kind name = m'.declares kind name := by
  have hsources : ∀ source, source ∈ m ↔ source ∈ m' := fun (key, selectors) => by
    rw [mem_iff_lookup hm, mem_iff_lookup hm', h key]
  rw [Bool.eq_iff_iff, declares, declares, List.any_eq_true, List.any_eq_true]
  exact exists_congr fun source => and_congr_left fun _ => hsources source

/-- A resolution depends on which names are known only. -/
theorem resolve_congr {known known' : Names}
    (h : ∀ kind name, known.contains kind name = known'.contains kind name)
    (policy : ReportingPolicy) (cs : List Reference) :
    resolve known policy cs = resolve known' policy cs := by
  unfold resolve
  simp only [h]

/-- **The order of sources does not show in a report.** -/
theorem Auditor.referenceDiagnostics_congr (v : Auditor) (d : Document) {m m' : StyleMap}
    (hm : (m.map Prod.fst).Nodup) (hm' : (m'.map Prod.fst).Nodup)
    (h : ∀ key, m.lookup key = m'.lookup key) :
    v.referenceDiagnostics d m = v.referenceDiagnostics d m' := by
  have hnames : ∀ kind name, m.names.contains kind name = m'.names.contains kind name :=
    fun kind name => by
      rw [StyleMap.contains_names, StyleMap.contains_names, StyleMap.declares_congr hm hm' h]
  unfold referenceDiagnostics resolveText
  rw [resolve_congr hnames, h d.key]

end StyleAudit
