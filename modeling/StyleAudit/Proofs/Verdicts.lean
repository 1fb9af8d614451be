import StyleAudit.Proofs.Cancellation

/-!
# What a validation reports

The diagnostics of markup and script, said without sets of names and without the order in which
references are resolved. A reference counts if none before it has the same place and kind
(`firstReferences`). A source declares a name if one of its selectors has it (`StyleMap.declares`).

* **`firstAtPlace_eq`** and **`StyleMap.contains_names`** are the two notions, for the definitions
  that run.
* **`contains_used`**: the used names of a resolution are those of references that are known.
* **`Auditor.referenceDiagnostics_eq`** puts these together. The document itself comes first in its
  style map, so its own selectors are the ones found under its key, and each of their names is
  known.
* **`Auditor.validate_eq_finish`**: a validation that is not cancelled reports the diagnostics of
  the map that it collects.
* **`NameKind.undefinedMessage`**, **`NameKind.unusedMessage`**: a message tells the kind and the
  name that it is about.
-/

namespace StyleAudit

/-! ### References that count -/

/-- Whether two references have the same place and kind. -/
def Reference.sharesPlace (c e : Reference) : Bool := (e.offset, e.kind) == (c.offset, c.kind)

/-- The references of which none before has the same place and kind. -/
def firstReferences (cs : List Reference) : List Reference :=
  (cs.zipIdx.filter fun (c, i) => !(cs.take i).any c.sharesPlace).map Prod.fst

/-- The references that are kept with `seen` places before them. -/
theorem firstAtPlace_eq_filter (seen : List (Nat × NameKind)) (cs : List Reference) :
    firstAtPlace seen cs = (cs.zipIdx.filter fun (c, i) =>
      decide ((c.offset, c.kind) ∉ seen) && !(cs.take i).any c.sharesPlace).map Prod.fst := by
  induction cs generalizing seen with
  | nil => rfl
  | cons c cs ih =>
    -- the references after `c`, with one more before each
    have hrest : (c :: cs).zipIdx = (c, 0) :: cs.zipIdx.map (fun (e, i) => (e, i + 1)) := by
      rw [List.zipIdx_cons, List.zipIdx_succ]
    have hnext : ∀ (e : Reference) (i : Nat), ((c :: cs).take (i + 1)).any e.sharesPlace =
        (e.sharesPlace c || (cs.take i).any e.sharesPlace) := fun e i => rfl
    rw [hrest, List.filter_cons, List.filter_map]
    unfold firstAtPlace
    split
    · next hseen =>
      -- a reference that shares its place with `c` is dropped for an earlier one already
      rw [ih, if_neg (by simp [hseen]), List.map_map]
      congr 1
      apply List.filter_congr
      rintro ⟨e, i⟩ _
      show _ = (_ && !((c :: cs).take (i + 1)).any e.sharesPlace)
      rw [hnext]
      by_cases he : (c.offset, c.kind) = (e.offset, e.kind)
      · simp [Reference.sharesPlace, ← he, hseen]
      · have hother : e.sharesPlace c = false := beq_false_of_ne he
        simp [hother]
    · next hseen =>
      rw [ih, if_pos (by simp [hseen]), List.map_cons, List.map_map]
      congr 2
      apply List.filter_congr
      rintro ⟨e, i⟩ _
      show _ = (_ && !((c :: cs).take (i + 1)).any e.sharesPlace)
      rw [hnext]
      by_cases he : (c.offset, c.kind) = (e.offset, e.kind)
      · simp [Reference.sharesPlace, ← he]
      · have hother : e.sharesPlace c = false := beq_false_of_ne he
        simp [hother, Ne.symm he]

/-- Going through the references with the places seen keeps the first reference of each place. -/
theorem firstAtPlace_eq (cs : List Reference) : firstAtPlace [] cs = firstReferences cs := by
  rw [firstAtPlace_eq_filter]
  simp [firstReferences]

theorem mem_of_mem_firstReferences {cs : List Reference} {c : Reference}
    (h : c ∈ firstReferences cs) : c ∈ cs := by
  obtain ⟨⟨c', i⟩, hmem, rfl⟩ := List.mem_map.mp h
  exact List.fst_mem_of_mem_zipIdx (List.mem_filter.mp hmem).1

/-! ### Reports of a style map -/

/-- The warnings of a resolution are about references that are not known. -/
theorem diagnostics_resolve (known : Names) (policy : ReportingPolicy) (cs : List Reference) :
    (resolve known policy cs).diagnostics =
      ((firstReferences cs).filter fun c =>
        !known.contains c.kind c.name && policy.reports c).map Reference.undefinedWarning := by
  unfold resolve
  rw [List.partition_eq_filter_filter, firstAtPlace_eq]
  show (List.filter _ (List.filter _ _)).map _ = _
  rw [List.filter_filter]
  refine congrArg _ (List.filter_congr ?_)
  intro c _
  exact Bool.and_comm _ _

/-- The used names of a resolution are those of the references that are known. -/
theorem contains_used (known : Names) (policy : ReportingPolicy) (cs : List Reference)
    (kind : NameKind) (name : String) :
    (resolve known policy cs).used.contains kind name =
      (known.contains kind name &&
        (firstReferences cs).any fun c => c.kind == kind && c.name == name) := by
  unfold resolve
  rw [List.partition_eq_filter_filter, firstAtPlace_eq]
  show (List.foldl _ Names.empty _).contains kind name = _
  rw [Names.contains_foldl_insert Reference.kind Reference.name, Names.contains_empty,
    Bool.false_or, List.any_filter]
  rw [Bool.eq_iff_iff, Bool.and_eq_true, List.any_eq_true, List.any_eq_true]
  -- a reference of this kind and name is known if and only if the name is
  constructor
  · rintro ⟨c, hc, hboth⟩
    obtain ⟨hknown, hsame⟩ := Bool.and_eq_true_iff.mp hboth
    obtain ⟨hkind, hname⟩ : c.kind = kind ∧ c.name = name := by simpa using hsame
    rw [hkind, hname] at hknown
    exact ⟨hknown, c, hc, hsame⟩
  · rintro ⟨hknown, c, hc, hsame⟩
    obtain ⟨hkind, hname⟩ : c.kind = kind ∧ c.name = name := by simpa using hsame
    rw [← hkind, ← hname] at hknown
    exact ⟨c, hc, Bool.and_eq_true_iff.mpr ⟨hknown, hsame⟩⟩

namespace Auditor

variable {v : Auditor} {d : Document} {m : StyleMap}

def countedReferences (d : Document) : List Reference :=
  firstReferences (references (.ofText d.text.toList))

/-- The references of a document that are reported, with the given style map. -/
def undefinedReferences (v : Auditor) (d : Document) (m : StyleMap) : List Reference :=
  (countedReferences d).filter fun c =>
    !m.declares c.kind c.name && isIdentifier c.name && v.settings.checkUndefined &&
      (c.site != .idAttribute || v.settings.reportUnknownIdAttributes)

/-- The declarations of a document that are reported. -/
def unusedSelectors (v : Auditor) (d : Document) : List Selector :=
  if d.kind = .markup ∧ v.settings.checkUnused = true then
    d.selectors.filter fun s =>
      !(countedReferences d).any fun c => c.kind == s.kind && c.name == s.name
  else []

theorem mem_selectors_of_mem_unusedSelectors {s : Selector} (h : s ∈ v.unusedSelectors d) :
    s ∈ d.selectors := by
  unfold unusedSelectors at h
  split at h
  · exact (List.mem_filter.mp h).1
  · exact absurd h (by simp)

/-- The reports on a text are the warnings on its undefined references. -/
theorem diagnostics_resolveText (v : Auditor) (d : Document) (m : StyleMap) :
    (resolveText d.text.toList m.names v.policy).diagnostics =
      (v.undefinedReferences d m).map Reference.undefinedWarning := by
  unfold resolveText
  rw [diagnostics_resolve]
  refine congrArg _ (List.filter_congr ?_)
  intro c _
  rw [StyleMap.contains_names]
  unfold ReportingPolicy.reports policy
  show _ = (_ && _ && _ && _)
  cases m.declares c.kind c.name <;> cases isIdentifier c.name <;> simp

/-- Names that the document declares are known, so they are used if a reference has them. -/
theorem unusedWarnings_used (v : Auditor) (hown : [(d.key, d.selectors)] <+: m) :
    unusedWarnings d.selectors (resolveText d.text.toList m.names v.policy).used =
      (d.selectors.filter fun s =>
        !(countedReferences d).any fun c => c.kind == s.kind && c.name == s.name).map
          Selector.unusedWarning := by
  unfold unusedWarnings
  refine congrArg _ (List.filter_congr ?_)
  intro s hs
  have hmem : (d.key, d.selectors) ∈ m := hown.subset (List.mem_singleton_self _)
  unfold resolveText
  rw [contains_used, StyleMap.contains_names, StyleMap.declares_of_mem hmem hs, Bool.true_and]
  rfl

/-- The diagnostics of a style map that starts with the document's own selectors. -/
theorem referenceDiagnostics_eq (v : Auditor) (hown : [(d.key, d.selectors)] <+: m) :
    v.referenceDiagnostics d m = (v.undefinedReferences d m).map Reference.undefinedWarning ++
      (v.unusedSelectors d).map Selector.unusedWarning := by
  have hlookup : m.lookup d.key = some d.selectors :=
    StyleMap.lookup_of_prefix hown (by simp)
  unfold referenceDiagnostics unusedSelectors
  simp only [diagnostics_resolveText, hlookup, Option.getD_some, unusedWarnings_used v hown,
    Bool.and_eq_true, decide_eq_true_eq]
  split <;> rfl

variable {world : World} {interrupt : Interrupt} {root : Option Path} {p : Progress}

/-- A validation that is not cancelled reports on the style map that it collects. -/
theorem validate_eq_finish (hcovers : v.covers d root = true) (hkind : d.kind ≠ .style)
    (h : (v.validate world interrupt d root p).2.cancelled = false) :
    (v.validate world interrupt d root p).1 =
      v.finish d (v.referenceDiagnostics d ((v.audit world interrupt).collect d root p).1) := by
  let a := v.audit world interrupt
  have hplan : v.plan world a.addFiles d root =
      a.collectPlan a.addFiles d root >>= v.reportPlan d := by
    rw [plan_of_ne_style v world _ hcovers hkind]
    exact congrArg (· >>= v.reportPlan d) (Audit.collectPlan_interrupt ..)
  have hrun : v.validate world interrupt d root p =
      (v.reportPlan d (a.collect d root p).1).run a (a.collect d root p).2 := by
    show (v.plan world a.addFiles d root).run a p = _
    rw [hplan, Plan.run_bind]
    rfl
  rw [hrun] at h ⊢
  -- only the checks of the last step may still cut the result short
  have hyields := v.reportPlan_yields (fun _ _ _ => True) d (a.collect d root p).1
    (a.collect d root p).2.cancelled
  exact ((hyields.runs (fun _ _ => trivial) (Plan.runs_run a _ _)).2 h).2

end Auditor

/-! ### Messages -/

/-- The message about a name that is not declared. -/
def NameKind.undefinedMessage (kind : NameKind) (name : String) : String :=
  "CSS " ++ kind.label ++ " '" ++ name ++ "' not found"

/-- The message about a name that is not used. -/
def NameKind.unusedMessage (kind : NameKind) (name : String) : String :=
  "Unused CSS " ++ kind.label ++ " '" ++ kind.marker.toString ++ name ++ "'"

/-- The message on an undefined name tells its kind and name. -/
theorem NameKind.undefinedMessage_inj {kind kind' : NameKind} {name name' : String}
    (h : kind.undefinedMessage name = kind'.undefinedMessage name') :
    kind = kind' ∧ name = name' := by
  have hlist := congrArg String.toList h
  unfold undefinedMessage at hlist
  cases kind <;> cases kind' <;> simp [label, String.toList_append] at hlist ⊢ <;>
    exact String.toList_inj.mp hlist

/-- The message on an unused name tells its kind and name. -/
theorem NameKind.unusedMessage_inj {kind kind' : NameKind} {name name' : String}
    (h : kind.unusedMessage name = kind'.unusedMessage name') :
    kind = kind' ∧ name = name' := by
  have hlist := congrArg String.toList h
  unfold unusedMessage at hlist
  cases kind <;> cases kind' <;> simp [label, marker, String.toList_append] at hlist ⊢ <;>
    exact String.toList_inj.mp hlist

/-- No message reads both ways. -/
theorem NameKind.undefinedMessage_ne_unusedMessage (kind kind' : NameKind) (name name' : String) :
    kind.undefinedMessage name ≠ kind'.unusedMessage name' := by
  intro h
  -- they start with different letters
  have hundefined : (kind.undefinedMessage name).toList.head? = some 'C' := by
    unfold undefinedMessage
    simp only [String.append_assoc]
    rw [String.toList_append]
    rfl
  have hunused : (kind'.unusedMessage name').toList.head? = some 'U' := by
    unfold unusedMessage
    simp only [String.append_assoc]
    rw [String.toList_append]
    rfl
  rw [h, hunused] at hundefined
  exact absurd hundefined (by decide)

theorem Selector.message_unusedWarning (s : Selector) :
    s.unusedWarning.message = s.kind.unusedMessage s.name := by
  unfold unusedWarning NameKind.unusedMessage Token.display
  simp only [String.append_assoc]

/-! ### Order -/

/-- The order of reports: by offset, then by length. -/
theorem Diagnostic.le_iff {x y : Diagnostic} :
    x.le y = true ↔ x.offset < y.offset ∨ x.offset = y.offset ∧ x.len ≤ y.len := by
  simp [Diagnostic.le]

/-- What is reported is sorted, and nothing is lost or added by that. -/
theorem Auditor.finish_spec {v : Auditor} (hlint : v.lint = none) (d : Document)
    (found : List Diagnostic) :
    (v.finish d found).Pairwise (fun x y => x.le y = true) ∧ (v.finish d found).Perm found := by
  have hfinish : v.finish d found = found.mergeSort Diagnostic.le := by
    unfold finish
    rw [hlint]
    exact congrArg (List.mergeSort · Diagnostic.le) (List.append_nil found)
  rw [hfinish]
  refine ⟨List.pairwise_mergeSort ?_ ?_ found, List.mergeSort_perm found _⟩
  · intro x y z hxy hyz
    rw [Diagnostic.le_iff] at *
    omega
  · intro x y
    rw [Bool.or_eq_true, Diagnostic.le_iff, Diagnostic.le_iff]
    omega

/-! ### The whole report -/

/-- What a cache has under the key and version of a document is what the document declares. -/
def Document.IsKeptRight (d : Document) (cache : SelectorCache) : Prop :=
  cache.Holds fun key version selectors =>
    key = d.key → version = d.version → selectors = d.selectors

/-- With a cache that is right about the document, its selectors are read or kept, and are the
same. -/
theorem Document.IsKeptRight.eq_selectors {d : Document} {a : Audit} {p q : Progress}
    {own : List Selector} (h : d.IsKeptRight p.cache) (hruns : d.ownPlan.Runs a p (own, q)) :
    own = d.selectors := by
  have hown : d.OwnAgrees fun key version selectors =>
      key = d.key → version = d.version → selectors = d.selectors :=
    fun selectors => ⟨fun h => h rfl rfl, fun h _ _ => h⟩
  exact ((ownPlan_yields hown p.cancelled).runs h hruns).2

/-- A collection starts with the document's own selectors, also if a link or a style file has the
key of the document. -/
theorem Audit.own_prefix {a b : Audit} {load : BatchLoader} (hload : a.Interleaves load)
    {d : Document} {root : Option Path} {p : Progress} {r : StyleMap × Progress}
    (h : (a.collectPlan load d root).Runs b p r) (hkept : d.IsKeptRight p.cache) :
    [(d.key, d.selectors)] <+: r.1 := by
  obtain ⟨own, q, hruns, hfirst⟩ := own_prefix_of_runs hload h
  rw [hkept.eq_selectors hruns] at hfirst
  exact hfirst

/-- No name is both undefined and unused: what the document declares is declared. -/
theorem Auditor.undefined_ne_unused {v : Auditor} {d : Document} {m : StyleMap}
    (hown : [(d.key, d.selectors)] <+: m) {c : Reference} (hc : c ∈ v.undefinedReferences d m)
    {s : Selector} (hs : s ∈ v.unusedSelectors d) : ¬(c.kind = s.kind ∧ c.name = s.name) := by
  rintro ⟨hkind, hname⟩
  have hdeclared : m.declares c.kind c.name = false := by
    have hreported := (List.mem_filter.mp hc).2
    simp only [Bool.and_eq_true, Bool.not_eq_true'] at hreported
    exact hreported.1.1.1
  have hmem : (d.key, d.selectors) ∈ m := hown.subset (List.mem_singleton_self _)
  rw [hkind, hname, StyleMap.declares_of_mem hmem (mem_selectors_of_mem_unusedSelectors hs)]
    at hdeclared
  exact absurd hdeclared (by simp)

/-- **What a validation reports.** Take markup or script that is validated, from an empty cache,
without a linter and without being cancelled. The report is sorted by offset and then by length. It
consists of one warning for each undefined reference and one for each unused declaration, no more
and no less, and no name of a kind is reported as both. -/
theorem validate_reports (v : Auditor) (world : World) (interrupt : Interrupt) (d : Document)
    (root : Option Path) (cache : SelectorCache) (hlint : v.lint = none)
    (hcovers : v.covers d root = true) (hkind : d.kind ≠ .style) (hempty : cache.entries = [])
    (huncancelled : (v.validate world interrupt d root
      ((v.audit world interrupt).start cache)).2.cancelled = false) :
    let a := v.audit world interrupt
    let m := (a.collect d root (a.start cache)).1
    let found := (v.validate world interrupt d root (a.start cache)).1
    found.Pairwise (fun x y => x.offset < y.offset ∨ x.offset = y.offset ∧ x.len ≤ y.len) ∧
      found.Perm ((v.undefinedReferences d m).map Reference.undefinedWarning ++
        (v.unusedSelectors d).map Selector.unusedWarning) ∧
      ∀ (kind : NameKind) (name : String),
        ¬((∃ w ∈ found, w.message = kind.undefinedMessage name) ∧
          ∃ w ∈ found, w.message = kind.unusedMessage name) := by
  intro a m found
  have hown : [(d.key, d.selectors)] <+: m :=
    Audit.own_prefix a.interleaves_addFiles (Plan.runs_run a _ (a.start cache))
      (Cache.holds_of_entries_nil hempty)
  have hfound : found = v.finish d (v.referenceDiagnostics d m) :=
    Auditor.validate_eq_finish hcovers hkind huncancelled
  obtain ⟨hsorted, hperm⟩ := Auditor.finish_spec hlint d (v.referenceDiagnostics d m)
  rw [← hfound, Auditor.referenceDiagnostics_eq v hown] at hperm
  rw [← hfound] at hsorted
  refine ⟨hsorted.imp Diagnostic.le_iff.mp, hperm, ?_⟩
  rintro kind name ⟨⟨w, hw, hundefined⟩, w', hw', hunused⟩
  -- a message tells which of the two lists its warning comes from, and for which name
  have hreference : ∃ c ∈ v.undefinedReferences d m, c.kind = kind ∧ c.name = name := by
    rcases List.mem_append.mp (hperm.subset hw) with hmem | hmem
    · obtain ⟨c, hc, rfl⟩ := List.mem_map.mp hmem
      exact ⟨c, hc, NameKind.undefinedMessage_inj hundefined⟩
    · obtain ⟨s, _, rfl⟩ := List.mem_map.mp hmem
      rw [Selector.message_unusedWarning] at hundefined
      exact absurd hundefined.symm (NameKind.undefinedMessage_ne_unusedMessage _ _ _ _)
  have hselector : ∃ s ∈ v.unusedSelectors d, s.kind = kind ∧ s.name = name := by
    rcases List.mem_append.mp (hperm.subset hw') with hmem | hmem
    · obtain ⟨c, _, rfl⟩ := List.mem_map.mp hmem
      exact absurd hunused (NameKind.undefinedMessage_ne_unusedMessage _ _ _ _)
    · obtain ⟨s, hs, rfl⟩ := List.mem_map.mp hmem
      rw [Selector.message_unusedWarning] at hunused
      exact ⟨s, hs, NameKind.unusedMessage_inj hunused⟩
  obtain ⟨c, hc, hckind, hcname⟩ := hreference
  obtain ⟨s, hs, hskind, hsname⟩ := hselector
  exact Auditor.undefined_ne_unused hown hc hs
    ⟨hckind.trans hskind.symm, hcname.trans hsname.symm⟩

namespace OwnKey

/-- Two style files. -/
def world : World :=
  ⟨⟨[(.ofTexts ["base.css"], ⟨.text ".far\x7b\x7d", 1000⟩),
    (.ofTexts ["more.css"], ⟨.text ".more\x7b\x7d", 1000⟩)], [], []⟩, none, 0⟩

/-- A page that links to both files and has the key of the first. -/
def page : Document where
  key := "fs:///base.css"
  version := 1
  text := "<link rel=stylesheet href='/base.css'><link rel=stylesheet href='/more.css'>" ++
    "<style>.own\x7b\x7d .both\x7b\x7d</style><p class='both far more far'>"
  kind := .markup

def auditor : Auditor := ⟨{}, ⟨[]⟩, none⟩

def cache : SelectorCache := ⟨[], 300, 1800000⟩

end OwnKey

open OwnKey in
/-- The file that shares its key with the page is not looked at. -/
theorem validate_reports_own_key :
    auditor.covers page none = true ∧
      (auditor.validate world .never page none
        ((auditor.audit world .never).start cache)).2.cancelled = false ∧
      (auditor.validate world .never page none
        ((auditor.audit world .never).start cache)).1.Perm
          [⟨.undefinedClass, 120, 3, "CSS class 'far' not found", false⟩,
            ⟨.undefinedClass, 129, 3, "CSS class 'far' not found", false⟩,
            ⟨.unusedSelector, 84, 3, "Unused CSS class '.own'", true⟩] := by
  have hcovers : auditor.covers page none = true := by decide +kernel
  have huncancelled : (auditor.validate world .never page none
      ((auditor.audit world .never).start cache)).2.cancelled = false := by decide +kernel
  have hreports := validate_reports auditor world .never page none cache rfl hcovers (by decide) rfl
    huncancelled
  have hlisted : (auditor.undefinedReferences page ((auditor.audit world .never).collect page none
        ((auditor.audit world .never).start cache)).1).map Reference.undefinedWarning ++
      (auditor.unusedSelectors page).map Selector.unusedWarning =
        [⟨.undefinedClass, 120, 3, "CSS class 'far' not found", false⟩,
          ⟨.undefinedClass, 129, 3, "CSS class 'far' not found", false⟩,
          ⟨.unusedSelector, 84, 3, "Unused CSS class '.own'", true⟩] := by decide +kernel
  rw [← hlisted]
  exact ⟨hcovers, huncancelled, hreports.2.1⟩

end StyleAudit
