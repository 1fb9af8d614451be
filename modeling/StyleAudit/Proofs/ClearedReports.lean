import StyleAudit.Proofs.NestedRules
import StyleAudit.Proofs.Verdicts

/-!
# Declaring what is reported

Whoever is told that a name is not found can write a rule for it, and is then not told again. A name
is reported only if it is a plain identifier, and the scanner of stylesheets reads a plain
identifier as it is written, however many rules stand in a row.

* **`Resolution.reported`** reads the names off the messages of a report, as its reader would.
* **`map_label_selectors_emptyRules`**: a rule for each of some identifiers declares these names, in
  order, and no others.
* **`mem_reported`** says which names are reported. Which references count does not depend on what
  is known, so a name that is declared later is looked up at the same places.
* **`declaring_reported_names_clears_report`** is the result.
-/

namespace StyleAudit

open Text

/-! ### Names in messages -/

/-- What stands between `front` and `back` in `cs`. -/
def Text.inner? (front back cs : List Char) : Option (List Char) :=
  (after? front cs).bind fun rest => (after? back.reverse rest.reverse).map List.reverse

/-- `inner?` takes off exactly the given front and back. -/
theorem Text.inner?_eq_some {front back cs inner : List Char} :
    inner? front back cs = some inner ↔ cs = front ++ inner ++ back := by
  unfold inner?
  constructor
  · intro h
    obtain ⟨rest, hfront, hinner⟩ := Option.bind_eq_some_iff.mp h
    obtain ⟨reversed, hback, rfl⟩ := Option.map_eq_some_iff.mp hinner
    have hrest := congrArg List.reverse (eq_append_of_after? hback)
    rw [List.reverse_reverse, List.reverse_append, List.reverse_reverse] at hrest
    rw [eq_append_of_after? hfront, hrest, List.append_assoc]
  · rintro rfl
    rw [List.append_assoc, after?_append, Option.bind_some, List.reverse_append, after?_append,
      Option.map_some, List.reverse_reverse]

/-- The kind of names that a kind of warnings is about. -/
def DiagnosticKind.undefined? : DiagnosticKind → Option NameKind
  | .undefinedClass => some .className
  | .undefinedId => some .idName
  | .unusedSelector | .lint => none

/-- The name that is not found, if that is what a warning says. -/
def Diagnostic.undefinedName? (d : Diagnostic) : Option (NameKind × String) :=
  d.kind.undefined?.bind fun kind =>
    (inner? ("CSS " ++ kind.label ++ " '").toList "' not found".toList d.message.toList).map
      fun name => (kind, String.ofList name)

/-- The names that are reported as not found. -/
def Resolution.reported (r : Resolution) : List (NameKind × String) :=
  r.diagnostics.filterMap Diagnostic.undefinedName?

/-- The name a warning is about can be read back from its text. -/
theorem Reference.undefinedName?_undefinedWarning (c : Reference) :
    c.undefinedWarning.undefinedName? = some (c.kind, c.name) := by
  have hkind : c.undefinedWarning.kind.undefined? = some c.kind := by
    unfold undefinedWarning
    cases c.kind <;> rfl
  have hinner : inner? ("CSS " ++ c.kind.label ++ " '").toList "' not found".toList
      c.undefinedWarning.message.toList = some c.name.toList := by
    rw [inner?_eq_some, ← String.toList_append, ← String.toList_append]
    rfl
  rw [Diagnostic.undefinedName?, hkind, Option.bind_some, hinner, Option.map_some,
    String.ofList_toList]

/-- A name is reported if it is not known and some reference to it that counts is to be reported. -/
theorem mem_reported {known : Names} {policy : ReportingPolicy} {cs : List Reference}
    {kind : NameKind} {name : String} :
    (kind, name) ∈ (resolve known policy cs).reported ↔
      known.contains kind name = false ∧
        ∃ c ∈ firstReferences cs, policy.reports c = true ∧ c.kind = kind ∧ c.name = name := by
  unfold Resolution.reported
  rw [diagnostics_resolve, List.mem_filterMap]
  constructor
  · rintro ⟨d, hd, hname⟩
    obtain ⟨c, hc, rfl⟩ := List.mem_map.mp hd
    rw [c.undefinedName?_undefinedWarning] at hname
    cases hname
    obtain ⟨hmem, hboth⟩ := List.mem_filter.mp hc
    obtain ⟨hunknown, hreports⟩ := Bool.and_eq_true_iff.mp hboth
    exact ⟨by simpa using hunknown, c, hmem, hreports, rfl, rfl⟩
  · rintro ⟨hunknown, c, hmem, hreports, rfl, rfl⟩
    refine ⟨c.undefinedWarning, List.mem_map.mpr ⟨c, ?_, rfl⟩, c.undefinedName?_undefinedWarning⟩
    exact List.mem_filter.mpr ⟨hmem, by simp [hunknown, hreports]⟩

/-- Only identifiers are reported. -/
theorem isIdentifier_of_mem_reported {known : Names} {policy : ReportingPolicy}
    {cs : List Reference}
    {n : NameKind × String} (h : n ∈ (resolve known policy cs).reported) :
    isIdentifier n.2 = true := by
  obtain ⟨_, c, _, hreports, _, hname⟩ := mem_reported.mp h
  unfold ReportingPolicy.reports at hreports
  rw [← hname]
  exact (Bool.and_eq_true_iff.mp hreports).2

/-! ### Rules in a row -/

/-- A rule without a body for each name. -/
def emptyRules (names : List (NameKind × String)) : List Char :=
  names.flatMap fun n => n.1.marker :: n.2.toList ++ ['{', '}']

namespace Tree

/-- A bare character is no mark, so anything may follow it. -/
theorem calm_append_of_isBare {xs ys : List Char} (hxs : ∀ c ∈ xs, isBare c = true)
    (hys : Mask.Calm ys) : Mask.Calm (xs ++ ys) := by
  induction xs with
  | nil => exact hys
  | cons c xs ih =>
    have hc := hxs c List.mem_cons_self
    have hplain : isPlain c = true := isPlain_of_isFlat (isFlat_of_isBare hc)
    have hmark : Mask.isInterpolationMark c = false := by
      simp only [Mask.isInterpolationMark, Bool.or_eq_false_iff, beq_eq_false_iff_ne]
      exact ⟨⟨ne_of_isBare hc (by decide), ne_of_isBare hc (by decide)⟩,
        ne_of_isBare hc (by decide)⟩
    refine ⟨⟨ne_of_isPlain hplain (by decide), ne_of_isPlain hplain (by decide),
      isQuote_of_isPlain hplain⟩, fun h => ?_, ih fun d hd => hxs d (List.mem_cons_of_mem c hd)⟩
    rw [hmark] at h
    exact absurd h.1 (by decide)

/-- The marker of an id is no mark of an interpolation, since a name follows it. -/
theorem calm_emptyRule (kind : NameKind) (name : Name) {rest : List Char} (hrest : Mask.Calm rest) :
    Mask.Calm (kind.marker :: name.text ++ '{' :: '}' :: rest) := by
  have hbraces : Mask.Calm ('{' :: '}' :: rest) :=
    ⟨by decide, fun h => absurd h.1 (by decide), by decide, fun h => absurd h.1 (by decide), hrest⟩
  refine ⟨by cases kind <;> decide, fun h => ?_, calm_append_of_isBare name.isBare hbraces⟩
  obtain ⟨c, cs, htext⟩ := List.exists_cons_of_ne_nil name.nonempty
  have hc := name.isBare
  rw [htext] at h hc
  exact ne_of_isBare (hc c List.mem_cons_self) (by decide) (Option.some.inj h.2)

/-- A rule for a name is two stretches: a prelude with that name and an empty body. -/
theorem labels_segmentsFrom_emptyRule (start : Nat) (kind : NameKind) (name : Name)
    (rest : List Char) :
    ∃ next,
      (Stylesheet.segmentsFrom start [] (kind.marker :: name.text ++ '{' :: '}' :: rest)).flatMap
        segmentLabels =
      (kind, String.ofList name.text) ::
        (Stylesheet.segmentsFrom next [] rest).flatMap segmentLabels := by
  have hprinted : Printed (kind.marker :: name.text) := (Part.marked kind name).printed
  have hprelude : segmentLabels ⟨⟨start, kind.marker :: name.text⟩, some '{'⟩ =
      [(kind, String.ofList name.text)] :=
    (segmentLabels_of_printed start hprinted).trans (Part.marked kind name).namesIn_text
  -- the empty body is a segment of its own, and no prelude
  have hbody : ∀ offset, segmentLabels ⟨⟨offset, []⟩, some '}'⟩ = [] :=
    fun offset => segmentLabels_of_closer_ne (by decide : some '}' ≠ some '{')
  rw [segmentsFrom_append_cons start (fun c hc => isPlain_of_isFlat (hprinted.isFlat c hc))
    (.inl rfl), ← List.nil_append ('}' :: rest), segmentsFrom_append_cons _ (List.forall_mem_nil _)
      (.inr (.inl rfl)), List.flatMap_cons, List.flatMap_cons, List.reverse_nil, List.nil_append,
    List.nil_append, hprelude, hbody]
  exact ⟨_, rfl⟩

/-- One rule is written for each name, its body empty. -/
theorem emptyRules_cons (n : NameKind × String) (names : List (NameKind × String)) :
    emptyRules (n :: names) = n.1.marker :: n.2.toList ++ '{' :: '}' :: emptyRules names := by
  simp [emptyRules]

/-- A stylesheet of empty rules over identifiers has nothing to mask. -/
theorem calm_emptyRules {names : List (NameKind × String)}
    (h : ∀ n ∈ names, isIdentifier n.2 = true) : Mask.Calm (emptyRules names) := by
  induction names with
  | nil => trivial
  | cons n names ih =>
    rw [emptyRules_cons]
    exact calm_emptyRule n.1 (.ofIdentifier n.2 (h n List.mem_cons_self))
      (ih fun n' hn' => h n' (List.mem_cons_of_mem n hn'))

/-- The names of empty rules are the names they were written for, in the same order. -/
theorem labels_segmentsFrom_emptyRules {names : List (NameKind × String)}
    (h : ∀ n ∈ names, isIdentifier n.2 = true) (start : Nat) :
    (Stylesheet.segmentsFrom start [] (emptyRules names)).flatMap segmentLabels = names := by
  induction names generalizing start with
  | nil => rfl
  | cons n names ih =>
    obtain ⟨next, hlabels⟩ := labels_segmentsFrom_emptyRule start n.1
      (.ofIdentifier n.2 (h n List.mem_cons_self)) (emptyRules names)
    rw [emptyRules_cons]
    refine hlabels.trans ?_
    rw [ih fun n' hn' => h n' (List.mem_cons_of_mem n hn')]
    exact congrArg (fun name => (n.1, name) :: names) String.ofList_toList

/-- Rules for identifiers declare them, in order. -/
theorem map_label_selectors_emptyRules {names : List (NameKind × String)}
    (h : ∀ n ∈ names, isIdentifier n.2 = true) :
    (Stylesheet.selectors (emptyRules names)).map (fun s => (s.kind, s.name)) = names := by
  have hlabels : (Stylesheet.selectors (emptyRules names)).map (fun s => (s.kind, s.name)) =
      (Stylesheet.declaredTokens (.ofText (emptyRules names))).map Token.label := List.map_map
  rw [hlabels, map_label_declaredTokens]
  change (Stylesheet.segmentsFrom 0 [] (mask (emptyRules names))).flatMap segmentLabels = _
  rw [Mask.mask_of_calm (calm_emptyRules h)]
  exact labels_segmentsFrom_emptyRules h 0

end Tree

/-- What is known after declarations. -/
theorem Names.contains_addSelectors_iff {known : Names} {selectors : List Selector}
    {kind : NameKind} {name : String} :
    (known.addSelectors selectors).contains kind name = true ↔
      known.contains kind name = true ∨
        (kind, name) ∈ selectors.map fun s => (s.kind, s.name) := by
  rw [contains_addSelectors, Bool.or_eq_true, List.any_eq_true, List.mem_map]
  simp only [Bool.and_eq_true, beq_iff_eq, Prod.mk.injEq]

/-! ### The result -/

/-- **Declaring what is reported clears the report.** Take any text, known names and policy, and a
stylesheet with an empty rule for each name that is reported as not found, in any order and any
number of times. It declares these names and no others. Together with them, the text has nothing to
report, and its used names are those that were used before and those that were reported. -/
theorem declaring_reported_names_clears_report (text : List Char) (known : Names)
    (policy : ReportingPolicy) (names : List (NameKind × String))
    (hnames : ∀ n, n ∈ names ↔ n ∈ (resolveText text known policy).reported) :
    let before := resolveText text known policy
    let declared := Stylesheet.selectors (emptyRules names)
    let after := resolveText text (known.addSelectors declared) policy
    declared.map (fun s => (s.kind, s.name)) = names ∧
      after.diagnostics = [] ∧
      ∀ kind name, after.used.contains kind name = true ↔
        before.used.contains kind name = true ∨ (kind, name) ∈ before.reported := by
  intro before declared after
  have hdeclared : declared.map (fun s => (s.kind, s.name)) = names :=
    Tree.map_label_selectors_emptyRules fun n hn =>
      isIdentifier_of_mem_reported ((hnames n).mp hn)
  have hknown : ∀ kind name, (known.addSelectors declared).contains kind name = true ↔
      known.contains kind name = true ∨ (kind, name) ∈ before.reported := by
    intro kind name
    rw [Names.contains_addSelectors_iff, hdeclared, hnames]
  refine ⟨hdeclared, ?_, fun kind name => ?_⟩
  · have hnone : (firstReferences (references (.ofText text))).filter (fun c =>
        !(known.addSelectors declared).contains c.kind c.name && policy.reports c) = [] := by
      rw [List.filter_eq_nil_iff]
      intro c hc hreported
      obtain ⟨hunknown, hreports⟩ := Bool.and_eq_true_iff.mp hreported
      -- a reference to report was reported before, unless its name was known already
      have hstill : (known.addSelectors declared).contains c.kind c.name = true := by
        rw [hknown]
        cases hwas : known.contains c.kind c.name with
        | true => exact .inl rfl
        | false => exact .inr (mem_reported.mpr ⟨hwas, c, hc, hreports, rfl, rfl⟩)
      rw [hstill] at hunknown
      exact absurd hunknown (by decide)
    exact (diagnostics_resolve ..).trans (congrArg _ hnone)
  · -- a name counts as used when it is known and referred to; the reported ones are now known
    unfold after before resolveText
    rw [contains_used, contains_used, Bool.and_eq_true, Bool.and_eq_true, hknown]
    constructor
    · rintro ⟨hwas | hreported, hused⟩
      · exact .inl ⟨hwas, hused⟩
      · exact .inr hreported
    · rintro (⟨hwas, hused⟩ | hreported)
      · exact ⟨.inl hwas, hused⟩
      · obtain ⟨_, c, hc, _, hkind, hname⟩ := mem_reported.mp hreported
        exact ⟨.inr hreported, List.any_eq_true.mpr ⟨c, hc, by simp [hkind, hname]⟩⟩

namespace UnknownNames

/-- A page with two unknown classes, one of them twice, and an unknown id. -/
def page : List Char := "<p class='a b c b'>e.querySelector('#d > .c')".toList

def known : Names := ⟨["a"], []⟩

def names : List (NameKind × String) := [(.idName, "d"), (.className, "c"), (.className, "b")]

theorem mem_names {n : NameKind × String} : n ∈ names ↔ n ∈ [(NameKind.className, "b"),
    (.className, "c"), (.className, "b"), (.idName, "d"), (.className, "c")] := by
  simp only [names, List.mem_cons, List.not_mem_nil, or_false]
  tauto

end UnknownNames

open UnknownNames in
theorem declaring_reported_names_clears_report_page :
    (∀ n, n ∈ names ↔ n ∈ (resolveText page known {}).reported) ∧
      emptyRules names = "#d\x7b\x7d.c\x7b\x7d.b\x7b\x7d".toList ∧
      (resolveText page (known.addSelectors (Stylesheet.selectors (emptyRules names)))
        {}).diagnostics =
        [] := by
  have hreported : (resolveText page known {}).reported = [(.className, "b"), (.className, "c"),
      (.className, "b"), (.idName, "d"), (.className, "c")] := by decide +kernel
  have hnames : ∀ n, n ∈ names ↔ n ∈ (resolveText page known {}).reported := by
    intro n
    rw [hreported]
    exact mem_names
  exact ⟨hnames, by decide,
    (declaring_reported_names_clears_report page known {} names hnames).2.1⟩

end StyleAudit
