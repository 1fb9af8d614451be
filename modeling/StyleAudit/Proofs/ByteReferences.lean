import StyleAudit.Proofs.ByteNames

/-!
# Scans by byte offsets do not fail

The families of references, and with them all scans. A family starts from the places of a pattern;
from there on the two scans go side by side. Markup that a script writes is scanned as a text of its
own whose references are shifted afterwards, so the two families that look for attributes are
compared for a text with any offset.
-/

namespace StyleAudit

open Text

/-! ### Patterns and offsets -/

/-- The assignment seen from a text that starts `base` bytes earlier. -/
def Assignment.shift (base : Nat) (a : Assignment) : Assignment :=
  { a with name := a.name.shift base, value := a.value.shift base }

/-- Moving the text moves its assignments. -/
theorem assignmentAt?_shift (names : List (List Char)) (plus : Bool) (base : Nat) (cur : Cursor) :
    assignmentAt? names plus (cur.shift base) =
      (assignmentAt? names plus cur).map (Assignment.shift base) := by
  -- the place of the name may be behind a binding mark
  have hname : ∀ (name : Cursor) (bound : Bool),
      (names.findSome? fun word => do
        let rest ← afterFolded? word name.rest
        let value ← afterEquals? plus rest
        return (⟨name.shift base, bound, (name.shift base).seek value⟩ : Assignment)) =
      (names.findSome? fun word => do
        let rest ← afterFolded? word name.rest
        let value ← afterEquals? plus rest
        return (⟨name, bound, name.seek value⟩ : Assignment)).map (Assignment.shift base) := by
    intro name bound
    rw [List.map_findSome?]
    congr 1
    funext word
    rw [Function.comp_apply]
    cases afterFolded? word name.rest with
    | none => rfl
    | some rest =>
      simp only [Option.bind_eq_bind, Option.bind_some]
      cases afterEquals? plus rest with
      | none => rfl
      | some value =>
        rw [Option.bind_some, Cursor.seek_shift]
        rfl
  simp only [assignmentAt?]
  rw [show (cur.shift base).rest = cur.rest from rfl]
  cases (afterFolded? "v-bind:".toList cur.rest).or (after? [':'] cur.rest) with
  | none => exact hname cur false
  | some rest =>
    simp only
    rw [Cursor.seek_shift]
    exact hname (cur.seek rest) true

theorem assignments_shift (names : List (List Char)) (plus : Bool) (base : Nat) (text : List Char) :
    (assignmentRecogniser names plus).findAll ⟨base, text⟩ =
      ((assignmentRecogniser names plus).findAll (.ofText text)).map (Assignment.shift base) := by
  refine Recogniser.findAll_shift (fun cur => ?_) (.ofText text)
  simp only [assignmentRecogniser]
  rw [Cursor.advance_shift, assignmentAt?_shift, assignmentAt?_shift,
    show (cur.shift base).rest = cur.rest from rfl,
    show (cur.shift base).before = cur.before from rfl]
  cases cur.before.isEmpty <;> cases cur.rest.head?.any isAttributeSeparator <;>
    cases assignmentAt? names plus cur <;> cases assignmentAt? names plus (cur.advance 1) <;> rfl

namespace Bytes

variable {text cs : List Char} {base start i : Nat} {c : Char}

/-! ### Attributes -/

/-- Steps that each find the references of one item find those of the row. -/
theorem yields_mapM_self {α : Type} {f : α → Option (List Reference)} {g : α → List Reference}
    {as : List α} (hf : ∀ a ∈ as, Yields base (f a) (g a)) :
    Yields base ((as.mapM f).bind fun found => some found.flatten) (as.flatMap g) := by
  have hsame : List.Forall₂ Eq as as := List.forall₂_same.mpr fun _ _ => rfl
  refine yields_mapM hsame fun a b hb heq => ?_
  rw [heq]
  exact hf b hb

/-- The value of an assignment that was found, in the text and in the text that is shifted. -/
theorem attributeValue_of_mem {names : List (List Char)} {plus : Bool} {a : Assignment}
    (ha : a ∈ (assignmentRecogniser names plus).findAll (.ofText text)) (base : Nat) :
    (a.shift base).name.IsIn ⟨base, text⟩ ∧
      ∃ found, attributeValue text a.name.offset a.value.offset = some found ∧
        Option.Rel (SameValue text base) found (a.shift base).value? := by
  have hmem : a.shift base ∈ (assignmentRecogniser names plus).findAll ⟨base, text⟩ := by
    rw [assignments_shift]
    exact List.mem_map_of_mem ha
  obtain ⟨hname, hvalue⟩ := isIn_of_mem_assignments hmem
  exact ⟨hname, attributeValue_eq hname hvalue rfl rfl⟩

/-- The references in class attributes, found by bytes. -/
theorem classAttributeReferences_eq (base : Nat) (text : List Char) :
    Yields base (classAttributeReferences text)
      (StyleAudit.classAttributeReferences ⟨base, text⟩) := by
  rw [StyleAudit.classAttributeReferences, assignments_shift, List.flatMap_map,
    classAttributeReferences]
  refine yields_mapM_self fun a ha => ?_
  obtain ⟨_, found, hfound, hrel⟩ := attributeValue_of_mem ha base
  simp only [Option.bind_eq_bind]
  rw [hfound, Option.bind_some]
  rcases rel_cases hrel with ⟨rfl, hvalue⟩ | ⟨v, ⟨⟨offset, body⟩, bound⟩, rfl, hvalue, hsame⟩
  · rw [hvalue]
    exact yields_nil base
  rw [hvalue]
  obtain ⟨hbound, rfl, hcut⟩ : v.bound = bound ∧ base + v.range.start = offset ∧
    slice? text v.range.start v.range.stop = some body := hsame
  simp only
  rw [hcut, Option.bind_some, hbound, show (a.shift base).bound = a.bound from rfl]
  -- a bound value is an expression, whose literals hold the names
  by_cases hexpr : (bound || a.bound) = true
  · rw [if_pos hexpr, if_pos hexpr]
    exact boundClassNames_eq base v.range.start body
  · rw [if_neg hexpr, if_neg hexpr]
    exact classNames_eq base v.range.start body

/-- The text before a name ends with a dot, apart from blanks. -/
theorem getLast?_trimRight_before (cur : Cursor) :
    (trimRight isBlank cur.before.reverse).getLast? = (cur.before.dropWhile isBlank).head? := by
  rw [trimRight, List.reverse_reverse, List.getLast?_reverse]

/-- The references in id attributes, found by bytes; the test on what stands before the name reads
the same character. -/
theorem idAttributeReferences_eq (base : Nat) (text : List Char) :
    Yields base (idAttributeReferences text) (StyleAudit.idAttributeReferences ⟨base, text⟩) := by
  rw [StyleAudit.idAttributeReferences, assignments_shift, List.flatMap_map, idAttributeReferences]
  refine yields_mapM_self fun a ha => ?_
  obtain ⟨hname, found, hfound, hrel⟩ := attributeValue_of_mem ha base
  have hbefore : slice? text 0 a.name.offset = some (a.shift base).name.before.reverse :=
    slice?_before hname rfl
  simp only [Option.bind_eq_bind]
  rw [insideTag_eq hname rfl, Option.bind_some, hbefore, Option.bind_some,
    getLast?_trimRight_before]
  have hskip : (!Markup.insideTag (a.shift base).name &&
      ((a.shift base).name.before.dropWhile isBlank).head? != some '.') =
        !namesElement (a.shift base).name := by
    rw [namesElement, Bool.not_or]
    rfl
  rw [hskip]
  -- a name that stands in no tag and behind no dot is left out by both
  cases namesElement (a.shift base).name with
  | false => exact yields_nil base
  | true =>
    rw [if_neg (by decide), if_pos rfl, hfound, Option.bind_some]
    rcases rel_cases hrel with ⟨rfl, hvalue⟩ | ⟨v, ⟨⟨offset, body⟩, bound⟩, rfl, hvalue, hsame⟩
    · rw [hvalue]
      exact yields_nil base
    rw [hvalue]
    obtain ⟨hbound, rfl, hcut⟩ : v.bound = bound ∧ base + v.range.start = offset ∧
      slice? text v.range.start v.range.stop = some body := hsame
    simp only
    rw [hcut, Option.bind_some, hbound, show (a.shift base).bound = a.bound from rfl]
    by_cases hexpr : (bound || a.bound) = true
    · rw [if_pos hexpr, if_pos hexpr, List.filterMap_map, List.filterMap_eq_flatMap_toList,
        List.map_flatMap]
      refine yields_literals fun l literal _ hliteral => ?_
      refine singleName_eq .idName .idAttribute hliteral.2.2 ?_
      rw [← hliteral.2.1]
      omega
    · rw [if_neg hexpr, if_neg hexpr, List.filterMap_eq_flatMap_toList, List.flatMap_singleton]
      refine singleName_eq .idName .idAttribute hcut ?_
      omega

/-! ### Calls -/

/-- What a recogniser finds, where the find is the text from a later place on. -/
theorem at_of_mem_findAll {r : Recogniser Slice}
    (hr : ∀ cur s n, r cur = some (s, n) → ∃ rest, s = (cur.seek rest).toSlice) {s : Slice}
    (h : s ∈ r.findAll (.ofText text)) : At text s.offset s.text := by
  obtain ⟨cur, taken, hcur, hin, _⟩ := Recogniser.mem_findAll h
  obtain ⟨rest, rfl⟩ := hr _ _ _ hcur
  have hseek : (cur.seek rest).IsIn ⟨0, text⟩ := hin.seek rest
  exact at_of_isIn hseek (Nat.zero_add _).symm

/-- A call that is found stands where it says. -/
theorem at_of_mem_calls {callee : List Char → Option (List Char)} {call : Slice}
    (h : call ∈ (callRecogniser callee).findAll (.ofText text)) :
    At text call.offset call.text := by
  refine at_of_mem_findAll (fun cur s n hr => ?_) h
  unfold callRecogniser at hr
  split at hr
  · obtain ⟨rest, _, heq⟩ := Option.map_eq_some_iff.mp hr
    exact ⟨rest, (congrArg Prod.fst heq).symm⟩
  · exact absurd hr (by simp)

/-- The arguments of a call are cut out by bytes where they are by characters. -/
theorem callArguments_of_at {call : Slice} (hat : At text call.offset call.text)
    (hhead : call.text.head? = some '(') :
    ∃ found, callArguments text call.offset = some found ∧
      List.Forall₂ (StartsAt text 0) found (Script.callArguments call) := by
  obtain ⟨offset, cs⟩ := call
  obtain ⟨cs, rfl⟩ := List.head?_eq_some_iff.mp hhead
  obtain ⟨found, hfound, hargs⟩ := callArguments_eq 0 hat
  rw [Nat.zero_add] at hargs
  exact ⟨found, hfound, hargs⟩

/-- A literal is found by bytes where it is by characters. -/
theorem literalAt_of_startsAt {arg : Slice} (h : StartsAt text 0 i arg) :
    ∃ found, literalAt text i = some found ∧
      Option.Rel (SameLiteral text 0) found (Script.literalAt? arg) := by
  obtain ⟨hoffset, hat⟩ := h
  obtain ⟨found, hfound, hrel⟩ := literalAt_eq 0 hat
  rw [hoffset] at hrel
  exact ⟨found, hfound, hrel⟩

theorem rel_getElem? {α β : Type} {R : α → β → Prop} {as : List α} {bs : List β}
    (h : List.Forall₂ R as bs) (n : Nat) : Option.Rel R as[n]? bs[n]? := by
  induction h generalizing n with
  | nil => exact .none
  | cons hab _ ih =>
    cases n with
    | zero => exact .some hab
    | succ n => exact ih n

/-- The literal in a given argument of a call is found by bytes where it is by characters. -/
theorem literalArgument_eq {call : Slice} (hat : At text call.offset call.text)
    (hhead : call.text.head? = some '(') (n : Nat) :
    ∃ found, literalArgument text call.offset n = some found ∧
      Option.Rel (SameLiteral text 0) found
        ((Script.callArguments call)[n]?.bind Script.literalAt?) := by
  obtain ⟨args, hargs, hrel⟩ := callArguments_of_at hat hhead
  rw [literalArgument, hargs]
  simp only [Option.bind_eq_bind, Option.bind_some]
  rcases rel_cases (rel_getElem? hrel n) with ⟨hnone, hnone'⟩ | ⟨i, arg, hsome, hsome', hstart⟩
  · rw [hnone, hnone']
    exact ⟨none, rfl, .none⟩
  · rw [hsome, hsome']
    exact literalAt_of_startsAt hstart

theorem firstLiteral?_eq (call : Slice) :
    firstLiteral? call = (Script.callArguments call)[0]?.bind Script.literalAt? := by
  rw [firstLiteral?, List.head?_eq_getElem?]

/-- The references in class list calls, found by bytes. -/
theorem classListReferences_eq (text : List Char) :
    Yields 0 (classListReferences text) (StyleAudit.classListReferences (.ofText text)) := by
  rw [classListReferences, StyleAudit.classListReferences]
  refine yields_mapM_self fun call hcall => ?_
  obtain ⟨found, hfound, hargs⟩ :=
    callArguments_of_at (at_of_mem_calls hcall) (inside_of_mem_classListCall hcall).2
  simp only [Option.bind_eq_bind]
  rw [hfound, Option.bind_some, List.filterMap_map, List.filterMap_filterMap,
    List.filterMap_eq_flatMap_toList, List.map_flatMap]
  refine yields_mapM hargs fun i arg _ hstart => ?_
  obtain ⟨literal, hliteral, hrel⟩ := literalAt_of_startsAt hstart
  rw [hliteral, Option.bind_some]
  rcases rel_cases hrel with ⟨rfl, hnone⟩ | ⟨l, literal, rfl, hsome, hsame⟩
  · rw [hnone]
    exact yields_nil 0
  · rw [hsome]
    refine singleName_eq .className .classList hsame.2.2 ?_
    rw [← hsame.2.1]
    omega

/-- Selector tokens become references at the place of their text. -/
theorem tokens_ofToken (start : Nat) (text : List Char) :
    (tokens text).map (List.map fun t => Reference.ofToken (t.shift start)) =
      some ((StyleAudit.tokens ⟨start, text⟩).map Reference.ofToken) := by
  obtain ⟨found, hfound, hmap⟩ := Option.map_eq_some_iff.mp (tokens_eq start text)
  rw [hfound, ← hmap, List.map_map]
  rfl

theorem map_eq_self {α : Type} {shift : α → α} (h : ∀ a, shift a = a) (found : Option (List α)) :
    found.map (List.map shift) = found := by
  rw [show shift = id from funext h, List.map_id_fun, Option.map_id]
  rfl

theorem shift_zero (r : Reference) : r.shift 0 = r := by
  rw [Reference.shift, Nat.zero_add]

/-- At the start of a text nothing is moved. -/
theorem yields_zero_iff {found : Option (List Reference)} {refs : List Reference} :
    Yields 0 found refs ↔ found = some refs := by
  rw [Yields, map_eq_self shift_zero]

/-- The references in selector calls; the placeholders of a template are masked first. -/
theorem selectorCallReferences_eq (text : List Char) :
    Yields 0 (selectorCallReferences text) (StyleAudit.selectorCallReferences (.ofText text)) := by
  rw [selectorCallReferences, StyleAudit.selectorCallReferences]
  refine yields_mapM_self fun call hcall => ?_
  obtain ⟨found, hfound, hrel⟩ :=
    literalArgument_eq (at_of_mem_calls hcall) (inside_of_mem_callOf hcall).2 0
  rw [firstLiteral?_eq]
  simp only [Option.bind_eq_bind]
  rw [hfound, Option.bind_some]
  rcases rel_cases hrel with ⟨rfl, hnone⟩ | ⟨l, literal, rfl, hsome, hquote, hoffset, hcut⟩
  · rw [hnone]
    exact yields_nil 0
  · rw [hsome]
    simp only
    rw [Nat.zero_add] at hoffset
    rw [hcut, Option.bind_some, selectorText, hquote, hoffset]
    by_cases htemplate : literal.quote = Script.templateQuote
    · rw [if_pos htemplate, if_pos htemplate, maskPlaceholders_eq, Option.bind_some]
      exact yields_zero_iff.mpr (tokens_ofToken literal.body.offset _)
    · rw [if_neg htemplate, if_neg htemplate]
      exact yields_zero_iff.mpr (tokens_ofToken literal.body.offset literal.body.text)

/-- The references in calls by id, found by bytes. -/
theorem idCallReferences_eq (text : List Char) :
    Yields 0 (idCallReferences text) (StyleAudit.idCallReferences (.ofText text)) := by
  rw [idCallReferences, StyleAudit.idCallReferences, List.filterMap_eq_flatMap_toList]
  refine yields_mapM_self fun call hcall => ?_
  obtain ⟨found, hfound, hrel⟩ :=
    literalArgument_eq (at_of_mem_calls hcall) (inside_of_mem_callOf hcall).2 0
  rw [firstLiteral?_eq]
  simp only [Option.bind_eq_bind]
  rw [hfound, Option.bind_some]
  rcases rel_cases hrel with ⟨rfl, hnone⟩ | ⟨l, literal, rfl, hsome, _, hoffset, hcut⟩
  · rw [hnone]
    exact yields_nil 0
  · rw [hsome, Option.bind_some]
    have hname : Yields 0 (singleName text l.body 0 .idName .elementById)
        ((singleName? literal.body).toList.map (Reference.ofSlice .idName .elementById)) :=
      singleName_eq _ _ hcut (show 0 + (0 + l.body.start) = literal.body.offset from by omega)
    cases hsingle : singleName? literal.body with
    | none =>
      rw [hsingle] at hname
      exact hname
    | some name =>
      rw [hsingle] at hname
      exact hname

/-! ### Markup that a script writes -/

/-- An assigned value that is found stands where it says. -/
theorem at_of_mem_markupAssignment {value : Slice}
    (h : value ∈ markupAssignment.findAll (.ofText text)) : At text value.offset value.text := by
  refine at_of_mem_findAll (fun cur s n hr => ?_) h
  unfold markupAssignment at hr
  split at hr
  · obtain ⟨rest, _, heq⟩ := Option.map_eq_some_iff.mp hr
    exact ⟨rest, (congrArg Prod.fst heq).symm⟩
  · exact absurd hr (by simp)

/-- One literal, or none, for each item of a list. -/
theorem literals_of_mapM {α : Type} {f : α → Option (Option Literal)}
    {g : α → Option Script.Literal}
    {as : List α} (h : ∀ a ∈ as, ∃ found, f a = some found ∧
      Option.Rel (SameLiteral text 0) found (g a)) :
    ∃ found, as.mapM f = some found ∧
      List.Forall₂ (SameLiteral text 0) (found.filterMap id) (as.filterMap g) := by
  induction as with
  | nil => exact ⟨[], rfl, .nil⟩
  | cons a as ih =>
    obtain ⟨first, hfirst, hrel⟩ := h a List.mem_cons_self
    obtain ⟨later, hlater, hrest⟩ := ih fun b hb => h b (List.mem_cons_of_mem a hb)
    refine ⟨first :: later, ?_, ?_⟩
    · rw [List.mapM_cons, hfirst, hlater]
      rfl
    · rw [List.filterMap_cons, List.filterMap_cons]
      rcases rel_cases hrel with ⟨rfl, hnone⟩ | ⟨l, literal, rfl, hsome, hsame⟩
      · rw [hnone]
        exact hrest
      · rw [hsome]
        exact .cons hsame hrest

/-- The markup that a script writes is cut out by bytes where it is by characters. -/
theorem writtenMarkup_eq (text : List Char) :
    writtenMarkup text = some (StyleAudit.writtenMarkup (.ofText text)) := by
  have hvalues : ∀ value ∈ markupAssignment.findAll (.ofText text),
      ∃ found, literalAt text value.offset = some found ∧
        Option.Rel (SameLiteral text 0) found (Script.literalAt? value) := fun value hvalue =>
    literalAt_of_startsAt ⟨Nat.zero_add _, at_of_mem_markupAssignment hvalue⟩
  have hcalls : ∀ call ∈ (callOf ["insertAdjacentHTML"]).findAll (.ofText text),
      ∃ found, literalArgument text call.offset 1 = some found ∧
        Option.Rel (SameLiteral text 0) found
          ((Script.callArguments call)[1]?.bind Script.literalAt?) := fun call hcall =>
    literalArgument_eq (at_of_mem_calls hcall) (inside_of_mem_callOf hcall).2 1
  obtain ⟨assigned, hassigned, hrel⟩ := literals_of_mapM hvalues
  obtain ⟨inserted, hinserted, hrel'⟩ := literals_of_mapM hcalls
  rw [writtenMarkup, hassigned]
  simp only [Option.bind_eq_bind, Option.bind_some]
  rw [hinserted, Option.bind_some, List.filterMap_append]
  refine mapM_of_forall₂ (List.rel_append hrel hrel') fun l literal hsame => ?_
  obtain ⟨_, hoffset, hcut⟩ := hsame
  rw [Nat.zero_add] at hoffset
  rw [hcut, Option.bind_some, hoffset]
  rfl

theorem writtenMarkupReferences_eq (text : List Char) :
    Yields 0 (writtenMarkupReferences text)
      (StyleAudit.writtenMarkupReferences (.ofText text)) := by
  rw [writtenMarkupReferences, StyleAudit.writtenMarkupReferences, writtenMarkup_eq]
  refine yields_mapM_self fun fragment _ => ?_
  obtain ⟨offset, body⟩ := fragment
  obtain ⟨classes, hclasses, hmap⟩ :=
    Option.map_eq_some_iff.mp (classAttributeReferences_eq offset body)
  obtain ⟨ids, hids, hmap'⟩ := Option.map_eq_some_iff.mp (idAttributeReferences_eq offset body)
  rw [yields_zero_iff, hclasses, hids, ← hmap, ← hmap', ← List.map_append]
  rfl

/-- All references of a text, found by bytes, in the same order. -/
theorem references_eq (text : List Char) :
    references text = some (StyleAudit.references (.ofText text)) := by
  have hclass := yields_zero_iff.mp (classAttributeReferences_eq 0 text)
  have hid := yields_zero_iff.mp (idAttributeReferences_eq 0 text)
  rw [references, hclass, hid, yields_zero_iff.mp (classListReferences_eq text),
    yields_zero_iff.mp (selectorCallReferences_eq text),
    yields_zero_iff.mp (idCallReferences_eq text),
    yields_zero_iff.mp (writtenMarkupReferences_eq text)]
  rfl

end Bytes

/-- No index, no slice and no loop of a scan by byte offsets fails, whatever the text: each scan has
the result that the scan over characters has. -/
theorem byte_scans_never_fail (text : List Char) :
    Bytes.mask text = mask text ∧
      Bytes.tokens text = some (tokens (.ofText text)) ∧
      Bytes.branches text = some (branches (.ofText text)) ∧
      (∀ base index, Bytes.selectorsAt text base index =
        some (Stylesheet.selectorsAt ⟨base, text⟩ index)) ∧
      Bytes.selectors text = some (Stylesheet.selectors text) ∧
      Bytes.bodyTokens text = some (Stylesheet.bodyTokens text) ∧
      Bytes.namesInBodies text = some (Stylesheet.namesInBodies text) ∧
      Bytes.classAttributeReferences text = some (classAttributeReferences (.ofText text)) ∧
      Bytes.idAttributeReferences text = some (idAttributeReferences (.ofText text)) ∧
      Bytes.classListReferences text = some (classListReferences (.ofText text)) ∧
      Bytes.selectorCallReferences text = some (selectorCallReferences (.ofText text)) ∧
      Bytes.idCallReferences text = some (idCallReferences (.ofText text)) ∧
      Bytes.writtenMarkup text = some (writtenMarkup (.ofText text)) ∧
      Bytes.writtenMarkupReferences text = some (writtenMarkupReferences (.ofText text)) ∧
      Bytes.references text = some (references (.ofText text)) ∧
      ∀ known options, Bytes.resolveText text known options =
        some (resolveText text known options) := by
  -- stated for any base, and needed here for the text alone
  have htokens := Bytes.tokens_eq 0 text
  rw [Bytes.map_eq_self fun t => by rw [Token.shift, Nat.zero_add]] at htokens
  have hbranches := Bytes.branches_eq 0 text
  rw [Bytes.map_eq_self fun s => by rw [Slice.shift, Nat.zero_add]] at hbranches
  refine ⟨Bytes.mask_eq text, htokens, hbranches, Bytes.selectorsAt_eq text,
    Bytes.selectorsAt_eq text 0 (.ofText text), Bytes.bodyTokens_eq text,
    Bytes.namesInBodies_eq text,
    Bytes.yields_zero_iff.mp (Bytes.classAttributeReferences_eq 0 text),
    Bytes.yields_zero_iff.mp (Bytes.idAttributeReferences_eq 0 text),
    Bytes.yields_zero_iff.mp (Bytes.classListReferences_eq text),
    Bytes.yields_zero_iff.mp (Bytes.selectorCallReferences_eq text),
    Bytes.yields_zero_iff.mp (Bytes.idCallReferences_eq text), Bytes.writtenMarkup_eq text,
    Bytes.yields_zero_iff.mp (Bytes.writtenMarkupReferences_eq text), Bytes.references_eq text,
    fun known options => ?_⟩
  rw [Bytes.resolveText, Bytes.references_eq]
  rfl

end StyleAudit
