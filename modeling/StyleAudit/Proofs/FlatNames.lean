import StyleAudit.Proofs.Cuts

/-!
# Names of flat text

Flat text is selector text without escapes, brackets and quotes. Its names do not depend on where it
stands (`labelsFrom_congr`), it is read in two parts wherever no name is cut (`namesIn_append`), and
neither trimming it (`namesIn_trim`) nor cutting it at commas (`labels_branchesFrom`) changes its
names.
-/

namespace StyleAudit

open Text

/-! ### Names without places -/

def Token.label (t : Token) : NameKind × String := (t.kind, t.name)

/-- The names of a flat selector text. -/
def namesIn (cs : List Char) : List (NameKind × String) := (tokens (.ofText cs)).map Token.label

/-- The name of a given kind with a given written form, if it is one. -/
def labelOf (kind : NameKind) (raw : List Char) : List (NameKind × String) :=
  ((Token.ofRaw? 0 kind raw).map Token.label).toList

/-- A token's label depends on its kind and raw name alone, not on its place. -/
theorem label_ofRaw? (offset : Nat) (kind : NameKind) (raw : List Char) :
    ((Token.ofRaw? offset kind raw).map Token.label).toList = labelOf kind raw := by
  simp only [labelOf, Token.ofRaw?]
  split <;> rfl

/-- Characters that a scan for names takes literally: no backslash, bracket or quote. -/
def isFlat (c : Char) : Bool := !"\\['\"`/\x7b\x7d;@".toList.contains c

theorem isFlat_ne {c d : Char} (h : isFlat c = true) (hd : isFlat d = false) : c ≠ d := by
  rintro rfl
  rw [h] at hd
  exact absurd hd (by decide)

/-- Characters that start no escape, attribute selector or string. -/
def isLiteral (c : Char) : Bool := c != '\\' && c != '[' && c != '\x27' && c != '\x22'

theorem isLiteral_iff {c : Char} :
    isLiteral c = true ↔ c ≠ '\\' ∧ c ≠ '[' ∧ ¬(c = '\x27' ∨ c = '\x22') := by
  simp [isLiteral, and_assoc]

/-- A flat character is none that the tokeniser skips over. -/
theorem isLiteral_of_isFlat {c : Char} (hc : isFlat c = true) : isLiteral c = true := by
  refine isLiteral_iff.mpr ⟨isFlat_ne hc (by decide), isFlat_ne hc (by decide), ?_⟩
  rintro (h | h)
  · exact isFlat_ne hc (by decide) h
  · exact isFlat_ne hc (by decide) h

/-- Outside of escapes, attributes and strings, a token begins at a marker and runs to the end of
the name. -/
theorem tokenRecogniser_of_isLiteral {c : Char} (hc : isLiteral c = true) (offset : Nat)
    (before cs : List Char) :
    tokenRecogniser ⟨offset, before, c :: cs⟩ = (NameKind.ofMarker? c).map fun kind =>
      (Token.ofRaw? offset kind (takeName cs).1, 1 + (takeName cs).1.length) := by
  obtain ⟨hbackslash, hbracket, hquote⟩ := isLiteral_iff.mp hc
  simp only [tokenRecogniser]
  rw [if_neg hbackslash, if_neg hbracket, if_neg hquote]
  cases NameKind.ofMarker? c <;> rfl

/-- Over flat text nothing is skipped: a token begins at a marker and runs to the end of the
name. -/
theorem tokenRecogniser_of_isFlat {c : Char} (hc : isFlat c = true) (offset : Nat)
    (before cs : List Char) :
    tokenRecogniser ⟨offset, before, c :: cs⟩ = (NameKind.ofMarker? c).map fun kind =>
      (Token.ofRaw? offset kind (takeName cs).1, 1 + (takeName cs).1.length) :=
  tokenRecogniser_of_isLiteral (isLiteral_of_isFlat hc) offset before cs

/-- The names from a place on. -/
def labelsFrom (cur : Cursor) : List (NameKind × String) :=
  ((tokenRecogniser.scan cur).filterMap id).map Token.label

/-- A character of flat text that is no marker is passed over. -/
theorem labelsFrom_skip {c : Char} (hc : isFlat c = true) (hmarker : NameKind.ofMarker? c = none)
    (offset : Nat) (before cs : List Char) :
    labelsFrom ⟨offset, before, c :: cs⟩ =
      labelsFrom (Cursor.advance 1 ⟨offset, before, c :: cs⟩) := by
  have hr := tokenRecogniser_of_isFlat hc offset before cs
  rw [hmarker] at hr
  rw [labelsFrom, Recogniser.scan_of_none (by simp) hr]
  rfl

/-- A marker is read with the name after it. -/
theorem labelsFrom_marker {c : Char} (hc : isFlat c = true) {kind : NameKind}
    (hkind : NameKind.ofMarker? c = some kind) (offset : Nat) (before cs : List Char) :
    labelsFrom ⟨offset, before, c :: cs⟩ = labelOf kind (takeName cs).1 ++
      labelsFrom (Cursor.advance (1 + (takeName cs).1.length) ⟨offset, before, c :: cs⟩) := by
  have hr := tokenRecogniser_of_isFlat hc offset before cs
  rw [hkind] at hr
  rw [labelsFrom, Recogniser.scan_of_some (by simp) (by omega) hr, ← label_ofRaw? offset]
  cases Token.ofRaw? offset kind (takeName cs).1 <;> rfl

/-- The names of flat text do not depend on where it stands. -/
theorem labelsFrom_congr {cur cur' : Cursor} (h : cur.rest = cur'.rest)
    (hflat : ∀ c ∈ cur.rest, isFlat c = true) : labelsFrom cur = labelsFrom cur' := by
  induction cur using Cursor.advance_induction generalizing cur' with
  | atEnd cur hend =>
    rw [labelsFrom, labelsFrom, Recogniser.scan_of_rest_nil hend,
      Recogniser.scan_of_rest_nil (h ▸ hend)]
  | step cur hne ih =>
    -- both cursors are moved by the same count, so their rests stay equal
    have hlater : ∀ n, 0 < n → labelsFrom (cur.advance n) = labelsFrom (cur'.advance n) := by
      intro n hn
      refine ih n hn ?_ fun c hc => hflat c (List.mem_of_mem_drop hc)
      change cur.rest.drop n = cur'.rest.drop n
      rw [h]
    obtain ⟨offset, before, rest⟩ := cur
    obtain ⟨offset', before', rest'⟩ := cur'
    obtain rfl : rest = rest' := h
    obtain ⟨c, cs, rfl⟩ := List.exists_cons_of_ne_nil hne
    have hc := hflat c List.mem_cons_self
    cases hkind : NameKind.ofMarker? c with
    | none =>
      rw [labelsFrom_skip hc hkind, labelsFrom_skip hc hkind]
      exact hlater 1 (by decide)
    | some kind =>
      rw [labelsFrom_marker hc hkind, labelsFrom_marker hc hkind]
      exact congrArg _ (hlater _ (by omega))

/-- The names read from a flat text do not depend on where the reading cursor stands. -/
theorem labelsFrom_eq_namesIn {cur : Cursor} {cs : List Char} (h : cur.rest = cs)
    (hcs : ∀ c ∈ cs, isFlat c = true) : labelsFrom cur = namesIn cs := by
  change _ = labelsFrom ⟨0, [], cs⟩
  refine labelsFrom_congr h ?_
  rw [h]
  exact hcs

/-- A character that is no marker begins no name. -/
theorem namesIn_cons {c : Char} {cs : List Char} (hc : isFlat c = true)
    (hcs : ∀ d ∈ cs, isFlat d = true) (hmarker : NameKind.ofMarker? c = none) :
    namesIn (c :: cs) = namesIn cs :=
  (labelsFrom_skip hc hmarker 0 [] cs).trans (labelsFrom_eq_namesIn rfl hcs)

/-- Characters that are no markers have no names and cut none. -/
theorem namesIn_append_of_no_marker {xs ys : List Char}
    (hxs : ∀ c ∈ xs, isFlat c = true ∧ NameKind.ofMarker? c = none)
    (hys : ∀ c ∈ ys, isFlat c = true) : namesIn (xs ++ ys) = namesIn ys := by
  induction xs with
  | nil => rfl
  | cons c xs ih =>
    obtain ⟨hc, hmarker⟩ := hxs c List.mem_cons_self
    have hxs' : ∀ d ∈ xs, isFlat d = true ∧ NameKind.ofMarker? d = none :=
      fun d hd => hxs d (List.mem_cons_of_mem c hd)
    -- `namesIn_cons` asks for flat text to the very end
    have hboth : ∀ d ∈ xs ++ ys, isFlat d = true := by
      intro d hd
      rcases List.mem_append.mp hd with hd | hd
      · exact (hxs' d hd).1
      · exact hys d hd
    rw [List.cons_append, namesIn_cons hc hboth hmarker]
    exact ih hxs'

/-- What is left behind a name is still flat. -/
theorem isFlat_of_mem_takeName {cs : List Char} (hcs : ∀ d ∈ cs, isFlat d = true) :
    ∀ d ∈ (takeName cs).2, isFlat d = true := by
  rw [← drop_takeName]
  exact fun d hd => hcs d (List.mem_of_mem_drop hd)

/-- A marker gives the name behind it, if any, and the reading goes on behind that name. -/
theorem namesIn_marker (kind : NameKind) {cs : List Char} (hcs : ∀ d ∈ cs, isFlat d = true) :
    namesIn (kind.marker :: cs) = labelOf kind (takeName cs).1 ++ namesIn (takeName cs).2 := by
  have hc : isFlat kind.marker = true := by cases kind <;> decide
  have hkind : NameKind.ofMarker? kind.marker = some kind := by cases kind <;> rfl
  have hrest : (Cursor.advance (1 + (takeName cs).1.length) ⟨0, [], kind.marker :: cs⟩).rest =
      (takeName cs).2 := by
    change (kind.marker :: cs).drop (1 + (takeName cs).1.length) = _
    rw [Nat.add_comm, List.drop_succ_cons, drop_takeName]
  rw [← labelsFrom_eq_namesIn hrest (isFlat_of_mem_takeName hcs)]
  exact labelsFrom_marker hc hkind 0 [] cs

/-! ### Names of two parts -/

/-- `EndsName ys`: a name that stands right before `ys` ends there. -/
def EndsName (ys : List Char) : Prop := ∀ c ∈ ys.head?, isNameBoundary c = true

/-- Where a name ends there is nothing to take. -/
theorem takeName_of_endsName {ys : List Char} (h : EndsName ys) : takeName ys = ([], ys) := by
  cases ys with
  | nil => rfl
  | cons c ys =>
    have hboundary : isNameBoundary c = true := h c rfl
    have hc : c ≠ '\\' := by
      rintro rfl
      exact absurd hboundary (by decide)
    rw [takeName_cons hc, if_pos hboundary]

/-- A name is not prolonged by what ends names. -/
theorem takeName_append_of_endsName {xs ys : List Char} (hxs : '\\' ∉ xs) (hys : EndsName ys) :
    takeName (xs ++ ys) = ((takeName xs).1, (takeName xs).2 ++ ys) := by
  induction xs with
  | nil => exact takeName_of_endsName hys
  | cons c xs ih =>
    have hc : c ≠ '\\' := fun h => hxs (by simp [h])
    rw [List.cons_append, takeName_cons hc, takeName_cons hc,
      ih fun h => hxs (List.mem_cons_of_mem c h)]
    split <;> rfl

/-- A flat text is read in two parts where no name is cut. The induction is on the length of the
first part, since a name of it is read in one step. -/
theorem namesIn_append {xs ys : List Char} (hxs : ∀ c ∈ xs, isFlat c = true)
    (hys : ∀ c ∈ ys, isFlat c = true) (hends : EndsName ys) :
    namesIn (xs ++ ys) = namesIn xs ++ namesIn ys := by
  -- a step may take a whole name, so the induction is on the length
  induction hlength : xs.length using Nat.strongRecOn generalizing xs with
  | _ length ih =>
    cases xs with
    | nil => rfl
    | cons c xs =>
      have hxs' : ∀ d ∈ xs, isFlat d = true := fun d hd => hxs d (List.mem_cons_of_mem c hd)
      have hboth : ∀ d ∈ xs ++ ys, isFlat d = true := by
        intro d hd
        rcases List.mem_append.mp hd with hd | hd
        · exact hxs' d hd
        · exact hys d hd
      have hc := hxs c List.mem_cons_self
      rw [List.length_cons] at hlength
      cases hkind : NameKind.ofMarker? c with
      | none =>
        rw [List.cons_append, namesIn_cons hc hboth hkind, namesIn_cons hc hxs' hkind]
        exact ih xs.length (by omega) hxs' rfl
      | some kind =>
        obtain rfl : kind.marker = c := NameKind.marker_of_ofMarker? hkind
        have hshorter : (takeName xs).2.length ≤ xs.length := by
          rw [← drop_takeName, List.length_drop]
          omega
        have hbackslash : '\\' ∉ xs := fun h => isFlat_ne (hxs' _ h) (by decide) rfl
        rw [List.cons_append, namesIn_marker kind hboth, namesIn_marker kind hxs',
          takeName_append_of_endsName hbackslash hends, List.append_assoc,
          ih (takeName xs).2.length (by omega) (isFlat_of_mem_takeName hxs') rfl]

/-! ### Blanks and commas around names -/

/-- A character of flat text that is blank only if it is a space. -/
def isSelectorChar (c : Char) : Bool := isFlat c && (c == ' ' || !isBlank c)

theorem isFlat_of_isSelectorChar {c : Char} (h : isSelectorChar c = true) : isFlat c = true :=
  (Bool.and_eq_true_iff.mp h).1

/-- The one blank that a selector holds is the space. -/
theorem eq_space_of_isBlank {c : Char} (h : isSelectorChar c = true) (hblank : isBlank c = true) :
    c = ' ' := by
  have hspace := (Bool.and_eq_true_iff.mp h).2
  rw [hblank, Bool.not_true, Bool.or_false] at hspace
  exact beq_iff_eq.mp hspace

/-- Leading blanks hold no names. -/
theorem namesIn_dropWhile {cs : List Char} (h : ∀ c ∈ cs, isSelectorChar c = true) :
    namesIn (cs.dropWhile isBlank) = namesIn cs := by
  induction cs with
  | nil => rfl
  | cons c cs ih =>
    have hcs : ∀ d ∈ cs, isSelectorChar d = true := fun d hd => h d (List.mem_cons_of_mem c hd)
    rw [List.dropWhile_cons]
    split
    · next hblank =>
      have hc := h c List.mem_cons_self
      obtain rfl : c = ' ' := eq_space_of_isBlank hc hblank
      rw [ih hcs, namesIn_cons (by decide) (fun d hd => isFlat_of_isSelectorChar (hcs d hd)) rfl]
    · rfl

/-- Trimming cuts no name. -/
theorem namesIn_trim (s : Slice) (h : ∀ c ∈ s.text, isSelectorChar c = true) :
    namesIn (s.trim isBlank).text = namesIn s.text := by
  rw [← namesIn_dropWhile h]
  change namesIn (Text.trimRight isBlank (s.text.dropWhile isBlank)) = _
  have hrest : ∀ c ∈ s.text.dropWhile isBlank, isSelectorChar c = true :=
    fun c hc => h c ((List.dropWhile_suffix _).subset hc)
  generalize s.text.dropWhile isBlank = cs at hrest
  -- what is cut off at the end are spaces
  generalize htail : (cs.reverse.takeWhile isBlank).reverse = tail
  have hsplit : cs = Text.trimRight isBlank cs ++ tail := by
    rw [← htail, Text.trimRight, ← List.reverse_append, List.takeWhile_append_dropWhile,
      List.reverse_reverse]
  generalize Text.trimRight isBlank cs = front at hsplit
  have hspaces : ∀ c ∈ tail, c = ' ' := by
    intro c hc
    refine eq_space_of_isBlank (hrest c ?_) ?_
    · rw [hsplit]
      exact List.mem_append_right front hc
    · rw [← htail] at hc
      exact List.mem_takeWhile_imp (List.mem_reverse.mp hc)
  have hends : EndsName tail := by
    intro c hc
    rw [hspaces c (List.mem_of_mem_head? hc)]
    decide
  have hnone : namesIn (tail ++ []) = [] := by
    refine namesIn_append_of_no_marker (fun c hc => ?_) fun c hc => absurd hc List.not_mem_nil
    rw [hspaces c hc]
    decide
  rw [List.append_nil] at hnone
  have hflat : ∀ c ∈ cs, isFlat c = true := fun c hc => isFlat_of_isSelectorChar (hrest c hc)
  rw [hsplit] at hflat
  rw [hsplit, namesIn_append (fun c hc => hflat c (List.mem_append_left _ hc))
    (fun c hc => hflat c (List.mem_append_right _ hc)) hends, hnone, List.append_nil]

/-- On a flat slice the tokeniser finds the names of its text. -/
theorem labels_tokens {s : Slice} (h : ∀ c ∈ s.text, isFlat c = true) :
    (tokens s).map Token.label = namesIn s.text := by
  change labelsFrom (.start s) = _
  exact labelsFrom_eq_namesIn rfl h

/-- Cutting at commas cuts no name, so it does not matter at which commas a text is cut. -/
theorem labels_branchesFrom (depth start : Nat) (branch cs : List Char)
    (hbranch : ∀ c ∈ branch, isFlat c = true) (hcs : ∀ c ∈ cs, isFlat c = true) :
    ((branchesFrom depth start branch (cs.map fun c => (c, Mask.Paint.keep))).flatMap tokens).map
      Token.label = namesIn (branch.reverse ++ cs) := by
  induction cs generalizing depth start branch with
  | nil =>
    rw [List.map_nil, branchesFrom, List.flatMap_singleton, List.append_nil]
    exact labels_tokens fun c hc => hbranch c (List.mem_reverse.mp hc)
  | cons c cs ih =>
    have hc := hcs c List.mem_cons_self
    have hcs' : ∀ d ∈ cs, isFlat d = true := fun d hd => hcs d (List.mem_cons_of_mem c hd)
    -- a character that does not end the branch
    have hlonger : ∀ depth, ((branchesFrom depth start (c :: branch)
        (cs.map fun c => (c, Mask.Paint.keep))).flatMap tokens).map Token.label =
          namesIn (branch.reverse ++ c :: cs) := by
      intro depth
      have hbranch' : ∀ d ∈ c :: branch, isFlat d = true := by
        intro d hd
        rcases List.mem_cons.mp hd with rfl | hd
        · exact hc
        · exact hbranch d hd
      rw [ih depth start (c :: branch) hbranch' hcs', List.reverse_cons, List.append_assoc]
      rfl
    rw [List.map_cons]
    unfold branchesFrom
    rw [if_pos rfl]
    split
    · exact hlonger _
    · split
      · exact hlonger _
      · split
        · next hcomma =>
          -- a comma ends names, so cutting there divides the names as well
          obtain ⟨rfl, _⟩ := hcomma
          have hreverse : ∀ d ∈ branch.reverse, isFlat d = true :=
            fun d hd => hbranch d (List.mem_reverse.mp hd)
          have hends : EndsName (',' :: cs) := by
            intro d hd
            rw [← Option.some.inj hd]
            decide
          rw [List.flatMap_cons, List.map_append, labels_tokens hreverse,
            ih depth _ [] (fun d hd => absurd hd List.not_mem_nil) hcs',
            namesIn_append hreverse hcs hends, namesIn_cons hc hcs' rfl]
          rfl
        · exact hlonger _

end StyleAudit
