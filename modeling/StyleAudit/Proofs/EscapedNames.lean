import StyleAudit.Proofs.FlatNames
import StyleAudit.Proofs.MaskStates

/-!
# Declarations of escaped names

A name may hold any character if it is written with backslashes. Masking and reading a name honour a
backslash, but the passes between them do not: a stylesheet is cut at every brace and semicolon, a
prelude is trimmed at both ends and cut at commas, whether or not a backslash stands before the
character. So a name is declared as it is written exactly if it holds nothing that one of these
passes acts on.

* **`Written`** relates the written form of a name to the name; **`written_escape`** is about the
  form that `escape` gives.
* **`Written.takeName_eq`** and **`Mask.paintFrom_of_written`** are the two passes that read a
  written form as a whole.
* **`staysWhole`** says of a name that the other passes leave it alone. If so, a rule for it
  declares that name (`declaredTokens_of_staysWhole`). If not, no declared name is as long as the
  written one (`rawLen_lt_of_not_staysWhole`).
-/

namespace StyleAudit

open Text

/-! ### Written forms -/

/-- `Written raw name`: the characters of the name, each with a backslash before it, unless it is
neither a boundary nor a backslash. -/
inductive Written : (raw name : List Char) → Prop
  | nil : Written [] []
  | plain {c : Char} {raw name : List Char} : isNameBoundary c = false → c ≠ '\\' →
      Written raw name → Written (c :: raw) (c :: name)
  | escaped {c : Char} {raw name : List Char} :
      Written raw name → Written ('\\' :: c :: raw) (c :: name)

theorem ne_of_isNameBoundary_eq {c d : Char} (hc : isNameBoundary c = false)
    (hd : isNameBoundary d = true) : c ≠ d := by
  rintro rfl
  rw [hc] at hd
  exact absurd hd (by decide)

/-- The form that `escape` gives. Its first character is no digit. -/
theorem written_escape (name : List Char) :
    Written (escape name) name ∧ (escape name).head?.any Char.isDigit = false := by
  -- one character, with what is written after it
  have hmark : ∀ (c : Char) {raw rest : List Char}, Written raw rest →
      Written ((if isNameBoundary c || c == '\\' then ['\\', c] else [c]) ++ raw) (c :: rest) := by
    intro c raw rest h
    split
    · exact h.escaped
    · next hplain =>
      rw [Bool.or_eq_true, not_or, Bool.not_eq_true, beq_iff_eq] at hplain
      exact h.plain hplain.1 hplain.2
  have hrest : ∀ cs : List Char, Written
      (cs.flatMap fun c => if isNameBoundary c || c == '\\' then ['\\', c] else [c]) cs := by
    intro cs
    induction cs with
    | nil => exact .nil
    | cons c cs ih => exact hmark c ih
  cases name with
  | nil => exact ⟨.nil, rfl⟩
  | cons c cs =>
    unfold escape
    simp only
    split
    · exact ⟨(hrest cs).escaped, rfl⟩
    · next hdigit =>
      refine ⟨hmark c (hrest cs), ?_⟩
      split
      · rfl
      · simpa using hdigit

namespace Written

variable {raw name : List Char}

theorem unescape_eq (h : Written raw name) : unescape raw = name := by
  induction h with
  | nil => rfl
  | plain _ hbackslash _ ih => rw [unescape_cons hbackslash, ih]
  | escaped _ ih => rw [unescape, ih]

/-- A written form is read up to its end. -/
theorem takeName_eq (h : Written raw name) {rest : List Char} (hrest : EndsName rest) :
    takeName (raw ++ rest) = (raw, rest) := by
  induction h with
  | nil => exact takeName_of_endsName hrest
  | plain hboundary hbackslash _ ih =>
    rw [List.cons_append, takeName_cons hbackslash, hboundary, if_neg Bool.false_ne_true, ih]
  | escaped _ ih => rw [List.cons_append, List.cons_append, takeName, ih]

/-- Backslashes apart, a written form has the characters of its name, and the same last one. -/
theorem mem_iff (h : Written raw name) {d : Char} (hd : d ≠ '\\') : d ∈ raw ↔ d ∈ name := by
  induction h with
  | nil => exact Iff.rfl
  | plain _ _ _ ih => rw [List.mem_cons, List.mem_cons, ih]
  | escaped _ ih =>
    rw [List.mem_cons, List.mem_cons, List.mem_cons, ih]
    exact or_iff_right hd

/-- Escaping does not change the last character. -/
theorem getLast?_eq (h : Written raw name) : raw.getLast? = name.getLast? := by
  induction h with
  | nil => rfl
  | plain _ _ _ ih => rw [List.getLast?_cons, List.getLast?_cons, ih]
  | escaped _ ih =>
    rw [List.getLast?_cons, List.getLast?_cons, List.getLast?_cons, ih]
    rfl

end Written

namespace Mask

/-- A character of a name that is no backslash is kept as code. -/
theorem step_plain {c : Char} (hboundary : isNameBoundary c = false) (hbackslash : c ≠ '\\')
    (parens : Nat) (next : Option Char) :
    step ⟨.code, parens⟩ c next = (⟨.code, parens⟩, .keep) := by
  have hne : ∀ d, isNameBoundary d = true → c ≠ d := fun d => ne_of_isNameBoundary_eq hboundary
  have hslash : c ≠ '/' := hne _ (by decide)
  have hquote : isQuote c = false := by
    simp only [isQuote, Bool.or_eq_false_iff, beq_eq_false_iff_ne]
    exact ⟨⟨hne _ (by decide), hne _ (by decide)⟩, hne _ (by decide)⟩
  have hmark : isInterpolationMark c = false := by
    simp only [isInterpolationMark, Bool.or_eq_false_iff, beq_eq_false_iff_ne]
    exact ⟨⟨hne _ (by decide), hne _ (by decide)⟩, hne _ (by decide)⟩
  show stepCode parens c next = _
  unfold stepCode
  rw [if_neg hbackslash, if_neg fun h => hslash h.1, if_neg fun h => hslash h.1, hquote,
    if_neg Bool.false_ne_true, hmark, if_neg fun h => Bool.false_ne_true h.1,
    if_neg (hne _ (by decide)), if_neg (hne _ (by decide))]

/-- Masking keeps a written form. What a backslash stands before opens nothing and counts as no
parenthesis. -/
theorem paintFrom_of_written {raw name : List Char} (h : Written raw name) (parens : Nat)
    (rest : List Char) :
    paintFrom ⟨.code, parens⟩ (raw ++ rest) =
      raw.map (fun c => (c, .keep)) ++ paintFrom ⟨.code, parens⟩ rest := by
  induction h with
  | nil => rfl
  | plain hboundary hbackslash _ ih =>
    rw [List.cons_append, paintFrom, step_plain hboundary hbackslash, ih]
    rfl
  | @escaped c raw name _ ih =>
    show ('\\', _) :: (c, _) :: paintFrom ⟨.code, parens⟩ (raw ++ rest) = _
    rw [ih]
    rfl

theorem render_keep (cs : List Char) : render (cs.map fun c => (c, .keep)) = cs := by
  rw [render, List.flatMap_map]
  exact List.flatMap_singleton' cs

end Mask

/-! ### A rule for one class -/

/-- An empty rule for the class that is written `raw`. -/
def classRule (raw : List Char) : List Char := '.' :: raw ++ ['{', '}']

/-- A rule with an escaped name has nothing to mask. -/
theorem paint_of_written {raw name : List Char} (h : Written raw name) :
    Mask.paint ('.' :: raw) = ('.' :: raw).map (fun c => (c, .keep)) ∧
      mask (classRule raw) = classRule raw := by
  have hfirst : ∀ cs, Mask.paint ('.' :: cs) = ('.', .keep) :: Mask.paintFrom .start cs :=
    fun cs => rfl
  have hraw := fun rest => Mask.paintFrom_of_written h 0 rest
  refine ⟨?_, ?_⟩
  · have hall := hraw []
    rw [List.append_nil] at hall
    rw [hfirst, Mask.State.start, hall]
    simp [Mask.paintFrom]
  · have hrule : Mask.paint (classRule raw) = (classRule raw).map fun c => (c, .keep) := by
      show Mask.paint ('.' :: (raw ++ ['{', '}'])) = _
      rw [hfirst, Mask.State.start, hraw]
      simp only [classRule, List.cons_append, List.map_cons, List.map_append]
      rfl
    rw [mask, hrule, Mask.render_keep]

/-! ### What the other passes act on -/

/-- Whether a stylesheet is cut at `c`. -/
def isStructure (c : Char) : Bool := c == '{' || c == '}' || c == ';'

/-- Whether a text holds a comma outside of brackets, with `depth` of them open. -/
def hasBareComma (depth : Nat) : List Char → Bool
  | [] => false
  | c :: cs =>
    if isOpenBracket c then hasBareComma (depth + 1) cs
    else if isCloseBracket c then hasBareComma (depth - 1) cs
    else (c == ',' && depth == 0) || hasBareComma depth cs

/-- How many brackets are open at the end of a text, with `depth` of them open at its start. -/
def bracketDepth (depth : Nat) : List Char → Nat
  | [] => depth
  | c :: cs =>
    if isOpenBracket c then bracketDepth (depth + 1) cs
    else if isCloseBracket c then bracketDepth (depth - 1) cs
    else bracketDepth depth cs

/-- Whether a name holds no brace and no semicolon, does not end with a blank, and has commas in
brackets only. -/
def staysWhole (name : List Char) : Bool :=
  !name.any isStructure && !name.getLast?.any isBlank && !hasBareComma 0 name

theorem isStructure_iff {c : Char} : isStructure c = true ↔ c = '{' ∨ c = '}' ∨ c = ';' := by
  simp [isStructure, or_assoc]

/-- Escaping neither adds nor hides a comma between branches. -/
theorem Written.hasBareComma_eq {raw name : List Char} (h : Written raw name) (depth : Nat) :
    hasBareComma depth raw = hasBareComma depth name := by
  induction h generalizing depth with
  | nil => rfl
  | plain _ _ _ ih => simp only [hasBareComma, ih]
  | @escaped c raw name _ ih =>
    -- the backslash is neither a bracket nor a comma
    show hasBareComma depth (c :: raw) = _
    simp only [hasBareComma, ih]

/-- Escaping neither adds nor hides a brace or a semicolon. -/
theorem Written.any_isStructure {raw name : List Char} (h : Written raw name) :
    raw.any isStructure = name.any isStructure := by
  rw [Bool.eq_iff_iff, List.any_eq_true, List.any_eq_true]
  refine exists_congr fun c => and_congr_left fun hc => h.mem_iff ?_
  rintro rfl
  exact absurd hc (by decide)

/-! ### Braces and semicolons -/

/-- Each brace or semicolon of a text is missing from its stretches. -/
theorem byteLen_segment_add_le {start : Nat} {stretch cs : List Char}
    {segment : Stylesheet.Segment} (h : segment ∈ Stylesheet.segmentsFrom start stretch cs) :
    byteLen segment.slice.text + cs.countP isStructure ≤ byteLen stretch + byteLen cs := by
  have hcount : ∀ cs : List Char, cs.countP isStructure ≤ byteLen cs := by
    intro cs
    induction cs with
    | nil => exact Nat.le_refl 0
    | cons c cs ih =>
      have hpos := c.utf8Size_pos
      rw [List.countP_cons, byteLen_cons]
      split <;> omega
  -- no structure character of `cs` goes into the segment
  induction cs generalizing start stretch with
  | nil =>
    rw [List.mem_singleton.mp h]
    simp
  | cons c cs ih =>
    have hpos := c.utf8Size_pos
    unfold Stylesheet.segmentsFrom at h
    rw [List.countP_cons, byteLen_cons]
    split at h
    · next hc =>
      rw [if_pos (isStructure_iff.mpr hc)]
      rcases List.mem_cons.mp h with rfl | hrest
      · have hle := hcount cs
        show byteLen stretch.reverse + _ ≤ _
        rw [byteLen_reverse]
        omega
      · have hle := ih hrest
        rw [byteLen_nil] at hle
        omega
    · next hc =>
      have hle := ih h
      rw [if_neg fun hstructure => hc (isStructure_iff.mp hstructure)]
      rw [byteLen_cons] at hle
      omega

/-- A stretch up to the first brace. -/
theorem segmentsFrom_append_brace (start : Nat) (stretch : List Char) {xs : List Char}
    (hxs : xs.any isStructure = false) (cs : List Char) :
    Stylesheet.segmentsFrom start stretch (xs ++ '{' :: cs) =
      ⟨⟨start, stretch.reverse ++ xs⟩, some '{'⟩ ::
        Stylesheet.segmentsFrom (start + byteLen stretch + byteLen xs + 1) [] cs := by
  induction xs generalizing stretch with
  | nil => simp [Stylesheet.segmentsFrom]
  | cons c xs ih =>
    rw [List.any_cons, Bool.or_eq_false_iff] at hxs
    have hc : ¬(c = '{' ∨ c = '}' ∨ c = ';') := by
      rw [← isStructure_iff, hxs.1]
      exact Bool.false_ne_true
    rw [List.cons_append, Stylesheet.segmentsFrom, if_neg hc, ih _ hxs.2, List.reverse_cons,
      List.append_assoc, byteLen_cons, byteLen_cons]
    congr 2
    omega

/-- Without braces and semicolons in the name, the rule has one prelude. -/
theorem preludes_classRule {raw name : List Char} (h : Written raw name)
    (hraw : raw.any isStructure = false) :
    Stylesheet.preludes (.ofText (classRule raw)) = [(⟨0, '.' :: raw⟩ : Slice).trim isBlank] := by
  have hdot : ('.' :: raw).any isStructure = false := hraw
  have hsegments : Stylesheet.segments ⟨0, classRule raw⟩ = ⟨⟨0, '.' :: raw⟩, some '{'⟩ ::
      Stylesheet.segmentsFrom (0 + 0 + byteLen ('.' :: raw) + 1) [] ['}'] :=
    segmentsFrom_append_brace 0 [] hdot ['}']
  have hhead := Slice.head?_trim (show isBlank '.' = false by decide) 0 raw
  have hprelude : Stylesheet.Segment.prelude? ⟨⟨0, '.' :: raw⟩, some '{'⟩ =
      some ((⟨0, '.' :: raw⟩ : Slice).trim isBlank) := by
    unfold Stylesheet.Segment.prelude?
    refine if_pos ⟨rfl, ?_, ?_⟩
    · intro hnil
      rw [hnil] at hhead
      exact absurd hhead (by simp)
    · rw [hhead]
      decide
  unfold Stylesheet.preludes
  show (Stylesheet.segments ⟨0, mask (classRule raw)⟩).filterMap _ = _
  rw [(paint_of_written h).2, hsegments, List.filterMap_cons, hprelude]
  rfl

/-! ### Blanks and commas -/

/-- Trimming at the right looks at the last character. -/
theorem trimRight_concat (p : Char → Bool) (cs : List Char) (c : Char) :
    Text.trimRight p (cs ++ [c]) = if p c then Text.trimRight p cs else cs ++ [c] := by
  unfold Text.trimRight
  rw [List.reverse_append, List.reverse_singleton, List.singleton_append, List.dropWhile_cons]
  split
  · rfl
  · simp

/-- A dot is no blank, so a prelude that starts with one is trimmed at its end only. -/
theorem trim_dot (raw : List Char) :
    (⟨0, '.' :: raw⟩ : Slice).trim isBlank = ⟨0, Text.trimRight isBlank ('.' :: raw)⟩ := rfl

/-- A selector that ends in no blank is not trimmed. -/
theorem trim_dot_eq_self {raw : List Char} (h : raw.getLast?.any isBlank = false) :
    (⟨0, '.' :: raw⟩ : Slice).trim isBlank = ⟨0, '.' :: raw⟩ := by
  rw [trim_dot]
  rcases List.eq_nil_or_concat' raw with rfl | ⟨front, last, rfl⟩
  · rfl
  · rw [List.getLast?_concat] at h
    have hlast : isBlank last = false := h
    rw [← List.cons_append, trimRight_concat, hlast]
    rfl

/-- A selector that ends in a blank loses it. -/
theorem byteLen_trim_dot_lt {raw : List Char} (h : raw.getLast?.any isBlank = true) :
    byteLen ((⟨0, '.' :: raw⟩ : Slice).trim isBlank).text < byteLen ('.' :: raw) := by
  rw [trim_dot]
  rcases List.eq_nil_or_concat' raw with rfl | ⟨front, last, rfl⟩
  · exact absurd h (by decide)
  · rw [List.getLast?_concat] at h
    have hlast : isBlank last = true := h
    obtain ⟨before, after, hsplit, _⟩ :=
      Slice.inside_trimRight isBlank (⟨0, '.' :: front⟩ : Slice)
    have hlength := congrArg byteLen hsplit
    simp only [byteLen_append, Slice.trimRight] at hlength
    have hpos := last.utf8Size_pos
    show byteLen (Text.trimRight isBlank (('.' :: front) ++ [last])) < _
    rw [trimRight_concat, if_pos hlast, ← List.cons_append, byteLen_append, byteLen_cons last]
    omega

/-- A comma outside of brackets is missing from the branches. -/
theorem byteLen_branch_add_le {depth start : Nat} {branch cs : List Char} {piece : Slice}
    (h : piece ∈ branchesFrom depth start branch (cs.map fun c => (c, Mask.Paint.keep))) :
    byteLen piece.text + (if hasBareComma depth cs then 1 else 0) ≤
      byteLen branch + byteLen cs := by
  induction cs generalizing depth start branch with
  | nil =>
    rw [List.mem_singleton.mp h]
    simp [hasBareComma]
  | cons c cs ih =>
    have hpos := c.utf8Size_pos
    rw [List.map_cons] at h
    unfold branchesFrom at h
    rw [if_pos rfl] at h
    unfold hasBareComma
    rw [byteLen_cons]
    by_cases hopen : isOpenBracket c = true
    · rw [if_pos hopen] at h ⊢
      have hle := ih h
      rw [byteLen_cons] at hle
      omega
    · rw [if_neg hopen] at h ⊢
      by_cases hclose : isCloseBracket c = true
      · rw [if_pos hclose] at h ⊢
        have hle := ih h
        rw [byteLen_cons] at hle
        omega
      · rw [if_neg hclose] at h ⊢
        -- the comma itself belongs to no branch
        by_cases hcomma : c = ',' ∧ depth = 0
        · rw [if_pos hcomma] at h
          rcases List.mem_cons.mp h with rfl | hrest
          · show byteLen branch.reverse + _ ≤ _
            rw [byteLen_reverse]
            split <;> omega
          · have hle := ih hrest
            rw [byteLen_nil] at hle
            split <;> omega
        · rw [if_neg hcomma] at h
          have hle := ih h
          have hno : (c == ',' && depth == 0) = false := by simpa using hcomma
          rw [hno, Bool.false_or]
          rw [byteLen_cons] at hle
          omega

/-- What masking hides is neither a bracket nor a comma. -/
theorem brackets_of_hidden {paint : Mask.Paint} (h : paint ≠ .keep) (c : Char) (depth : Nat)
    (cs : List Char) :
    bracketDepth depth (paint.apply c ++ cs) = bracketDepth depth cs ∧
      hasBareComma depth (paint.apply c ++ cs) = hasBareComma depth cs := by
  have hfillers : ∀ (filler : Char) (n : Nat), filler = ' ' ∨ filler = Mask.dynamic →
      bracketDepth depth (List.replicate n filler ++ cs) = bracketDepth depth cs ∧
        hasBareComma depth (List.replicate n filler ++ cs) = hasBareComma depth cs := by
    intro filler n hfiller
    induction n with
    | zero => exact ⟨rfl, rfl⟩
    | succ n ih => rcases hfiller with rfl | rfl <;> exact ih
  cases paint with
  | keep => exact absurd rfl h
  | blank => exact hfillers _ _ (.inl rfl)
  | unknown => exact hfillers _ _ (.inr rfl)

/-- Without a comma outside of brackets a text belongs to one branch, also if other text follows. -/
theorem branchesFrom_append {depth : Nat} {painted : List (Char × Mask.Paint)}
    (h : hasBareComma depth (Mask.render painted) = false) (start : Nat) (branch : List Char)
    (rest : List (Char × Mask.Paint)) :
    branchesFrom depth start branch (painted ++ rest) =
      branchesFrom (bracketDepth depth (Mask.render painted)) start
        ((painted.map Prod.fst).reverse ++ branch) rest := by
  induction painted generalizing depth branch with
  | nil => rfl
  | cons first painted ih =>
    obtain ⟨c, paint⟩ := first
    have hrender : Mask.render ((c, paint) :: painted) = paint.apply c ++ Mask.render painted := rfl
    rw [hrender] at h ⊢
    rw [List.cons_append, branchesFrom, List.map_cons, List.reverse_cons, List.append_assoc]
    -- a masked character joins the branch; only a kept one can be a bracket or a comma
    by_cases hkeep : paint = .keep
    · subst hkeep
      have hkept : Mask.Paint.keep.apply c ++ Mask.render painted = c :: Mask.render painted := rfl
      rw [hkept] at h ⊢
      unfold hasBareComma at h
      unfold bracketDepth
      rw [if_pos rfl]
      split at h
      · next hopen =>
        rw [if_pos hopen, if_pos hopen]
        exact ih h _
      · next hopen =>
        rw [if_neg hopen, if_neg hopen]
        split at h
        · next hclose =>
          rw [if_pos hclose, if_pos hclose]
          exact ih h _
        · next hclose =>
          rw [Bool.or_eq_false_iff] at h
          have hcomma : ¬(c = ',' ∧ depth = 0) := by simpa using h.1
          rw [if_neg hclose, if_neg hclose, if_neg hcomma]
          exact ih h.2 _
    · obtain ⟨hdepth, hcomma⟩ := brackets_of_hidden hkeep c depth (Mask.render painted)
      rw [hcomma] at h
      rw [if_neg hkeep, hdepth]
      exact ih h _

/-- Without a comma between branches there is one branch. -/
theorem branchesFrom_eq_singleton {depth : Nat} (start : Nat) {painted : List (Char × Mask.Paint)}
    (h : hasBareComma depth (Mask.render painted) = false) :
    branchesFrom depth start [] painted = [⟨start, painted.map Prod.fst⟩] := by
  have hwhole := branchesFrom_append h start [] []
  rw [List.append_nil, List.append_nil] at hwhole
  rw [hwhole, branchesFrom, List.reverse_reverse]

/-! ### The declared names -/

theorem one_add_rawLen_le {s : Slice} {t : Token} (h : t ∈ tokens s) :
    1 + t.rawLen ≤ byteLen s.text := by
  obtain ⟨hstart, hstop⟩ := (tokens_ordered s).2 t h
  unfold Token.stop Slice.stop at hstop
  omega

/-- A token is no longer than its prelude. -/
theorem one_add_rawLen_le_prelude {prelude : Slice} {t : Token}
    (h : t ∈ Stylesheet.preludeTokens prelude) : 1 + t.rawLen ≤ byteLen prelude.text := by
  obtain ⟨branch, hbranch, ht⟩ := List.mem_flatMap.mp h
  obtain ⟨hstart, hstop⟩ := ((parts_branches prelude).cut branch hbranch).bounds
  have hle := one_add_rawLen_le ht
  unfold Slice.stop at hstop
  omega

/-- A declared name lies in a stretch of the stylesheet. -/
theorem exists_segment_of_mem_declaredTokens {css : List Char} {t : Token}
    (h : t ∈ Stylesheet.declaredTokens (.ofText css)) :
    ∃ segment ∈ Stylesheet.segments ⟨0, mask css⟩,
      1 + t.rawLen ≤ byteLen segment.slice.text := by
  obtain ⟨prelude, hprelude, ht⟩ := List.mem_flatMap.mp h
  obtain ⟨segment, hsegment, hsome⟩ := List.mem_filterMap.mp hprelude
  obtain ⟨hstart, hstop⟩ := (Stylesheet.cutFrom_of_prelude? hsome).bounds
  have hle := one_add_rawLen_le_prelude ht
  refine ⟨segment, hsegment, ?_⟩
  unfold Slice.stop at hstop
  omega

/-- A marker and a written form are read as one name, up to where the form ends. -/
theorem tokenRecogniser_of_written {raw name : List Char} (h : Written raw name) (hne : name ≠ [])
    (hdynamic : Mask.dynamic ∉ name) (hdigit : raw.head?.any Char.isDigit = false) (kind : NameKind)
    (offset : Nat) (before : List Char) {rest : List Char} (hrest : EndsName rest) :
    tokenRecogniser ⟨offset, before, kind.marker :: (raw ++ rest)⟩ =
      some (some ⟨offset, kind, String.ofList name, byteLen raw⟩, 1 + raw.length) := by
  have hmarker : isFlat kind.marker = true := by cases kind <;> decide
  have hkind : NameKind.ofMarker? kind.marker = some kind := by cases kind <;> rfl
  have hraw : Token.ofRaw? offset kind raw =
      some ⟨offset, kind, String.ofList name, byteLen raw⟩ := by
    unfold Token.ofRaw?
    simp only [h.unescape_eq, hdigit]
    rw [if_neg]
    simpa [hne] using hdynamic
  rw [tokenRecogniser_of_isFlat hmarker, hkind, h.takeName_eq hrest]
  show some (Token.ofRaw? offset kind raw, _) = _
  rw [hraw]

/-- The whole of a written form is read as one name. -/
theorem tokens_dot {raw name : List Char} (h : Written raw name) (hne : name ≠ [])
    (hdynamic : Mask.dynamic ∉ name) (hdigit : raw.head?.any Char.isDigit = false) (offset : Nat) :
    tokens ⟨offset, '.' :: raw⟩ = [⟨offset, .className, String.ofList name, byteLen raw⟩] := by
  have hends : EndsName [] := fun c hc => absurd hc (by simp)
  have hfirst := tokenRecogniser_of_written h hne hdynamic hdigit .className offset [] hends
  rw [List.append_nil] at hfirst
  show (tokenRecogniser.scan ⟨offset, [], NameKind.className.marker :: raw⟩).filterMap id = _
  rw [Recogniser.scan_of_some (by simp) (by omega) hfirst, Recogniser.scan_of_rest_nil]
  · rfl
  · show ('.' :: raw).drop (1 + raw.length) = []
    rw [Nat.add_comm, List.drop_succ_cons, List.drop_length]

/-- A name that the other passes leave alone is declared. -/
theorem declaredTokens_of_staysWhole {raw name : List Char} (h : Written raw name)
    (hwhole : staysWhole name = true) (hne : name ≠ []) (hdynamic : Mask.dynamic ∉ name)
    (hdigit : raw.head?.any Char.isDigit = false) :
    Stylesheet.declaredTokens (.ofText (classRule raw)) =
      [⟨0, .className, String.ofList name, byteLen raw⟩] := by
  simp only [staysWhole, Bool.and_eq_true, Bool.not_eq_true'] at hwhole
  obtain ⟨⟨hstructure, hblank⟩, hcomma⟩ := hwhole
  rw [← h.any_isStructure] at hstructure
  rw [← h.getLast?_eq] at hblank
  rw [← h.hasBareComma_eq] at hcomma
  unfold Stylesheet.declaredTokens
  -- the rule is one prelude, nothing is trimmed off it, and it is one branch
  rw [preludes_classRule h hstructure, trim_dot_eq_self hblank, List.flatMap_singleton]
  unfold Stylesheet.preludeTokens branches
  have hpaint := (paint_of_written h).1
  have hbare : hasBareComma 0 (Mask.render (Mask.paint ('.' :: raw))) = false := by
    rw [hpaint, Mask.render_keep]
    exact hcomma
  rw [branchesFrom_eq_singleton 0 hbare, List.flatMap_singleton, Mask.paint,
    Mask.map_fst_paintFrom]
  exact tokens_dot h hne hdynamic hdigit 0

/-- A name that some other pass acts on is declared by no rule for it, not even in part with the
rest of it: what is declared is shorter. -/
theorem rawLen_lt_of_not_staysWhole {raw name : List Char} (h : Written raw name)
    (hbroken : staysWhole name = false) {t : Token}
    (ht : t ∈ Stylesheet.declaredTokens (.ofText (classRule raw))) : t.rawLen < byteLen raw := by
  have hdot : byteLen ('.' :: raw) = 1 + byteLen raw := rfl
  cases hstructure : raw.any isStructure with
  | true =>
    -- the stylesheet is cut inside of the name
    obtain ⟨segment, hsegment, hle⟩ := exists_segment_of_mem_declaredTokens ht
    rw [(paint_of_written h).2] at hsegment
    have hcut := byteLen_segment_add_le hsegment
    have hinner : 0 < raw.countP isStructure := by
      obtain ⟨c, hc, hcstructure⟩ := List.any_eq_true.mp hstructure
      exact List.countP_pos_iff.mpr ⟨c, hc, hcstructure⟩
    have hcount : (classRule raw).countP isStructure = raw.countP isStructure + 2 := by
      show ('.' :: (raw ++ ['{', '}'])).countP isStructure = _
      rw [List.countP_cons, List.countP_append]
      rfl
    have hsize : byteLen (classRule raw) = 1 + byteLen raw + 2 := by
      show byteLen ('.' :: (raw ++ ['{', '}'])) = _
      rw [byteLen_cons, byteLen_append, ← Nat.add_assoc]
      rfl
    rw [hcount, hsize, byteLen_nil] at hcut
    omega
  | false =>
    unfold Stylesheet.declaredTokens at ht
    rw [preludes_classRule h hstructure, List.flatMap_singleton] at ht
    cases hblank : raw.getLast?.any isBlank with
    | true =>
      -- the end of the name is trimmed
      have hle := one_add_rawLen_le_prelude ht
      have hlt := byteLen_trim_dot_lt hblank
      omega
    | false =>
      -- the prelude is cut at a comma of the name
      have hcomma : hasBareComma 0 ('.' :: raw) = true := by
        show hasBareComma 0 raw = true
        rw [h.any_isStructure] at hstructure
        rw [h.getLast?_eq] at hblank
        unfold staysWhole at hbroken
        rw [hstructure, hblank] at hbroken
        rw [h.hasBareComma_eq]
        simpa using hbroken
      rw [trim_dot_eq_self hblank] at ht
      obtain ⟨branch, hbranch, ht⟩ := List.mem_flatMap.mp ht
      unfold branches at hbranch
      rw [(paint_of_written h).1] at hbranch
      have hcut := byteLen_branch_add_le hbranch
      have hle := one_add_rawLen_le ht
      rw [hcomma, if_pos rfl, byteLen_nil] at hcut
      omega

/-- **Escaped names.** A rule for a name that is written with backslashes declares that name and
nothing else, if the name holds no brace and no semicolon, does not end with a blank and has commas
in brackets only. Otherwise it does not: each name that is declared is shorter than the written
one. -/
theorem escaped_rule_declares_name (name : List Char) (hne : name ≠ [])
    (hdynamic : Mask.dynamic ∉ name) :
    let selectors := Stylesheet.selectors (classRule (escape name))
    (staysWhole name = true → ∃ s, selectors = [s] ∧ s.toToken =
      ⟨0, .className, String.ofList name, byteLen (escape name)⟩) ∧
    (staysWhole name = false → ∀ s ∈ selectors, s.rawLen < byteLen (escape name)) := by
  intro selectors
  obtain ⟨hwritten, hdigit⟩ := written_escape name
  refine ⟨fun hwhole => ?_, fun hbroken s hs => ?_⟩
  · have hdeclared := declaredTokens_of_staysWhole hwritten hwhole hne hdynamic hdigit
    have hselectors : selectors = (Stylesheet.declaredTokens _).map (Stylesheet.locate _) := rfl
    rw [hdeclared, List.map_singleton] at hselectors
    exact ⟨_, hselectors, rfl⟩
  · obtain ⟨t, ht, rfl⟩ := List.mem_map.mp hs
    exact rawLen_lt_of_not_staysWhole hwritten hbroken ht

/-- A name with a leading digit, a backslash, an inner blank and commas in brackets is declared. -/
theorem escaped_rule_declares_name_brackets :
    let name := "1\\a é(b,c)".toList
    name ≠ [] ∧ Mask.dynamic ∉ name ∧ staysWhole name = true ∧
      ∃ s, Stylesheet.selectors (classRule (escape name)) = [s] ∧
        s.toToken = ⟨0, .className, "1\\a é(b,c)", 17⟩ := by
  intro name
  have hne : name ≠ [] := by decide
  have hdynamic : Mask.dynamic ∉ name := by decide
  have hwhole : staysWhole name = true := by decide
  exact ⟨hne, hdynamic, hwhole, (escaped_rule_declares_name name hne hdynamic).1 hwhole⟩

/-- A comma in a name cuts it, in spite of the backslash before it. -/
theorem escaped_comma_cuts_name :
    escape "a,b".toList = "a\\,b".toList ∧
      ¬∃ s, Stylesheet.selectors (classRule (escape "a,b".toList)) = [s] ∧
        s.kind = .className ∧ s.name = "a,b" ∧ s.rawLen = byteLen (escape "a,b".toList) := by
  have hselectors : Stylesheet.selectors (classRule (escape "a,b".toList)) =
      [⟨⟨0, .className, "a", 2⟩, ⟨0, 0⟩⟩] := by decide +kernel
  refine ⟨by decide, ?_⟩
  rintro ⟨s, hs, _, hname, _⟩
  rw [hselectors] at hs
  rw [← (List.cons.inj hs).1] at hname
  exact absurd hname (by decide)

end StyleAudit
