import StyleAudit.Proofs.NestedScripts
import StyleAudit.Proofs.QuotedSelectors

/-!
# Literal arguments of a call

A call is read in three passes that know nothing of each other: its text is cut out by brackets and
quotes, it is masked like a stylesheet and cut at commas, and a literal is read at the start of each
argument. On literals without quotes, backslashes and template expressions in them the passes agree.

* **`wellNested_argumentsText`**: brackets are matched around arguments.
* **`Argument.paintFrom_text`**: masking blanks out the literal and is in code again behind it.
* **`map_literalAt?_callArguments`**: each argument is read as its literal, at its own place.
-/

namespace StyleAudit

open Text

theorem Text.ne_of_isBlank {c d : Char} (hc : isBlank c = true) (hd : isBlank d = false) :
    c ≠ d := by
  rintro rfl
  exact Bool.false_ne_true (hd.symm.trans hc)

theorem Mask.not_isQuote_of_isBlank {c : Char} (hc : isBlank c = true) : isQuote c = false := by
  simp only [isQuote, Bool.or_eq_false_iff, beq_eq_false_iff_ne]
  exact ⟨⟨ne_of_isBlank hc (by decide), ne_of_isBlank hc (by decide)⟩, ne_of_isBlank hc (by decide)⟩

theorem not_isBracket_of_isBlank {c : Char} (hc : isBlank c = true) :
    isOpenBracket c = false ∧ isCloseBracket c = false := by
  have hne : ∀ d, isBlank d = false → (c == d) = false :=
    fun d hd => beq_false_of_ne (ne_of_isBlank hc hd)
  simp only [isOpenBracket, isCloseBracket, Bool.or_eq_false_iff]
  exact ⟨⟨⟨hne _ (by decide), hne _ (by decide)⟩, hne _ (by decide)⟩,
    ⟨⟨hne _ (by decide), hne _ (by decide)⟩, hne _ (by decide)⟩⟩

/-- A blank is code and opens nothing. -/
theorem Mask.step_blank {c : Char} (hc : isBlank c = true) (parens : Nat) (next : Option Char) :
    step ⟨.code, parens⟩ c next = (⟨.code, parens⟩, .keep) := by
  have hne : ∀ d, isBlank d = false → c ≠ d := fun d => ne_of_isBlank hc
  have hslash : c ≠ '/' := hne _ (by decide)
  have hmark : isInterpolationMark c = false := by
    simp only [isInterpolationMark, Bool.or_eq_false_iff, beq_eq_false_iff_ne]
    exact ⟨⟨hne _ (by decide), hne _ (by decide)⟩, hne _ (by decide)⟩
  show stepCode parens c next = _
  unfold stepCode
  rw [if_neg (hne _ (by decide)), if_neg fun h => hslash h.1, if_neg fun h => hslash h.1,
    not_isQuote_of_isBlank hc, if_neg Bool.false_ne_true, hmark,
    if_neg fun h => Bool.false_ne_true h.1, if_neg (hne _ (by decide)), if_neg (hne _ (by decide))]

namespace Script

/-- Whether `c` stands for itself in every literal: it is no quote, no backslash, and opens no
expression of a template. -/
def isInert (c : Char) : Bool := !(Mask.isQuote c || c == '\\' || c == '$')

/-- Inert characters end no literal and open no placeholder in it. -/
theorem isInert_iff {c : Char} :
    isInert c = true ↔ Mask.isQuote c = false ∧ c ≠ '\\' ∧ c ≠ '$' := by
  simp [isInert, and_assoc]

/-- A literal argument, with the blanks before it. -/
structure Argument where
  gap : List Char
  quote : Char
  body : List Char
  blank : gap.all isBlank = true := by decide
  isQuote : Mask.isQuote quote = true := by decide
  inert : body.all isInert = true := by decide

namespace Argument

def literalText (a : Argument) : List Char := a.quote :: (a.body ++ [a.quote])

def text (a : Argument) : List Char := a.gap ++ a.literalText

/-- The literal of an argument that is written at an offset. -/
def literal (a : Argument) (offset : Nat) : Literal :=
  ⟨a.quote, offset + byteLen a.gap + 1, a.body⟩

variable (a : Argument)

theorem ne_quote {c : Char} (hc : isInert c = true) : c ≠ a.quote := by
  rintro rfl
  exact Bool.false_ne_true ((isInert_iff.mp hc).1.symm.trans a.isQuote)

theorem quote_ne_backslash : a.quote ≠ '\\' := Mask.ne_of_isQuote a.isQuote rfl

/-! ### Brackets -/

/-- The body of a literal runs to its closing quote. -/
theorem wellNested_body : WellNested (.literal a.quote) a.body := by
  have hinert : ∀ c ∈ a.body, isInert c = true := List.all_eq_true.mp a.inert
  generalize a.body = body at hinert
  induction body with
  | nil => exact .nil _
  | cons c body ih =>
    obtain ⟨hc, hbody⟩ := List.forall_mem_cons.mp hinert
    obtain ⟨_, hbackslash, hdollar⟩ := isInert_iff.mp hc
    exact .character (a.ne_quote hc) hbackslash (fun h => hdollar h.2.1) (ih hbody)

/-- Reading behind the opening quote stops at the closing one. -/
theorem quotedText_body (rest : List Char) :
    quotedText a.quote (a.body ++ a.quote :: rest) = a.body := by
  rw [quotedText, closeFrom_quoted a.wellNested_body a.isQuote]

/-- An argument closes nothing and leaves nothing open. -/
theorem wellNested_text_append {rest : List Char} (h : WellNested .code rest) :
    WellNested .code (a.text ++ rest) := by
  have hliteral : WellNested .code (a.literalText ++ rest) := by
    rw [literalText, List.cons_append, List.append_assoc, List.singleton_append]
    exact .literal a.isQuote a.wellNested_body h
  -- the induction is on the blanks, the literal stands behind them
  have hblank : ∀ c ∈ a.gap, isBlank c = true := List.all_eq_true.mp a.blank
  rw [text, List.append_assoc]
  generalize a.gap = gap at hblank
  induction gap with
  | nil => exact hliteral
  | cons c gap ih =>
    obtain ⟨hc, hgap⟩ := List.forall_mem_cons.mp hblank
    obtain ⟨hopen, hclose⟩ := not_isBracket_of_isBlank hc
    exact .plain hopen hclose (Mask.not_isQuote_of_isBlank hc) (ih hgap)

/-! ### Commas -/

/-- What becomes of the characters of an argument if it is masked. -/
def painted (a : Argument) : List (Char × Mask.Paint) :=
  a.gap.map (·, .keep) ++ a.literalText.map (·, .blank)

/-- Masking keeps the blanks before a literal, blanks the literal with its quotes, and is in code
again behind it. -/
theorem paintFrom_text (parens : Nat) (rest : List Char) :
    Mask.paintFrom ⟨.code, parens⟩ (a.text ++ rest) =
      a.painted ++ Mask.paintFrom ⟨.code, parens⟩ rest := by
  have hinert : ∀ c ∈ a.body, isInert c = true := List.all_eq_true.mp a.inert
  have hbody : Mask.paintFrom ⟨.quoted a.quote, parens⟩ (a.body ++ a.quote :: rest) =
      (a.body ++ [a.quote]).map (·, .blank) ++ Mask.paintFrom ⟨.code, parens⟩ rest := by
    generalize a.body = body at hinert
    induction body with
    | nil =>
      rw [List.nil_append, Mask.paintFrom, Mask.step_quoted,
        if_neg a.quote_ne_backslash, if_pos rfl]
      rfl
    | cons c body ih =>
      obtain ⟨hc, hbody⟩ := List.forall_mem_cons.mp hinert
      rw [List.cons_append, Mask.paintFrom, Mask.step_quoted, if_neg (isInert_iff.mp hc).2.1,
        if_neg (a.ne_quote hc), ih hbody]
      rfl
  -- the opening quote, the body and the closing quote
  have hliteral : Mask.paintFrom ⟨.code, parens⟩ (a.literalText ++ rest) =
      a.literalText.map (·, .blank) ++ Mask.paintFrom ⟨.code, parens⟩ rest := by
    have hstep : ∀ next,
        Mask.step ⟨.code, parens⟩ a.quote next = (⟨.quoted a.quote, parens⟩, .blank) := by
      have hquote := a.isQuote
      simp only [Mask.isQuote, Bool.or_eq_true, beq_iff_eq] at hquote
      intro next
      rcases hquote with (h | h) | h <;> rw [h] <;> rfl
    rw [literalText, List.cons_append, List.append_assoc, List.singleton_append, Mask.paintFrom,
      hstep, hbody]
    rfl
  have hblank : ∀ c ∈ a.gap, isBlank c = true := List.all_eq_true.mp a.blank
  rw [text, painted, List.append_assoc]
  generalize a.gap = gap at hblank
  induction gap with
  | nil => exact hliteral
  | cons c gap ih =>
    obtain ⟨hc, hgap⟩ := List.forall_mem_cons.mp hblank
    rw [List.cons_append, Mask.paintFrom, Mask.step_blank hc, ih hgap]
    rfl

/-- No comma parts an argument. -/
theorem branchesFrom_painted (start : Nat) (branch : List Char) (rest : List (Char × Mask.Paint)) :
    branchesFrom 0 start branch (a.painted ++ rest) =
      branchesFrom 0 start (a.text.reverse ++ branch) rest := by
  -- a character that is masked is no comma
  have hliteral : ∀ cs branch : List Char,
      branchesFrom 0 start branch (cs.map (·, .blank) ++ rest) =
        branchesFrom 0 start (cs.reverse ++ branch) rest := by
    intro cs
    induction cs with
    | nil => exact fun _ => rfl
    | cons c cs ih =>
      intro branch
      rw [List.map_cons, List.cons_append, branchesFrom, if_neg (by decide), ih]
      simp
  have hblank : ∀ c ∈ a.gap, isBlank c = true := List.all_eq_true.mp a.blank
  rw [painted, text, List.append_assoc]
  generalize a.gap = gap at hblank
  induction gap generalizing branch with
  | nil => exact hliteral a.literalText branch
  | cons c gap ih =>
    obtain ⟨hc, hgap⟩ := List.forall_mem_cons.mp hblank
    obtain ⟨hopen, hclose⟩ := not_isBracket_of_isBlank hc
    rw [List.map_cons, List.cons_append, branchesFrom, if_pos rfl, hopen, hclose,
      if_neg Bool.false_ne_true, if_neg Bool.false_ne_true,
      if_neg fun h => ne_of_isBlank hc (by decide) h.1, ih (c :: branch) hgap]
    simp

end Argument

/-! ### All arguments -/

/-- The arguments of a call, with commas between them. -/
def argumentsText : List Argument → List Char
  | [] => []
  | [a] => a.text
  | a :: b :: rest => a.text ++ ',' :: argumentsText (b :: rest)

/-- The literals of arguments that are written from an offset on. -/
def literalsAt (offset : Nat) : List Argument → List Literal
  | [] => []
  | a :: rest => a.literal offset :: literalsAt (offset + byteLen a.text + 1) rest

/-- The parts of such a text between its commas. -/
def partsAt (offset : Nat) : List Argument → List Slice
  | [] => []
  | a :: rest => ⟨offset, a.text⟩ :: partsAt (offset + byteLen a.text + 1) rest

/-- Nothing is left open behind a row of literal arguments. -/
theorem wellNested_argumentsText (args : List Argument) :
    WellNested .code (argumentsText args) := by
  fun_induction argumentsText args with
  | case1 => exact .nil _
  | case2 a =>
    have htext := a.wellNested_text_append (.nil .code)
    rw [List.append_nil] at htext
    exact htext
  | case3 a b rest ih => exact a.wellNested_text_append (.plain rfl rfl rfl ih)

/-- The parenthesis that closes the call is the one behind its arguments. -/
theorem bracketed_argumentsText (args : List Argument) :
    bracketed (argumentsText args ++ [')']) = argumentsText args := by
  rw [bracketed, closeFrom_bracketed (wellNested_argumentsText args) rfl]

/-- A row of literal arguments is cut at its commas, and nowhere inside a literal. -/
theorem branches_argumentsText (offset : Nat) (a : Argument) (rest : List Argument) :
    branches ⟨offset, argumentsText (a :: rest)⟩ = partsAt offset (a :: rest) := by
  show branchesFrom 0 offset [] (Mask.paintFrom ⟨.code, 0⟩ (argumentsText (a :: rest))) = _
  induction rest generalizing offset a with
  | nil =>
    have hpaint := a.paintFrom_text 0 []
    rw [List.append_nil] at hpaint
    rw [argumentsText, hpaint, a.branchesFrom_painted, List.append_nil, Mask.paintFrom,
      branchesFrom, List.reverse_reverse]
    rfl
  | cons b rest ih =>
    -- the comma stands in code, outside every bracket
    have hcomma : ∀ cs, Mask.paintFrom ⟨.code, 0⟩ (',' :: cs) =
        (',', .keep) :: Mask.paintFrom ⟨.code, 0⟩ cs := fun cs => rfl
    rw [argumentsText, a.paintFrom_text, a.branchesFrom_painted, hcomma, List.append_nil,
      branchesFrom, if_pos rfl, if_neg (by decide), if_neg (by decide), if_pos ⟨rfl, rfl⟩,
      List.reverse_reverse, byteLen_reverse, ih]
    rfl

/-- Without its blanks an argument starts with its quote. -/
theorem Argument.trimLeft_text (a : Argument) (offset : Nat) :
    Slice.trimLeft isBlank ⟨offset, a.text⟩ = ⟨offset + byteLen a.gap, a.literalText⟩ := by
  have hblank : ∀ c ∈ a.gap, isBlank c = true := List.all_eq_true.mp a.blank
  have hquote : ¬isBlank a.quote = true := by
    intro hblank
    exact Bool.false_ne_true ((Mask.not_isQuote_of_isBlank hblank).symm.trans a.isQuote)
  rw [Slice.trimLeft, Argument.text, List.takeWhile_append_of_pos hblank,
    List.dropWhile_append_of_pos hblank, Argument.literalText, List.takeWhile_cons_of_neg hquote,
    List.dropWhile_cons_of_neg hquote, List.append_nil]

/-- The literal is read where its argument starts, whatever follows. -/
theorem Argument.literalAt?_dropTo (a : Argument) (offset : Nat) (front rest : List Char) :
    literalAt? (Slice.dropTo (offset + byteLen front + byteLen a.gap)
      ⟨offset, front ++ (a.text ++ rest)⟩) = some (a.literal (offset + byteLen front)) := by
  have hdrop : Slice.dropTo (offset + byteLen front + byteLen a.gap)
      ⟨offset, front ++ (a.text ++ rest)⟩ =
        ⟨offset + byteLen front + byteLen a.gap, a.quote :: (a.body ++ a.quote :: rest)⟩ := by
    have hbytes : offset + byteLen front + byteLen a.gap - offset = byteLen (front ++ a.gap) := by
      rw [byteLen_append]
      omega
    have hsplit : front ++ (a.text ++ rest) =
        (front ++ a.gap) ++ (a.quote :: (a.body ++ a.quote :: rest)) := by
      simp [Argument.text, Argument.literalText]
    rw [Slice.dropTo, hbytes, hsplit, Slice.dropBytes_append]
  rw [hdrop]
  show (if Mask.isQuote a.quote then _ else _) = _
  rw [if_pos a.isQuote, a.quotedText_body]
  rfl

/-- The text before an argument grows with each one that is read. -/
theorem map_literalAt?_partsAt (offset : Nat) (front : List Char) (args : List Argument) :
    ((((partsAt (offset + byteLen front) args).map (Slice.trimLeft isBlank)).filter
      fun arg => !arg.text.isEmpty).map fun arg =>
        literalAt? (Slice.dropTo arg.offset ⟨offset, front ++ (argumentsText args ++ [')'])⟩)) =
      (literalsAt (offset + byteLen front) args).map some := by
  induction args generalizing front with
  | nil => rfl
  | cons a rest ih =>
    rw [partsAt, List.map_cons, a.trimLeft_text, List.filter_cons_of_pos (by rfl), List.map_cons,
      literalsAt, List.map_cons]
    cases rest with
    | nil =>
      rw [argumentsText, a.literalAt?_dropTo]
      rfl
    | cons b rest =>
      -- this argument and its comma stand before the later ones
      have hfront : ∀ more, front ++ (argumentsText (a :: b :: rest) ++ more) =
          (front ++ (a.text ++ [','])) ++ (argumentsText (b :: rest) ++ more) := by
        simp [argumentsText]
      have hbytes : offset + byteLen (front ++ (a.text ++ [','])) =
          offset + byteLen front + byteLen a.text + 1 := by
        simp only [byteLen_append, byteLen_cons, byteLen_nil, show ','.utf8Size = 1 from rfl]
        omega
      have hlater := ih (front ++ (a.text ++ [',']))
      rw [← hfront, hbytes] at hlater
      rw [hlater, argumentsText, List.append_assoc, a.literalAt?_dropTo]

/-- Each argument is read as its literal, at its own place. -/
theorem map_literalAt?_callArguments (offset : Nat) (args : List Argument) :
    (callArguments ⟨offset, '(' :: (argumentsText args ++ [')'])⟩).map literalAt? =
      (literalsAt (offset + 1) args).map some := by
  cases args with
  | nil => rfl
  | cons a rest =>
    unfold callArguments
    simp only [bracketed_argumentsText, branches_argumentsText]
    rw [List.map_map]
    exact map_literalAt?_partsAt (offset + 1) [] (a :: rest)

/-- The literals of a call are read where they stand, from the parenthesis to its end. -/
theorem filterMap_literalAt?_callArguments (offset : Nat) (args : List Argument) :
    (callArguments ⟨offset, '(' :: (argumentsText args ++ [')'])⟩).filterMap literalAt? =
      literalsAt (offset + 1) args := by
  have hall := congrArg (List.filterMap id) (map_literalAt?_callArguments offset args)
  rw [List.filterMap_map, List.filterMap_map] at hall
  exact hall.trans List.filterMap_some

/-- A character of literal arguments is a comma, a blank, a quote or a character of a body. -/
theorem not_mem_argumentsText {d : Char} (hcomma : d ≠ ',') (hblank : isBlank d = false)
    (hquote : Mask.isQuote d = false) {args : List Argument} (hbody : ∀ a ∈ args, d ∉ a.body) :
    d ∉ argumentsText args := by
  have hone : ∀ a ∈ args, d ∉ a.text := by
    intro a ha
    have hne : d ≠ a.quote := fun h => Bool.false_ne_true (hquote.symm.trans (h ▸ a.isQuote))
    refine List.not_mem_append ?_ (List.not_mem_cons_of_ne_of_not_mem hne
      (List.not_mem_append (hbody a ha) (List.not_mem_cons_of_ne_of_not_mem hne List.not_mem_nil)))
    exact fun hgap => ne_of_isBlank (List.all_eq_true.mp a.blank d hgap) hblank rfl
  -- between the arguments there are only commas
  fun_induction argumentsText args with
  | case1 => exact List.not_mem_nil
  | case2 a => exact hone a List.mem_cons_self
  | case3 a b rest ih =>
    refine List.not_mem_append (hone a List.mem_cons_self)
      (List.not_mem_cons_of_ne_of_not_mem hcomma (ih ?_ ?_))
    · exact fun c hc => hbody c (List.mem_cons_of_mem a hc)
    · exact fun c hc => hone c (List.mem_cons_of_mem a hc)

end Script

/-- The first argument of a call is read as its literal. -/
theorem firstLiteral?_argument (offset : Nat) (a : Script.Argument) :
    firstLiteral? ⟨offset, '(' :: (a.text ++ [')'])⟩ = some (a.literal (offset + 1)) := by
  have hone := congrArg List.head? (Script.map_literalAt?_callArguments offset [a])
  rw [List.head?_map] at hone
  obtain ⟨arg, harg, hliteral⟩ := Option.map_eq_some_iff.mp hone
  exact Option.bind_eq_some_iff.mpr ⟨arg, harg, hliteral⟩

end StyleAudit
