import StyleAudit.Proofs.ByteScript

/-!
# Nested scripts

In a script whose brackets and literals nest as they should, each scan for a closing character stops
at the right one. In any other text it stops somewhere behind the character that opens.

* **`WellNested`** is the grammar of such scripts, and of the bodies of literals in them.
* **`closeFrom_wellNested`**: a well nested text closes nothing that was open before it and leaves
  nothing open. The induction is on the grammar, over all constructs that may be open around the
  text.
* **`Bytes.ClosingScan.calls`** lists the scans that a scan by byte offsets asks for. Each of them
  starts later (**`lt_of_mem_calls`**), so all of them come to an end (**`exists_run`**).
-/

namespace StyleAudit

open Text

theorem not_isBracket_of_isQuote {c : Char} (hc : Mask.isQuote c = true) :
    isOpenBracket c = false ∧ isCloseBracket c = false := by
  simp only [Mask.isQuote, Bool.or_eq_true, beq_iff_eq] at hc
  rcases hc with (rfl | rfl) | rfl <;> decide

theorem Mask.ne_of_isQuote {c d : Char} (hc : isQuote c = true) (hd : isQuote d = false) :
    c ≠ d := by
  rintro rfl
  exact Bool.false_ne_true (hd.symm.trans hc)

theorem ne_openBrace_of_isCloseBracket {c : Char} (hc : isCloseBracket c = true) : c ≠ '{' := by
  rintro rfl
  exact absurd hc (by decide)

namespace Script

/-! ### The grammar -/

inductive Bracket
  | round
  | square
  | curly
  deriving Repr, DecidableEq

namespace Bracket

def opening : Bracket → Char
  | round => '('
  | square => '['
  | curly => '{'

def closing : Bracket → Char
  | round => ')'
  | square => ']'
  | curly => '}'

theorem isOpenBracket_opening (b : Bracket) : isOpenBracket b.opening = true := by cases b <;> rfl

theorem isCloseBracket_closing (b : Bracket) : isCloseBracket b.closing = true := by cases b <;> rfl

end Bracket

/-- Where a piece of a script stands. -/
inductive Context
  | code
  /-- Inside of a literal with the given quote. -/
  | literal (quote : Char)
  deriving Repr, DecidableEq

/-- `WellNested context cs`: the brackets and literals of `cs` nest as they should. In code, each
bracket is closed by one of its kind and each literal by its quote. In a literal, a backslash stands
before another character, and in a template `${` opens an expression, which is code and ends with
`}`. -/
inductive WellNested : Context → List Char → Prop
  | nil (context : Context) : WellNested context []
  | plain {c : Char} {rest : List Char} (hopen : isOpenBracket c = false)
      (hclose : isCloseBracket c = false) (hquote : Mask.isQuote c = false) :
      WellNested .code rest → WellNested .code (c :: rest)
  | brackets (b : Bracket) {inner rest : List Char} :
      WellNested .code inner → WellNested .code rest →
        WellNested .code (b.opening :: (inner ++ b.closing :: rest))
  | literal {quote : Char} {body rest : List Char} (hquote : Mask.isQuote quote = true) :
      WellNested (.literal quote) body → WellNested .code rest →
        WellNested .code (quote :: (body ++ quote :: rest))
  | character {quote c : Char} {rest : List Char} (hquote : c ≠ quote) (hbackslash : c ≠ '\\')
      (htemplate : ¬(quote = templateQuote ∧ c = '$' ∧ rest.head? = some '{')) :
      WellNested (.literal quote) rest → WellNested (.literal quote) (c :: rest)
  | escaped {quote : Char} (c : Char) {rest : List Char} :
      WellNested (.literal quote) rest → WellNested (.literal quote) ('\\' :: c :: rest)
  | expression {inner rest : List Char} :
      WellNested .code inner → WellNested (.literal templateQuote) rest →
        WellNested (.literal templateQuote) ('$' :: '{' :: (inner ++ '}' :: rest))

/-! ### Closing characters -/

/-- What is open in a context: at least one bracket in code. -/
def Context.frame (depth : Nat) : Context → Frame
  | code => .brackets (depth + 1)
  | literal quote => .quoted quote

/-- The quote of a literal ends it. -/
theorem closeFrom_quote {quote : Char} (hquote : Mask.isQuote quote = true) (frame : Frame)
    (frames : List Frame) (cs : List Char) :
    closeFrom (.quoted quote) (frame :: frames) (quote :: cs) =
      cons quote (closeFrom frame frames cs) := by
  have hdollar : quote ≠ '$' := Mask.ne_of_isQuote hquote rfl
  rw [closeFrom_quoted_cons (Mask.ne_of_isQuote hquote rfl), if_neg fun h => hdollar h.2.1,
    if_pos rfl]

/-- The last quote to close ends the reading. -/
theorem closeFrom_last_quote {quote : Char} (hquote : Mask.isQuote quote = true) (cs : List Char) :
    closeFrom (.quoted quote) [] (quote :: cs) = ([], quote :: cs) := by
  have hdollar : quote ≠ '$' := Mask.ne_of_isQuote hquote rfl
  rw [closeFrom_quoted_cons (Mask.ne_of_isQuote hquote rfl), if_neg fun h => hdollar h.2.1,
    if_pos rfl]

/-- The last bracket to close ends the reading. -/
theorem closeFrom_last_bracket {closing : Char} (hclosing : isCloseBracket closing = true)
    (cs : List Char) : closeFrom (.brackets 1) [] (closing :: cs) = ([], closing :: cs) := by
  have hopen : isOpenBracket closing = false := by
    simp only [isCloseBracket, Bool.or_eq_true, beq_iff_eq] at hclosing
    rcases hclosing with (rfl | rfl) | rfl <;> decide
  rw [closeFrom_brackets_cons, hopen, hclosing, if_neg Bool.false_ne_true, if_pos rfl,
    if_pos (Nat.le_refl 1)]

/-- A bracket that is opened and closed again. -/
theorem closeFrom_brackets (b : Bracket) (depth : Nat) (outer : List Frame) {inner rest : List Char}
    (hinner : (closeFrom (.brackets (depth + 2)) outer (inner ++ b.closing :: rest)).2 =
      (closeFrom (.brackets (depth + 2)) outer (b.closing :: rest)).2) :
    (closeFrom (.brackets (depth + 1)) outer (b.opening :: (inner ++ b.closing :: rest))).2 =
      (closeFrom (.brackets (depth + 1)) outer rest).2 := by
  have hopen : isOpenBracket b.closing = false := by cases b <;> rfl
  rw [closeFrom_brackets_cons, if_pos b.isOpenBracket_opening]
  show (closeFrom (.brackets (depth + 2)) outer (inner ++ b.closing :: rest)).2 = _
  rw [hinner, closeFrom_brackets_cons, hopen, if_neg Bool.false_ne_true,
    if_pos b.isCloseBracket_closing, if_neg (by omega : ¬depth + 2 ≤ 1)]
  rfl

/-- A well nested text closes nothing that is open around it, and leaves nothing open. An open brace
behind a dollar sign would belong to the text. -/
theorem closeFrom_wellNested {context : Context} {cs : List Char} (h : WellNested context cs)
    (depth : Nat) (outer : List Frame) {rest : List Char} (hrest : rest.head? ≠ some '{') :
    (closeFrom (context.frame depth) outer (cs ++ rest)).2 =
      (closeFrom (context.frame depth) outer rest).2 := by
  induction h generalizing depth outer rest with
  | nil context => rfl
  | @plain c cs hopen hclose hquote _ ih =>
    show (closeFrom (.brackets (depth + 1)) outer (c :: (cs ++ rest))).2 = _
    rw [closeFrom_brackets_cons, hopen, hclose, hquote, if_neg Bool.false_ne_true,
      if_neg Bool.false_ne_true, if_neg Bool.false_ne_true]
    exact ih depth outer hrest
  | @brackets b inner cs _ _ ihinner ih =>
    have hclosing : (b.closing :: (cs ++ rest)).head? ≠ some '{' := fun h =>
      ne_openBrace_of_isCloseBracket b.isCloseBracket_closing (Option.some.inj h)
    rw [List.cons_append, List.append_assoc, List.cons_append]
    exact (closeFrom_brackets b depth outer (ihinner (depth + 1) outer hclosing)).trans
      (ih depth outer hrest)
  | @literal quote body cs hquote _ _ ihbody ih =>
    have hbrace : (quote :: (cs ++ rest)).head? ≠ some '{' := fun h =>
      Mask.ne_of_isQuote hquote rfl (Option.some.inj h)
    obtain ⟨hopen, hclose⟩ := not_isBracket_of_isQuote hquote
    rw [List.cons_append, List.append_assoc, List.cons_append]
    show (closeFrom (.brackets (depth + 1)) outer (quote :: (body ++ quote :: (cs ++ rest)))).2 = _
    rw [closeFrom_brackets_cons, hopen, hclose, hquote, if_neg Bool.false_ne_true,
      if_neg Bool.false_ne_true, if_pos rfl]
    -- inside of the literal the brackets around it are open
    have hbody := ihbody depth (.brackets (depth + 1) :: outer) hbrace
    refine Eq.trans hbody ?_
    show (closeFrom (.quoted quote) (.brackets (depth + 1) :: outer) (quote :: (cs ++ rest))).2 = _
    rw [closeFrom_quote hquote]
    exact ih depth outer hrest
  | @character quote c cs hquote hbackslash htemplate _ ih =>
    have hnext : ¬(quote = templateQuote ∧ c = '$' ∧ (cs ++ rest).head? = some '{') := by
      rintro ⟨htemp, hdollar, hbrace⟩
      cases cs with
      | nil => exact hrest hbrace
      | cons d ds => exact htemplate ⟨htemp, hdollar, hbrace⟩
    show (closeFrom (.quoted quote) outer (c :: (cs ++ rest))).2 = _
    rw [closeFrom_quoted_cons hbackslash, if_neg hnext, if_neg hquote]
    exact ih depth outer hrest
  | @escaped quote c cs _ ih =>
    show (closeFrom (.quoted quote) outer ('\\' :: c :: (cs ++ rest))).2 = _
    rw [closeFrom]
    exact ih depth outer hrest
  | @expression inner cs _ _ ihinner ih =>
    have hclosing : ('}' :: (cs ++ rest)).head? ≠ some '{' := fun h =>
      absurd (Option.some.inj h) (by decide)
    rw [List.cons_append, List.cons_append, List.append_assoc, List.cons_append]
    show (closeFrom (.quoted templateQuote) outer
        ('$' :: '{' :: (inner ++ '}' :: (cs ++ rest)))).2 = _
    rw [closeFrom_quoted_cons (by decide), if_pos ⟨rfl, rfl, rfl⟩]
    show (closeFrom (.brackets 0) (.quoted templateQuote :: outer)
      ('{' :: (inner ++ '}' :: (cs ++ rest)))).2 = _
    rw [closeFrom_brackets_cons, if_pos (by decide)]
    -- inside of the expression the literal around it is open
    have hinner := ihinner 0 (.quoted templateQuote :: outer) hclosing
    refine Eq.trans hinner ?_
    show (closeFrom (.brackets 1) (.quoted templateQuote :: outer) ('}' :: (cs ++ rest))).2 = _
    rw [closeFrom_brackets_cons, if_neg (by decide), if_pos (by decide), if_pos (Nat.le_refl 1)]
    exact ih depth outer hrest

/-- A well nested text ends where the construct around it is closed. -/
theorem closeFrom_closed {context : Context} {cs rest : List Char} {c : Char}
    (h : WellNested context cs) (hc : c ≠ '{')
    (hclosed : closeFrom (context.frame 0) [] (c :: rest) = ([], c :: rest)) :
    closeFrom (context.frame 0) [] (cs ++ c :: rest) = (cs, c :: rest) := by
  have hbrace : (c :: rest).head? ≠ some '{' := fun h => hc (Option.some.inj h)
  have hsecond : (closeFrom (context.frame 0) [] (cs ++ c :: rest)).2 = c :: rest := by
    rw [closeFrom_wellNested h 0 [] hbrace, hclosed]
  have hwhole := closeFrom_append (context.frame 0) [] (cs ++ c :: rest)
  rw [hsecond] at hwhole
  exact Prod.ext (List.append_cancel_right hwhole) hsecond

/-- Well nested code between brackets is read to the closing one. -/
theorem closeFrom_bracketed {inner : List Char} {closing : Char} (h : WellNested .code inner)
    (hclosing : isCloseBracket closing = true) (rest : List Char) :
    closeFrom (.brackets 1) [] (inner ++ closing :: rest) = (inner, closing :: rest) :=
  closeFrom_closed h (ne_openBrace_of_isCloseBracket hclosing)
    (closeFrom_last_bracket hclosing rest)

/-- A well nested literal is read to its closing quote. -/
theorem closeFrom_quoted {body : List Char} {quote : Char} (h : WellNested (.literal quote) body)
    (hquote : Mask.isQuote quote = true) (rest : List Char) :
    closeFrom (.quoted quote) [] (body ++ quote :: rest) = (body, quote :: rest) :=
  closeFrom_closed h (Mask.ne_of_isQuote hquote rfl) (closeFrom_last_quote hquote rest)

end Script

namespace Bytes

open Script

variable {text : List Char}

/-! ### Scans that end -/

/-- Where there is no byte, the text has ended. -/
theorem byteLen_le_of_byteAt? {i : Nat} (h : byteAt? text i = none) : byteLen text ≤ i := by
  rw [byteAt?, List.getElem?_eq_none_iff, length_encode] at h
  exact h

/-- A scan for a closing character, at the offset where it stands. -/
inductive ClosingScan
  /-- For the quote that closes a literal. -/
  | literal (quote : Char) (i : Nat)
  /-- For the bracket that closes the outermost of `depth` brackets. -/
  | brackets (depth i : Nat)
  deriving Repr, DecidableEq

namespace ClosingScan

def offset : ClosingScan → Nat
  | literal _ i => i
  | brackets _ i => i

/-- The offset at which a scan stops. -/
def run (text : List Char) : ClosingScan → Option Nat
  | literal quote i => literalEnd text quote i
  | brackets depth i => matchingClose text depth i

/-- A scan, and behind the place where it stops another one. -/
def followedBy (text : List Char) (scan : ClosingScan) (next : Nat → ClosingScan) :
    List ClosingScan :=
  scan :: (scan.run text).toList.map fun j => next (j + 1)

/-- The scans that a scan asks for at its next byte, in order. -/
def calls (text : List Char) : ClosingScan → List ClosingScan
  | literal quote i =>
    match byteAt? text i with
    | none => []
    | some b =>
      if b = '\\' then [literal quote (i + 2)]
      else if b = '$' ∧ quote = templateQuote ∧ byteAt? text (i + 1) = some '{' then
        (brackets 0 (i + 1)).followedBy text (literal quote)
      else if b = quote then []
      else [literal quote (i + 1)]
  | brackets depth i =>
    match byteAt? text i with
    | none => []
    | some b =>
      if isOpenBracket b then [brackets (depth + 1) (i + 1)]
      else if isCloseBracket b then if depth - 1 = 0 then [] else [brackets (depth - 1) (i + 1)]
      else if Mask.isQuote b then (literal b (i + 1)).followedBy text (brackets depth)
      else [brackets depth (i + 1)]

/-- The last of two scans stops where the second one does, if the first one stops. -/
theorem run_getLast?_followedBy (scan : ClosingScan) (next : Nat → ClosingScan) (i : Option Nat) :
    (scan.followedBy text next).getLast?.elim i (run text) =
      (scan.run text).bind fun j => (next (j + 1)).run text := by
  rw [followedBy]
  cases hrun : scan.run text with
  | none => exact hrun
  | some j => rfl

/-- A scan stops where the last scan stops that it asks for. One that asks for none has come to the
closing character or to the end of the text. -/
theorem run_eq (text : List Char) (scan : ClosingScan) :
    scan.run text = (scan.calls text).getLast?.elim
      (some (min scan.offset (byteLen text))) (run text) := by
  cases scan with
  | literal quote i =>
    rw [run, calls, offset]
    cases hbyte : byteAt? text i with
    | none =>
      have hle := byteLen_le_of_byteAt? hbyte
      rw [literalEnd_of_le hle, Nat.min_eq_right hle]
      rfl
    | some b =>
      rw [literalEnd_of_byteAt? hbyte, Nat.min_eq_left (lt_of_byteAt? hbyte).le]
      simp only
      split
      · rfl
      split
      · rw [run_getLast?_followedBy]
        rfl
      split
      · rfl
      · rfl
  -- the same steps, but a closing bracket of the outermost pair ends the scan
  | brackets depth i =>
    rw [run, calls, offset]
    cases hbyte : byteAt? text i with
    | none =>
      have hle := byteLen_le_of_byteAt? hbyte
      rw [matchingClose_of_le hle, Nat.min_eq_right hle]
      rfl
    | some b =>
      rw [matchingClose_of_byteAt? hbyte, Nat.min_eq_left (lt_of_byteAt? hbyte).le]
      simp only
      split
      · rfl
      split
      · split
        · rfl
        · rfl
      split
      · rw [run_getLast?_followedBy]
        rfl
      · rfl

/-- A scan does not go back, except to the end of the text. -/
theorem min_le_of_run {scan : ClosingScan} {j : Nat} (h : scan.run text = some j) :
    min scan.offset (byteLen text) ≤ j := by
  cases scan with
  | literal quote i => exact (min_le_of_closing text).1 quote i j h
  | brackets depth i => exact (min_le_of_closing text).2.1 depth i j h

/-- A scan and the one that follows it both begin further on. -/
theorem lt_of_mem_followedBy {scan later : ClosingScan} {next : Nat → ClosingScan} {i : Nat}
    (hi : i < byteLen text) (hscan : scan.offset = i + 1) (hnext : ∀ j, (next j).offset = j)
    (h : later ∈ scan.followedBy text next) : i < later.offset := by
  rcases List.mem_cons.mp h with rfl | h
  · omega
  · obtain ⟨j, hj, rfl⟩ := List.mem_map.mp h
    have hle := min_le_of_run (Option.mem_toList.mp hj)
    rw [hnext]
    omega

/-- A scan asks only for scans that start later. -/
theorem lt_of_mem_calls {scan later : ClosingScan} (h : later ∈ scan.calls text) :
    scan.offset < byteLen text ∧ scan.offset < later.offset := by
  cases scan with
  | literal quote i =>
    rw [calls] at h
    cases hbyte : byteAt? text i with
    | none =>
      rw [hbyte] at h
      exact absurd h List.not_mem_nil
    | some b =>
      have hlt := lt_of_byteAt? hbyte
      -- a scan that calls another has read a byte
      refine ⟨hlt, ?_⟩
      rw [hbyte] at h
      simp only at h
      split at h
      · rw [List.mem_singleton.mp h]
        exact Nat.lt_add_of_pos_right (by decide)
      split at h
      · exact lt_of_mem_followedBy hlt rfl (fun _ => rfl) h
      split at h
      · exact absurd h List.not_mem_nil
      · rw [List.mem_singleton.mp h]
        exact Nat.lt_succ_self i
  | brackets depth i =>
    rw [calls] at h
    cases hbyte : byteAt? text i with
    | none =>
      rw [hbyte] at h
      exact absurd h List.not_mem_nil
    | some b =>
      have hlt := lt_of_byteAt? hbyte
      refine ⟨hlt, ?_⟩
      rw [hbyte] at h
      simp only at h
      split at h
      · rw [List.mem_singleton.mp h]
        exact Nat.lt_succ_self i
      split at h
      · split at h
        · exact absurd h List.not_mem_nil
        · rw [List.mem_singleton.mp h]
          exact Nat.lt_succ_self i
      split at h
      · exact lt_of_mem_followedBy hlt rfl (fun _ => rfl) h
      · rw [List.mem_singleton.mp h]
        exact Nat.lt_succ_self i

/-- No scan calls itself for ever: each call begins further on in the text. -/
theorem wellFounded_calls (text : List Char) :
    WellFounded fun later scan : ClosingScan => later ∈ scan.calls text := by
  refine Subrelation.wf (fun {later scan} h => ?_)
    (measure fun scan => byteLen text - scan.offset).wf
  obtain ⟨hlt, hlater⟩ := lt_of_mem_calls h
  show byteLen text - later.offset < byteLen text - scan.offset
  omega

/-- Each scan stops, in the text and not before where it started. -/
theorem exists_run (text : List Char) (scan : ClosingScan) :
    ∃ j, scan.run text = some j ∧ min scan.offset (byteLen text) ≤ j ∧ j ≤ byteLen text := by
  induction scan using (wellFounded_calls text).induction with
  | _ scan ih =>
    rw [run_eq]
    cases hlast : (scan.calls text).getLast? with
    | none => exact ⟨_, rfl, Nat.le_refl _, Nat.min_le_right _ _⟩
    | some later =>
      have hmem := List.mem_of_getLast? hlast
      obtain ⟨j, hj, hle, hbound⟩ := ih later hmem
      have hlater := (lt_of_mem_calls hmem).2
      exact ⟨j, hj, by omega, hbound⟩

end ClosingScan

/-! ### Brackets and literals by byte offsets -/

/-- The matching bracket of well nested code, found by bytes. -/
theorem matchingClose_wellNested {inner : List Char} {opening closing : Char}
    (h : WellNested .code inner) (hopening : isOpenBracket opening = true)
    (hclosing : isCloseBracket closing = true) (front rest : List Char) :
    matchingClose (front ++ opening :: (inner ++ closing :: rest)) 0 (byteLen front) =
      some (byteLen front + 1 + byteLen inner) := by
  have hat : At (front ++ opening :: (inner ++ closing :: rest)) (byteLen front)
      (opening :: (inner ++ closing :: rest)) := ⟨front, rfl, rfl⟩
  obtain ⟨close, hclose, hplace⟩ := matchingClose_of_isOpenBracket hat hopening
  rw [closeFrom_bracketed h hclosing] at hplace
  rw [hclose, (hat.succ (utf8Size_of_isOpenBracket hopening)).append.unique hplace]

/-- The end of a well nested literal, found by bytes. -/
theorem literalAt_wellNested {body : List Char} {quote : Char}
    (h : WellNested (.literal quote) body)
    (hquote : Mask.isQuote quote = true) (front rest : List Char) :
    literalAt (front ++ quote :: (body ++ quote :: rest)) (byteLen front) =
      some (some ⟨quote, byteLen front + 1, byteLen front + 1 + byteLen body⟩) := by
  have hat : At (front ++ quote :: (body ++ quote :: rest)) (byteLen front)
      (quote :: (body ++ quote :: rest)) := ⟨front, rfl, rfl⟩
  obtain ⟨stop, hstop, hplace, _⟩ := literalAt_of_isQuote 0 hat hquote
  rw [closeFrom_quoted h hquote] at hplace
  rw [hstop, (hat.succ (Mask.utf8Size_of_isQuote hquote)).append.unique hplace]

/-- The bracket that closes one in any text, or the end of the text. -/
theorem exists_matchingClose {i : Nat} {b : Char} (h : byteAt? text i = some b)
    (hopen : isOpenBracket b = true) :
    ∃ close, matchingClose text 0 i = some close ∧ i < close ∧ close ≤ byteLen text := by
  obtain ⟨close, hclose, hle, hbound⟩ := ClosingScan.exists_run text (.brackets 1 (i + 1))
  have hlt := lt_of_byteAt? h
  rw [ClosingScan.offset, Nat.min_eq_left hlt] at hle
  refine ⟨close, ?_, hle, hbound⟩
  rw [matchingClose_of_byteAt? h, if_pos hopen]
  exact hclose

/-- The literal that opens at a quote in any text ends at a quote, or at the end of the text. -/
theorem exists_literalAt {i : Nat} {b : Char} (h : byteAt? text i = some b)
    (hquote : Mask.isQuote b = true) :
    ∃ stop, literalAt text i = some (some ⟨b, i + 1, stop⟩) ∧ i + 1 ≤ stop ∧
      stop ≤ byteLen text := by
  obtain ⟨stop, hstop, hle, hbound⟩ := ClosingScan.exists_run text (.literal b (i + 1))
  have hlt := lt_of_byteAt? h
  rw [ClosingScan.offset, Nat.min_eq_left hlt] at hle
  rw [ClosingScan.run] at hstop
  refine ⟨stop, ?_, hle, hbound⟩
  rw [literalAt, h]
  simp only
  rw [if_pos hquote, hstop]
  rfl

end Bytes

/-- **Brackets and literals of a script are matched.** Whatever stands before and behind, the
bracket that closes one around a well nested text is found at its offset, and the literal around a
well nested body is found with exactly that body; the scans over characters find the same texts. In
any text whatever, an open bracket is closed at a later offset and a literal ends behind its quote,
at the end of the text at the latest. The scans ask each other for results along a well-founded
relation, and each stops where the last scan stops that it asks for, or where it stands. -/
theorem nested_scripts_are_matched :
    (∀ (front inner rest : List Char) (opening closing : Char), Script.WellNested .code inner →
      isOpenBracket opening = true → isCloseBracket closing = true →
      Bytes.matchingClose (front ++ opening :: (inner ++ closing :: rest)) 0 (byteLen front) =
          some (byteLen front + 1 + byteLen inner) ∧
        Script.bracketed (inner ++ closing :: rest) = inner) ∧
    (∀ (front body rest : List Char) (quote : Char), Script.WellNested (.literal quote) body →
      Mask.isQuote quote = true →
      Bytes.literalAt (front ++ quote :: (body ++ quote :: rest)) (byteLen front) =
          some (some ⟨quote, byteLen front + 1, byteLen front + 1 + byteLen body⟩) ∧
        Script.literalAt? ⟨byteLen front, quote :: (body ++ quote :: rest)⟩ =
          some ⟨quote, byteLen front + 1, body⟩) ∧
    (∀ (text : List Char) (i : Nat) (b : Char), Bytes.byteAt? text i = some b →
      (isOpenBracket b = true → ∃ close, Bytes.matchingClose text 0 i = some close ∧
        i < close ∧ close ≤ byteLen text) ∧
      (Mask.isQuote b = true → ∃ stop, Bytes.literalAt text i = some (some ⟨b, i + 1, stop⟩) ∧
        i + 1 ≤ stop ∧ stop ≤ byteLen text)) ∧
    ∀ text : List Char,
      (WellFounded fun later scan : Bytes.ClosingScan => later ∈ scan.calls text) ∧
      ∀ scan : Bytes.ClosingScan, scan.run text = (scan.calls text).getLast?.elim
        (some (min scan.offset (byteLen text))) (Bytes.ClosingScan.run text) := by
  refine ⟨fun front inner rest opening closing hinner hopening hclosing => ⟨?_, ?_⟩,
    fun front body rest quote hbody hquote => ⟨?_, ?_⟩, fun text i b hbyte =>
    ⟨Bytes.exists_matchingClose hbyte, Bytes.exists_literalAt hbyte⟩, fun text =>
    ⟨Bytes.ClosingScan.wellFounded_calls text, Bytes.ClosingScan.run_eq text⟩⟩
  · exact Bytes.matchingClose_wellNested hinner hopening hclosing front rest
  · rw [Script.bracketed, Script.closeFrom_bracketed hinner hclosing]
  · exact Bytes.literalAt_wellNested hbody hquote front rest
  · rw [Script.literalAt?]
    simp only
    rw [if_pos hquote, Script.quotedText, Script.closeFrom_quoted hbody hquote]

/-- Brackets of three kinds, one of them closed in a literal only, an escaped character of two
bytes, and a template with a dollar sign, an escaped quote and an expression that holds a brace in a
literal. The last text closes nothing. -/
theorem nested_scripts_are_matched_deep :
    let inner :=
      ['f', '[', '{', '\x27', '\\', 'é', ')', '\x27', '}', '\x60', '$', '\\', '\x60', '$',
      '{', '\x22', '}', '\x22', '}', '\x60', ']']
    let body := ['$', '\\', '\x60', '$', '{', '\x22', '}', '\x22', '}']
    let text := 'é' :: '(' :: (inner ++ [')', '}'])
    let unclosed := ['(', '\x60', '$', '{', '\x27', '\\']
    (Script.WellNested .code inner ∧ Script.WellNested (.literal Script.templateQuote) body ∧
      Bytes.byteAt? unclosed 0 = some '(' ∧ Bytes.byteAt? unclosed 1 = some '\x60') ∧
    Bytes.matchingClose text 0 2 = some 25 ∧
    Bytes.literalAt text 13 = some (some ⟨'\x60', 14, 23⟩) ∧
    (∃ close, Bytes.matchingClose unclosed 0 0 = some close ∧ 0 < close ∧ close ≤ 6) ∧
    ∃ stop, Bytes.literalAt unclosed 1 = some (some ⟨'\x60', 2, stop⟩) ∧ 2 ≤ stop ∧ stop ≤ 6 := by
  intro inner body text unclosed
  have hbrace : Script.WellNested (.literal '\x22') ['}'] :=
    .character (by decide) (by decide) (by decide) (.nil _)
  have hescaped : Script.WellNested (.literal '\x27') ['\\', 'é', ')'] :=
    .escaped 'é' (.character (by decide) (by decide) (by decide) (.nil _))
  have hbody : Script.WellNested (.literal Script.templateQuote) body :=
    .character (by decide) (by decide) (by decide)
      (.escaped '\x60' (.expression (.literal rfl hbrace (.nil _)) (.nil _)))
  have hinner : Script.WellNested .code inner :=
    .plain rfl rfl rfl (.brackets .square
      (.brackets .curly (.literal rfl hescaped (.nil _)) (.literal rfl hbody (.nil _))) (.nil _))
  obtain ⟨hbrackets, hliterals, hbounds, _⟩ := nested_scripts_are_matched
  have hopen : Bytes.byteAt? unclosed 0 = some '(' := by decide
  have hquote : Bytes.byteAt? unclosed 1 = some '\x60' := by decide
  exact ⟨⟨hinner, hbody, hopen, hquote⟩, (hbrackets ['é'] inner ['}'] '(' ')' hinner rfl rfl).1,
    (hliterals ('é' :: '(' :: inner.take 9) body [']', ')', '}'] _ hbody rfl).1,
    (hbounds unclosed 0 _ hopen).1 rfl, (hbounds unclosed 1 _ hquote).2 rfl⟩

end StyleAudit
