import StyleAudit.Proofs.ByteScript

/-!
# Tags and values by byte offsets

Whether a place lies in a tag, where an expression ends, and which value an attribute has. The scans
over characters jump by a number of characters that they pass over (`staysOpen_skip`,
`expression_skip`), the scans over bytes by offsets.
-/

namespace StyleAudit

open Text

/-! ### Jumps over characters -/

/-- Dropping the text between brackets and the closing one leaves what the reading leaves. -/
theorem Script.drop_bracketed (cs : List Char) :
    cs.drop ((bracketed cs).length + 1) = (closeFrom (.brackets 1) [] cs).2.tail := by
  rw [← List.drop_drop, bracketed, drop_closeFrom, List.drop_one]

/-- Dropping the text of a literal and its closing quote leaves what the reading leaves. -/
theorem Script.drop_quotedText (quote : Char) (cs : List Char) :
    cs.drop ((quotedText quote cs).length + 1) = (closeFrom (.quoted quote) [] cs).2.tail := by
  rw [← List.drop_drop, quotedText, drop_closeFrom, List.drop_one]

theorem drop_takeWhile_succ (p : Char → Bool) (cs : List Char) :
    cs.drop ((cs.takeWhile p).length + 1) = (cs.dropWhile p).tail := by
  have hdrop : cs.drop (cs.takeWhile p).length = cs.dropWhile p := by
    calc cs.drop (cs.takeWhile p).length
        = (cs.takeWhile p ++ cs.dropWhile p).drop (cs.takeWhile p).length := by
          rw [List.takeWhile_append_dropWhile]
      _ = cs.dropWhile p := List.drop_left
  rw [← List.drop_drop, hdrop, List.drop_one]

theorem Markup.staysOpen_nil (skip count : Nat) : staysOpen skip count [] = true := by
  cases count <;> rfl

/-- Skipped characters are dropped, and count as passed. -/
theorem Markup.staysOpen_skip (skip count : Nat) (cs : List Char) :
    staysOpen skip count cs = staysOpen 0 (count - skip) (cs.drop skip) := by
  induction cs generalizing skip count with
  | nil => rw [List.drop_nil, staysOpen_nil, staysOpen_nil]
  | cons c cs ih =>
    cases skip with
    | zero => rfl
    | succ skip =>
      cases count with
      | zero =>
        rw [Nat.zero_sub]
        rfl
      | succ count =>
        rw [Nat.add_sub_add_right, List.drop_succ_cons, ← ih]
        rfl

/-- Skipped characters belong to the expression, whatever they are. -/
theorem expression_skip (skip : Nat) (cs : List Char) :
    expression skip cs = cs.take skip ++ expression 0 (cs.drop skip) := by
  induction cs generalizing skip with
  | nil =>
    rw [List.take_nil, List.drop_nil]
    rfl
  | cons c cs ih =>
    cases skip with
    | zero => rfl
    | succ skip =>
      rw [List.take_succ_cons, List.drop_succ_cons, List.cons_append, ← ih]
      rfl

namespace Bytes

variable {text cs tail : List Char} {base i j : Nat} {c : Char}

/-! ### Searches from a place -/

/-- Of two places the one with less text left lies further on. -/
theorem At.lt_iff_length (h : At text i cs) (hj : At text j tail) :
    i < j ↔ tail.length < cs.length := by
  obtain ⟨front, htext, rfl⟩ := h
  obtain ⟨front', htext', rfl⟩ := hj
  have hpos : ∀ xs : List Char, 0 < byteLen xs ↔ 0 < xs.length := by
    intro xs
    cases xs with
    | nil => exact Iff.rfl
    | cons x xs =>
      have hx := x.utf8Size_pos
      rw [byteLen_cons, List.length_cons]
      exact ⟨fun _ => by omega, fun _ => by omega⟩
  rcases List.append_eq_append_iff.mp (htext.symm.trans htext') with
    ⟨between, rfl, rfl⟩ | ⟨between, rfl, rfl⟩
  · have hbetween := hpos between
    rw [byteLen_append, List.length_append]
    omega
  · rw [byteLen_append, List.length_append]
    omega

/-- A search that passes over `xs` stops there, or has no result and stops at the end of the
text. -/
theorem At.search {xs ys : List Char} (h : At text i (xs ++ ys)) :
    At text ((if ys = [] then none else some (byteLen xs)).elim (byteLen text) fun k => i + k)
      ys := by
  by_cases hnil : ys = []
  · rw [if_pos hnil, hnil]
    exact at_end text
  · rw [if_neg hnil]
    exact h.append

/-- The first character that satisfies a condition, by its byte offset. -/
theorem find?_eq (p : Char → Bool) (cs : List Char) :
    find? p cs = if (cs.dropWhile fun c => !p c) = [] then none
      else some (byteLen (cs.takeWhile fun c => !p c)) := by
  induction cs with
  | nil => rfl
  | cons c cs ih =>
    rw [find?, List.dropWhile_cons, List.takeWhile_cons]
    cases hc : p c with
    | true => rfl
    | false =>
      rw [if_neg Bool.false_ne_true, ih, Bool.not_false, if_pos rfl, if_pos rfl]
      split
      · rfl
      · rw [Option.map_some, byteLen_cons]

/-- Searching from a place leads to the first character that satisfies a condition, or to the
end. -/
theorem At.find? (h : At text i cs) (p : Char → Bool) :
    At text ((Bytes.find? p cs).elim (byteLen text) fun k => i + k)
      (cs.dropWhile fun c => !p c) := by
  have hsplit := h.of_eq (List.takeWhile_append_dropWhile (p := fun c => !p c) (l := cs)).symm
  rw [find?_eq]
  exact hsplit.search

/-- The first occurrence of a word, by its byte offset. -/
theorem findText?_eq (word cs : List Char) :
    findText? word cs = if (breakOn word cs).2 = [] then none
      else some (byteLen (breakOn word cs).1) := by
  induction cs with
  | nil => rfl
  | cons c cs ih =>
    rw [findText?, breakOn]
    by_cases hword : (after? word (c :: cs)).isSome = true
    · rw [if_pos hword, if_pos hword]
      rfl
    · rw [if_neg hword, if_neg hword, ih]
      simp only
      split
      · rfl
      · rw [Option.map_some, byteLen_cons]

/-- Searching from a place leads to the first occurrence of a word, or to the end. -/
theorem At.findText? (h : At text i cs) (word : List Char) :
    At text ((Bytes.findText? word cs).elim (byteLen text) fun k => i + k) (breakOn word cs).2 := by
  have hsplit := h.of_eq (breakOn_append word cs).symm
  rw [findText?_eq]
  exact hsplit.search

/-- The first byte of a character is as good as the character, for tests against characters of one
byte. -/
theorem At.byteAt?_cons (h : At text i (c :: cs)) :
    ∃ b, Bytes.byteAt? text i = some b ∧ ∀ d : Char, d.utf8Size = 1 → (b = d ↔ c = d) := by
  by_cases hc : c.utf8Size = 1
  · exact ⟨c, h.byteAt? hc, fun _ _ => Iff.rfl⟩
  · obtain ⟨b, hbyte, hb⟩ := h.byteAt?_wide hc (k := 0) c.utf8Size_pos
    refine ⟨b, hbyte, fun d hd => ?_⟩
    exact iff_of_false (ne_of_utf8Size hb hd) (ne_of_utf8Size hc hd)

/-! ### Tags -/

theorem utf8Size_of_isAlpha {c : Char} (h : c.isAlpha = true) : c.utf8Size = 1 := by
  rw [utf8Size_eq_one_iff]
  unfold Char.isAlpha Char.isUpper Char.isLower at h
  simp only [Bool.or_eq_true, Bool.and_eq_true, decide_eq_true_eq, UInt32.le_iff_toNat_le] at h
  simp at h
  omega

theorem staysOpen_of_le {pos : Nat} (h : pos ≤ i) : staysOpen text pos i = some true := by
  rw [staysOpen, if_neg (by omega)]
  rfl

/-- One step of the check that a tag is still open. -/
theorem staysOpen_of_byteAt? {pos : Nat} {b : Char} (hi : i < pos) (h : byteAt? text i = some b) :
    staysOpen text pos i =
      if b = '>' then some false
      else if b = '\x27' ∨ b = '\x22' then
        (drop? (i + 1) text).bind fun rest => staysOpen text pos
          ((find? (· == b) rest).elim (byteLen text) fun p => i + p + 2)
      else if b = '{' then
        (matchingClose text 0 i).bind fun close => staysOpen text pos (close + 1)
      else staysOpen text pos (i + 1) := by
  have hlt := lt_of_byteAt? h
  have hquoted : ∀ rest, drop? (i + 1) text = some rest →
      i < (find? (· == b) rest).elim (byteLen text) fun p => i + p + 2 := by
    intro rest _
    cases find? (· == b) rest with
    | none => exact hlt
    | some p =>
      change i < i + p + 2
      omega
  have hbraces : ∀ close, matchingClose text 0 i = some close → i < close + 1 :=
    fun _ hclose => Nat.lt_succ_of_le (le_of_matchingClose hlt.le hclose)
  rw [staysOpen, if_pos hi, h, ← bind_jump? hquoted, ← bind_jump? hbraces]
  rfl

/-- Bytes that are no quote, brace or closing angle are passed over. -/
theorem passes_staysOpen (text : List Char) (pos : Nat) :
    Passes text (fun b => b ≠ '>' ∧ ¬(b = '\x27' ∨ b = '\x22') ∧ b ≠ '{') (staysOpen text pos) where
  wide b hb := by
    refine ⟨ne_of_utf8Size hb rfl, ?_, ne_of_utf8Size hb rfl⟩
    rintro (rfl | rfl)
    · exact hb rfl
    · exact hb rfl
  step j b hbyte hb := by
    by_cases hj : j < pos
    · rw [staysOpen_of_byteAt? hj hbyte, if_neg hb.1, if_neg hb.2.1, if_neg hb.2.2]
    · rw [staysOpen_of_le (by omega), staysOpen_of_le (by omega)]

/-- After a quote the search goes on behind the next one, or at the end. -/
theorem At.reaches_after_quote (h : At text (i + 1) cs) {quote : Char}
    (hquote : quote.utf8Size = 1) :
    Reaches text ((Bytes.find? (· == quote) cs).elim (byteLen text) fun p => i + p + 2)
      (cs.dropWhile fun d => d != quote).tail := by
  have hat := h.find? (· == quote)
  have hne : (fun d : Char => !(d == quote)) = fun d => d != quote := rfl
  rw [hne] at hat
  have heq := find?_eq (· == quote) cs
  rw [hne] at heq
  -- without a closing quote the value runs to the end of the text
  cases hdrop : cs.dropWhile fun d => d != quote with
  | nil =>
    rw [hdrop, if_pos rfl] at heq
    rw [heq]
    exact (at_end text).reaches
  | cons d ds =>
    have hd : d = quote := by
      have hhead := List.head?_dropWhile_not (fun d => d != quote) cs
      rw [hdrop, List.head?_cons] at hhead
      simpa using hhead
    rw [hdrop, if_neg (List.cons_ne_nil d ds)] at heq
    rw [hdrop, heq] at hat
    rw [heq]
    have hnext := hat.next
    rw [hd, hquote] at hnext
    change At text (i + 1 + _ + 1) ds at hnext
    rw [show i + 1 + byteLen (cs.takeWhile fun d => d != quote) + 1 =
      i + byteLen (cs.takeWhile fun d => d != quote) + 2 from by omega] at hnext
    exact hnext.reaches

/-- Whether a tag is still open at a place is found by bytes as it is by characters. -/
theorem staysOpen_eq {pos : Nat} (hpos : At text pos tail) (h : Reaches text i cs) :
    staysOpen text pos i = some (Markup.staysOpen 0 (cs.length - tail.length) cs) := by
  induction hlength : cs.length using Nat.strongRecOn generalizing i cs with
  | _ length ih =>
    subst hlength
    cases cs with
    | nil =>
      have hend := hpos.add_byteLen
      have hle := h.le
      rw [staysOpen_of_le (by omega), Markup.staysOpen_nil]
    | cons c cs =>
      have hat := h.at_cons
      by_cases hi : i < pos
      · have hcount := (hat.lt_iff_length hpos).mp hi
        rw [List.length_cons] at hcount
        have hsucc : (c :: cs).length - tail.length = cs.length - tail.length + 1 := by
          rw [List.length_cons]
          omega
        -- a jump over `n` characters after this one
        have hjump : ∀ n j, Reaches text j (cs.drop n) → staysOpen text pos j =
            some (Markup.staysOpen n (cs.length - tail.length) cs) := by
          intro n j hj
          have hrest :=
            ih (cs.drop n).length (by rw [List.length_drop, List.length_cons]; omega) hj rfl
          rw [hrest, Markup.staysOpen_skip n, List.length_drop,
            show cs.length - n - tail.length = cs.length - tail.length - n from by omega]
        rw [hsucc, Markup.staysOpen]
        by_cases hclose : c = '>'
        · rw [staysOpen_of_byteAt? hi (hat.byteAt? (by rw [hclose]; rfl)), if_pos hclose,
            if_pos hclose]
        by_cases hquote : c = '\x27' ∨ c = '\x22'
        · have hc : c.utf8Size = 1 := by rcases hquote with rfl | rfl <;> rfl
          have hnext := hat.succ hc
          rw [staysOpen_of_byteAt? hi (hat.byteAt? hc), if_neg hclose, if_neg hclose,
            if_pos hquote, if_pos hquote, hnext.drop?, Option.bind_some]
          refine hjump _ _ ?_
          rw [drop_takeWhile_succ]
          exact hnext.reaches_after_quote hc
        by_cases hbrace : c = '{'
        · have hc : c.utf8Size = 1 := by rw [hbrace]; rfl
          obtain ⟨close, hsome, hend⟩ :=
            matchingClose_of_isOpenBracket hat (by rw [hbrace]; rfl)
          rw [staysOpen_of_byteAt? hi (hat.byteAt? hc), if_neg hclose, if_neg hclose,
            if_neg hquote, if_neg hquote, if_pos hbrace, if_pos hbrace, hsome, Option.bind_some]
          refine hjump _ _ ?_
          rw [Script.drop_bracketed]
          exact hend.reaches_after_closeFrom (.brackets 1) trivial
        · rw [if_neg hclose, if_neg hquote, if_neg hbrace,
            (passes_staysOpen text pos).char hat ⟨hclose, hquote, hbrace⟩]
          exact hjump 0 _ hat.next.reaches
      · have hcount : (c :: cs).length - tail.length = 0 := by
          have hle := mt (hat.lt_iff_length hpos).mpr hi
          omega
        rw [staysOpen_of_le (by omega), hcount]
        rfl

/-- The offsets of a character in two texts, one behind the other. -/
theorem offsetsOf_append (c : Char) (offset : Nat) (xs ys : List Char) :
    offsetsOf c offset (xs ++ ys) = offsetsOf c offset xs ++
      offsetsOf c (offset + byteLen xs) ys := by
  induction xs generalizing offset with
  | nil => rfl
  | cons x xs ih =>
    rw [List.cons_append, offsetsOf, offsetsOf, ih, byteLen_cons, Nat.add_assoc]
    split
    · rfl
    · rfl

/-- The nearest tag that opens before a place. The induction is on the text before it, nearest
character first. -/
theorem find?_offsetsOf {rest passed before : List Char}
    (htext : text = before.reverse ++ (passed ++ rest)) :
    Option.Rel (fun i passed' => At text (i + 1) (passed' ++ rest))
      ((offsetsOf '<' 0 before.reverse).reverse.find? fun i =>
        (byteAt? text (i + 1)).any Char.isAlpha)
      (Markup.tagText? rest passed before) := by
  induction before generalizing passed with
  | nil => exact .none
  | cons c before ih =>
    have hcons : text = before.reverse ++ ((c :: passed) ++ rest) := by
      rw [htext, List.reverse_cons, List.append_assoc]
      rfl
    have hat : At text (byteLen before.reverse) (c :: (passed ++ rest)) :=
      ⟨before.reverse, hcons, rfl⟩
    have hlater := ih hcons
    rw [List.reverse_cons, offsetsOf_append, Nat.zero_add, List.reverse_append, Markup.tagText?]
    -- both searches try the nearest tag first and go backwards
    by_cases hc : c = '<'
    · have hnext := hat.succ (by rw [hc]; rfl)
      have hany := hnext.any_byteAt? fun _ => utf8Size_of_isAlpha
      have hone : offsetsOf '<' (byteLen before.reverse) [c] = [byteLen before.reverse] := by
        rw [offsetsOf, if_pos hc]
        rfl
      rw [hone, List.reverse_singleton, List.singleton_append, List.find?_cons]
      by_cases halpha : (passed ++ rest).head?.any Char.isAlpha = true
      · rw [if_pos ⟨hc, halpha⟩]
        rw [halpha] at hany
        simp only [hany]
        exact .some hnext
      · rw [if_neg fun h => halpha h.2]
        rw [Bool.eq_false_iff.mpr halpha] at hany
        simp only [hany]
        exact hlater
    · have hnone : offsetsOf '<' (byteLen before.reverse) [c] = [] := by
        rw [offsetsOf, if_neg hc]
        rfl
      rw [hnone, if_neg fun h => hc h.1]
      exact hlater

/-- The place of a cursor of a text. -/
theorem at_of_isIn {cur : Cursor} (h : cur.IsIn ⟨base, text⟩) (hi : cur.offset = base + i) :
    At text i cur.rest := by
  obtain ⟨htext, hoffset⟩ := h
  refine ⟨cur.before.reverse, htext.symm, ?_⟩
  rw [byteLen_reverse]
  change cur.offset = base + byteLen cur.before at hoffset
  omega

theorem slice?_before {cur : Cursor} (h : cur.IsIn ⟨base, text⟩) (hi : cur.offset = base + i) :
    slice? text 0 i = some cur.before.reverse := by
  refine At.slice? ?_ (at_of_isIn h hi)
  rw [h.1]
  exact at_zero text

/-- Whether a place lies inside a tag, found by bytes. -/
theorem insideTag_eq {cur : Cursor} (h : cur.IsIn ⟨base, text⟩) (hi : cur.offset = base + i) :
    insideTag text i = some (Markup.insideTag cur) := by
  have htext : text = cur.before.reverse ++ ([] ++ cur.rest) := h.1.symm
  have hfound := find?_offsetsOf htext
  rw [insideTag, slice?_before h hi, Markup.insideTag]
  simp only [Option.bind_eq_bind, Option.bind_some]
  rcases rel_cases hfound with ⟨hfind, htag⟩ | ⟨start, passed, hfind, htag, hstart⟩
  · rw [hfind, htag]
    rfl
  · rw [hfind, htag]
    simp only
    rw [staysOpen_eq (at_of_isIn h hi) hstart.reaches, List.length_append, Nat.add_sub_cancel]

/-! ### Expressions -/

theorem expressionEnd_of_le (h : byteLen text ≤ i) :
    expressionEnd text i = some (byteLen text) := by
  rw [expressionEnd, if_neg (by omega)]
  rfl

/-- One step of the search for the end of an expression. -/
theorem expressionEnd_of_byteAt? {b : Char} (h : byteAt? text i = some b) :
    expressionEnd text i =
      if b = ';' ∨ b = ',' ∨ b = '\n' ∨ isCloseBracket b then some i
      else if isOpenBracket b then
        (matchingClose text 0 i).bind fun close => expressionEnd text (close + 1)
      else if Mask.isQuote b then
        (literalAt text i).bind fun literal =>
          expressionEnd text (literal.elim (byteLen text) (·.body.stop + 1))
      else expressionEnd text (i + 1) := by
  have hlt := lt_of_byteAt? h
  have hbrackets : ∀ close, matchingClose text 0 i = some close → i < close + 1 :=
    fun _ hclose => Nat.lt_succ_of_le (le_of_matchingClose hlt.le hclose)
  have hliteral : ∀ literal, literalAt text i = some literal →
      i < literal.elim (byteLen text) (·.body.stop + 1) := by
    intro literal hat
    cases literal with
    | none => exact hlt
    | some literal => exact Nat.lt_succ_of_lt (lt_stop_of_literalAt hlt hat)
  rw [expressionEnd, if_pos hlt, h, ← bind_jump? hbrackets, ← bind_jump? hliteral]
  rfl

/-- Bytes that neither end an expression nor open a bracket or a literal are passed over. -/
theorem passes_expressionEnd (text : List Char) :
    Passes text (fun b => ¬(b = ';' ∨ b = ',' ∨ b = '\n' ∨ isCloseBracket b = true) ∧
      isOpenBracket b = false ∧ Mask.isQuote b = false) (expressionEnd text) where
  wide b hb := by
    refine ⟨?_, eq_false_of_utf8Size (fun _ => utf8Size_of_isOpenBracket) hb,
      eq_false_of_utf8Size (fun _ => Mask.utf8Size_of_isQuote) hb⟩
    rintro (rfl | rfl | rfl | hclose)
    · exact hb rfl
    · exact hb rfl
    · exact hb rfl
    · exact hb (utf8Size_of_isCloseBracket hclose)
  step j b hbyte hb := by
    rw [expressionEnd_of_byteAt? hbyte, if_neg hb.1, hb.2.1, if_neg Bool.false_ne_true, hb.2.2,
      if_neg Bool.false_ne_true]

/-- An expression ends, by bytes, where its characters end. -/
theorem expressionEnd_eq (h : Reaches text i cs) :
    ∃ j rest, expressionEnd text i = some j ∧ cs = expression 0 cs ++ rest ∧ At text j rest := by
  induction hlength : cs.length using Nat.strongRecOn generalizing i cs with
  | _ length ih =>
    subst hlength
    cases cs with
    | nil => exact ⟨byteLen text, [], expressionEnd_of_le h.le, rfl, at_end text⟩
    | cons c cs =>
      have hat := h.at_cons
      -- a jump over `n` characters after this one
      have hjump : ∀ n k, Reaches text k (cs.drop n) → ∃ j rest, expressionEnd text k = some j ∧
          c :: cs = c :: expression n cs ++ rest ∧ At text j rest := by
        intro n k hk
        obtain ⟨j, rest, hsome, hrest, hj⟩ :=
          ih (cs.drop n).length (by rw [List.length_drop, List.length_cons]; omega) hk rfl
        refine ⟨j, rest, hsome, ?_, hj⟩
        rw [expression_skip n, List.cons_append, List.append_assoc, ← hrest, List.take_append_drop]
      rw [expression]
      by_cases hstop : c = ';' ∨ c = ',' ∨ c = '\n' ∨ isCloseBracket c = true
      · have hc : c.utf8Size = 1 := by
          rcases hstop with rfl | rfl | rfl | hclose
          · rfl
          · rfl
          · rfl
          · exact utf8Size_of_isCloseBracket hclose
        rw [expressionEnd_of_byteAt? (hat.byteAt? hc), if_pos hstop, if_pos hstop]
        exact ⟨i, c :: cs, rfl, rfl, hat⟩
      by_cases hopen : isOpenBracket c = true
      · obtain ⟨close, hsome, hend⟩ := matchingClose_of_isOpenBracket hat hopen
        rw [expressionEnd_of_byteAt? (hat.byteAt? (utf8Size_of_isOpenBracket hopen)), if_neg hstop,
          if_neg hstop, if_pos hopen, if_pos hopen, hsome, Option.bind_some]
        refine hjump _ _ ?_
        rw [Script.drop_bracketed]
        exact hend.reaches_after_closeFrom (.brackets 1) trivial
      by_cases hquote : Mask.isQuote c = true
      · have hc := Mask.utf8Size_of_isQuote hquote
        obtain ⟨stop, hsome, hend, _⟩ := literalAt_of_isQuote 0 hat hquote
        rw [expressionEnd_of_byteAt? (hat.byteAt? hc), if_neg hstop, if_neg hstop, if_neg hopen,
          if_neg hopen, if_pos hquote, if_pos hquote, hsome, Option.bind_some]
        refine hjump _ _ ?_
        rw [Script.drop_quotedText]
        exact hend.reaches_after_closeFrom (.quoted c) hc
      · rw [if_neg hstop, if_neg hopen, if_neg hquote, (passes_expressionEnd text).char hat
          ⟨hstop, Bool.eq_false_iff.mpr hopen, Bool.eq_false_iff.mpr hquote⟩]
        exact hjump 0 _ hat.next.reaches

/-! ### Values -/

/-- A value by byte offsets and one by slices are the same. -/
def SameValue (text : List Char) (base : Nat) (v : Value) (value : AttributeValue) : Prop :=
  v.bound = value.bound ∧ Cut text base v.range value.slice

theorem sameValue {xs ys : List Char} {start stop : Nat} {bound : Bool}
    (hstart : At text start (xs ++ ys)) (hstop : At text stop ys) :
    SameValue text base ⟨⟨start, stop⟩, bound⟩ ⟨⟨base + start, xs⟩, bound⟩ :=
  ⟨rfl, rfl, hstart.slice? hstop⟩

/-- A value between escaped quotes. -/
theorem tagValue_of_backslash {before : List Char} (h : At text i ('\\' :: cs)) :
    ∃ found, tagValue text i = some found ∧
      Option.Rel (SameValue text base) found (tagValue? ⟨base + i, before, '\\' :: cs⟩) := by
  rw [tagValue, h.byteAt? rfl, tagValue?]
  simp only [Option.bind_eq_bind, if_true]
  have hnext : At text (i + 1) cs := h.next
  cases cs with
  | nil =>
    have hbyte : byteAt? text (i + 1) = none := hnext.encode 0
    rw [hbyte]
    exact ⟨none, rfl, .none⟩
  | cons quote cs =>
    obtain ⟨b, hbyte, hb⟩ := hnext.byteAt?_cons
    rw [hbyte]
    simp only [hb '\x27' rfl, hb '\x22' rfl]
    by_cases hquote : quote = '\x27' ∨ quote = '\x22'
    · have hsize : quote.utf8Size = 1 := by rcases hquote with rfl | rfl <;> rfl
      obtain rfl : b = quote := (hb quote hsize).mpr rfl
      have hbody : At text (i + 2) cs := hnext.succ hsize
      have hsplit := hbody.of_eq (breakOn_append ['\\', b] cs).symm
      rw [if_pos hquote, if_pos hquote, hbody.drop?]
      exact ⟨_, rfl, .some (sameValue hsplit (hbody.findText? ['\\', b]))⟩
    · rw [if_neg hquote, if_neg hquote]
      exact ⟨none, rfl, .none⟩

/-- The value of an attribute in a tag, found by bytes. -/
theorem tagValue_eq {offset : Nat} {before : List Char} (h : At text i cs)
    (hoffset : offset = base + i) :
    ∃ found, tagValue text i = some found ∧
      Option.Rel (SameValue text base) found (tagValue? ⟨offset, before, cs⟩) := by
  subst hoffset
  cases cs with
  | nil =>
    have hbyte : byteAt? text i = none := h.encode 0
    refine ⟨none, ?_, .none⟩
    rw [tagValue, hbyte]
    rfl
  | cons c cs =>
    by_cases hbackslash : c = '\\'
    · subst hbackslash
      exact tagValue_of_backslash h
    obtain ⟨b, hbyte, hb⟩ := h.byteAt?_cons
    rw [tagValue, hbyte, tagValue?]
    simp only [Option.bind_eq_bind, hb '\\' rfl, hb '\x27' rfl, hb '\x22' rfl, hb '{' rfl,
      hb '=' rfl, hb '\x60' rfl, hb '>' rfl]
    rw [if_neg hbackslash, if_neg hbackslash]
    by_cases hquote : c = '\x27' ∨ c = '\x22'
    · have hc : c.utf8Size = 1 := by rcases hquote with rfl | rfl <;> rfl
      obtain rfl : b = c := (hb c hc).mpr rfl
      have hnext := h.succ hc
      have hsplit := hnext.of_eq
        (List.takeWhile_append_dropWhile (p := fun d => d != b) (l := cs)).symm
      rw [if_pos hquote, if_pos hquote, hnext.drop?]
      exact ⟨_, rfl, .some (sameValue hsplit (hnext.find? (· == b)))⟩
    rw [if_neg hquote, if_neg hquote]
    by_cases hbrace : c = '{'
    · subst hbrace
      have hsplit := (h.succ rfl).of_eq (Script.bracketed_append cs)
      obtain ⟨close, hclose, hend⟩ := matchingClose_of_isOpenBracket h rfl
      rw [if_pos rfl, if_pos rfl, hclose]
      exact ⟨_, rfl, .some (sameValue hsplit hend)⟩
    rw [if_neg hbrace, if_neg hbrace]
    by_cases hother : c = '=' ∨ c = '\x60' ∨ c = '>'
    · rw [if_pos hother, if_pos hother]
      exact ⟨none, rfl, .none⟩
    · -- without quotes or braces the value runs to a blank or to the end of the tag
      have hsplit := h.of_eq (List.takeWhile_append_dropWhile
        (p := fun d => !(isBlank d || d == '>')) (l := c :: cs)).symm
      rw [if_neg hother, if_neg hother, h.drop?]
      exact ⟨_, rfl, .some (sameValue hsplit (h.find? fun c => isBlank c || c == '>'))⟩

/-- The value of an assignment, in a tag or in a script, found by bytes. -/
theorem attributeValue_eq {a : Assignment} {name : Nat} (hname : a.name.IsIn ⟨base, text⟩)
    (hvalue : a.value.IsIn ⟨base, text⟩) (hoffset : a.name.offset = base + name)
    (hoffset' : a.value.offset = base + i) :
    ∃ found, attributeValue text name i = some found ∧
      Option.Rel (SameValue text base) found a.value? := by
  have hat := at_of_isIn hvalue hoffset'
  rw [attributeValue, insideTag_eq hname hoffset, Assignment.value?]
  simp only [Option.bind_eq_bind, Option.bind_some]
  by_cases htag : Markup.insideTag a.name = true
  · rw [if_pos htag, if_pos htag]
    exact tagValue_eq hat hoffset'
  rw [if_neg htag, if_neg htag]
  cases hrest : a.value.rest with
  | nil =>
    rw [hrest] at hat
    have hbyte : byteAt? text i = none := hat.encode 0
    rw [hbyte]
    exact ⟨none, rfl, .none⟩
  | cons c cs =>
    rw [hrest] at hat
    obtain ⟨b, hbyte, hb⟩ := hat.byteAt?_cons
    rw [hbyte]
    simp only [hb '=' rfl, hb '>' rfl]
    by_cases hother : c = '=' ∨ c = '>'
    · rw [if_pos hother, if_pos hother]
      exact ⟨none, rfl, .none⟩
    · obtain ⟨stop, rest, hstop, hsplit, hend⟩ := expressionEnd_eq hat.reaches
      have hstart := hat.of_eq hsplit
      rw [if_neg hother, if_neg hother, hstop, hoffset']
      exact ⟨_, rfl, .some (sameValue hstart hend)⟩

end Bytes

end StyleAudit
