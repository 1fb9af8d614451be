import StyleAudit.Bytes.Script
import StyleAudit.Proofs.ByteStylesheet

/-!
# Scripts and tags by byte offsets

The scan over bytes calls itself for a literal inside brackets and for brackets inside a template
literal; the scan over characters keeps the constructs that are open on a list. `closeFrom_outer`
takes the latter apart: what is left of a text after the construct on top has been closed is scanned
for the one below it.
-/

namespace StyleAudit

open Text

namespace Script

theorem closeFrom_nil (frame : Frame) (outer : List Frame) :
    closeFrom frame outer [] = ([], []) := by
  rw [closeFrom]

/-- One character of a literal that is no backslash. -/
theorem closeFrom_quoted_cons {quote c : Char} (hc : c ≠ '\\') (outer : List Frame)
    (cs : List Char) :
    closeFrom (.quoted quote) outer (c :: cs) =
      if quote = templateQuote ∧ c = '$' ∧ cs.head? = some '{' then
        cons c (closeFrom (.brackets 0) (.quoted quote :: outer) cs)
      else if c = quote then
        match outer with
        | [] => ([], c :: cs)
        | frame :: frames => cons c (closeFrom frame frames cs)
      else cons c (closeFrom (.quoted quote) outer cs) := by
  rw [closeFrom.eq_def]
  split
  · next heq => exact absurd heq (by simp)
  · next heq => exact absurd (List.cons.inj heq).1 hc
  · next heq => exact absurd (List.cons.inj heq).1 hc
  · next hframe heq =>
    cases hframe
    cases heq
    rfl
  · next hframe _ => exact absurd hframe (by simp)

/-- One character of code between brackets. -/
theorem closeFrom_brackets_cons (depth : Nat) (outer : List Frame) (c : Char) (cs : List Char) :
    closeFrom (.brackets depth) outer (c :: cs) =
      if isOpenBracket c then cons c (closeFrom (.brackets (depth + 1)) outer cs)
      else if isCloseBracket c then
        if depth ≤ 1 then
          match outer with
          | [] => ([], c :: cs)
          | frame :: frames => cons c (closeFrom frame frames cs)
        else cons c (closeFrom (.brackets (depth - 1)) outer cs)
      else if Mask.isQuote c then
        cons c (closeFrom (.quoted c) (.brackets depth :: outer) cs)
      else cons c (closeFrom (.brackets depth) outer cs) := by
  rw [closeFrom.eq_def]
  split
  · next heq => exact absurd heq (by simp)
  · next hframe _ => exact absurd hframe (by simp)
  · next hframe _ => exact absurd hframe (by simp)
  · next hframe _ => exact absurd hframe (by simp)
  · next hframe heq =>
    cases hframe
    cases heq
    rfl

/-- What is left after the constructs on top have been closed is scanned for the one below them. -/
theorem closeFrom_outer (frame : Frame) (outer : List Frame) (next : Frame) (more : List Frame)
    (cs : List Char) :
    (closeFrom frame (outer ++ next :: more) cs).2 =
      (closeFrom next more (closeFrom frame outer cs).2.tail).2 := by
  fun_induction closeFrom frame outer cs with
  | case1 frame outer => rw [closeFrom_nil, List.tail_nil, closeFrom_nil]
  | case2 outer quote => rw [closeFrom, List.tail_nil, closeFrom_nil]
  | case3 quote outer c cs ih =>
    rw [closeFrom]
    exact ih
  | case4 quote outer c cs hlone hpair htemplate ih =>
    rw [closeFrom_quoted_cons (ne_backslash_of_not_escape hlone hpair), if_pos htemplate]
    exact ih
  -- nothing is open above `next` when `frame` closes here, so `next` goes on
  | case5 c cs hlone hpair htemplate =>
    rw [closeFrom_quoted_cons (ne_backslash_of_not_escape hlone hpair), if_neg htemplate,
      if_pos rfl]
    rfl
  | case6 c cs hlone hpair frame frames htemplate ih =>
    rw [closeFrom_quoted_cons (ne_backslash_of_not_escape hlone hpair), if_neg htemplate,
      if_pos rfl]
    exact ih
  | case7 quote outer c cs hlone hpair htemplate hquote ih =>
    rw [closeFrom_quoted_cons (ne_backslash_of_not_escape hlone hpair), if_neg htemplate,
      if_neg hquote]
    exact ih
  | case8 depth outer c cs hopen ih =>
    rw [closeFrom_brackets_cons, if_pos hopen]
    exact ih
  | case9 depth c cs hopen hclose hdepth =>
    rw [closeFrom_brackets_cons, if_neg hopen, if_pos hclose, if_pos hdepth]
    rfl
  | case10 depth c cs hopen hclose hdepth frame frames ih =>
    rw [closeFrom_brackets_cons, if_neg hopen, if_pos hclose, if_pos hdepth]
    exact ih
  | case11 depth outer c cs hopen hclose hdepth ih =>
    rw [closeFrom_brackets_cons, if_neg hopen, if_pos hclose, if_neg hdepth]
    exact ih
  | case12 depth outer c cs hopen hclose hquote ih =>
    rw [closeFrom_brackets_cons, if_neg hopen, if_neg hclose, if_pos hquote]
    exact ih
  | case13 depth outer c cs hopen hclose hquote ih =>
    rw [closeFrom_brackets_cons, if_neg hopen, if_neg hclose, if_neg hquote]
    exact ih

/-- The quote of a construct has one byte. -/
def Frame.HasSmallQuote : Frame → Prop
  | .brackets _ => True
  | .quoted quote => quote.utf8Size = 1

/-- A construct is closed by a character of one byte. -/
theorem utf8Size_of_closeFrom {frame : Frame} {outer : List Frame} {cs : List Char}
    (hframe : frame.HasSmallQuote) (houter : ∀ f ∈ outer, f.HasSmallQuote) :
    ∀ c ∈ (closeFrom frame outer cs).2.head?, c.utf8Size = 1 := by
  fun_induction closeFrom frame outer cs with
  | case1 | case2 => exact fun c hc => absurd hc (by simp)
  | case3 quote outer c cs ih => exact ih hframe houter
  | case4 quote outer c cs _ _ _ ih => exact ih trivial (List.forall_mem_cons.mpr ⟨hframe, houter⟩)
  | case5 c cs =>
    intro d hd
    rw [← Option.some.inj hd]
    exact hframe
  | case6 c cs _ _ frame frames _ ih =>
    obtain ⟨hnext, hmore⟩ := List.forall_mem_cons.mp houter
    exact ih hnext hmore
  | case7 quote outer c cs _ _ _ _ ih => exact ih hframe houter
  | case8 depth outer c cs _ ih => exact ih trivial houter
  | case9 depth c cs _ hclose _ =>
    intro d hd
    rw [← Option.some.inj hd]
    exact Bytes.utf8Size_of_isCloseBracket hclose
  | case10 depth c cs _ _ _ frame frames ih =>
    obtain ⟨hnext, hmore⟩ := List.forall_mem_cons.mp houter
    exact ih hnext hmore
  | case11 depth outer c cs _ _ _ ih => exact ih trivial houter
  | case12 depth outer c cs _ _ hquote ih =>
    exact ih (Mask.utf8Size_of_isQuote hquote) (List.forall_mem_cons.mpr ⟨trivial, houter⟩)
  | case13 depth outer c cs _ _ _ ih => exact ih trivial houter

theorem drop_closeFrom (frame : Frame) (outer : List Frame) (cs : List Char) :
    cs.drop (closeFrom frame outer cs).1.length = (closeFrom frame outer cs).2 :=
  calc cs.drop (closeFrom frame outer cs).1.length
    _ = ((closeFrom frame outer cs).1 ++ (closeFrom frame outer cs).2).drop
          (closeFrom frame outer cs).1.length := by rw [closeFrom_append]
    _ = (closeFrom frame outer cs).2 := List.drop_left

theorem length_closeFrom_le (frame : Frame) (outer : List Frame) (cs : List Char) :
    (closeFrom frame outer cs).2.length ≤ cs.length := by
  have hlength := congrArg List.length (closeFrom_append frame outer cs)
  rw [List.length_append] at hlength
  omega

end Script

namespace Bytes

variable {text cs : List Char} {base i : Nat} {c : Char}

/-! ### Literals and brackets -/

theorem at_end (text : List Char) : At text (byteLen text) [] :=
  ⟨text, (List.append_nil text).symm, rfl⟩

/-- Neither scan for a closing character goes back: from an offset in the text on, it stops there or
later. -/
theorem min_le_of_closing (text : List Char) :
    (∀ quote i j, literalEnd text quote i = some j → min i (byteLen text) ≤ j) ∧
    (∀ depth i j, matchingClose text depth i = some j → min i (byteLen text) ≤ j) ∧
    ∀ i literal, literalAt text i = some (some literal) →
      min (i + 1) (byteLen text) ≤ literal.body.stop := by
  apply literalEnd.mutual_induct text
  -- inside a literal: each way on starts later, and `jump?` sees to it after an expression
  · intro quote i hlt hescaped _ hexpression hplain j h
    rw [literalEnd, if_pos hlt] at h
    obtain ⟨b, _, h⟩ := Option.bind_eq_some_iff.mp h
    split at h
    · have hle := hescaped j h
      omega
    split at h
    · obtain ⟨close, _, h⟩ := Option.bind_eq_some_iff.mp h
      obtain ⟨hjump, h⟩ := exists_of_jump? h
      have hle := hexpression close hjump j h
      omega
    split at h
    · have heq := Option.some.inj h
      omega
    · have hle := hplain j h
      omega
  · intro quote i hlt j h
    rw [literalEnd, if_neg hlt] at h
    have heq := Option.some.inj h
    omega
  -- between brackets, where a literal is jumped over
  · intro depth i hlt hopen hclose _ hliteral hplain j h
    rw [matchingClose, if_pos hlt] at h
    obtain ⟨b, _, h⟩ := Option.bind_eq_some_iff.mp h
    split at h
    · have hle := hopen j h
      omega
    split at h
    · split at h
      · have heq := Option.some.inj h
        omega
      · have hle := hclose j h
        omega
    split at h
    · obtain ⟨literal, _, h⟩ := Option.bind_eq_some_iff.mp h
      obtain ⟨hjump, h⟩ := exists_of_jump? h
      have hle := hliteral literal hjump j h
      omega
    · have hle := hplain j h
      omega
  · intro depth i hlt j h
    rw [matchingClose, if_neg hlt] at h
    have heq := Option.some.inj h
    omega
  -- a literal opens at a quote only
  · intro i hnone literal h
    rw [literalAt, hnone] at h
    exact absurd (Option.some.inj h) (by simp)
  · intro i quote hbyte hquote hend literal h
    rw [literalAt, hbyte] at h
    simp only [if_pos hquote] at h
    obtain ⟨stop, hstop, h⟩ := Option.bind_eq_some_iff.mp h
    obtain rfl := Option.some.inj (Option.some.inj h)
    exact hend stop hstop
  · intro i quote hbyte hquote literal h
    rw [literalAt, hbyte] at h
    simp only [if_neg hquote] at h
    exact absurd (Option.some.inj h) (by simp)

theorem le_of_literalEnd {quote : Char} {j : Nat} (hle : i ≤ byteLen text)
    (h : literalEnd text quote i = some j) : i ≤ j := by
  have hmin := (min_le_of_closing text).1 quote i j h
  omega

theorem le_of_matchingClose {depth j : Nat} (hle : i ≤ byteLen text)
    (h : matchingClose text depth i = some j) : i ≤ j := by
  have hmin := (min_le_of_closing text).2.1 depth i j h
  omega

theorem lt_stop_of_literalAt {literal : Literal} (hlt : i < byteLen text)
    (h : literalAt text i = some (some literal)) : i < literal.body.stop := by
  have hmin := (min_le_of_closing text).2.2 i literal h
  omega

theorem literalEnd_of_le {quote : Char} (h : byteLen text ≤ i) :
    literalEnd text quote i = some (byteLen text) := by
  rw [literalEnd, if_neg (by omega)]
  rfl

/-- One step of the search for the end of a literal. -/
theorem literalEnd_of_byteAt? {quote b : Char} (h : byteAt? text i = some b) :
    literalEnd text quote i =
      if b = '\\' then literalEnd text quote (i + 2)
      else if b = '$' ∧ quote = Script.templateQuote ∧ byteAt? text (i + 1) = some '{' then
        (matchingClose text 0 (i + 1)).bind fun close => literalEnd text quote (close + 1)
      else if b = quote then some i
      else literalEnd text quote (i + 1) := by
  have hlt := lt_of_byteAt? h
  have hlater : ∀ close, matchingClose text 0 (i + 1) = some close → i < close + 1 :=
    fun _ hclose => Nat.lt_succ_of_lt (le_of_matchingClose hlt hclose)
  rw [literalEnd, if_pos hlt, h, ← bind_jump? hlater]
  rfl

/-- Bytes that are no backslash, quote or dollar are passed over. -/
theorem passes_literalEnd (text : List Char) {quote : Char} (hquote : quote.utf8Size = 1) :
    Passes text (fun b => b ≠ '\\' ∧ b ≠ quote ∧ b ≠ '$') (literalEnd text quote) where
  wide b hb := ⟨ne_of_utf8Size hb rfl, ne_of_utf8Size hb hquote, ne_of_utf8Size hb rfl⟩
  step j b hbyte hb := by
    rw [literalEnd_of_byteAt? hbyte, if_neg hb.1, if_neg fun h => hb.2.2 h.1, if_neg hb.2.1]

theorem matchingClose_of_le {depth : Nat} (h : byteLen text ≤ i) :
    matchingClose text depth i = some (byteLen text) := by
  rw [matchingClose, if_neg (by omega)]
  rfl

/-- One step of the search for the matching bracket. -/
theorem matchingClose_of_byteAt? {depth : Nat} {b : Char} (h : byteAt? text i = some b) :
    matchingClose text depth i =
      if isOpenBracket b then matchingClose text (depth + 1) (i + 1)
      else if isCloseBracket b then
        if depth - 1 = 0 then some i else matchingClose text (depth - 1) (i + 1)
      else if Mask.isQuote b then
        (literalEnd text b (i + 1)).bind fun stop => matchingClose text depth (stop + 1)
      else matchingClose text depth (i + 1) := by
  have hlt := lt_of_byteAt? h
  have hlater : ∀ stop, literalEnd text b (i + 1) = some stop → i < stop + 1 :=
    fun _ hstop => Nat.lt_succ_of_lt (le_of_literalEnd hlt hstop)
  rw [matchingClose, if_pos hlt, h, ← bind_jump? hlater]
  simp only [Option.bind_eq_bind, Option.bind_some]
  by_cases hquote : Mask.isQuote b = true
  · rw [if_pos hquote, if_pos hquote, literalAt, h]
    simp only
    rw [if_pos hquote]
    cases literalEnd text b (i + 1) <;> rfl
  · rw [if_neg hquote, if_neg hquote]
    rfl

/-- Bytes that are no bracket and no quote are passed over. -/
theorem passes_matchingClose (text : List Char) (depth : Nat) :
    Passes text (fun b => isOpenBracket b = false ∧ isCloseBracket b = false ∧
      Mask.isQuote b = false) (matchingClose text depth) where
  wide b hb := ⟨eq_false_of_utf8Size (fun _ => utf8Size_of_isOpenBracket) hb,
    eq_false_of_utf8Size (fun _ => utf8Size_of_isCloseBracket) hb,
    eq_false_of_utf8Size (fun _ => Mask.utf8Size_of_isQuote) hb⟩
  step j b hbyte hb := by
    obtain ⟨hopen, hclose, hquote⟩ := hb
    rw [matchingClose_of_byteAt? hbyte, hopen, hclose, hquote]
    rfl

/-- `Closes text i cs`: from offset `i` on, before which `cs` follows, both scans for a closing
character stop where the scan over characters stops. -/
def Closes (text : List Char) (i : Nat) (cs : List Char) : Prop :=
  (∀ quote : Char, quote.utf8Size = 1 →
    ∃ j, literalEnd text quote i = some j ∧ At text j (Script.closeFrom (.quoted quote) [] cs).2) ∧
  ∀ depth, ∃ j, matchingClose text depth i = some j ∧
    At text j (Script.closeFrom (.brackets depth) [] cs).2

/-- The place after the character that closes a construct, or past the end. -/
theorem At.reaches_after_closeFrom {j : Nat} (frame : Script.Frame) (hframe : frame.HasSmallQuote)
    (h : At text j (Script.closeFrom frame [] cs).2) :
    Reaches text (j + 1) (Script.closeFrom frame [] cs).2.tail :=
  h.reaches_tail (Script.utf8Size_of_closeFrom hframe fun _ hf => absurd hf List.not_mem_nil)

/-- One character of a literal, given that everything shorter closes alike. -/
theorem literalEnd_step {quote : Char} (hquote : quote.utf8Size = 1) (h : At text i (c :: cs))
    (ih : ∀ j ds, ds.length ≤ cs.length → Reaches text j ds → Closes text j ds) :
    ∃ j, literalEnd text quote i = some j ∧
      At text j (Script.closeFrom (.quoted quote) [] (c :: cs)).2 := by
  by_cases hc : c = '\\'
  · subst hc
    rw [literalEnd_of_byteAt? (h.byteAt? rfl), if_pos rfl]
    have hnext : At text (i + 1) cs := h.next
    cases cs with
    | nil =>
      rw [literalEnd_of_le (Reaches.of_backslash h).le, Script.closeFrom]
      exact ⟨byteLen text, rfl, at_end text⟩
    | cons d ds =>
      rw [Script.closeFrom, (passes_literalEnd text hquote).tail hnext]
      exact (ih _ ds (by simp) hnext.next.reaches).1 quote hquote
  rw [Script.closeFrom_quoted_cons hc]
  by_cases htemplate : quote = Script.templateQuote ∧ c = '$' ∧ cs.head? = some '{'
  · obtain ⟨rfl, rfl, hbrace⟩ := htemplate
    have hnext : At text (i + 1) cs := h.next
    have hbyte := (h.byteAt?_next rfl rfl).mpr hbrace
    -- the expression is closed first, then the literal
    obtain ⟨close, hclose, hat⟩ := (ih _ cs (Nat.le_refl _) hnext.reaches).2 0
    have hlength := Script.length_closeFrom_le (.brackets 0) [] cs
    have hlater := ih _ _ (by rw [List.length_tail]; omega)
      (hat.reaches_after_closeFrom (.brackets 0) trivial)
    rw [literalEnd_of_byteAt? (h.byteAt? rfl), if_neg (by decide), if_pos ⟨rfl, rfl, hbyte⟩, hclose,
      if_pos ⟨rfl, rfl, hbrace⟩]
    have houter := Script.closeFrom_outer (.brackets 0) [] (.quoted Script.templateQuote) [] cs
    rw [List.nil_append] at houter
    change ∃ j, literalEnd text Script.templateQuote (close + 1) = some j ∧ At text j
      (Script.closeFrom (.brackets 0) [.quoted Script.templateQuote] cs).2
    rw [houter]
    exact hlater.1 _ hquote
  rw [if_neg htemplate]
  by_cases hcq : c = quote
  · subst hcq
    rw [if_pos rfl, literalEnd_of_byteAt? (h.byteAt? hquote), if_neg hc, if_neg ?_, if_pos rfl]
    · exact ⟨i, rfl, h⟩
    · rintro ⟨hdollar, htemp, _⟩
      rw [hdollar] at htemp
      exact absurd htemp (by decide)
  rw [if_neg hcq]
  have hstep : literalEnd text quote i = literalEnd text quote (i + c.utf8Size) := by
    by_cases hdollar : c = '$'
    · subst hdollar
      rw [literalEnd_of_byteAt? (h.byteAt? rfl), if_neg hc, if_neg ?_, if_neg hcq]
      · rfl
      · rintro ⟨_, htemp, hbyte⟩
        exact htemplate ⟨htemp, rfl, (h.byteAt?_next rfl rfl).mp hbyte⟩
    · exact (passes_literalEnd text hquote).char h ⟨hc, hcq, hdollar⟩
  rw [hstep]
  exact (ih _ cs (Nat.le_refl _) h.next.reaches).1 quote hquote

/-- One character between brackets, given that everything shorter closes alike. -/
theorem matchingClose_step (depth : Nat) (h : At text i (c :: cs))
    (ih : ∀ j ds, ds.length ≤ cs.length → Reaches text j ds → Closes text j ds) :
    ∃ j, matchingClose text depth i = some j ∧
      At text j (Script.closeFrom (.brackets depth) [] (c :: cs)).2 := by
  have hrest := ih _ cs (Nat.le_refl _) h.next.reaches
  rw [Script.closeFrom_brackets_cons]
  by_cases hopen : isOpenBracket c = true
  · have hc := utf8Size_of_isOpenBracket hopen
    rw [hc] at hrest
    rw [matchingClose_of_byteAt? (h.byteAt? hc), if_pos hopen, if_pos hopen]
    exact hrest.2 (depth + 1)
  by_cases hclose : isCloseBracket c = true
  · have hc := utf8Size_of_isCloseBracket hclose
    rw [hc] at hrest
    rw [matchingClose_of_byteAt? (h.byteAt? hc), if_neg hopen, if_neg hopen, if_pos hclose,
      if_pos hclose]
    by_cases hdepth : depth ≤ 1
    · rw [if_pos hdepth, if_pos (by omega)]
      exact ⟨i, rfl, h⟩
    · rw [if_neg hdepth, if_neg (by omega)]
      exact hrest.2 (depth - 1)
  by_cases hquote : Mask.isQuote c = true
  · have hc := Mask.utf8Size_of_isQuote hquote
    rw [hc] at hrest
    -- the literal is closed first, then the brackets
    obtain ⟨stop, hstop, hat⟩ := hrest.1 c hc
    have hlength := Script.length_closeFrom_le (.quoted c) [] cs
    have hlater := ih _ _ (by rw [List.length_tail]; omega)
      (hat.reaches_after_closeFrom (.quoted c) hc)
    have houter := Script.closeFrom_outer (.quoted c) [] (.brackets depth) [] cs
    rw [List.nil_append] at houter
    rw [matchingClose_of_byteAt? (h.byteAt? hc), if_neg hopen, if_neg hopen, if_neg hclose,
      if_neg hclose, if_pos hquote, if_pos hquote, hstop]
    change ∃ j, matchingClose text depth (stop + 1) = some j ∧ At text j
      (Script.closeFrom (.quoted c) [.brackets depth] cs).2
    rw [houter]
    exact hlater.2 depth
  · rw [if_neg hopen, if_neg hclose, if_neg hquote, (passes_matchingClose text depth).char h
      ⟨Bool.eq_false_iff.mpr hopen, Bool.eq_false_iff.mpr hclose, Bool.eq_false_iff.mpr hquote⟩]
    exact hrest.2 depth

/-- The induction is on the length of the text that is left: each call of one scan by the other is
about less text. -/
theorem closes (h : Reaches text i cs) : Closes text i cs := by
  induction hlength : cs.length using Nat.strongRecOn generalizing i cs with
  | _ length ih =>
    cases cs with
    | nil =>
      refine ⟨fun quote _ => ?_, fun depth => ?_⟩
      · rw [literalEnd_of_le h.le, Script.closeFrom_nil]
        exact ⟨_, rfl, at_end text⟩
      · rw [matchingClose_of_le h.le, Script.closeFrom_nil]
        exact ⟨_, rfl, at_end text⟩
    | cons c cs =>
      -- a literal may hold brackets and brackets a literal, so both are proved at once for all
      -- shorter texts
      have hshorter : ∀ j ds, ds.length ≤ cs.length → Reaches text j ds → Closes text j ds := by
        intro j ds hle hds
        refine ih ds.length ?_ hds rfl
        rw [← hlength, List.length_cons]
        omega
      exact ⟨fun quote hquote => literalEnd_step hquote h.at_cons hshorter,
        fun depth => matchingClose_step depth h.at_cons hshorter⟩

/-- The bracket that closes one which has just been opened. -/
theorem matchingClose_of_isOpenBracket (h : At text i (c :: cs)) (hopen : isOpenBracket c = true) :
    ∃ j, matchingClose text 0 i = some j ∧ At text j (Script.closeFrom (.brackets 1) [] cs).2 := by
  obtain ⟨j, hj, hat⟩ := (closes h.reaches).2 0
  rw [Script.closeFrom_brackets_cons, if_pos hopen] at hat
  exact ⟨j, hj, hat⟩

theorem rel_cases {α β : Type} {R : α → β → Prop} {a : Option α} {b : Option β}
    (h : Option.Rel R a b) : a = none ∧ b = none ∨ ∃ x y, a = some x ∧ b = some y ∧ R x y := by
  cases h with
  | none => exact .inl ⟨rfl, rfl⟩
  | some hxy => exact .inr ⟨_, _, rfl, rfl, hxy⟩

/-- A literal by byte offsets and one by slices are the same. -/
def SameLiteral (text : List Char) (base : Nat) (l : Literal) (literal : Script.Literal) : Prop :=
  l.quote = literal.quote ∧ Cut text base l.body literal.body

/-- At a quote a literal is found, by bytes as by characters. -/
theorem literalAt_of_isQuote (base : Nat) (h : At text i (c :: cs))
    (hquote : Mask.isQuote c = true) :
    ∃ stop, literalAt text i = some (some ⟨c, i + 1, stop⟩) ∧
      At text stop (Script.closeFrom (.quoted c) [] cs).2 ∧
      SameLiteral text base ⟨c, i + 1, stop⟩ ⟨c, base + i + 1, Script.quotedText c cs⟩ := by
  have hc := Mask.utf8Size_of_isQuote hquote
  have hnext := h.succ hc
  obtain ⟨stop, hstop, hat⟩ := (closes hnext.reaches).1 c hc
  refine ⟨stop, ?_, hat, rfl, Nat.add_assoc .. |>.symm,
    (hnext.of_eq (Script.quotedText_append c cs)).slice? hat⟩
  rw [literalAt, h.byteAt? hc]
  simp only
  rw [if_pos hquote, hstop]
  rfl

/-- Where no quote stands no literal begins. -/
theorem literalAt_of_not_isQuote (h : (byteAt? text i).any Mask.isQuote = false) :
    literalAt text i = some none := by
  rw [literalAt]
  cases hbyte : byteAt? text i with
  | none => rfl
  | some b =>
    rw [hbyte, Option.any_some] at h
    simp only
    rw [h, if_neg Bool.false_ne_true]
    rfl

/-- At a place, bytes and characters find the same literal, or both find none. -/
theorem literalAt_eq (base : Nat) (h : At text i cs) : ∃ found, literalAt text i = some found ∧
    Option.Rel (SameLiteral text base) found (Script.literalAt? ⟨base + i, cs⟩) := by
  have hany := h.any_byteAt? fun _ => Mask.utf8Size_of_isQuote
  cases cs with
  | nil => exact ⟨none, literalAt_of_not_isQuote hany, .none⟩
  | cons c cs =>
    rw [Script.literalAt?]
    simp only
    by_cases hquote : Mask.isQuote c = true
    · obtain ⟨stop, hsome, _, hsame⟩ := literalAt_of_isQuote base h hquote
      rw [if_pos hquote]
      exact ⟨_, hsome, .some hsame⟩
    · rw [if_neg hquote]
      refine ⟨none, literalAt_of_not_isQuote ?_, .none⟩
      rw [hany]
      exact Bool.eq_false_iff.mpr hquote

/-- Bytes that are no quote begin no literal. -/
theorem passes_literalsFrom (text : List Char) :
    Passes text (fun b => Mask.isQuote b = false) (literalsFrom text) where
  wide b hb := eq_false_of_utf8Size (fun _ => Mask.utf8Size_of_isQuote) hb
  step j b hbyte hb := by
    have hnone : literalAt text j = some none := by
      refine literalAt_of_not_isQuote ?_
      rw [hbyte]
      exact hb
    rw [literalsFrom, if_pos (lt_of_byteAt? hbyte), hnone]
    rfl

/-- The literals found by bytes are those found by characters. -/
theorem literalsFrom_eq {cur : Cursor} (h : Tracks text base i cur) :
    ∃ found, literalsFrom text i = some found ∧
      List.Forall₂ (SameLiteral text base) found (Script.literalRecogniser.scan cur) := by
  induction cur using Cursor.advance_induction generalizing i with
  | atEnd cur hend =>
    have hreaches := h.1
    rw [hend] at hreaches
    have hle := hreaches.le
    refine ⟨[], ?_, ?_⟩
    · rw [literalsFrom, if_neg (by omega)]
      rfl
    · rw [Recogniser.scan_of_rest_nil hend]
      exact .nil
  | step cur hne ih =>
    obtain ⟨offset, before, rest⟩ := cur
    obtain ⟨c, cs, rfl⟩ := List.exists_cons_of_ne_nil hne
    have hat : At text i (c :: cs) := h.1.at_cons
    obtain rfl : offset = base + i := h.2 hne
    by_cases hquote : Mask.isQuote c = true
    · have hr : Script.literalRecogniser ⟨base + i, before, c :: cs⟩ =
          some (⟨c, base + i + 1, Script.quotedText c cs⟩,
            (Script.quotedText c cs).length + 2) := by
        simp only [Script.literalRecogniser, Script.literalAt?, Cursor.toSlice]
        rw [if_pos hquote]
        rfl
      obtain ⟨stop, hsome, hstop, hsame⟩ := literalAt_of_isQuote base hat hquote
      have hdrop : (c :: cs).drop ((Script.quotedText c cs).length + 2) =
          (Script.closeFrom (.quoted c) [] cs).2.tail := by
        rw [List.drop_succ_cons, ← List.drop_drop, Script.quotedText, Script.drop_closeFrom,
          List.drop_one]
      have hreaches : Reaches text (stop + 1)
          ((c :: cs).drop ((Script.quotedText c cs).length + 2)) := by
        rw [hdrop]
        exact hstop.reaches_after_closeFrom (.quoted c) (Mask.utf8Size_of_isQuote hquote)
      obtain ⟨later, hlater, hrel⟩ := ih _ (by omega) (h.advance hreaches)
      refine ⟨⟨c, i + 1, stop⟩ :: later, ?_, ?_⟩
      · rw [literalsFrom, if_pos hat.lt, hsome]
        simp only [Option.bind_eq_bind, Option.bind_some]
        rw [jump?_of_lt (Nat.lt_succ_of_lt (lt_stop_of_literalAt hat.lt hsome)), hlater]
        rfl
      · rw [Recogniser.scan_of_some hne (by omega) hr]
        exact .cons hsame hrel
    · have hr : Script.literalRecogniser ⟨base + i, before, c :: cs⟩ = none := by
        simp only [Script.literalRecogniser, Script.literalAt?, Cursor.toSlice]
        rw [if_neg hquote]
        rfl
      rw [(passes_literalsFrom text).char hat (Bool.eq_false_iff.mpr hquote),
        Recogniser.scan_of_none hne hr]
      exact ih 1 (by decide) (h.advance hat.next.reaches)

/-- No slice fails in the search for literals. -/
theorem literals_eq (base : Nat) (text : List Char) :
    ∃ found, literals text = some found ∧
      List.Forall₂ (SameLiteral text base) found (Script.literals ⟨base, text⟩) :=
  literalsFrom_eq (tracks_start base text)

/-! ### Arguments of a call -/

/-- `StartsAt text base a s`: offset `a` of the text is the place of the slice `s`, which runs to
the end. -/
def StartsAt (text : List Char) (base a : Nat) (s : Slice) : Prop :=
  base + a = s.offset ∧ At text a s.text

/-- A piece of a text starts at its byte offset. -/
theorem startsAt_dropTo {start a : Nat} {s : Slice} (h : At text start cs)
    (hs : s.Inside ⟨base + start, cs⟩) (ha : base + a = s.offset) :
    StartsAt text base a (Slice.dropTo s.offset ⟨base + start, cs⟩) := by
  obtain ⟨before, after, htext, hoffset⟩ := hs
  change cs = before ++ s.text ++ after at htext
  change s.offset = base + start + byteLen before at hoffset
  rw [List.append_assoc] at htext
  subst htext
  have hbytes : s.offset - (base + start) = byteLen before := by omega
  have hdrop : dropBytes (byteLen before) (before ++ (s.text ++ after)) = s.text ++ after :=
    Slice.dropBytes_append before _
  have hplace : a = start + byteLen before := by omega
  refine ⟨ha, ?_⟩
  rw [Slice.dropTo]
  simp only
  rw [hbytes, hdrop, hplace]
  exact h.append

/-- Blank arguments are left out, and the others start at their first character. -/
theorem forall₂_argumentStart? {start : Nat} {cut : List Slice} (h : At text start cs)
    (hcut : ∀ branch ∈ cut, (branch.shift (base + start)).Inside ⟨base + start, cs⟩) :
    List.Forall₂ (StartsAt text base) (cut.filterMap (argumentStart? start))
      ((((cut.map (Slice.shift (base + start))).map (Slice.trimLeft isBlank)).filter
        fun arg => !arg.text.isEmpty).map fun arg =>
          Slice.dropTo arg.offset ⟨base + start, cs⟩) := by
  induction cut with
  | nil => exact .nil
  | cons branch cut ih =>
    have hrest := ih fun b hb => hcut b (List.mem_cons_of_mem branch hb)
    have hbranch := hcut branch List.mem_cons_self
    rw [List.filterMap_cons, List.map_cons, List.map_cons, List.filter_cons, argumentStart?]
    have htext : ((branch.shift (base + start)).trimLeft isBlank).text =
        trimLeft isBlank branch.text := rfl
    simp only [htext]
    by_cases hnil : trimLeft isBlank branch.text = []
    · rw [if_pos hnil, hnil]
      exact hrest
    · have hkept : (!(trimLeft isBlank branch.text).isEmpty) = true := by
        rw [Bool.not_eq_true', List.isEmpty_eq_false_iff]
        exact hnil
      rw [if_neg hnil, if_pos hkept]
      refine .cons (startsAt_dropTo h ((Slice.inside_trimLeft isBlank _).trans hbranch) ?_) hrest
      rw [byteLen_sub_trimLeft]
      change _ = base + start + branch.offset + byteLen (branch.text.takeWhile isBlank)
      omega

/-- The arguments of a call start, by bytes, where they do by characters. -/
theorem callArguments_eq (base : Nat) (h : At text i ('(' :: cs)) :
    ∃ found, callArguments text i = some found ∧
      List.Forall₂ (StartsAt text base) found (Script.callArguments ⟨base + i, '(' :: cs⟩) := by
  have hnext : At text (i + 1) cs := h.next
  obtain ⟨close, hclose, hat⟩ := matchingClose_of_isOpenBracket h rfl
  have hsplit := hnext.of_eq (Script.bracketed_append cs)
  -- the closing bracket does not lie before the text it closes
  have hmax : max close (i + 1) = close := by
    have hlen := hsplit.append.unique hat
    omega
  obtain ⟨cut, hcut, hmap⟩ :=
    Option.map_eq_some_iff.mp (branches_eq (base + (i + 1)) (Script.bracketed cs))
  have hinside : ∀ branch ∈ cut, (branch.shift (base + (i + 1))).Inside ⟨base + (i + 1), cs⟩ := by
    intro branch hbranch
    have hmem : branch.shift (base + (i + 1)) ∈
        StyleAudit.branches ⟨base + (i + 1), Script.bracketed cs⟩ := by
      rw [← hmap]
      exact List.mem_map_of_mem hbranch
    exact (inside_of_mem_branches hmem).trans (Slice.inside_of_append (Script.bracketed_append cs))
  refine ⟨cut.filterMap (argumentStart? (i + 1)), ?_, ?_⟩
  · rw [callArguments, hclose]
    simp only [Option.bind_eq_bind, Option.bind_some]
    rw [hmax, hsplit.slice? hat, Option.bind_some, hcut]
    rfl
  · have hfound := forall₂_argumentStart? hnext hinside
    rw [hmap] at hfound
    exact hfound

end Bytes

end StyleAudit
