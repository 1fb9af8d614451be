import Mathlib.Data.List.Forall2
import StyleAudit.Proofs.DeclarationPlaces
import StyleAudit.Text.Utf8

/-!
# What masking keeps

A masked text stands for the stylesheet it was made from: an offset that is found in one is used in
the other, and a piece of a masked text may be masked again. So masking keeps the places of all
bytes, and what it has done once it does not do differently a second time.

* **`Mask.State.settled`** is the state in which a masked text is read where the stylesheet is read
  in a given state: whatever is not code there has become blank.
* **`Mask.step_settled`** is the second reading of a character that was kept, and
  **`Mask.settled_of_filler`** of one that was not. Fillers open nothing, so a kept character sees
  nothing in the masked text that it would not have seen before.
* **`Mask.renderFrom_settled`** follows from the two, and **`Mask.bytes_renderFrom`** compares
  bytes.
-/

namespace StyleAudit

open Text

namespace Mask

/-! ### Masking twice -/

/-- The state of a second pass over a masked text, where the first pass is in state `s`. Only an
escape is still the same. -/
def State.settled (s : State) : State :=
  if s.mode = .escaped then s else ⟨.code, s.parens⟩

theorem settled_of_ne {s : State} (h : s.mode ≠ .escaped) : s.settled = ⟨.code, s.parens⟩ :=
  if_neg h

/-- Whatever stands next in a masked text stood there before, or is a filler. -/
theorem head?_renderFrom (s : State) (cs : List Char) :
    (renderFrom s cs).head? = cs.head? ∨
      ∃ filler, (filler = ' ' ∨ filler = dynamic) ∧ (renderFrom s cs).head? = some filler := by
  cases cs with
  | nil => exact .inl rfl
  | cons c cs =>
    rw [renderFrom_cons]
    by_cases hkeep : (step s c cs.head?).2 = .keep
    · rw [hkeep]
      exact .inl rfl
    · obtain ⟨filler, hfiller, happly⟩ := apply_eq_replicate hkeep c
      -- a character is at least one byte, so its filling is not empty
      obtain ⟨n, hn⟩ : ∃ n, c.utf8Size = n + 1 :=
        ⟨c.utf8Size - 1, by have := c.utf8Size_pos; omega⟩
      refine .inr ⟨filler, hfiller, ?_⟩
      rw [happly, hn]
      rfl

/-- A line feed is kept in code. -/
theorem step_code_newline (parens : Nat) (next : Option Char) :
    step ⟨.code, parens⟩ '\n' next = (⟨.code, parens⟩, .keep) := by
  simp [step, stepCode, isQuote, isInterpolationMark]

/-- A filler that is read as code opens nothing and stays. -/
theorem step_code_filler (parens : Nat) {filler : Char} (h : filler = ' ' ∨ filler = dynamic)
    (next : Option Char) : step ⟨.code, parens⟩ filler next = (⟨.code, parens⟩, .keep) := by
  rcases h with rfl | rfl <;> simp [step, stepCode, isQuote, isInterpolationMark, dynamic]

/-- `c` is read as it is: it opens no comment, string or interpolation. -/
structure OpensNothing (parens : Nat) (c : Char) (next : Option Char) : Prop where
  block : ¬(c = '/' ∧ next = some '*')
  line : ¬(c = '/' ∧ next = some '/' ∧ parens = 0)
  quoted : ¬isQuote c = true
  interpolation : ¬(isInterpolationMark c = true ∧ next = some '{')

/-- A character of code that is kept opens no comment, string or interpolation. -/
theorem opensNothing_of_keep {parens : Nat} {c : Char} {next : Option Char}
    (hkeep : (stepCode parens c next).2 = .keep) (hc : c ≠ '\\') : OpensNothing parens c next := by
  unfold stepCode at hkeep
  rw [if_neg hc] at hkeep
  split_ifs at hkeep with hblock hline hquoted hmark
  all_goals exact ⟨hblock, hline, hquoted, hmark⟩

/-- A character that opens nothing only moves the count of parentheses. -/
theorem stepCode_of_opensNothing {parens : Nat} {c : Char} {next : Option Char}
    (h : OpensNothing parens c next) (hc : c ≠ '\\') :
    stepCode parens c next =
      (⟨.code, if c = '(' then parens + 1 else if c = ')' then parens - 1 else parens⟩, .keep) := by
  unfold stepCode
  rw [if_neg hc, if_neg h.block, if_neg h.line, if_neg h.quoted, if_neg h.interpolation]
  split_ifs <;> rfl

/-- `next'` opens nothing that `next` does not open. -/
def NoNewOpener (next next' : Option Char) : Prop :=
  ∀ d, d = '*' ∨ d = '/' ∨ d = '{' → next' = some d → next = some d

/-- What opens nothing still opens nothing when the character behind it is masked. -/
theorem OpensNothing.of_noNewOpener {parens : Nat} {c : Char} {next next' : Option Char}
    (h : OpensNothing parens c next) (hnext : NoNewOpener next next') :
    OpensNothing parens c next' where
  block hc := h.block ⟨hc.1, hnext '*' (by simp) hc.2⟩
  line hc := h.line ⟨hc.1, hnext '/' (by simp) hc.2.1, hc.2.2⟩
  quoted := h.quoted
  interpolation hc := h.interpolation ⟨hc.1, hnext '{' (by simp) hc.2⟩

/-- Masking never puts an opener where there was none. -/
theorem noNewOpener_renderFrom (s : State) (cs : List Char) :
    NoNewOpener cs.head? (renderFrom s cs).head? := by
  intro d hd hhead
  rcases head?_renderFrom s cs with hsame | ⟨filler, hfiller, hhead'⟩
  · rw [← hsame]
    exact hhead
  · -- a filler opens nothing
    rw [hhead] at hhead'
    obtain rfl : d = filler := Option.some.inj hhead'
    rcases hfiller with rfl | rfl <;> exact absurd hd (by decide)

/-- A character of code that was kept is read in the same way again. -/
theorem stepCode_again {parens : Nat} {c : Char} {next next' : Option Char}
    (hkeep : (stepCode parens c next).2 = .keep) (hnext : NoNewOpener next next') :
    stepCode parens c next' = stepCode parens c next := by
  by_cases hc : c = '\\'
  · unfold stepCode
    rw [if_pos hc, if_pos hc]
  · have hopens := opensNothing_of_keep hkeep hc
    rw [stepCode_of_opensNothing hopens hc,
      stepCode_of_opensNothing (hopens.of_noNewOpener hnext) hc]

/-- The second reading of a character that was kept. -/
theorem step_settled {s : State} {c : Char} {next next' : Option Char}
    (hkeep : (step s c next).2 = .keep) (hnext : NoNewOpener next next') :
    step s.settled c next' = ((step s c next).1.settled, .keep) := by
  obtain ⟨mode, parens⟩ := s
  by_cases hcode : mode = .code
  · subst hcode
    change (stepCode parens c next).2 = .keep at hkeep
    change stepCode parens c next' = ((stepCode parens c next).1.settled, .keep)
    rw [stepCode_again hkeep hnext]
    rcases stepCode_cases parens c next with ⟨_, n, heq⟩ | ⟨_, heq⟩ | ⟨_, _, heq, _, hpaint⟩
    · rw [heq]
      rfl
    · rw [heq]
      rfl
    · rw [heq] at hkeep
      exact absurd hkeep hpaint
  · by_cases hescaped : mode = .escaped
    · subst hescaped
      rfl
    · -- outside of code only line feeds are kept
      obtain rfl : c = '\n' :=
        (step_outside_code (s := ⟨mode, parens⟩) hcode hescaped c next).2 hkeep
      rw [settled_of_ne hescaped, step_code_newline]
      cases mode with
      | blockComment => rw [step_blockComment, if_neg (by simp), if_pos rfl]; rfl
      | lineComment => rw [step_lineComment, if_pos rfl]; rfl
      | code => exact absurd rfl hcode
      | escaped => exact absurd rfl hescaped
      | quoted quote =>
        rw [step_quoted] at hkeep
        split_ifs at hkeep
      | interpolation depth => exact absurd hkeep (by simp [step])
      | commentOpen | commentClose | quotedEscape quote => exact absurd hkeep (by simp [step])

/-- A character that was not kept was read outside of an escape and opened no parenthesis. -/
theorem settled_of_filler {s : State} {c : Char} {next : Option Char}
    (h : (step s c next).2 ≠ .keep) :
    s.settled = ⟨.code, s.parens⟩ ∧ (step s c next).1.settled = ⟨.code, s.parens⟩ := by
  obtain ⟨mode, parens⟩ := s
  cases mode with
  -- from code, a filler is written only where something opens
  | code =>
    change (stepCode parens c next).2 ≠ .keep at h
    refine ⟨rfl, ?_⟩
    change (stepCode parens c next).1.settled = _
    rcases stepCode_cases parens c next with ⟨_, n, heq⟩ | ⟨_, heq⟩ | ⟨_, _, heq, hmode, _⟩
    · exact absurd (congrArg Prod.snd heq) h
    · exact absurd (congrArg Prod.snd heq) h
    · rw [heq, settled_of_ne hmode]
  | escaped => exact absurd rfl h
  | blockComment =>
    refine ⟨rfl, ?_⟩
    rw [step_blockComment]
    split_ifs <;> rfl
  | lineComment =>
    refine ⟨rfl, ?_⟩
    rw [step_lineComment]
    split_ifs <;> rfl
  | quoted quote =>
    refine ⟨rfl, ?_⟩
    rw [step_quoted]
    split_ifs <;> rfl
  | interpolation depth =>
    refine ⟨rfl, ?_⟩
    simp only [step]
    split_ifs <;> rfl
  | commentOpen | commentClose | quotedEscape quote => exact ⟨rfl, rfl⟩

/-- A second pass keeps all of a masked text. The induction is on the stylesheet; the second pass is
in the settled state throughout. -/
theorem renderFrom_settled (s : State) (cs : List Char) :
    renderFrom s.settled (renderFrom s cs) = renderFrom s cs := by
  induction cs generalizing s with
  | nil => rfl
  | cons c cs ih =>
    have hlater := ih (step s c cs.head?).1
    rw [renderFrom_cons s c cs]
    by_cases hkeep : (step s c cs.head?).2 = .keep
    · have hnext := noNewOpener_renderFrom (step s c cs.head?).1 cs
      rw [hkeep]
      change renderFrom s.settled (c :: renderFrom (step s c cs.head?).1 cs) = c :: _
      rw [renderFrom_cons, step_settled hkeep hnext, hlater]
      rfl
    · -- what was masked is read as code again, and its fillers leave the state where it is
      obtain ⟨hbefore, hafter⟩ := settled_of_filler hkeep
      obtain ⟨filler, hfiller, happly⟩ := apply_eq_replicate hkeep c
      rw [hafter] at hlater
      rw [happly, hbefore, renderFrom_of_still, hlater]
      intro d hd next
      rw [List.eq_of_mem_replicate hd]
      exact step_code_filler s.parens hfiller next

theorem mask_mask (cs : List Char) : mask (mask cs) = mask cs :=
  renderFrom_settled .start cs

/-! ### Bytes -/

/-- What may stand in a masked text where the text has the byte `b`. -/
def MaskedByte (b masked : UInt8) : Prop := masked = b ∨ masked = 0x20 ∨ masked = 0x01

theorem utf8_fillers {filler : Char} (h : filler = ' ' ∨ filler = dynamic) (n : Nat) :
    ∃ b, (b = 0x20 ∨ b = 0x01) ∧ Text.utf8 (List.replicate n filler) = List.replicate n b := by
  obtain ⟨b, hb, hfiller⟩ : ∃ b : UInt8,
      (b = 0x20 ∨ b = 0x01) ∧ String.utf8EncodeChar filler = [b] := by
    rcases h with rfl | rfl
    · exact ⟨0x20, .inl rfl, by decide⟩
    · exact ⟨0x01, .inr rfl, by decide⟩
  refine ⟨b, hb, ?_⟩
  unfold Text.utf8
  rw [List.flatMap_replicate, hfiller]
  simp

/-- Masking keeps each byte or puts a filler in its place. -/
theorem bytes_renderFrom (s : State) (cs : List Char) :
    List.Forall₂ MaskedByte (Text.utf8 cs) (Text.utf8 (renderFrom s cs)) := by
  induction cs generalizing s with
  | nil => exact .nil
  | cons c cs ih =>
    rw [renderFrom_cons, Text.utf8_cons, Text.utf8_append]
    apply List.rel_append _ (ih _)
    by_cases hkeep : (step s c cs.head?).2 = .keep
    · rw [hkeep]
      show List.Forall₂ MaskedByte (String.utf8EncodeChar c) (Text.utf8 [c])
      rw [Text.utf8_cons, Text.utf8, List.flatMap_nil, List.append_nil, List.forall₂_same]
      exact fun b _ => .inl rfl
    · obtain ⟨filler, hfiller, happly⟩ := apply_eq_replicate hkeep c
      obtain ⟨b, hb, hbytes⟩ := utf8_fillers hfiller c.utf8Size
      rw [happly, hbytes, List.forall₂_iff_get]
      refine ⟨?_, fun i hi hi' => .inr ?_⟩
      · rw [List.length_replicate]
        exact String.length_utf8EncodeChar c
      · rw [List.get_eq_getElem, List.getElem_replicate]
        exact hb

end Mask

/-! ### Masked texts as strings -/

open Mask

theorem byteLen_mask (cs : List Char) : byteLen (mask cs) = byteLen cs := by
  have hrender := render_append .start cs []
  rw [List.append_nil, renderFrom_nil, List.append_nil] at hrender
  rw [mask_eq_renderFrom, hrender, byteLen_renderBefore]

/-- The boundaries of characters stay boundaries. -/
theorem isValid_mask {text : String} {p : String.Pos.Raw} (h : p.IsValid text) :
    p.IsValid (String.ofList (mask text.toList)) := by
  obtain ⟨front, rest, rfl, rfl⟩ := String.Pos.Raw.isValid_iff_exists_append.mp h
  have hfront : front.rawEndPos = ⟨byteLen (renderBefore .start front.toList rest.toList)⟩ := by
    rw [byteLen_renderBefore, ← Slice.utf8ByteSize_eq_byteLen]
    rfl
  have hsplit : (String.ofList (mask (front ++ rest).toList)).toList =
      renderBefore .start front.toList rest.toList ++
        renderFrom (stateAfter .start front.toList rest.toList) rest.toList := by
    rw [String.toList_ofList, String.toList_append]
    exact render_append .start front.toList rest.toList
  rw [hfront]
  exact Slice.isValid_of_append hsplit

/-- Each byte of the masked text is the byte that stood there, or a filler. -/
theorem maskedByte_mask {text : String} {i : Nat} {b : UInt8}
    (h : (String.ofList (mask text.toList)).toUTF8.toList[i]? = some b) :
    ∃ b', text.toUTF8.toList[i]? = some b' ∧ MaskedByte b' b := by
  rw [Text.toUTF8_toList, String.toList_ofList] at h
  rw [Text.toUTF8_toList]
  obtain ⟨hlength, hbytes⟩ := List.forall₂_iff_get.mp (bytes_renderFrom .start text.toList)
  obtain ⟨hi, hb⟩ := List.getElem?_eq_some_iff.mp h
  have hi' : i < (Text.utf8 text.toList).length := by
    rw [hlength]
    exact hi
  refine ⟨_, List.getElem?_eq_getElem hi', ?_⟩
  rw [← hb]
  exact hbytes i hi' hi

/-- **Masking keeps places, and masking twice is masking once.** The masked text has as many bytes
as the text, and a character ends wherever one ends in the text. Each of its bytes is the one that
the text has there, or a space or U+0001. So the bytes that structure a stylesheet are its own. -/
theorem masking_keeps_places (text : String) :
    let masked := String.ofList (mask text.toList)
    masked.utf8ByteSize = text.utf8ByteSize ∧
    (∀ p : String.Pos.Raw, p.IsValid text → p.IsValid masked) ∧
    (∀ (i : Nat) (b : UInt8), masked.toUTF8.toList[i]? = some b →
      text.toUTF8.toList[i]? = some b ∨ b = 0x20 ∨ b = 0x01) ∧
    (∀ (i : Nat) (b : UInt8), masked.toUTF8.toList[i]? = some b →
      b ∈ "\x7b\x7d()[],;.#@".toUTF8.toList → text.toUTF8.toList[i]? = some b) ∧
    mask masked.toList = masked.toList := by
  intro masked
  have hbyte : ∀ (i : Nat) (b : UInt8), masked.toUTF8.toList[i]? = some b →
      text.toUTF8.toList[i]? = some b ∨ b = 0x20 ∨ b = 0x01 := by
    intro i b hb
    obtain ⟨b', hb', hmasked⟩ := maskedByte_mask hb
    rcases hmasked with rfl | hfiller
    · exact .inl hb'
    · exact .inr hfiller
  refine ⟨?_, fun p hp => isValid_mask hp, hbyte, ?_, ?_⟩
  · rw [Slice.utf8ByteSize_eq_byteLen, Slice.utf8ByteSize_eq_byteLen,
      String.toList_ofList, byteLen_mask]
  · intro i b hb hstructure
    apply (hbyte i b hb).resolve_right
    -- none of these bytes is a filler
    rw [Text.toUTF8_toList] at hstructure
    rintro (rfl | rfl)
    · exact absurd hstructure (by decide)
    · exact absurd hstructure (by decide)
  · rw [String.toList_ofList, mask_mask]

/-- A slash before a comment in parentheses, a string with a character of two bytes, an escaped
quote, and an interpolation right before a marker. -/
theorem masking_keeps_places_mixed :
    let text := "a(//*\x7b*/'é')\\\"#\x7bx\x7d.b\x7b"
    let masked := String.ofList (mask text.toList)
    masked = "a(/         )\\\"\x01\x01\x01\x01.b\x7b" ∧ masked.utf8ByteSize = 22 ∧
      String.Pos.Raw.IsValid text ⟨11⟩ ∧ String.Pos.Raw.IsValid masked ⟨11⟩ ∧
      masked.toUTF8.toList[19]? = some 0x2e ∧ text.toUTF8.toList[19]? = some 0x2e ∧
      mask masked.toList = masked.toList := by
  intro text masked
  obtain ⟨hsize, hvalid, _, hstructure, hagain⟩ := masking_keeps_places text
  have hboundary : String.Pos.Raw.IsValid text ⟨11⟩ := by decide +kernel
  have hdot : masked.toUTF8.toList[19]? = some 0x2e := by
    rw [Text.toUTF8_toList]
    decide +kernel
  have hmarker : (0x2e : UInt8) ∈ "\x7b\x7d()[],;.#@".toUTF8.toList := by
    rw [Text.toUTF8_toList]
    decide
  exact ⟨by decide +kernel, hsize.trans (by decide +kernel), hboundary, hvalid _ hboundary, hdot,
    hstructure 19 _ hdot hmarker, hagain⟩

end StyleAudit
