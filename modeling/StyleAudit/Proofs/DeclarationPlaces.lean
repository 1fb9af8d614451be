import StyleAudit.Proofs.Cuts
import StyleAudit.Proofs.MaskStates

/-!
# Where declarations stand

Names are read from pieces of the masked text, but they point into the stylesheet. Masking keeps
offsets, and a name of the masked text is written in the stylesheet as it is: it holds no filler,
since a space ends a name, unless it is escaped, and then it was not put there by masking.

* **`Mask.region`** says of a character which kind of text it belongs to.
* **`Mask.exists_front_of_renderFrom`** finds a character of the masked text in the stylesheet, and
  **`Mask.mode_stateAfter_eq_escaped`** reads off the masked text whether it is escaped there.
* **`Mask.isCode_of_takeName`** does the same for a written name, by induction on it.
* **`declarations_index_stylesheet`** puts the facts about names together.
-/

namespace StyleAudit

open Text

namespace Mask

/-! ### Regions -/

/-- What a character of a stylesheet belongs to. -/
inductive Region
  | code
  | comment
  | string
  | interpolation
  deriving Repr, DecidableEq

/-- The region of a character that is met in state `s`. In code it belongs to what it opens; the
line feed after a comment is code. -/
def region (s : State) (c : Char) (next : Option Char) : Region :=
  match s.mode with
  | .code =>
    match (step s c next).1.mode with
    | .commentOpen | .lineComment => .comment
    | .quoted _ => .string
    | .interpolation _ => .interpolation
    | _ => .code
  | .escaped => .code
  | .commentOpen | .blockComment | .commentClose => .comment
  | .lineComment => if c = '\n' then .code else .comment
  | .quoted _ | .quotedEscape _ => .string
  | .interpolation _ => .interpolation

/-- All of `run` is code, when it is met in state `s` and `rest` follows it. -/
def IsCode (s : State) : (run rest : List Char) → Prop
  | [], _ => True
  | c :: run, rest =>
    region s c (run ++ rest).head? = .code ∧ IsCode (step s c (run ++ rest).head?).1 run rest

/-- Each character of a stretch of code is read as code. -/
theorem IsCode.region_eq {s : State} {front : List Char} {c : Char} {back rest : List Char}
    (h : IsCode s (front ++ c :: back) rest) :
    region (stateAfter s front (c :: back ++ rest)) c (back ++ rest).head? = .code := by
  induction front generalizing s with
  | nil => exact h.1
  | cons d front ih =>
    obtain ⟨_, hrun⟩ := h
    have hlater := ih hrun
    rw [show front.append (c :: back) ++ rest = front ++ (c :: back ++ rest) from
      List.append_assoc front (c :: back) rest] at hlater
    exact hlater

/-! ### What a step in code can do -/

/-- A step in code keeps the character and stays in code, or keeps a backslash, or opens something
that is not code. -/
theorem stepCode_cases (parens : Nat) (c : Char) (next : Option Char) :
    (c ≠ '\\' ∧ ∃ n, stepCode parens c next = (⟨.code, n⟩, .keep)) ∨
      (c = '\\' ∧ stepCode parens c next = (⟨.escaped, parens⟩, .keep)) ∨
      ∃ mode paint, stepCode parens c next = (⟨mode, parens⟩, paint) ∧ mode ≠ .escaped ∧
        paint ≠ .keep := by
  unfold stepCode
  split_ifs with hbackslash
  · exact .inr (.inl ⟨hbackslash, rfl⟩)
  · exact .inr (.inr ⟨_, _, rfl, by simp, by simp⟩)
  · exact .inr (.inr ⟨_, _, rfl, by simp, by simp⟩)
  · exact .inr (.inr ⟨_, _, rfl, by simp, by simp⟩)
  · exact .inr (.inr ⟨_, _, rfl, by simp, by simp⟩)
  · exact .inl ⟨hbackslash, _, rfl⟩
  · exact .inl ⟨hbackslash, _, rfl⟩
  · exact .inl ⟨hbackslash, _, rfl⟩

/-- Inside of comments, strings and interpolations only line feeds are kept, and no backslash
escapes a character of code. -/
theorem step_outside_code {s : State} (hcode : s.mode ≠ .code) (hescaped : s.mode ≠ .escaped)
    (c : Char) (next : Option Char) :
    (step s c next).1.mode ≠ .escaped ∧ ((step s c next).2 = .keep → c = '\n') := by
  obtain ⟨mode, parens⟩ := s
  cases mode with
  | code => exact absurd rfl hcode
  | escaped => exact absurd rfl hescaped
  | commentOpen => exact ⟨by simp [step], by simp [step]⟩
  | blockComment =>
    rw [step_blockComment]
    split_ifs with _ hc
    · exact ⟨by simp, by simp⟩
    · exact ⟨by simp, fun _ => hc⟩
    · exact ⟨by simp, by simp⟩
  | commentClose => exact ⟨by simp [step], by simp [step]⟩
  | lineComment =>
    rw [step_lineComment]
    split_ifs with hc
    · exact ⟨by simp, fun _ => hc⟩
    · exact ⟨by simp, by simp⟩
  | quoted quote =>
    rw [step_quoted]
    split_ifs <;> exact ⟨by simp, by simp⟩
  | quotedEscape quote => exact ⟨by simp [step], by simp [step]⟩
  | interpolation depth =>
    simp only [step]
    split_ifs <;> exact ⟨by simp, by simp⟩

/-- What is kept, line feeds apart, is code or escaped. -/
theorem mode_of_keep {s : State} {c : Char} {next : Option Char} (h : (step s c next).2 = .keep)
    (hc : c ≠ '\n') : s.mode = .code ∨ s.mode = .escaped := by
  by_cases hcode : s.mode = .code
  · exact .inl hcode
  · by_cases hescaped : s.mode = .escaped
    · exact .inr hescaped
    · exact absurd ((step_outside_code hcode hescaped c next).2 h) hc

/-- What is kept in code is code. -/
theorem region_of_keep {s : State} {c : Char} {next : Option Char} (h : (step s c next).2 = .keep)
    (hs : s.mode = .code ∨ s.mode = .escaped) : region s c next = .code := by
  obtain ⟨mode, parens⟩ := s
  rcases hs with rfl | rfl
  · have hstep : step ⟨.code, parens⟩ c next = stepCode parens c next := rfl
    rcases stepCode_cases parens c next with ⟨_, n, heq⟩ | ⟨_, heq⟩ | ⟨mode, paint, heq, _, hpaint⟩
    · simp only [region, hstep, heq]
    · simp only [region, hstep, heq]
    · rw [hstep, heq] at h
      exact absurd h hpaint
  · rfl

/-! ### Escapes and states -/

theorem byteLen_apply (p : Paint) (c : Char) : byteLen (p.apply c) = c.utf8Size := by
  cases p with
  | keep => rfl
  | blank => exact byteLen_replicate rfl _
  | unknown => exact byteLen_replicate rfl _

/-- Masking keeps offsets. -/
theorem byteLen_renderBefore (s : State) (front rest : List Char) :
    byteLen (renderBefore s front rest) = byteLen front := by
  induction front generalizing s with
  | nil => rfl
  | cons c front ih => rw [renderBefore, byteLen_append, byteLen_apply, ih, byteLen_cons]

/-- Behind a filler nothing is escaped. -/
theorem endsEscaped_of_filler {p : Paint} (h : p ≠ .keep) (pending : Bool) (c : Char) :
    endsEscaped pending (p.apply c) = false := by
  obtain ⟨filler, hfiller, happly⟩ := apply_eq_replicate h c
  have hne : filler ≠ '\\' := by rcases hfiller with rfl | rfl <;> decide
  obtain ⟨n, hn⟩ : ∃ n, c.utf8Size = n + 1 :=
    ⟨c.utf8Size - 1, by have := c.utf8Size_pos; omega⟩
  rw [happly, hn, List.replicate_succ']
  exact endsEscaped_snoc hne pending _

/-- The masked character tells whether the next one is escaped. -/
theorem endsEscaped_apply (s : State) (c : Char) (next : Option Char) :
    endsEscaped (decide (s.mode = .escaped)) ((step s c next).2.apply c) =
      decide ((step s c next).1.mode = .escaped) := by
  by_cases hcode : s.mode = .code
  · obtain ⟨mode, parens⟩ := s
    obtain rfl : mode = .code := hcode
    have hstep : step ⟨.code, parens⟩ c next = stepCode parens c next := rfl
    -- a plain character, a backslash, or one that opens something
    rcases stepCode_cases parens c next with
      ⟨hc, n, heq⟩ | ⟨rfl, heq⟩ | ⟨mode, paint, heq, hmode, hpaint⟩
    · rw [hstep, heq]
      exact endsEscaped_cons_of_ne hc []
    · rw [hstep, heq]
      rfl
    · rw [hstep, heq, endsEscaped_of_filler hpaint]
      exact (decide_eq_false hmode).symm
  · by_cases hescaped : s.mode = .escaped
    · -- the escaped character is kept, whatever it is
      obtain ⟨mode, parens⟩ := s
      obtain rfl : mode = .escaped := hescaped
      rfl
    · obtain ⟨hnext, hnewline⟩ := step_outside_code hcode hescaped c next
      rw [decide_eq_false hnext]
      by_cases hkeep : (step s c next).2 = .keep
      · rw [hkeep, hnewline hkeep]
        exact endsEscaped_snoc (by decide) _ []
      · exact endsEscaped_of_filler hkeep _ c

/-- A place of the stylesheet is escaped where the masked text says so. -/
theorem mode_stateAfter_eq_escaped (s : State) (front rest : List Char) :
    decide ((stateAfter s front rest).mode = .escaped) =
      endsEscaped (decide (s.mode = .escaped)) (renderBefore s front rest) := by
  induction front generalizing s with
  | nil => rfl
  | cons c front ih => rw [stateAfter, renderBefore, endsEscaped_append, endsEscaped_apply, ih]

/-! ### From the masked text to the stylesheet -/

/-- A character of the masked text that is no filler is the next of the text, and was kept. -/
theorem renderFrom_eq_cons {s : State} {cs : List Char} {m : Char} {ms : List Char}
    (h : renderFrom s cs = m :: ms) (hspace : m ≠ ' ') (hdynamic : m ≠ dynamic) :
    ∃ rest, cs = m :: rest ∧ (step s m rest.head?).2 = .keep ∧
      renderFrom (step s m rest.head?).1 rest = ms := by
  cases cs with
  | nil => exact absurd h (by simp)
  | cons c cs =>
    rw [renderFrom_cons] at h
    by_cases hkeep : (step s c cs.head?).2 = .keep
    · rw [hkeep] at h
      obtain ⟨rfl, hrest⟩ := List.cons.inj h
      exact ⟨cs, rfl, hkeep, hrest⟩
    · obtain ⟨filler, hfiller, happly⟩ := apply_eq_replicate hkeep c
      obtain ⟨n, hn⟩ : ∃ n, c.utf8Size = n + 1 :=
        ⟨c.utf8Size - 1, by have := c.utf8Size_pos; omega⟩
      rw [happly, hn, List.replicate_succ] at h
      obtain ⟨rfl, _⟩ := List.cons.inj h
      rcases hfiller with heq | heq
      · exact absurd heq hspace
      · exact absurd heq hdynamic

/-- A character of the masked text that is no filler stands in the stylesheet, at the same
offset. -/
theorem exists_front_of_renderFrom {s : State} {cs mf : List Char} {m : Char} {ms : List Char}
    (h : renderFrom s cs = mf ++ m :: ms) (hspace : m ≠ ' ') (hdynamic : m ≠ dynamic) :
    ∃ front rest, cs = front ++ m :: rest ∧ renderBefore s front (m :: rest) = mf ∧
      renderFrom (stateAfter s front (m :: rest)) (m :: rest) = m :: ms := by
  induction cs generalizing s mf with
  | nil => exact absurd h (by simp)
  | cons c cs ih =>
    -- the character comes later
    have hlater : ∀ mf', mf = (step s c cs.head?).2.apply c ++ mf' →
        renderFrom (step s c cs.head?).1 cs = mf' ++ m :: ms → ∃ front rest,
          c :: cs = front ++ m :: rest ∧ renderBefore s front (m :: rest) = mf ∧
            renderFrom (stateAfter s front (m :: rest)) (m :: rest) = m :: ms := by
      intro mf' hmf hrender
      obtain ⟨front, rest, rfl, hbefore, hfrom⟩ := ih hrender
      refine ⟨c :: front, rest, rfl, ?_, hfrom⟩
      rw [renderBefore, hbefore, hmf]
    rw [renderFrom_cons] at h
    -- the character comes from behind `c`, or from what `c` became
    rcases List.append_eq_append_iff.mp h with ⟨mf', hmf, hrender⟩ | ⟨own, hown, hrender⟩
    · exact hlater mf' hmf hrender
    · cases own with
      | nil =>
        rw [List.append_nil] at hown
        exact hlater [] (by rw [hown, List.append_nil]) hrender.symm
      | cons o own =>
        obtain ⟨rfl, _⟩ := List.cons.inj hrender
        by_cases hkeep : (step s c cs.head?).2 = .keep
        · -- the character itself
          have hsingle : [c] = mf ++ m :: own := by
            rw [← hown, hkeep]
            rfl
          obtain ⟨rfl, hc⟩ : mf = [] ∧ c :: [] = m :: own := by
            cases mf with
            | nil => exact ⟨rfl, hsingle⟩
            | cons _ mf =>
              have hlength := congrArg List.length hsingle
              simp only [List.length_cons, List.length_append, List.length_nil] at hlength
              omega
          obtain ⟨rfl, _⟩ := List.cons.inj hc
          refine ⟨[], cs, rfl, rfl, ?_⟩
          change renderFrom s (c :: cs) = _
          rw [renderFrom_cons, h]
          rfl
        · obtain ⟨filler, hfiller, happly⟩ := apply_eq_replicate hkeep c
          have hmem : m ∈ List.replicate c.utf8Size filler := by
            rw [← happly, hown]
            simp
          rw [List.eq_of_mem_replicate hmem] at hspace hdynamic
          rcases hfiller with heq | heq
          · exact absurd heq hspace
          · exact absurd heq hdynamic

/-- A character of a name is no blank. -/
theorem ne_of_not_isNameBoundary {c : Char} (h : ¬isNameBoundary c = true) :
    c ≠ ' ' ∧ c ≠ '\n' := by
  constructor
  · rintro rfl
    exact h (by decide)
  · rintro rfl
    exact h (by decide)

/-- A kept character other than a backslash is followed by one that is not escaped. -/
theorem mode_step_ne_escaped {s : State} {c : Char} {next : Option Char}
    (hs : s.mode ≠ .escaped) (hkeep : (step s c next).2 = .keep) (hc : c ≠ '\\') :
    (step s c next).1.mode ≠ .escaped := by
  have hescape := endsEscaped_apply s c next
  rw [decide_eq_false hs, hkeep] at hescape
  have hfalse : endsEscaped false [c] = false := endsEscaped_cons_of_ne hc []
  exact of_decide_eq_false (hescape.symm.trans hfalse)

/-- A name that is read from the masked text, at a place that is not escaped, is written there in
the stylesheet, and all of it is code. The induction is on the name: a character that is not escaped
is no filler, because a space would end the name and the mark of an interpolation is excluded; a
character that is escaped was kept with its backslash. -/
theorem isCode_of_takeName {s : State} {cs ms more : List Char} (hs : s.mode ≠ .escaped)
    (h : renderFrom s cs = ms ++ more) (hdynamic : dynamic ∉ unescape (takeName ms).1) :
    ∃ rest, cs = (takeName ms).1 ++ rest ∧ IsCode s (takeName ms).1 rest := by
  fun_induction takeName ms generalizing s cs with
  | case1 => exact ⟨cs, rfl, trivial⟩
  | case2 =>
    obtain ⟨rest, rfl, hkeep, _⟩ := renderFrom_eq_cons h (by decide) (by decide)
    have hmode := (mode_of_keep hkeep (by decide)).resolve_right hs
    exact ⟨rest, rfl, region_of_keep hkeep (.inl hmode), trivial⟩
  | case3 c ms ih =>
    obtain ⟨rest, rfl, hkeep, hrest⟩ := renderFrom_eq_cons h (by decide) (by decide)
    have hmode := (mode_of_keep hkeep (by decide)).resolve_right hs
    obtain ⟨mode, parens⟩ := s
    obtain rfl : mode = .code := hmode
    -- after the backslash whatever comes next is kept
    change renderFrom ⟨.escaped, parens⟩ rest = c :: ms ++ more at hrest
    cases rest with
    | nil => exact absurd hrest (by simp)
    | cons d rest =>
      obtain ⟨rfl, hlater⟩ := List.cons.inj hrest
      have hdynamic' : dynamic ∉ unescape (takeName ms).1 :=
        fun hmem => hdynamic (List.mem_cons_of_mem d hmem)
      obtain ⟨rest, rfl, hcode⟩ := ih (s := ⟨.code, parens⟩) (by simp) hlater hdynamic'
      exact ⟨rest, rfl, region_of_keep hkeep (.inl rfl), rfl, hcode⟩
  | case4 c ms _ _ hboundary => exact ⟨cs, rfl, trivial⟩
  -- a character of the name itself: no blank, no filler, so it was kept
  | case5 c ms hlone hpair hboundary ih =>
    have hbackslash := ne_backslash_of_not_escape hlone hpair
    obtain ⟨hspace, hnewline⟩ := ne_of_not_isNameBoundary hboundary
    have hc : c ≠ dynamic := by
      rintro rfl
      exact hdynamic (mem_unescape List.mem_cons_self hbackslash)
    have hdynamic' : dynamic ∉ unescape (takeName ms).1 := by
      intro hmem
      refine hdynamic ?_
      rw [unescape_cons hbackslash]
      exact List.mem_cons_of_mem c hmem
    obtain ⟨rest, rfl, hkeep, hrest⟩ := renderFrom_eq_cons h hspace hc
    have hmode := (mode_of_keep hkeep hnewline).resolve_right hs
    obtain ⟨rest', rfl, hcode⟩ := ih (mode_step_ne_escaped hs hkeep hbackslash) hrest hdynamic'
    exact ⟨rest', rfl, region_of_keep hkeep (.inl hmode), hcode⟩

/-- A name that is found in a piece of the masked text stands in the stylesheet, which may itself
stand at some offset of a larger text. -/
theorem exists_of_mem_tokens_cut {css : List Char} {base : Nat} {piece : Slice}
    (hpiece : piece.CutFrom ⟨base, mask css⟩) {t : Token} (ht : t ∈ tokens piece) :
    ∃ front raw rest, css = front ++ t.kind.marker :: raw ++ rest ∧
      t = ⟨base + byteLen front, t.kind, String.ofList (unescape raw), byteLen raw⟩ ∧
      unescape raw ≠ [] ∧ dynamic ∉ unescape raw ∧ raw.head?.any Char.isDigit = false ∧
      IsCode (stateAfter .start front (t.kind.marker :: raw ++ rest))
        (t.kind.marker :: raw) rest := by
  obtain ⟨before, after, htext, hoffset, hescape⟩ := hpiece
  obtain ⟨inner, kind, more, hinner, hescape', hraw⟩ := exists_of_mem_tokens ht
  obtain ⟨rfl, hne, hdigit, hdynamic⟩ := Token.ofRaw?_eq_some hraw
  generalize hname : (takeName more).1 = raw at hne hdigit hdynamic
  -- the marker in the masked text, then in the stylesheet
  have hmasked : renderFrom .start css = before ++ inner ++ kind.marker :: (more ++ after) := by
    rw [← mask_eq_renderFrom]
    change mask css = _ at htext
    rw [htext, hinner]
    simp only [List.append_assoc, List.cons_append]
  have hmarker : kind.marker ≠ ' ' ∧ kind.marker ≠ dynamic ∧ kind.marker ≠ '\n' := by
    cases kind <;> decide
  obtain ⟨front, rest, rfl, hbefore, hfrom⟩ :=
    exists_front_of_renderFrom hmasked hmarker.1 hmarker.2.1
  have hfront : base + byteLen front = piece.offset + byteLen inner := by
    rw [← byteLen_renderBefore .start front (kind.marker :: rest), hbefore, byteLen_append, hoffset]
    change _ = base + byteLen before + byteLen inner
    omega
  generalize hstate : stateAfter .start front (kind.marker :: rest) = s at hfrom
  have hs : s.mode ≠ .escaped := by
    have hdecide := mode_stateAfter_eq_escaped .start front (kind.marker :: rest)
    rw [hstate, hbefore, endsEscaped_append] at hdecide
    change _ = endsEscaped (endsEscaped false before) inner at hdecide
    rw [hescape, hescape'] at hdecide
    exact of_decide_eq_false hdecide
  obtain ⟨rest', heq, hkeep, hlater⟩ := renderFrom_eq_cons hfrom hmarker.1 hmarker.2.1
  obtain rfl : rest = rest' := (List.cons.inj heq).2
  have hmode := (mode_of_keep hkeep hmarker.2.2).resolve_right hs
  -- then the name after it
  obtain ⟨rest', hrest, hcode⟩ :=
    isCode_of_takeName (mode_step_ne_escaped hs hkeep kind.marker_ne_backslash) hlater
      (by rw [hname]; exact hdynamic)
  rw [hname] at hrest hcode
  subst hrest
  refine ⟨front, raw, rest', by simp, ?_, hne, hdynamic, hdigit, ?_⟩
  · rw [hfront]
  · change IsCode (stateAfter .start front (kind.marker :: (raw ++ rest'))) _ _
    rw [hstate]
    exact ⟨region_of_keep hkeep (.inl hmode), hcode⟩

end Mask

/-! ### Declarations and references of a stylesheet -/

open Mask

/-- `t.StandsIn css`: the marker and the written name of `t` stand at its place, both in code. -/
structure Token.StandsIn (t : Token) (css : String) : Prop where
  /-- The marker stands at the offset. -/
  marker : String.Pos.Raw.extract css ⟨t.offset⟩ ⟨t.offset + 1⟩ = t.kind.marker.toString
  start_isValid : String.Pos.Raw.IsValid css ⟨t.offset⟩
  /-- The written name ends in the text, at the boundary of a character. -/
  stop_le : t.stop ≤ css.utf8ByteSize
  stop_isValid : String.Pos.Raw.IsValid css ⟨t.stop⟩
  /-- The name is the written name without its backslashes. -/
  written :
    String.ofList (unescape (String.Pos.Raw.extract css ⟨t.offset + 1⟩ ⟨t.stop⟩).toList) = t.name
  name_ne : t.name ≠ ""
  name_static : dynamic ∉ t.name.toList
  not_digit :
    (String.Pos.Raw.extract css ⟨t.offset + 1⟩ ⟨t.stop⟩).toList.head?.any Char.isDigit = false
  /-- No character of it belongs to a comment, a string or an interpolation. -/
  isCode : ∀ front c rest, css.toList = front ++ c :: rest → t.offset ≤ byteLen front →
    byteLen front < t.stop → region (stateAfter .start front (c :: rest)) c rest.head? = .code

/-- Every token of a piece of the masked text stands in the stylesheet, in its code. -/
theorem standsIn_of_mem_tokens {css : String} {piece : Slice}
    (hpiece : piece.CutFrom ⟨0, mask css.toList⟩) {t : Token} (ht : t ∈ tokens piece) :
    t.StandsIn css := by
  obtain ⟨front, raw, rest, hcss, htoken, hne, hdynamic, hdigit, hcode⟩ :=
    exists_of_mem_tokens_cut hpiece ht
  have hoffset : t.offset = byteLen front :=
    (congrArg Token.offset htoken).trans (Nat.zero_add _)
  have hname : t.name = String.ofList (unescape raw) := congrArg Token.name htoken
  have hlen : t.rawLen = byteLen raw := congrArg Token.rawLen htoken
  have hsize := t.kind.utf8Size_marker
  have hmarker : Slice.IsPartOf ⟨t.offset, [t.kind.marker]⟩ css.toList :=
    ⟨front, raw ++ rest, by simpa using hcss, hoffset.symm⟩
  have hraw : Slice.IsPartOf ⟨t.offset + 1, raw⟩ css.toList := by
    refine ⟨front ++ [t.kind.marker], rest, by simpa using hcss, ?_⟩
    rw [byteLen_append, byteLen_cons, byteLen_nil, hsize, hoffset]
  have hstop : t.stop = Slice.stop ⟨t.offset + 1, raw⟩ := by
    rw [Token.stop, hlen]
    rfl
  have hwritten : String.Pos.Raw.extract css ⟨t.offset + 1⟩ ⟨t.stop⟩ = String.ofList raw := by
    rw [hstop]
    exact hraw.extract
  refine ⟨?_, hmarker.isValid.1, ?_, ?_, ?_, ?_, ?_, ?_, ?_⟩
  · have hextract := hmarker.extract
    rw [Slice.stop, byteLen_cons, byteLen_nil, hsize] at hextract
    exact hextract
  · rw [hstop]
    exact hraw.stop_le
  · rw [hstop]
    exact hraw.isValid.2
  · rw [hwritten, String.toList_ofList, hname]
  · rw [hname]
    exact Reference.ofList_ne_empty hne
  · rw [hname, String.toList_ofList]
    exact hdynamic
  · rw [hwritten, String.toList_ofList]
    exact hdigit
  · intro front' c rest' hsplit hfrom hto
    rw [hcss, List.append_assoc] at hsplit
    -- the place lies behind `front` and before the end of the written name
    obtain ⟨middle, rfl, hmiddle⟩ := exists_append_of_byteLen_le hsplit (by omega)
    have hlt : byteLen middle < byteLen (t.kind.marker :: raw) := by
      rw [byteLen_append, Token.stop] at hto
      rw [byteLen_cons, hsize]
      omega
    obtain ⟨back, hrun, hback⟩ := exists_append_of_byteLen_le hmiddle.symm (Nat.le_of_lt hlt)
    cases back with
    | nil =>
      rw [hrun, List.append_nil] at hlt
      exact absurd hlt (Nat.lt_irrefl _)
    | cons d back =>
      obtain ⟨rfl, rfl⟩ := List.cons.inj hback
      rw [hrun] at hcode
      have hregion := hcode.region_eq
      rw [← hrun] at hregion
      rw [stateAfter_append, ← hmiddle]
      exact hregion

/-- `a.Before b`: the name `a` ends where `b` starts or earlier. -/
def Token.Before (a b : Token) : Prop := a.offset < b.offset ∧ a.stop ≤ b.offset

/-- The names of parts of the masked text. -/
theorem parts_index_stylesheet {css : String} {pieces : List Slice}
    (h : Slice.Parts pieces ⟨0, mask css.toList⟩) :
    (pieces.flatMap tokens).Pairwise Token.Before ∧
      ∀ t ∈ pieces.flatMap tokens, t.StandsIn css := by
  refine ⟨?_, fun t ht => ?_⟩
  · refine h.tokens_ordered.imp fun {a b} hab => ⟨?_, hab⟩
    have hlt : a.offset < a.stop := by
      unfold Token.stop
      omega
    omega
  · obtain ⟨piece, hpiece, ht⟩ := List.mem_flatMap.mp ht
    exact standsIn_of_mem_tokens (h.cut piece hpiece) ht

/-- A declared name is written in the stylesheet, after its marker. -/
theorem Stylesheet.exists_split_of_mem_declaredTokens {css : Slice} {t : Token}
    (h : t ∈ declaredTokens css) :
    ∃ front raw rest, css.text = front ++ t.kind.marker :: raw ++ rest ∧
      t.offset = css.offset + byteLen front ∧ t.rawLen = byteLen raw ∧ raw ≠ [] := by
  obtain ⟨prelude, hprelude, h⟩ := List.mem_flatMap.mp h
  obtain ⟨branch, hbranch, h⟩ := List.mem_flatMap.mp h
  have hcut : branch.CutFrom ⟨css.offset, mask css.text⟩ :=
    ((parts_branches prelude).cut branch hbranch).trans
      ((parts_preludes css).cut prelude hprelude)
  obtain ⟨front, raw, rest, htext, htoken, hname, _⟩ := Mask.exists_of_mem_tokens_cut hcut h
  refine ⟨front, raw, rest, htext, congrArg Token.offset htoken, congrArg Token.rawLen htoken, ?_⟩
  rintro rfl
  exact hname rfl

/-- A declaration begins inside its stylesheet. -/
theorem Stylesheet.lt_stop_of_mem_declaredTokens {css : Slice} {t : Token}
    (h : t ∈ declaredTokens css) : t.offset < css.stop := by
  obtain ⟨front, raw, rest, htext, hoffset, _⟩ := exists_split_of_mem_declaredTokens h
  rw [hoffset, Slice.stop, htext, byteLen_append, byteLen_append, byteLen_cons,
    t.kind.utf8Size_marker]
  omega

theorem Stylesheet.lt_byteLen_of_mem_declaredTokens {css : List Char} {t : Token}
    (h : t ∈ declaredTokens (.ofText css)) : t.offset < byteLen css := by
  have hstop := lt_stop_of_mem_declaredTokens h
  rw [Slice.stop, Slice.ofText, Nat.zero_add] at hstop
  exact hstop

/-- The selectors are the tokens of the branches, each with its place. -/
theorem Stylesheet.map_toToken_selectors (css : List Char) :
    (selectors css).map Selector.toToken =
      ((preludes (.ofText css)).flatMap branches).flatMap tokens := by
  rw [selectors, selectorsAt, List.map_map, List.flatMap_assoc]
  exact List.map_id _

/-- **Names point at their places.** The names that a stylesheet declares, and likewise those that
its bodies refer to, follow each other in the text without overlap, and each of them stands in the
stylesheet where it says. -/
theorem declarations_index_stylesheet (css : String) :
    (((Stylesheet.selectors css.toList).map Selector.toToken).Pairwise Token.Before ∧
      ∀ t ∈ (Stylesheet.selectors css.toList).map Selector.toToken, t.StandsIn css) ∧
    (Stylesheet.bodyTokens css.toList).Pairwise Token.Before ∧
      ∀ t ∈ Stylesheet.bodyTokens css.toList, t.StandsIn css := by
  refine ⟨?_, parts_index_stylesheet (Stylesheet.parts_bodies css.toList)⟩
  rw [Stylesheet.map_toToken_selectors]
  exact parts_index_stylesheet
    ((Stylesheet.parts_preludes (.ofText css.toList)).flatMap fun s _ => parts_branches s)

/-- After a comment and characters of two bytes: a declared name with a backslash, and a name in a
body. -/
theorem declarations_index_stylesheet_escaped :
    let css := "/* .é */#é, .a\\:b \x7b .c\x7b\x7d \x7d"
    let declared : Token := ⟨14, .className, "a:b", 4⟩
    let referred : Token := ⟨22, .className, "c", 1⟩
    declared ∈ (Stylesheet.selectors css.toList).map Selector.toToken ∧ declared.StandsIn css ∧
      referred ∈ Stylesheet.bodyTokens css.toList ∧ referred.StandsIn css := by
  intro css declared referred
  have hdeclared : declared ∈ (Stylesheet.selectors css.toList).map Selector.toToken := by
    decide +kernel
  have hreferred : referred ∈ Stylesheet.bodyTokens css.toList := by decide +kernel
  obtain ⟨⟨_, hplaces⟩, _, hplaces'⟩ := declarations_index_stylesheet css
  exact ⟨hdeclared, hplaces _ hdeclared, hreferred, hplaces' _ hreferred⟩

end StyleAudit
