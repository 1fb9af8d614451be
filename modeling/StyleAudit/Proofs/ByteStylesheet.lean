import Mathlib.Data.List.Forall2
import StyleAudit.Proofs.ByteTokens

/-!
# Stylesheets by byte offsets

Lists are cut at the same commas, preludes and bodies at the same braces, whether the scan counts
bytes or characters.
-/

namespace StyleAudit.Bytes

open Text

variable {text cs : List Char} {base i : Nat} {c : Char}

/-! ### One computation for each item of a list -/

/-- A row of steps that cannot fail does not fail. -/
theorem mapM_eq_some {α β : Type} {f : α → Option β} {g : α → β} {as : List α}
    (h : ∀ a ∈ as, f a = some (g a)) : as.mapM f = some (as.map g) := by
  induction as with
  | nil => rfl
  | cons a as ih =>
    rw [List.mapM_cons, h a List.mem_cons_self, ih fun b hb => h b (List.mem_cons_of_mem a hb)]
    rfl

/-- Steps over a row give the results for the row that corresponds to it item by item. -/
theorem mapM_of_forall₂ {α β γ : Type} {R : α → β → Prop} {f : α → Option γ} {g : β → γ}
    {as : List α} {bs : List β} (h : List.Forall₂ R as bs) (hf : ∀ a b, R a b → f a = some (g b)) :
    as.mapM f = some (bs.map g) := by
  induction h with
  | nil => rfl
  | cons hab _ ih =>
    rw [List.mapM_cons, hf _ _ hab, ih]
    rfl

/-! ### Comma separated lists -/

theorem utf8Size_of_isOpenBracket {c : Char} (h : isOpenBracket c = true) : c.utf8Size = 1 := by
  simp only [isOpenBracket, Bool.or_eq_true, beq_iff_eq] at h
  rcases h with (rfl | rfl) | rfl <;> rfl

theorem utf8Size_of_isCloseBracket {c : Char} (h : isCloseBracket c = true) : c.utf8Size = 1 := by
  simp only [isCloseBracket, Bool.or_eq_true, beq_iff_eq] at h
  rcases h with (rfl | rfl) | rfl <;> rfl

/-- Bytes that are no bracket and no comma at the top level are passed over. -/
theorem runs_branchesFrom (text : List Char) (depth start : Nat) :
    Runs (fun b => isOpenBracket b = false ∧ isCloseBracket b = false ∧ ¬(b = ',' ∧ depth = 0))
      (branchesFrom text depth start) where
  wide b hb := by
    refine ⟨eq_false_of_utf8Size (fun _ => utf8Size_of_isOpenBracket) hb,
      eq_false_of_utf8Size (fun _ => utf8Size_of_isCloseBracket) hb, fun h => ?_⟩
    exact ne_of_utf8Size hb rfl h.1
  step i b bs hb := by
    obtain ⟨hopen, hclose, hcomma⟩ := hb
    rw [branchesFrom, hopen, if_neg Bool.false_ne_true, hclose, if_neg Bool.false_ne_true,
      if_neg hcomma]

/-- `CutsAlike text base depth start branch i painted`: both scans cut `painted`, what is left of a
text, at the same commas. The part that is being read started at `start`, and `branch` has been read
of it. -/
def CutsAlike (text : List Char) (base depth start : Nat) (branch : List Char) (i : Nat)
    (painted : List (Char × Mask.Paint)) : Prop :=
  (branchesFrom text depth start i (encode (Mask.render painted))).map
      (List.map (Slice.shift base)) =
    some (StyleAudit.branchesFrom depth (base + start) branch painted)

namespace CutsAlike

variable {depth start : Nat} {branch : List Char} {rest : List (Char × Mask.Paint)}

/-- A character that is masked leaves bytes that are no commas or brackets. -/
theorem masked {paint : Mask.Paint} (hpaint : paint ≠ .keep)
    (h : CutsAlike text base depth start (c :: branch) (i + c.utf8Size) rest) :
    CutsAlike text base depth start branch i ((c, paint) :: rest) := by
  have hrender : Mask.render ((c, paint) :: rest) = paint.apply c ++ Mask.render rest :=
    List.flatMap_cons
  obtain ⟨filler, hfiller, happly⟩ := Mask.apply_eq_replicate hpaint c
  have hsize : filler.utf8Size = 1 := by rcases hfiller with rfl | rfl <;> rfl
  unfold CutsAlike StyleAudit.branchesFrom
  rw [if_neg hpaint, ← h, hrender, happly, (runs_branchesFrom text depth start).chars,
    byteLen_replicate hsize]
  intro d hd
  rw [List.eq_of_mem_replicate hd]
  rcases hfiller with rfl | rfl
  · exact ⟨rfl, rfl, fun h => absurd h.1 (by decide)⟩
  · exact ⟨rfl, rfl, fun h => absurd h.1 (by decide)⟩

/-- A comma outside brackets ends the part, and another starts behind it. -/
theorem comma (hstart : At text start (branch.reverse ++ ',' :: rest.map Prod.fst))
    (hi : At text i (',' :: rest.map Prod.fst))
    (h : CutsAlike text base 0 (i + 1) [] (i + 1) rest) :
    CutsAlike text base 0 start branch i ((',', .keep) :: rest) := by
  obtain ⟨later, hsome, hmap⟩ := Option.map_eq_some_iff.mp h
  have hrender : encode (Mask.render ((',', .keep) :: rest)) = ',' :: encode (Mask.render rest) :=
    encode_cons_of_utf8Size rfl _
  -- the branch runs from `start` to the comma at `i`
  have hoffset : base + (i + 1) = base + start + byteLen branch + 1 := by
    have hlen := hstart.append.unique hi
    rw [byteLen_reverse] at hlen
    omega
  unfold CutsAlike StyleAudit.branchesFrom
  rw [hrender, branchesFrom, if_neg (by decide), if_neg (by decide), if_pos ⟨rfl, rfl⟩, if_pos rfl,
    if_neg (by decide), if_neg (by decide), if_pos ⟨rfl, rfl⟩, hstart.slice? hi, hsome, ← hoffset,
    ← hmap]
  rfl

/-- Any other character belongs to the part. It may open or close a bracket. -/
theorem kept (hcomma : ¬(c = ',' ∧ depth = 0))
    (h : CutsAlike text base (if isOpenBracket c then depth + 1
      else if isCloseBracket c then depth - 1
      else depth) start (c :: branch) (i + c.utf8Size) rest) :
    CutsAlike text base depth start branch i ((c, .keep) :: rest) := by
  have hrender : Mask.render ((c, .keep) :: rest) = [c] ++ Mask.render rest := List.flatMap_cons
  unfold CutsAlike StyleAudit.branchesFrom
  rw [hrender, if_pos rfl]
  by_cases hopen : isOpenBracket c = true
  · have hc := utf8Size_of_isOpenBracket hopen
    rw [if_pos hopen, hc] at h
    rw [List.singleton_append, encode_cons_of_utf8Size hc, branchesFrom, if_pos hopen, if_pos hopen]
    exact h
  rw [if_neg hopen] at h
  by_cases hclose : isCloseBracket c = true
  · have hc := utf8Size_of_isCloseBracket hclose
    rw [if_pos hclose, hc] at h
    rw [List.singleton_append, encode_cons_of_utf8Size hc, branchesFrom, if_neg hopen, if_neg hopen,
      if_pos hclose, if_pos hclose]
    exact h
  rw [if_neg hclose] at h
  rw [if_neg hopen, if_neg hclose, if_neg hcomma, ← h, (runs_branchesFrom text depth start).chars]
  · rfl
  · intro d hd
    rw [List.mem_singleton.mp hd]
    exact ⟨Bool.eq_false_iff.mpr hopen, Bool.eq_false_iff.mpr hclose, hcomma⟩

end CutsAlike

/-- The byte offsets cut a prelude into the slices that the characters cut it into. -/
theorem branchesFrom_eq (depth : Nat) {start : Nat} {branch : List Char}
    {painted : List (Char × Mask.Paint)}
    (hstart : At text start (branch.reverse ++ painted.map Prod.fst))
    (hi : At text i (painted.map Prod.fst)) : CutsAlike text base depth start branch i painted := by
  induction painted generalizing depth start i branch with
  | nil =>
    rw [List.map_nil, List.append_nil] at hstart
    have hnil : encode (Mask.render []) = [] := rfl
    rw [CutsAlike, hnil, branchesFrom, hstart.drop?, StyleAudit.branchesFrom]
    rfl
  | cons first rest ih =>
    obtain ⟨c, paint⟩ := first
    have hnext : At text (i + c.utf8Size) (rest.map Prod.fst) := hi.next
    have hlonger : At text start ((c :: branch).reverse ++ rest.map Prod.fst) := by
      rw [List.reverse_cons, List.append_assoc]
      exact hstart
    by_cases hpaint : paint = .keep
    · subst hpaint
      by_cases hcomma : c = ',' ∧ depth = 0
      · obtain ⟨rfl, rfl⟩ := hcomma
        exact .comma hstart hi (ih 0 hnext hnext)
      · exact .kept hcomma (ih _ hlonger hnext)
    · exact .masked hpaint (ih depth hlonger hnext)

/-- The branches of a prelude, found by bytes, are its branches. -/
theorem branches_eq (base : Nat) (text : List Char) :
    (branches text).map (List.map (Slice.shift base)) =
      some (StyleAudit.branches ⟨base, text⟩) := by
  have hpainted : (Mask.paint text).map Prod.fst = text := Mask.map_fst_paintFrom _ text
  have hat : At text 0 ((Mask.paint text).map Prod.fst) := by
    rw [hpainted]
    exact at_zero text
  rw [branches, mask_eq]
  exact branchesFrom_eq 0 hat hat

/-! ### Preludes -/

/-- Bytes that end no stretch are passed over. -/
theorem runs_preludesFrom (masked : List Char) (start : Nat) :
    Runs (fun b => b ≠ '{' ∧ ¬(b = '}' ∨ b = ';')) (preludesFrom masked start) where
  wide b hb := by
    refine ⟨ne_of_utf8Size hb rfl, ?_⟩
    rintro (rfl | rfl)
    · exact hb rfl
    · exact hb rfl
  step i b bs hb := by rw [preludesFrom, if_neg hb.1, if_neg hb.2]

/-- A prelude may be trimmed on its left first and then tested. -/
theorem prelude?_eq (offset : Nat) (raw : List Char) :
    (⟨⟨offset, raw⟩, some '{'⟩ : Stylesheet.Segment).prelude? =
      if trimLeft isBlank raw ≠ [] ∧ (trimLeft isBlank raw).head? ≠ some '@' then
        some ⟨offset + (byteLen raw - byteLen (trimLeft isBlank raw)),
          trimRight isBlank (trimLeft isBlank raw)⟩
      else none := by
  have htrim : (⟨offset, raw⟩ : Slice).trim isBlank =
      ⟨offset + (byteLen raw - byteLen (trimLeft isBlank raw)),
        trimRight isBlank (trimLeft isBlank raw)⟩ := by
    rw [byteLen_sub_trimLeft]
    rfl
  -- trimming at the right keeps the first character, which is all the condition looks at
  have hcond : (some '{' = some '{' ∧ trimRight isBlank (trimLeft isBlank raw) ≠ [] ∧
      (trimRight isBlank (trimLeft isBlank raw)).head? ≠ some '@') ↔
        (trimLeft isBlank raw ≠ [] ∧ (trimLeft isBlank raw).head? ≠ some '@') := by
    have hblank := List.head?_dropWhile_not isBlank raw
    rw [trimLeft]
    cases hleft : raw.dropWhile isBlank with
    | nil => exact ⟨fun h => absurd rfl h.2.1, fun h => absurd rfl h.1⟩
    | cons c cs =>
      rw [hleft] at hblank
      have hhead : (trimRight isBlank (c :: cs)).head? = some c := Slice.head?_trimRight hblank cs
      have hne : trimRight isBlank (c :: cs) ≠ [] := by
        intro hnil
        rw [hnil] at hhead
        exact absurd hhead (by simp)
      rw [hhead]
      exact ⟨fun h => ⟨List.cons_ne_nil c cs, h.2.2⟩, fun h => ⟨rfl, hne, h.2⟩⟩
  rw [Stylesheet.Segment.prelude?]
  change (if some '{' = some '{' ∧ ((⟨offset, raw⟩ : Slice).trim isBlank).text ≠ [] ∧
    ((⟨offset, raw⟩ : Slice).trim isBlank).text.head? ≠ some '@' then
      some ((⟨offset, raw⟩ : Slice).trim isBlank) else none) = _
  rw [htrim]
  exact if_congr hcond rfl rfl

/-- The stretch that is being read started at `start`, and `cs` is what is left of the masked
text. -/
theorem preludesFrom_eq {masked stretch : List Char} {start : Nat}
    (hstart : At masked start (stretch.reverse ++ cs)) (hi : At masked i cs) :
    (preludesFrom masked start i (encode cs)).map (List.map (Slice.shift base)) =
      some ((Stylesheet.segmentsFrom (base + start) stretch cs).filterMap
        Stylesheet.Segment.prelude?) := by
  induction cs generalizing start i stretch with
  | nil =>
    have hlast : (⟨⟨base + start, stretch.reverse⟩, none⟩ : Stylesheet.Segment).prelude? = none :=
      Stylesheet.Segment.prelude?_of_closer_ne (by simp)
    rw [Stylesheet.segmentsFrom, List.filterMap_cons, hlast]
    rfl
  | cons c cs ih =>
    have hnext : At masked (i + c.utf8Size) cs := hi.next
    by_cases hcloser : c = '{' ∨ c = '}' ∨ c = ';'
    · have hc : c.utf8Size = 1 := by rcases hcloser with rfl | rfl | rfl <;> rfl
      rw [hc] at hnext
      have hlater : (preludesFrom masked (i + 1) (i + 1) (encode cs)).map
          (List.map (Slice.shift base)) =
            some ((Stylesheet.segmentsFrom (base + (i + 1)) [] cs).filterMap
            Stylesheet.Segment.prelude?) := ih hnext hnext
      obtain ⟨later, hsome, hmap⟩ := Option.map_eq_some_iff.mp hlater
      -- the stretch runs from `start` to the closer at `i`
      have hoffset : base + start + byteLen stretch + 1 = base + (i + 1) := by
        have hlen := hstart.append.unique hi
        rw [byteLen_reverse] at hlen
        omega
      rw [encode_cons_of_utf8Size hc, preludesFrom, Stylesheet.segmentsFrom,
        if_pos hcloser, hoffset, List.filterMap_cons, ← hmap]
      by_cases hopen : c = '{'
      · rw [if_pos hopen, hstart.slice? hi, hsome, hopen, prelude?_eq]
        simp only [Option.bind_eq_bind, Option.bind_some]
        split
        · rw [Nat.add_assoc]
          rfl
        · rfl
      · have hrest : c = '}' ∨ c = ';' := by
          rcases hcloser with h | h
          · exact absurd h hopen
          · exact h
        have hnone : (⟨⟨base + start, stretch.reverse⟩, some c⟩ : Stylesheet.Segment).prelude? =
            none := Stylesheet.Segment.prelude?_of_closer_ne fun h => hopen (Option.some.inj h)
        rw [if_neg hopen, if_pos hrest, hsome, hnone]
        rfl
    · -- any other character joins the stretch, all its bytes at once
      have hpass : c ≠ '{' ∧ ¬(c = '}' ∨ c = ';') :=
        ⟨fun h => hcloser (.inl h), fun h => hcloser (.inr h)⟩
      have hrun : preludesFrom masked start i (encode ([c] ++ cs)) =
          preludesFrom masked start (i + c.utf8Size) (encode cs) := by
        refine (runs_preludesFrom masked start).chars (fun d hd => ?_) i cs
        rw [List.mem_singleton.mp hd]
        exact hpass
      rw [Stylesheet.segmentsFrom, if_neg hcloser, ← ih ?_ hnext]
      · exact congrArg (Option.map _) hrun
      · rw [List.reverse_cons, List.append_assoc]
        exact hstart

/-- The tokens of a prelude are found by bytes as they are by characters. -/
theorem preludeTokens_eq (prelude : Slice) :
    preludeTokens prelude = some (Stylesheet.preludeTokens prelude) := by
  obtain ⟨cut, hcut, hmap⟩ := Option.map_eq_some_iff.mp (branches_eq prelude.offset prelude.text)
  have hfound : (cut.mapM fun branch => (tokens branch.text).map
      (List.map (Token.shift (prelude.offset + branch.offset)))) =
        some (cut.map fun branch => StyleAudit.tokens (branch.shift prelude.offset)) :=
    mapM_eq_some fun branch _ => tokens_eq (prelude.offset + branch.offset) branch.text
  rw [preludeTokens, hcut, Stylesheet.preludeTokens, ← hmap, List.flatMap_map, List.flatMap_def]
  simp only [Option.bind_eq_bind, Option.bind_some]
  rw [hfound]
  rfl

/-- No slice taken by byte offsets fails, and the selectors are the same. -/
theorem selectorsAt_eq (css : List Char) (base : Nat) (index : LineIndex) :
    selectorsAt css base index = some (Stylesheet.selectorsAt ⟨base, css⟩ index) := by
  have hat := at_zero (StyleAudit.mask css)
  have hpreludes : (preludesFrom (StyleAudit.mask css) 0 0 (encode (StyleAudit.mask css))).map
      (List.map (Slice.shift base)) =
        some ((Stylesheet.segmentsFrom (base + 0) [] (StyleAudit.mask css)).filterMap
          Stylesheet.Segment.prelude?) := preludesFrom_eq hat hat
  change _ = some (Stylesheet.preludes ⟨base, css⟩) at hpreludes
  obtain ⟨preludes, hsome, hmap⟩ := Option.map_eq_some_iff.mp hpreludes
  have hfound : (preludes.mapM fun prelude => preludeTokens (prelude.shift base)) =
      some (preludes.map fun prelude => Stylesheet.preludeTokens (prelude.shift base)) :=
    mapM_eq_some fun prelude _ => preludeTokens_eq (prelude.shift base)
  rw [selectorsAt, mask_eq, hsome, Stylesheet.selectorsAt, Stylesheet.declaredTokens, ← hmap,
    List.flatMap_map, List.flatMap_def]
  simp only [Option.bind_eq_bind, Option.bind_some]
  rw [hfound]
  rfl

/-! ### Bodies -/

/-- `Cut text base range s`: the range holds the characters of the slice `s`, whose offset counts
from a text that starts `base` bytes earlier. -/
def Cut (text : List Char) (base : Nat) (range : Range) (s : Slice) : Prop :=
  base + range.start = s.offset ∧ slice? text range.start range.stop = some s.text

/-- Bytes that are no brace are passed over. -/
theorem runs_bodiesFrom (depth start : Nat) :
    Runs (fun b => b ≠ '{' ∧ b ≠ '}') (bodiesFrom depth start) where
  wide b hb := ⟨ne_of_utf8Size hb rfl, ne_of_utf8Size hb rfl⟩
  step i b bs hb := by rw [bodiesFrom, if_neg hb.1, if_neg fun h => hb.2 h.1]

/-- The byte offsets cut the rule bodies out where the characters do. -/
theorem bodiesFrom_eq {masked body : List Char} {depth start : Nat} (hi : At masked i cs)
    (hstart : 0 < depth → At masked start (body.reverse ++ cs)) :
    List.Forall₂ (Cut masked 0) (bodiesFrom depth start i (encode cs))
      (Stylesheet.bodiesFrom depth start body i cs) := by
  induction cs generalizing depth start i body with
  | nil =>
    have hnil : encode [] = [] := rfl
    rw [hnil, bodiesFrom, Stylesheet.bodiesFrom]
    by_cases hdepth : depth = 0
    · rw [if_pos hdepth, if_neg (by omega)]
      exact .nil
    · rw [if_neg hdepth, if_pos (by omega)]
      refine .cons ⟨Nat.zero_add start, ?_⟩ .nil
      exact (hstart (by omega)).slice? hi
  | cons c cs ih =>
    have hnext : At masked (i + c.utf8Size) cs := hi.next
    have hlonger : 0 < depth → At masked start ((c :: body).reverse ++ cs) := by
      intro hdepth
      rw [List.reverse_cons, List.append_assoc]
      exact hstart hdepth
    by_cases hopen : c = '{'
    · have hc : c.utf8Size = 1 := by rw [hopen]; rfl
      rw [encode_cons_of_utf8Size hc, bodiesFrom, if_pos hopen, Stylesheet.bodiesFrom,
        if_pos hopen]
      rw [hc] at hnext ⊢
      by_cases hdepth : depth = 0
      · -- a body begins behind the outermost brace only
        rw [if_pos hdepth, if_pos hdepth, hdepth]
        exact ih hnext fun _ => hnext
      · rw [if_neg hdepth, if_neg hdepth]
        exact ih hnext fun _ => hlonger (by omega)
    by_cases hclose : c = '}'
    · have hc : c.utf8Size = 1 := by rw [hclose]; rfl
      rw [encode_cons_of_utf8Size hc, bodiesFrom, if_neg hopen, Stylesheet.bodiesFrom, if_neg hopen,
        if_pos hclose]
      rw [hc] at hnext ⊢
      by_cases hdepth : depth = 0
      · rw [if_neg (by omega), if_pos hdepth, hdepth]
        exact ih hnext fun h => absurd h (by omega)
      · rw [if_pos ⟨hclose, by omega⟩, if_neg hdepth]
        by_cases hone : depth = 1
        · -- the outermost body ends here
          rw [if_pos (by omega), if_pos hone]
          refine .cons ⟨Nat.zero_add start, (hstart (by omega)).slice? hi⟩ ?_
          rw [hone]
          exact ih hnext fun h => absurd h (by omega)
        · rw [if_neg (by omega), if_neg hone]
          exact ih hnext fun _ => hlonger (by omega)
    · -- any other character changes no depth; it joins the body, if there is one
      have hrun : bodiesFrom depth start i (encode ([c] ++ cs)) =
          bodiesFrom depth start (i + c.utf8Size) (encode cs) := by
        refine (runs_bodiesFrom depth start).chars (fun d hd => ?_) i cs
        rw [List.mem_singleton.mp hd]
        exact ⟨hopen, hclose⟩
      rw [List.singleton_append] at hrun
      rw [hrun, Stylesheet.bodiesFrom, if_neg hopen, if_neg hclose]
      by_cases hdepth : depth = 0
      · rw [if_pos hdepth, hdepth]
        exact ih hnext fun h => absurd h (by omega)
      · rw [if_neg hdepth]
        exact ih hnext fun _ => hlonger (by omega)

/-- The bodies are cut at the same places. -/
theorem forall₂_cut_bodies (css : List Char) :
    List.Forall₂ (Cut (StyleAudit.mask css) 0)
      (bodiesFrom 0 0 0 (encode (StyleAudit.mask css))) (Stylesheet.bodies css) :=
  bodiesFrom_eq (at_zero _) fun h => absurd h (Nat.lt_irrefl 0)

/-- The tokens of the rule bodies are found by bytes as they are by characters. -/
theorem bodyTokens_eq (css : List Char) :
    bodyTokens css = some (Stylesheet.bodyTokens css) := by
  have hfound := mapM_of_forall₂ (g := StyleAudit.tokens)
    (f := fun range => (slice? (StyleAudit.mask css) range.start range.stop).bind fun body =>
      (tokens body).map (List.map (Token.shift range.start))) (forall₂_cut_bodies css) (by
        intro range body hcut
        obtain ⟨hoffset, hslice⟩ := hcut
        rw [hslice, Option.bind_some, tokens_eq, ← Nat.zero_add range.start, hoffset])
  rw [bodyTokens, mask_eq, Stylesheet.bodyTokens, List.flatMap_def]
  simp only [Option.bind_eq_bind]
  rw [hfound]
  rfl

/-- The names that the rule bodies refer to are found by bytes as they are by characters. -/
theorem namesInBodies_eq (css : List Char) :
    namesInBodies css = some (Stylesheet.namesInBodies css) := by
  rw [namesInBodies, bodyTokens_eq]
  rfl

end StyleAudit.Bytes
