import Mathlib.Data.List.TakeWhile
import StyleAudit.Proofs.ReferencePlaces
import StyleAudit.Proofs.Scans
import StyleAudit.Stylesheet

/-!
# Cuts of a stylesheet

A stylesheet is cut at braces and semicolons, each stretch is trimmed and cut again at commas, and
the pieces are searched for names. The pieces follow each other in the text, and none of them starts
in the middle of an escape: what stands right before a piece is a separator or a blank, which is no
backslash. The second fact is what lets a name be read from a piece as it would be from the whole.

* **`Text.endsEscaped`** tells whether the next character would be escaped.
* **`Slice.Parts`** are pieces in order; **`Slice.Parts.flatMap`** composes them. Where the
  character after a piece matters, **`Slice.PartsUntil`** says which one it can be.
* **`partsUntil_branches`**, **`partsUntil_segments`** and **`partsUntil_bodies`** are the cuts at
  separators; **`parts_branches`**, **`parts_preludes`** and **`parts_bodies`** are the cuts of a
  stylesheet.
* **`tokens_ordered`** and **`exists_of_mem_tokens`** are about the names in a piece.
-/

namespace StyleAudit

open Text

/-! ### Escapes -/

namespace Text

/-- Whether a text ends with a backslash that escapes what comes next, when its own first character
is escaped as `pending` says. -/
def endsEscaped (pending : Bool) : List Char → Bool
  | [] => pending
  | c :: cs => endsEscaped (!pending && c == '\\') cs

@[simp] theorem endsEscaped_nil (pending : Bool) : endsEscaped pending [] = pending := rfl

theorem endsEscaped_cons (pending : Bool) (c : Char) (cs : List Char) :
    endsEscaped pending (c :: cs) = endsEscaped (!pending && c == '\\') cs := rfl

/-- Whether a text ends in an escape is decided piece by piece. -/
theorem endsEscaped_append (pending : Bool) (xs ys : List Char) :
    endsEscaped pending (xs ++ ys) = endsEscaped (endsEscaped pending xs) ys := by
  induction xs generalizing pending with
  | nil => rfl
  | cons c xs ih => exact ih _

theorem endsEscaped_cons_of_ne {c : Char} (hc : c ≠ '\\') (cs : List Char) :
    endsEscaped false (c :: cs) = endsEscaped false cs := by
  rw [endsEscaped_cons, beq_false_of_ne hc, Bool.and_false]

/-- A backslash and the character after it belong together. -/
theorem endsEscaped_backslash (c : Char) (cs : List Char) :
    endsEscaped false ('\\' :: c :: cs) = endsEscaped false cs := rfl

/-- After a character other than a backslash nothing is escaped, whether it was itself or not. -/
theorem endsEscaped_snoc {c : Char} (hc : c ≠ '\\') (pending : Bool) (cs : List Char) :
    endsEscaped pending (cs ++ [c]) = false := by
  rw [endsEscaped_append, endsEscaped_cons, endsEscaped_nil, beq_false_of_ne hc, Bool.and_false]

/-- Without a backslash nothing ends in an escape. -/
theorem endsEscaped_of_not_mem {cs : List Char} (h : '\\' ∉ cs) : endsEscaped false cs = false := by
  induction cs with
  | nil => rfl
  | cons c cs ih =>
    have hc : c ≠ '\\' := fun heq => h (by simp [heq])
    rw [endsEscaped_cons_of_ne hc]
    exact ih fun hmem => h (List.mem_cons_of_mem c hmem)

theorem eq_nil_of_byteLen_eq_zero {cs : List Char} (h : byteLen cs = 0) : cs = [] := by
  cases cs with
  | nil => rfl
  | cons c cs =>
    have hpos := c.utf8Size_pos
    rw [byteLen_cons] at h
    omega

/-- Two ways to cut a text in two, the first not behind the second. -/
theorem exists_append_of_byteLen_le {xs ys us vs : List Char} (h : xs ++ ys = us ++ vs)
    (hle : byteLen xs ≤ byteLen us) : ∃ middle, us = xs ++ middle ∧ ys = middle ++ vs := by
  rcases List.append_eq_append_iff.mp h with ⟨middle, hus, hys⟩ | ⟨extra, hxs, hvs⟩
  · exact ⟨middle, hus, hys⟩
  · rw [hxs, byteLen_append] at hle
    obtain rfl : extra = [] := eq_nil_of_byteLen_eq_zero (by omega)
    exact ⟨[], by simpa using hxs.symm, by simpa using hvs.symm⟩

end Text

/-! ### Pieces in order -/

namespace Slice

/-- `s.CutFrom t`: the slice `t` holds the characters of `s` at the offset of `s`, and the first of
them is not escaped. -/
def CutFrom (s t : Slice) : Prop :=
  ∃ before after, t.text = before ++ s.text ++ after ∧ s.offset = t.offset + byteLen before ∧
    endsEscaped false before = false

/-- The slices `ss` are cut from `t`, each after the one before it. -/
structure Parts (ss : List Slice) (t : Slice) : Prop where
  cut : ∀ s ∈ ss, s.CutFrom t
  ordered : ss.Pairwise fun a b => a.stop ≤ b.offset

/-- `s.CutUntil P t`: the slice `s` is cut from `t`, and if `t` goes on after it, then with a
character of class `P`. -/
def CutUntil (P : Char → Prop) (s t : Slice) : Prop :=
  ∃ before after, t.text = before ++ s.text ++ after ∧ s.offset = t.offset + byteLen before ∧
    endsEscaped false before = false ∧ ∀ c ∈ after.head?, P c

/-- Parts that are each followed by a character of class `P`, or by nothing. -/
structure PartsUntil (P : Char → Prop) (ss : List Slice) (t : Slice) : Prop where
  cut : ∀ s ∈ ss, s.CutUntil P t
  ordered : ss.Pairwise fun a b => a.stop ≤ b.offset

variable {s t u : Slice} {ss : List Slice} {P Q : Char → Prop}

theorem CutUntil.refl (P : Char → Prop) (s : Slice) : s.CutUntil P s :=
  ⟨[], [], by simp, by simp, rfl, fun _ hc => absurd hc (by simp)⟩

theorem CutUntil.cutFrom (h : s.CutUntil P t) : s.CutFrom t := by
  obtain ⟨before, after, htext, hoffset, hescape, _⟩ := h
  exact ⟨before, after, htext, hoffset, hescape⟩

/-- The condition on what stands behind a cut may be weakened. -/
theorem CutUntil.mono (h : s.CutUntil P t) (hPQ : ∀ c ∈ t.text, P c → Q c) : s.CutUntil Q t := by
  obtain ⟨before, after, htext, hoffset, hescape, hafter⟩ := h
  refine ⟨before, after, htext, hoffset, hescape, fun c hc => hPQ c ?_ (hafter c hc)⟩
  rw [htext]
  exact List.mem_append_right _ (List.mem_of_mem_head? hc)

/-- A cut of a cut is a cut, if both end at the same kind of character. -/
theorem CutUntil.trans (hst : s.CutUntil P t) (htu : t.CutUntil P u) : s.CutUntil P u := by
  obtain ⟨before, after, htext, hoffset, hescape, hafter⟩ := hst
  obtain ⟨before', after', htext', hoffset', hescape', hafter'⟩ := htu
  refine ⟨before' ++ before, after ++ after', ?_, ?_, ?_, ?_⟩
  · rw [htext', htext]
    simp only [List.append_assoc]
  · rw [hoffset, hoffset', byteLen_append]
    omega
  · rw [endsEscaped_append, hescape', hescape]
  · -- a piece at the end of `t` is followed by what follows `t`
    cases after with
    | nil => exact hafter'
    | cons c after => exact hafter

/-- A cut of a cut is a cut: no escape runs across either start. -/
theorem CutFrom.trans (hst : s.CutFrom t) (htu : t.CutFrom u) : s.CutFrom u := by
  obtain ⟨before, after, htext, hoffset, hescape⟩ := hst
  obtain ⟨before', after', htext', hoffset', hescape'⟩ := htu
  refine ⟨before' ++ before, after ++ after', ?_, ?_, ?_⟩
  · rw [htext', htext]
    simp only [List.append_assoc]
  · rw [hoffset, hoffset', byteLen_append]
    omega
  · rw [endsEscaped_append, hescape', hescape]

/-- A cut lies between the ends of what it is cut from. -/
theorem CutFrom.bounds (h : s.CutFrom t) : t.offset ≤ s.offset ∧ s.stop ≤ t.stop := by
  obtain ⟨before, after, htext, hoffset, _⟩ := h
  have hlength : byteLen t.text = byteLen before + byteLen s.text + byteLen after := by
    rw [htext, byteLen_append, byteLen_append]
  constructor
  · omega
  · rw [stop, stop, hoffset, hlength]
    omega

/-- Blanks in front of a piece escape nothing, and what follows it is blank. -/
theorem cutUntil_trim {p : Char → Bool} (hp : p '\\' = false) (s : Slice) :
    (s.trim p).CutUntil (fun c => p c = true) s := by
  have hfront : s.text = s.text.takeWhile p ++ s.text.dropWhile p :=
    (List.takeWhile_append_dropWhile).symm
  have hback : s.text.dropWhile p =
      Text.trimRight p (s.text.dropWhile p) ++
        ((s.text.dropWhile p).reverse.takeWhile p).reverse := by
    rw [Text.trimRight, ← List.reverse_append, List.takeWhile_append_dropWhile,
      List.reverse_reverse]
  -- a backslash is not trimmed, so no escape is cut in two
  have hblank : '\\' ∉ s.text.takeWhile p := by
    intro hmem
    have := List.mem_takeWhile_imp hmem
    rw [hp] at this
    exact absurd this (by decide)
  refine ⟨s.text.takeWhile p, ((s.text.dropWhile p).reverse.takeWhile p).reverse, ?_, rfl,
    endsEscaped_of_not_mem hblank, fun c hc => ?_⟩
  · show s.text = s.text.takeWhile p ++ Text.trimRight p (s.text.dropWhile p) ++ _
    rw [List.append_assoc, ← hback]
    exact hfront
  · exact List.mem_takeWhile_imp (List.mem_reverse.mp (List.mem_of_mem_head? hc))

namespace Parts

/-- Parts of parts. -/
theorem flatMap {f : Slice → List Slice} (h : Parts ss t) (hf : ∀ s ∈ ss, Parts (f s) s) :
    Parts (ss.flatMap f) t := by
  refine ⟨?_, List.pairwise_flatMap.mpr ⟨fun s hs => (hf s hs).ordered, ?_⟩⟩
  · intro r hr
    obtain ⟨s, hs, hrs⟩ := List.mem_flatMap.mp hr
    exact ((hf s hs).cut r hrs).trans (h.cut s hs)
  · refine List.Pairwise.imp_of_mem ?_ h.ordered
    intro a b ha hb hab x hx y hy
    have hxa := ((hf a ha).cut x hx).bounds
    have hyb := ((hf b hb).cut y hy).bounds
    omega

end Parts

namespace PartsUntil

theorem parts (h : PartsUntil P ss t) : Parts ss t :=
  ⟨fun s hs => (h.cut s hs).cutFrom, h.ordered⟩

theorem nil (P : Char → Prop) (t : Slice) : PartsUntil P [] t :=
  ⟨fun _ h => absurd h List.not_mem_nil, .nil⟩

theorem singleton (h : s.CutUntil P t) : PartsUntil P [s] t :=
  ⟨fun _ hs => List.mem_singleton.mp hs ▸ h, List.pairwise_singleton _ _⟩

/-- The rest of a text after a separator. -/
theorem after {start : Nat} {front rest : List Char} {c : Char} (hc : c ≠ '\\')
    (hsize : c.utf8Size = 1) (h : PartsUntil P ss ⟨start + byteLen front + 1, rest⟩) :
    PartsUntil P ss ⟨start, front ++ c :: rest⟩ := by
  have hrest : CutUntil P ⟨start + byteLen front + 1, rest⟩ ⟨start, front ++ c :: rest⟩ := by
    refine ⟨front ++ [c], [], by simp, ?_, endsEscaped_snoc hc false _,
      fun _ hd => absurd hd (by simp)⟩
    show start + byteLen front + 1 = start + byteLen (front ++ [c])
    rw [byteLen_append, byteLen_cons, byteLen_nil, hsize]
    omega
  exact ⟨fun s hs => (h.cut s hs).trans hrest, h.ordered⟩

/-- A piece, kept last character first, a separator, and the parts of the rest. -/
theorem cons {start : Nat} {piece rest : List Char} {c : Char} (hP : P c) (hc : c ≠ '\\')
    (hsize : c.utf8Size = 1) (h : PartsUntil P ss ⟨start + byteLen piece + 1, rest⟩) :
    PartsUntil P (⟨start, piece.reverse⟩ :: ss) ⟨start, piece.reverse ++ c :: rest⟩ := by
  rw [← byteLen_reverse] at h
  have hrest := h.after hc hsize
  refine ⟨?_, List.pairwise_cons.mpr ⟨?_, hrest.ordered⟩⟩
  · intro s hs
    rcases List.mem_cons.mp hs with rfl | hs
    · refine ⟨[], c :: rest, by simp, by simp, rfl, fun d hd => ?_⟩
      rw [← Option.some.inj hd]
      exact hP
    · exact hrest.cut s hs
  · intro s hs
    have hstart : start + byteLen piece.reverse + 1 ≤ s.offset := (h.cut s hs).cutFrom.bounds.1
    show start + byteLen piece.reverse ≤ s.offset
    omega

end PartsUntil

end Slice

open Slice

/-! ### Branches -/

/-- The branches are parts that end at commas. -/
theorem partsUntil_branchesFrom (depth start : Nat) (branch : List Char)
    (painted : List (Char × Mask.Paint)) :
    PartsUntil (· = ',') (branchesFrom depth start branch painted)
      ⟨start, branch.reverse ++ painted.map Prod.fst⟩ := by
  induction painted generalizing depth start branch with
  | nil =>
    rw [branchesFrom]
    refine PartsUntil.singleton ?_
    rw [List.map_nil, List.append_nil]
    exact .refl _ _
  | cons first rest ih =>
    obtain ⟨c, paint⟩ := first
    -- a character that does not end the branch
    have hlonger : ∀ depth, PartsUntil (· = ',') (branchesFrom depth start (c :: branch) rest)
        ⟨start, branch.reverse ++ ((c, paint) :: rest).map Prod.fst⟩ := by
      intro depth
      have hparts := ih depth start (c :: branch)
      rw [List.reverse_cons, List.append_assoc] at hparts
      exact hparts
    unfold branchesFrom
    split
    · split
      · exact hlonger _
      · split
        · exact hlonger _
        · split
          · next hcomma =>
            have hc : c ≠ '\\' := by rw [hcomma.1]; decide
            have hsize : c.utf8Size = 1 := by rw [hcomma.1]; rfl
            exact PartsUntil.cons hcomma.1 hc hsize (ih depth _ [])
          · exact hlonger _
    · exact hlonger _

/-- The branches of a selector list are parts of it that end at commas. -/
theorem partsUntil_branches (s : Slice) : PartsUntil (· = ',') (branches s) s := by
  have hparts := partsUntil_branchesFrom 0 s.offset [] (Mask.paint s.text)
  rw [Mask.paint, Mask.map_fst_paintFrom] at hparts
  exact hparts

theorem parts_branches (s : Slice) : Parts (branches s) s := (partsUntil_branches s).parts

namespace Stylesheet

/-! ### Segments and preludes -/

/-- The segments are parts that end at braces and semicolons. -/
theorem partsUntil_segmentsFrom (start : Nat) (stretch cs : List Char) :
    PartsUntil (fun c => c = '{' ∨ c = '}' ∨ c = ';')
      ((segmentsFrom start stretch cs).map Segment.slice) ⟨start, stretch.reverse ++ cs⟩ := by
  induction cs generalizing start stretch with
  | nil =>
    rw [segmentsFrom, List.append_nil]
    exact PartsUntil.singleton (.refl _ _)
  | cons c cs ih =>
    rw [segmentsFrom]
    split
    · next hseparator =>
      -- the separators are single bytes, and none of them escapes what follows
      have hc : c ≠ '\\' ∧ c.utf8Size = 1 := by
        rcases hseparator with rfl | rfl | rfl <;> exact ⟨by decide, rfl⟩
      exact PartsUntil.cons hseparator hc.1 hc.2 (ih _ [])
    · have hparts := ih start (c :: stretch)
      rw [List.reverse_cons, List.append_assoc] at hparts
      exact hparts

/-- The segments of a stylesheet are parts of it that end at braces and semicolons. -/
theorem partsUntil_segments (masked : Slice) :
    PartsUntil (fun c => c = '{' ∨ c = '}' ∨ c = ';')
      ((segments masked).map Segment.slice) masked :=
  partsUntil_segmentsFrom masked.offset [] masked.text

/-- Only a segment that ends at an opening brace is a prelude. -/
theorem Segment.prelude?_of_closer_ne {segment : Segment} (h : segment.closer ≠ some '{') :
    segment.prelude? = none :=
  if_neg fun hprelude => h hprelude.1

/-- A prelude is its segment without the blanks around it. -/
theorem cutUntil_of_prelude? {segment : Segment} {prelude : Slice}
    (h : segment.prelude? = some prelude) :
    prelude.CutUntil (fun c => isBlank c = true) segment.slice := by
  simp only [Segment.prelude?] at h
  split at h
  · cases h
    exact cutUntil_trim (by decide) _
  · exact absurd h (by simp)

theorem cutFrom_of_prelude? {segment : Segment} {prelude : Slice}
    (h : segment.prelude? = some prelude) : prelude.CutFrom segment.slice :=
  (cutUntil_of_prelude? h).cutFrom

/-- The preludes of a stylesheet are parts of its masked text. -/
theorem parts_preludes (css : Slice) : Parts (preludes css) ⟨css.offset, mask css.text⟩ := by
  have hparts := (partsUntil_segments ⟨css.offset, mask css.text⟩).parts
  refine ⟨?_, ?_⟩
  · intro prelude hprelude
    obtain ⟨segment, hsegment, hsome⟩ := List.mem_filterMap.mp hprelude
    exact (cutFrom_of_prelude? hsome).trans (hparts.cut _ (List.mem_map_of_mem hsegment))
  · refine List.Pairwise.filterMap _ ?_ (List.pairwise_map.mp hparts.ordered)
    intro a b hab p hp q hq
    have hpa := (cutFrom_of_prelude? hp).bounds
    have hqb := (cutFrom_of_prelude? hq).bounds
    omega

/-! ### Bodies -/

/-- Between bodies, whatever text `front` was passed over holds none; inside of a body, it and the
rest hold those to come. -/
theorem partsUntil_bodiesFrom (cs : List Char) :
    (∀ start body offset front,
      PartsUntil (· = '}') (bodiesFrom 0 start body (offset + byteLen front) cs)
        ⟨offset, front ++ cs⟩) ∧
    ∀ depth start body,
      PartsUntil (· = '}') (bodiesFrom (depth + 1) start body (start + byteLen body) cs)
        ⟨start, body.reverse ++ cs⟩ := by
  induction cs with
  | nil =>
    refine ⟨fun start body offset front => ?_, fun depth start body => ?_⟩
    · exact PartsUntil.nil _ _
    · rw [bodiesFrom, if_neg (Nat.succ_ne_zero depth), List.append_nil]
      exact PartsUntil.singleton (.refl _ _)
  | cons c cs ih =>
    obtain ⟨hbetween, hinside⟩ := ih
    refine ⟨fun start body offset front => ?_, fun depth start body => ?_⟩
    · -- between bodies only an open brace matters
      have hskip : PartsUntil (· = '}')
          (bodiesFrom 0 start body (offset + byteLen front + c.utf8Size) cs)
          ⟨offset, front ++ c :: cs⟩ := by
        have hparts := hbetween start body offset (front ++ [c])
        rw [byteLen_append, byteLen_cons, byteLen_nil, Nat.add_zero, ← Nat.add_assoc,
          List.append_assoc] at hparts
        exact hparts
      simp only [bodiesFrom]
      split
      · next hopen =>
        subst hopen
        exact PartsUntil.after (by decide) rfl (hinside 0 _ [])
      · split
        · exact hskip
        · exact hskip
    · -- a character that does not end the body
      have hlonger : ∀ depth', PartsUntil (· = '}')
          (bodiesFrom (depth' + 1) start (c :: body) (start + byteLen body + c.utf8Size) cs)
          ⟨start, body.reverse ++ c :: cs⟩ := by
        intro depth'
        have hparts := hinside depth' start (c :: body)
        rw [byteLen_cons, Nat.add_comm c.utf8Size, ← Nat.add_assoc, List.reverse_cons,
          List.append_assoc] at hparts
        exact hparts
      simp only [bodiesFrom, Nat.succ_ne_zero, if_false]
      split
      · exact hlonger (depth + 1)
      · split
        · next hclose =>
          subst hclose
          split
          · exact PartsUntil.cons rfl (by decide) rfl (hbetween start [] _ [])
          · next hdepth =>
            obtain ⟨depth, rfl⟩ := Nat.exists_eq_succ_of_ne_zero fun h =>
              hdepth (congrArg (· + 1) h)
            exact hlonger depth
        · exact hlonger depth

/-- The bodies of a stylesheet are parts of its mask that end at closing braces. -/
theorem partsUntil_bodies (css : List Char) : PartsUntil (· = '}') (bodies css) ⟨0, mask css⟩ :=
  (partsUntil_bodiesFrom (mask css)).1 0 [] 0 []

/-- The bodies of a stylesheet are parts of its masked text. -/
theorem parts_bodies (css : List Char) : Parts (bodies css) ⟨0, mask css⟩ :=
  (partsUntil_bodies css).parts

end Stylesheet

/-! ### Names in a piece -/

/-- The offset just after the written name. -/
def Token.stop (t : Token) : Nat := t.offset + 1 + t.rawLen

/-- What the recogniser takes: an escape, an attribute, a string or a marked name. -/
theorem tokenRecogniser_eq_some {offset : Nat} {before : List Char} {c : Char} {cs : List Char}
    {found : Option Token} {taken : Nat}
    (h : tokenRecogniser ⟨offset, before, c :: cs⟩ = some (found, taken)) :
    (found = none ∧ (c = '\\' ∧ taken = 2 ∨ c = '[' ∧ taken = attributeLength 0 none (c :: cs) ∨
      (c = '\x27' ∨ c = '\x22') ∧ taken = 1 + quotedLength c cs)) ∨
    ∃ kind, NameKind.ofMarker? c = some kind ∧
      found = Token.ofRaw? offset kind (takeName cs).1 ∧ taken = 1 + (takeName cs).1.length := by
  simp only [tokenRecogniser] at h
  split at h
  · next hc =>
    cases h
    exact .inl ⟨rfl, .inl ⟨hc, rfl⟩⟩
  · split at h
    · next hc =>
      cases h
      exact .inl ⟨rfl, .inr (.inl ⟨hc, rfl⟩)⟩
    · split at h
      · next hc =>
        cases h
        exact .inl ⟨rfl, .inr (.inr ⟨hc, rfl⟩)⟩
      · split at h
        · exact absurd h (by simp)
        · next kind hkind =>
          cases h
          exact .inr ⟨kind, hkind, rfl, rfl⟩

/-- What the recogniser leaves alone starts none of the things it takes. -/
theorem of_tokenRecogniser_eq_none {offset : Nat} {before : List Char} {c : Char} {cs : List Char}
    (h : tokenRecogniser ⟨offset, before, c :: cs⟩ = none) :
    c ≠ '\\' ∧ c ≠ '[' ∧ ¬(c = '\x27' ∨ c = '\x22') ∧ NameKind.ofMarker? c = none := by
  simp only [tokenRecogniser] at h
  split at h
  · cases h
  · next hbackslash =>
    split at h
    · cases h
    · next hopen =>
      split at h
      · cases h
      · next hquote =>
        split at h
        · next hmarker => exact ⟨hbackslash, hopen, hquote, hmarker⟩
        · cases h

/-- The marker of a kind is the character it was recognised by. -/
theorem NameKind.marker_of_ofMarker? {c : Char} {kind : NameKind}
    (h : NameKind.ofMarker? c = some kind) : kind.marker = c := by
  unfold NameKind.ofMarker? at h
  split at h
  · next hdot =>
    cases h
    exact hdot.symm
  · split at h
    · next hhash =>
      cases h
      exact hhash.symm
    · exact absurd h (by simp)

theorem NameKind.marker_ne_backslash (kind : NameKind) : kind.marker ≠ '\\' := by
  cases kind <;> decide

theorem NameKind.utf8Size_marker (kind : NameKind) : kind.marker.utf8Size = 1 := by
  cases kind <;> rfl

/-- A character that starts neither a lone backslash nor an escape is no backslash. -/
theorem ne_backslash_of_not_escape {c : Char} {cs : List Char} (hlone : c = '\\' → cs = [] → False)
    (hpair : ∀ d ds, c = '\\' → cs = d :: ds → False) : c ≠ '\\' := by
  intro hc
  cases cs with
  | nil => exact hlone hc rfl
  | cons d ds => exact hpair d ds hc rfl

theorem takeName_cons {c : Char} (hc : c ≠ '\\') (cs : List Char) :
    takeName (c :: cs) =
      if isNameBoundary c then ([], c :: cs) else (c :: (takeName cs).1, (takeName cs).2) := by
  rw [takeName]
  · exact fun h => absurd h hc
  · exact fun _ _ h => absurd h hc

theorem unescape_cons {c : Char} (hc : c ≠ '\\') (cs : List Char) :
    unescape (c :: cs) = c :: unescape cs := by
  rw [unescape]
  · exact fun h => absurd h hc
  · exact fun _ _ h => absurd h hc

/-! What is taken for a name, a string or an attribute selector ends outside of an escape, unless it
runs to the end of the text. -/

/-- A name that ends before the text does not end in an escape. -/
theorem takeName_whole {cs : List Char} (h : (takeName cs).2 ≠ []) :
    endsEscaped false (takeName cs).1 = false := by
  fun_induction takeName cs with
  | case1 => rfl
  | case2 => exact absurd rfl h
  | case3 c cs ih =>
    rw [endsEscaped_backslash]
    exact ih h
  | case4 c cs _ _ hboundary => rfl
  | case5 c cs hlone hpair hboundary ih =>
    rw [endsEscaped_cons_of_ne (ne_backslash_of_not_escape hlone hpair)]
    exact ih h

/-- A string that ends before the text does not end in an escape. -/
theorem quotedLength_whole {quote : Char} {cs : List Char}
    (h : quotedLength quote cs < cs.length) :
    endsEscaped false (cs.take (quotedLength quote cs)) = false := by
  fun_induction quotedLength quote cs with
  | case1 => rfl
  | case2 => exact absurd h (by simp)
  | case3 c cs ih =>
    rw [Nat.add_comm 2, List.take_succ_cons, List.take_succ_cons, endsEscaped_backslash]
    simp only [List.length_cons] at h
    exact ih (by omega)
  | case4 cs hlone hpair =>
    rw [List.take_succ_cons, endsEscaped_cons_of_ne (ne_backslash_of_not_escape hlone hpair)]
    rfl
  | case5 c cs hlone hpair _ ih =>
    rw [Nat.add_comm 1, List.take_succ_cons,
      endsEscaped_cons_of_ne (ne_backslash_of_not_escape hlone hpair)]
    simp only [List.length_cons] at h
    exact ih (by omega)

/-- An attribute that ends before the text does not end in an escape. -/
theorem attributeLength_whole {depth : Nat} {quote : Option Char} {cs : List Char}
    (h : attributeLength depth quote cs < cs.length) :
    endsEscaped false (cs.take (attributeLength depth quote cs)) = false := by
  -- one more character that is no backslash
  have hcons : ∀ {c : Char} {cs : List Char} {n : Nat}, c ≠ '\\' →
      (n < cs.length → endsEscaped false (cs.take n) = false) → 1 + n < (c :: cs).length →
      endsEscaped false ((c :: cs).take (1 + n)) = false := by
    intro c cs n hc ih hlt
    rw [Nat.add_comm 1, List.take_succ_cons, endsEscaped_cons_of_ne hc]
    rw [List.length_cons] at hlt
    exact ih (by omega)
  fun_induction attributeLength depth quote cs with
  | case1 => rfl
  | case2 => exact absurd h (by simp)
  | case3 depth quote c cs ih =>
    rw [Nat.add_comm 2, List.take_succ_cons, List.take_succ_cons, endsEscaped_backslash]
    simp only [List.length_cons] at h
    exact ih (by omega)
  | case4 depth quote c cs hlone hpair ih =>
    exact hcons (ne_backslash_of_not_escape hlone hpair) ih h
  | case5 depth cs _ _ ih => exact hcons (by decide) ih h
  | case6 depth cs => rfl
  | case7 depth cs _ _ _ _ ih => exact hcons (by decide) ih h
  | case8 depth c cs hlone hpair _ _ _ ih =>
    exact hcons (ne_backslash_of_not_escape hlone hpair) ih h
  | case9 depth c cs hlone hpair _ _ _ ih =>
    exact hcons (ne_backslash_of_not_escape hlone hpair) ih h

theorem take_takeName (cs : List Char) : cs.take (takeName cs).1.length = (takeName cs).1 :=
  calc cs.take (takeName cs).1.length
    _ = ((takeName cs).1 ++ (takeName cs).2).take (takeName cs).1.length := by rw [takeName_append]
    _ = (takeName cs).1 := List.take_left

theorem drop_takeName (cs : List Char) : cs.drop (takeName cs).1.length = (takeName cs).2 :=
  calc cs.drop (takeName cs).1.length
    _ = ((takeName cs).1 ++ (takeName cs).2).drop (takeName cs).1.length := by rw [takeName_append]
    _ = (takeName cs).2 := List.drop_left

/-- The recogniser of names takes something, and takes whole escapes. -/
theorem tokenRecogniser_whole {cur : Cursor} {found : Option Token} {taken : Nat}
    (h : tokenRecogniser cur = some (found, taken)) :
    0 < taken ∧
      (taken < cur.rest.length → endsEscaped false (cur.rest.take taken) = false) := by
  obtain ⟨offset, before, rest⟩ := cur
  cases rest with
  | nil => exact absurd h (by simp [tokenRecogniser])
  | cons c cs =>
    rcases tokenRecogniser_eq_some h with ⟨_, ⟨rfl, rfl⟩ | ⟨rfl, rfl⟩ | ⟨hquote, rfl⟩⟩ |
      ⟨kind, hkind, _, rfl⟩
    · refine ⟨by decide, fun hlt => ?_⟩
      -- a lone backslash is the end of the text; any other takes the next character with it
      cases cs with
      | nil => exact absurd hlt (by simp)
      | cons d ds => rfl
    · refine ⟨?_, attributeLength_whole⟩
      simp [attributeLength]
    · have hc : c ≠ '\\' := by rcases hquote with rfl | rfl <;> decide
      refine ⟨by omega, fun hlt => ?_⟩
      simp only [List.length_cons] at hlt
      rw [Nat.add_comm, List.take_succ_cons, endsEscaped_cons_of_ne hc]
      exact quotedLength_whole (by omega)
    · have hc : c ≠ '\\' := by
        rw [← NameKind.marker_of_ofMarker? hkind]
        exact kind.marker_ne_backslash
      refine ⟨by omega, fun hlt => ?_⟩
      rw [Nat.add_comm, List.take_succ_cons, endsEscaped_cons_of_ne hc, take_takeName]
      refine takeName_whole fun hnil => ?_
      -- a name that runs to the end leaves nothing behind
      have hlength := congrArg List.length (takeName_append cs)
      simp only [hnil, List.append_nil, List.length_cons] at hlength hlt
      omega

/-- A name that is found has its marker at a place that is not escaped. -/
theorem exists_of_mem_scan {cur : Cursor} {t : Token} (h : some t ∈ tokenRecogniser.scan cur) :
    ∃ front kind rest, cur.rest = front ++ kind.marker :: rest ∧ endsEscaped false front = false ∧
      Token.ofRaw? (cur.offset + byteLen front) kind (takeName rest).1 = some t := by
  induction cur using Cursor.advance_induction with
  | atEnd cur hend =>
    rw [Recogniser.scan_of_rest_nil hend] at h
    exact absurd h List.not_mem_nil
  | step cur hne ih =>
    -- what is found later, after characters that end outside of an escape
    have hlater : ∀ n, 0 < n → (n < cur.rest.length → endsEscaped false (cur.rest.take n) = false) →
        some t ∈ tokenRecogniser.scan (cur.advance n) → ∃ front kind rest,
          cur.rest = front ++ kind.marker :: rest ∧ endsEscaped false front = false ∧
          Token.ofRaw? (cur.offset + byteLen front) kind (takeName rest).1 = some t := by
      intro n hn hwhole hmem
      obtain ⟨front, kind, rest, hrest, hescape, hraw⟩ := ih n hn hmem
      have hdrop : cur.rest.drop n = front ++ kind.marker :: rest := hrest
      have hlt : n < cur.rest.length := by
        have hlength := congrArg List.length hdrop
        simp only [List.length_drop, List.length_append, List.length_cons] at hlength
        omega
      refine ⟨cur.rest.take n ++ front, kind, rest, ?_, ?_, ?_⟩
      · rw [List.append_assoc, ← hdrop, List.take_append_drop]
      · rw [endsEscaped_append, hwhole hlt, hescape]
      · rw [byteLen_append, ← Nat.add_assoc]
        exact hraw
    obtain ⟨offset, before, rest⟩ := cur
    obtain ⟨c, cs, rfl⟩ := List.exists_cons_of_ne_nil hne
    cases hr : tokenRecogniser ⟨offset, before, c :: cs⟩ with
    | none =>
      rw [Recogniser.scan_of_none hne hr] at h
      refine hlater 1 (by decide) (fun _ => ?_) h
      exact endsEscaped_cons_of_ne (of_tokenRecogniser_eq_none hr).1 []
    | some result =>
      obtain ⟨found, taken⟩ := result
      obtain ⟨hpos, hwhole⟩ := tokenRecogniser_whole hr
      rw [Recogniser.scan_of_some hne hpos hr] at h
      rcases List.mem_cons.mp h with hfirst | hmem
      · subst hfirst
        rcases tokenRecogniser_eq_some hr with ⟨hnone, _⟩ | ⟨kind, hkind, hraw, _⟩
        · exact absurd hnone (by simp)
        · refine ⟨[], kind, cs, ?_, rfl, hraw.symm⟩
          rw [NameKind.marker_of_ofMarker? hkind]
          rfl
      · exact hlater taken hpos hwhole hmem

/-- Every token is a marker outside of an escape with the name behind it. -/
theorem exists_of_mem_tokens {s : Slice} {t : Token} (h : t ∈ tokens s) :
    ∃ front kind rest, s.text = front ++ kind.marker :: rest ∧ endsEscaped false front = false ∧
      Token.ofRaw? (s.offset + byteLen front) kind (takeName rest).1 = some t := by
  obtain ⟨found, hfound, rfl⟩ := List.mem_filterMap.mp h
  have hscan : some t ∈ tokenRecogniser.scan (.start s) := hfound
  exact exists_of_mem_scan hscan

/-- The names that are found follow each other in the text. -/
theorem scan_ordered (cur : Cursor) :
    ((tokenRecogniser.scan cur).filterMap id).Pairwise (fun a b => a.stop ≤ b.offset) ∧
      ∀ t ∈ (tokenRecogniser.scan cur).filterMap id,
        cur.offset ≤ t.offset ∧ t.stop ≤ cur.offset + byteLen cur.rest := by
  induction cur using Cursor.advance_induction with
  | atEnd cur hend =>
    rw [Recogniser.scan_of_rest_nil hend]
    exact ⟨.nil, fun t ht => absurd ht List.not_mem_nil⟩
  | step cur hne ih =>
    -- what is found later lies behind the characters that were passed
    have hlater : ∀ n, 0 < n → ∀ t ∈ (tokenRecogniser.scan (cur.advance n)).filterMap id,
        cur.offset + byteLen (cur.rest.take n) ≤ t.offset ∧
          t.stop ≤ cur.offset + byteLen cur.rest := by
      intro n hn t ht
      rw [← cur.stop_advance n]
      exact (ih n hn).2 t ht
    cases hr : tokenRecogniser cur with
    | none =>
      rw [Recogniser.scan_of_none hne hr]
      refine ⟨(ih 1 (by decide)).1, fun t ht => ?_⟩
      have hbounds := hlater 1 (by decide) t ht
      omega
    | some result =>
      obtain ⟨found, taken⟩ := result
      have hpos := (tokenRecogniser_whole hr).1
      rw [Recogniser.scan_of_some hne hpos hr]
      cases found with
      | none =>
        refine ⟨(ih taken hpos).1, fun t ht => ?_⟩
        have hbounds := hlater taken hpos t ht
        omega
      | some first =>
        -- the first name ends where the rest is searched from
        have hfirst : first.offset = cur.offset ∧
            first.stop = cur.offset + byteLen (cur.rest.take taken) := by
          obtain ⟨offset, before, rest⟩ := cur
          obtain ⟨c, cs, rfl⟩ := List.exists_cons_of_ne_nil hne
          rcases tokenRecogniser_eq_some hr with ⟨hnone, _⟩ | ⟨kind, hkind, hraw, rfl⟩
          · exact absurd hnone (by simp)
          · obtain ⟨rfl, _⟩ := Token.ofRaw?_eq_some hraw.symm
            refine ⟨rfl, ?_⟩
            change offset + 1 + byteLen (takeName cs).1 = _
            rw [Nat.add_comm 1, List.take_succ_cons, take_takeName, byteLen_cons,
              NameKind.utf8Size_of_ofMarker? hkind, Nat.add_assoc]
        have hall : byteLen (cur.rest.take taken) ≤ byteLen cur.rest := by
          conv_rhs => rw [← List.take_append_drop taken cur.rest, byteLen_append]
          omega
        refine ⟨List.pairwise_cons.mpr ⟨fun t ht => ?_, (ih taken hpos).1⟩, fun t ht => ?_⟩
        · have hbounds := hlater taken hpos t ht
          omega
        · rcases List.mem_cons.mp ht with rfl | ht
          · omega
          · have hbounds := hlater taken hpos t ht
            omega

/-- Tokens lie in the text, in order and apart. -/
theorem tokens_ordered (s : Slice) :
    (tokens s).Pairwise (fun a b => a.stop ≤ b.offset) ∧
      ∀ t ∈ tokens s, s.offset ≤ t.offset ∧ t.stop ≤ s.stop :=
  scan_ordered (.start s)

/-- The names of parts in order are in order. -/
theorem Slice.Parts.tokens_ordered {ss : List Slice} {t : Slice} (h : Parts ss t) :
    (ss.flatMap tokens).Pairwise fun a b => a.stop ≤ b.offset := by
  refine List.pairwise_flatMap.mpr ⟨fun s _ => (StyleAudit.tokens_ordered s).1, ?_⟩
  refine h.ordered.imp fun {a b} hab x hx y hy => ?_
  have hxa := (StyleAudit.tokens_ordered a).2 x hx
  have hyb := (StyleAudit.tokens_ordered b).2 y hy
  omega

end StyleAudit
