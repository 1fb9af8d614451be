import Mathlib.Data.List.Pairwise
import StyleAudit.Proofs.ByteNames
import StyleAudit.Proofs.SharedPlaces

/-!
# Words of a class value

A class value is a list of names between blanks, but a template may compute parts of it. A word that
touches a placeholder is not known before the template runs, so it is no name, and blanks in a
placeholder part no words. The literals in a placeholder are class values again.

* **`Placeholder.paintedRight_of_paintFrom`**: a character is painted if a placeholder covers it. So
  nothing opens at a character that is not painted, and a piece away from the placeholders has none
  of its own (`Placeholder.all_eq_nil_of_apart`).
* **`mem_classWordsFrom_iff`**: cutting a painted text gives its longest runs of characters that do
  not part words.
* **`Slice.IsWordOf`** says what a word is by places in the value, and **`classWords_spec`** that
  the words are found, in order, with those marked that touch a placeholder.
* **`Script.isQuotedIn_of_mem_literals`**: what is read in a placeholder stands between quotes.
-/

namespace StyleAudit

open Text

/-! ### Slices that share bytes -/

namespace Slice

/-- The slices have a byte in common. -/
def Overlaps (s t : Slice) : Prop := s.offset < t.stop ∧ t.offset < s.stop

/-- The slices have a byte in common, or one starts where the other ends. -/
def touches (s t : Slice) : Bool := s.offset ≤ t.stop && t.offset ≤ s.stop

/-- Slices touch when neither ends before the other begins. -/
theorem touches_iff {s t : Slice} :
    s.touches t = true ↔ s.offset ≤ t.stop ∧ t.offset ≤ s.stop := by
  simp [touches]

end Slice

namespace Placeholder

/-! ### Placeholders and painted characters -/

def openings : List (List Char) := ['$', '{'] :: marks.map Prod.fst

/-- A placeholder starts where one of the marks stands. -/
theorem length?_isSome_iff {cs : List Char} :
    (length? cs).isSome = true ↔ ∃ opening ∈ openings, (after? opening cs).isSome = true := by
  unfold length? openings
  cases hdollar : after? ['$', '{'] cs with
  | some inner => simp [hdollar]
  | none =>
    have hmark : ∀ mark : List Char × List Char, ((after? mark.1 cs).bind fun inner =>
        some (min cs.length ((breakOn mark.2 inner).1.length + 4))).isSome =
          (after? mark.1 cs).isSome := fun mark => by cases after? mark.1 cs <;> rfl
    have hnone : ¬(after? ['$', '{'] cs).isSome = true := by simp [hdollar]
    rw [List.exists_mem_cons_iff, or_iff_right hnone]
    simp only [List.findSome?_isSome_iff, List.mem_map, exists_exists_and_eq_and]
    exact exists_congr fun mark => and_congr_right fun _ => by rw [← hmark mark]; rfl

/-- What follows a placeholder does not make it go. -/
theorem length?_append {cs : List Char} (h : (length? cs).isSome = true) (more : List Char) :
    (length? (cs ++ more)).isSome = true := by
  obtain ⟨opening, hmem, hopens⟩ := length?_isSome_iff.mp h
  obtain ⟨rest, hrest⟩ := Option.isSome_iff_exists.mp hopens
  refine length?_isSome_iff.mpr ⟨opening, hmem, ?_⟩
  rw [eq_append_of_after? hrest, List.append_assoc, after?_append]
  rfl

/-- A placeholder has a first character, and ends within the text. -/
theorem length?_pos {cs : List Char} {n : Nat} (h : length? cs = some n) :
    0 < n ∧ n ≤ cs.length := by
  have hlong : 0 < cs.length := by
    obtain ⟨opening, hmem, hopens⟩ := length?_isSome_iff.mp (Option.isSome_of_eq_some h)
    obtain ⟨rest, hrest⟩ := Option.isSome_iff_exists.mp hopens
    have hopening : opening.length = 2 := by
      rcases List.mem_cons.mp hmem with rfl | hmem
      · rfl
      · obtain ⟨mark, hmark, rfl⟩ := List.mem_map.mp hmem
        exact (mem_marks hmark).1
    rw [eq_append_of_after? hrest, List.length_append]
    omega
  unfold length? at h
  split at h
  · cases h
    omega
  · obtain ⟨mark, _, hmark⟩ := List.exists_of_findSome?_eq_some h
    obtain ⟨inner, _, hn⟩ := Option.bind_eq_some_iff.mp hmark
    cases hn
    omega

theorem recogniser_eq_some {cur : Cursor} {n : Nat} (h : length? cur.rest = some n) :
    recogniser cur = some (⟨cur.offset, cur.rest.take n⟩, n) := by
  rw [recogniser, h]
  rfl

theorem recogniser_eq_none {cur : Cursor} (h : length? cur.rest = none) :
    recogniser cur = none := by
  rw [recogniser, h]
  rfl

theorem offset_le_of_mem_scan {cur : Cursor} {span : Slice} (h : span ∈ recogniser.scan cur) :
    cur.offset ≤ span.offset := by
  obtain ⟨pre, suf, taken, hr, _⟩ := Recogniser.mem_findFrom h
  obtain ⟨n, _, hspan⟩ := Option.bind_eq_some_iff.mp hr
  obtain ⟨rfl, _⟩ := Prod.mk.inj (Option.some.inj hspan)
  exact Nat.le_add_right _ _

/-- `PaintedRight spans offset p rest`: the character `p` at an offset, before `rest`, is painted if
it stands in one of the placeholders. If it is not, no placeholder starts at it. -/
structure PaintedRight (spans : List Slice) (offset : Nat) (p : Char × Bool) (rest : List Char) :
    Prop where
  inside_iff : p.2 = true ↔ ∃ span ∈ spans, span.Covers offset
  opens_none : p.2 = false → length? (p.1 :: rest) = none

namespace PaintedRight

variable {spans : List Slice} {offset : Nat} {p : Char × Bool} {rest : List Char}

/-- A character at which no placeholder starts, before the others. -/
theorem first {c : Char} (hnone : length? (c :: rest) = none)
    (hlater : ∀ span ∈ spans, offset < span.offset) :
    PaintedRight spans offset (c, false) rest := by
  refine ⟨iff_of_false Bool.false_ne_true ?_, fun _ => hnone⟩
  rintro ⟨span, hspan, hle, _⟩
  have hlt := hlater span hspan
  omega

/-- A character of the first placeholder. -/
theorem inside {span : Slice} {c : Char} (hcovers : span.Covers offset) :
    PaintedRight (span :: spans) offset (c, true) rest :=
  ⟨iff_of_true rfl ⟨span, List.mem_cons_self, hcovers⟩, fun h => nomatch h⟩

/-- A character behind the first placeholder. -/
theorem behind {span : Slice} (h : PaintedRight spans offset p rest) (hle : span.stop ≤ offset) :
    PaintedRight (span :: spans) offset p rest := by
  refine ⟨?_, h.opens_none⟩
  have hover : ¬span.Covers offset := fun hcovers => Nat.not_lt.mpr hle hcovers.2
  rw [List.exists_mem_cons_iff, or_iff_right hover]
  exact h.inside_iff

end PaintedRight

theorem map_fst_map_true (cs : List Char) : (cs.map (·, true)).map Prod.fst = cs := by
  rw [List.map_map]
  exact List.map_id' cs

/-- The scan from a place on paints the text from there on. -/
theorem paintedRight_of_paintFrom (cur : Cursor) {xs ys : List (Char × Bool)} {p : Char × Bool}
    (h : paintFrom 0 cur.rest = xs ++ p :: ys) :
    PaintedRight (recogniser.scan cur) (cur.offset + byteLen (xs.map Prod.fst)) p
      (ys.map Prod.fst) := by
  induction cur using Cursor.advance_induction generalizing xs with
  | atEnd cur hend =>
    rw [hend, paintFrom] at h
    exact absurd h (by simp)
  | step cur hne ih =>
    cases hlength : length? cur.rest with
    | none =>
      obtain ⟨d, ds, hrest⟩ := List.exists_cons_of_ne_nil hne
      have hnext : (cur.advance 1).rest = ds := by simp [Cursor.advance, hrest]
      have hoffset : (cur.advance 1).offset = cur.offset + d.utf8Size := by
        simp [Cursor.advance, hrest]
      rw [Recogniser.scan_of_none hne (recogniser_eq_none hlength)]
      rw [hrest] at hlength
      rw [hrest, paintFrom_of_none hlength] at h
      cases xs with
      | nil =>
        obtain ⟨rfl, rfl⟩ := List.cons.inj h
        refine .first (by rw [map_fst_paintFrom]; exact hlength) fun span hspan => ?_
        have hlater := offset_le_of_mem_scan hspan
        have hpos := d.utf8Size_pos
        simp only [List.map_nil, byteLen_nil]
        omega
      | cons x xs =>
        obtain ⟨rfl, htail⟩ := List.cons.inj h
        have hspec := ih 1 (by decide) (hnext.symm ▸ htail)
        rw [hoffset, Nat.add_assoc] at hspec
        exact hspec
    | some n =>
      obtain ⟨hpos, hle⟩ := length?_pos hlength
      -- a whole placeholder is painted at once, and the search goes on behind it
      have hpaint : paintFrom 0 cur.rest =
          (cur.rest.take n).map (·, true) ++ paintFrom 0 (cur.rest.drop n) := by
        obtain ⟨d, ds, hrest⟩ := List.exists_cons_of_ne_nil hne
        rw [hrest] at hlength ⊢
        exact paintFrom_of_some hlength hpos
      rw [Recogniser.scan_of_some hne hpos (recogniser_eq_some hlength)]
      rw [hpaint] at h
      rcases List.append_eq_append_iff.mp h with ⟨as, rfl, htail⟩ | ⟨bs, hfirst, hlast⟩
      · -- behind the placeholder
        have hspec := ih n hpos htail
        rw [List.map_append, byteLen_append, map_fst_map_true, ← Nat.add_assoc]
        exact hspec.behind (Nat.le_add_right _ _)
      · rcases List.cons_eq_append_iff.mp hlast with ⟨rfl, htail⟩ | ⟨bs, rfl, _⟩
        · have hspec := @ih n hpos [] htail
          rw [List.append_nil] at hfirst
          rw [← hfirst, map_fst_map_true]
          exact hspec.behind (Nat.le_refl _)
        · -- in the placeholder
          obtain ⟨c, _, rfl⟩ := List.mem_map.mp
            (hfirst ▸ List.mem_append_right xs List.mem_cons_self :
              p ∈ (cur.rest.take n).map (·, true))
          have hsplit := congrArg (fun ps => byteLen (ps.map Prod.fst)) hfirst
          have hsize := c.utf8Size_pos
          simp only [map_fst_map_true, List.map_append, byteLen_append, List.map_cons,
            byteLen_cons] at hsplit
          refine .inside ⟨Nat.le_add_right _ _, ?_⟩
          simp only [Slice.stop]
          omega

/-- The character of a value behind `before`, with how it is painted. -/
theorem exists_paint_of_split {value : Slice} {before after : List Char} {c : Char}
    (h : value.text = before ++ c :: after) : ∃ xs inside ys,
      paint value.text = xs ++ (c, inside) :: ys ∧ xs.map Prod.fst = before ∧
        PaintedRight (all value) (value.offset + byteLen before) (c, inside) after := by
  have hfst : (paint value.text).map Prod.fst = before ++ c :: after := by
    rw [paint, map_fst_paintFrom]
    exact h
  obtain ⟨xs, rest, hpaint, hxs, hrest⟩ := List.map_eq_append_iff.mp hfst
  obtain ⟨⟨d, inside⟩, ys, rfl, rfl, rfl⟩ := List.map_eq_cons_iff.mp hrest
  have hright := paintedRight_of_paintFrom (.start value) hpaint
  rw [hxs] at hright
  exact ⟨xs, inside, ys, hpaint, hxs, hright⟩

/-- A placeholder of a piece is one of the whole, or lies in one. -/
theorem all_eq_nil_of_apart {s value : Slice} (hin : s.Inside value)
    (h : ∀ span ∈ all value, ¬s.Overlaps span) : all s = [] := by
  refine List.eq_nil_iff_forall_not_mem.mpr fun span hspan => ?_
  obtain ⟨cur, taken, hr, hcur, hne⟩ := Recogniser.mem_findAll hspan
  obtain ⟨n, hlength, _⟩ := Option.bind_eq_some_iff.mp hr
  obtain ⟨c, rest, hrest⟩ := List.exists_cons_of_ne_nil hne
  obtain ⟨before, after, htext, hoffset⟩ := hcur.toSlice_inside.trans hin
  have hsplit : value.text = before ++ c :: (rest ++ after) := by
    rw [htext, List.append_assoc]
    exact congrArg (before ++ ·) (congrArg (· ++ after) hrest)
  obtain ⟨_, inside, _, _, _, hright⟩ := exists_paint_of_split hsplit
  change cur.offset = _ at hoffset
  rw [← hoffset] at hright
  -- the placeholder would start at a character that is not painted in the whole, or in another one
  have hplace : s.Covers cur.offset := by
    have hbounds := hcur.toSlice_inside.bounds
    have hpos := c.utf8Size_pos
    simp only [Cursor.toSlice, Slice.stop, hrest, byteLen_cons] at hbounds
    simp only [Slice.Covers, Slice.stop]
    omega
  cases inside with
  | true =>
    obtain ⟨whole, hwhole, hcovers⟩ := hright.inside_iff.mp rfl
    refine h whole hwhole ?_
    unfold Slice.Covers at hplace hcovers
    unfold Slice.Overlaps
    omega
  | false =>
    have hnone : length? (c :: (rest ++ after)) = none := hright.opens_none rfl
    have hsome := length?_append (Option.isSome_of_eq_some hlength) after
    rw [hrest, List.cons_append, hnone] at hsome
    exact absurd hsome (by decide)

/-- Placeholders lie in order and apart. -/
theorem all_ordered (value : Slice) :
    (all value).Pairwise fun span later => span.stop ≤ later.offset := by
  refine Recogniser.findAll_ordered (fun {cur found n} h => ?_) value
  obtain ⟨m, hlength, hfound⟩ := Option.bind_eq_some_iff.mp h
  obtain ⟨rfl, rfl⟩ := Prod.mk.inj (Option.some.inj hfound)
  exact ⟨(length?_pos hlength).1, Nat.le_refl _, Nat.le_refl _⟩

theorem text_ne_nil_of_mem_all {value span : Slice} (h : span ∈ all value) : span.text ≠ [] := by
  obtain ⟨cur, taken, hr, _, _⟩ := Recogniser.mem_findAll h
  obtain ⟨n, hlength, hspan⟩ := Option.bind_eq_some_iff.mp hr
  obtain ⟨rfl, _⟩ := Prod.mk.inj (Option.some.inj hspan)
  obtain ⟨hpos, hle⟩ := length?_pos hlength
  refine List.ne_nil_of_length_pos ?_
  rw [List.length_take]
  omega

end Placeholder

/-! ### Runs of painted characters -/

/-- Whether a painted character parts words. -/
def partsWords (p : Char × Bool) : Bool := isAsciiBlank p.1 && !p.2

/-- `IsRun start painted w`: the word is a longest run of characters that do not part words, in a
painted text that starts at `start`. -/
def IsRun (start : Nat) (painted : List (Char × Bool)) (w : ClassWord) : Prop :=
  ∃ xs run ys, painted = xs ++ run ++ ys ∧ run ≠ [] ∧ (∀ p ∈ run, partsWords p = false) ∧
    (∀ p ∈ xs.getLast?, partsWords p = true) ∧ (∀ p ∈ ys.head?, partsWords p = true) ∧
    w = ⟨⟨start + byteLen (xs.map Prod.fst), run.map Prod.fst⟩, run.any Prod.snd⟩

/-- The runs of a text that starts with a run: this one, and those behind the character that ends
it. -/
theorem isRun_append_iff {start : Nat} {first rest : List (Char × Bool)} {w : ClassWord}
    (hfirst : ∀ p ∈ first, partsWords p = false) (hrest : ∀ p ∈ rest.head?, partsWords p = true) :
    IsRun start (first ++ rest) w ↔
      (first ≠ [] ∧ w = ⟨⟨start, first.map Prod.fst⟩, first.any Prod.snd⟩) ∨
        ∃ p later, rest = p :: later ∧
          IsRun (start + byteLen (first.map Prod.fst) + p.1.utf8Size) later w := by
  have hclash : ∀ {p : Char × Bool}, partsWords p = false → partsWords p = true → False :=
    fun hfalse htrue => Bool.false_ne_true (hfalse.symm.trans htrue)
  constructor
  · rintro ⟨xs, run, ys, hsplit, hne, hrun, hbefore, hafter, rfl⟩
    rw [List.append_assoc] at hsplit
    rcases List.append_eq_append_iff.mp hsplit with ⟨as, rfl, hlater⟩ | ⟨bs, rfl, hlater⟩
    · cases as with
      | nil =>
        -- the run would start with a character that parts words
        obtain ⟨p, run, rfl⟩ := List.exists_cons_of_ne_nil hne
        rw [hlater] at hrest
        exact (hclash (hrun p List.mem_cons_self) (hrest p rfl)).elim
      | cons p as =>
        refine .inr ⟨p, as ++ (run ++ ys), hlater, as, run, ys, (List.append_assoc ..).symm, hne,
          hrun, fun q hq => hbefore q ?_, hafter, ?_⟩
        · rw [List.getLast?_append, List.getLast?_cons, Option.mem_def.mp hq]
          rfl
        · simp only [List.map_append, List.map_cons, byteLen_append, byteLen_cons, Nat.add_assoc]
    · -- nothing stands before the run, since the first characters do not part words
      obtain rfl : xs = [] := by
        cases hlast : xs.getLast? with
        | none => exact List.getLast?_eq_none_iff.mp hlast
        | some q =>
          have hq : q ∈ xs ++ bs := List.mem_append_left bs (List.mem_of_getLast? hlast)
          exact (hclash (hfirst q hq) (hbefore q hlast)).elim
      left
      rcases List.append_eq_append_iff.mp hlater with ⟨cs, rfl, rfl⟩ | ⟨cs, rfl, rfl⟩
      · cases cs with
        | nil => exact ⟨by simpa using hne, by simp⟩
        | cons q cs => exact (hclash (hfirst q (by simp)) (hafter q rfl)).elim
      · cases cs with
        | nil => exact ⟨by simpa using hne, by simp⟩
        | cons q cs => exact (hclash (hrun q (by simp)) (hrest q rfl)).elim
  · rintro (⟨hne, rfl⟩ | ⟨p, later, rfl, xs, run, ys, rfl, hne, hrun, hbefore, hafter, rfl⟩)
    · exact ⟨[], first, rest, rfl, hne, hfirst, by simp, hrest, rfl⟩
    · refine ⟨first ++ p :: xs, run, ys, by simp, hne, hrun, ?_, hafter, ?_⟩
      · intro q hq
        rw [List.getLast?_append, List.getLast?_cons] at hq
        cases hlast : xs.getLast? with
        | none =>
          rw [hlast] at hq
          cases hq
          exact hrest p rfl
        | some r =>
          rw [hlast] at hq
          cases hq
          exact hbefore r hlast
      · simp only [List.map_append, List.map_cons, byteLen_append, byteLen_cons, Nat.add_assoc]

/-- One step of cutting a value into words. -/
theorem classWordsFrom_cons (start : Nat) (word : List Char) (dynamic : Bool) (p : Char × Bool)
    (painted : List (Char × Bool)) :
    classWordsFrom start word dynamic (p :: painted) =
      if partsWords p = true then
        (if word = [] then [] else [⟨⟨start, word.reverse⟩, dynamic⟩]) ++
          classWordsFrom (start + byteLen word + 1) [] false painted
      else classWordsFrom start (p.1 :: word) (dynamic || p.2) painted := by
  rw [classWordsFrom]
  show (if partsWords p = true then _ else _) = _
  cases word <;> rfl

/-- With the characters of a first word read already, the words of a painted text are its runs. -/
theorem mem_classWordsFrom_iff (start : Nat) (first painted : List (Char × Bool)) {w : ClassWord}
    (hfirst : ∀ p ∈ first, partsWords p = false) :
    w ∈ classWordsFrom start (first.map Prod.fst).reverse (first.any Prod.snd) painted ↔
      IsRun start (first ++ painted) w := by
  induction painted generalizing start first with
  | nil =>
    rw [isRun_append_iff hfirst (by simp), classWordsFrom]
    cases first <;> simp
  | cons p painted ih =>
    rw [classWordsFrom_cons]
    by_cases hparts : partsWords p = true
    · -- a blank is one byte, which is what the next word's offset counts
      have hsize : p.1.utf8Size = 1 := utf8Size_of_isAsciiBlank (Bool.and_eq_true_iff.mp hparts).1
      have hlater : w ∈ classWordsFrom (start + byteLen (first.map Prod.fst) + 1) [] false painted ↔
          ∃ q later, p :: painted = q :: later ∧
            IsRun (start + byteLen (first.map Prod.fst) + q.1.utf8Size) later w := by
        have hnext := ih (start + byteLen (first.map Prod.fst) + 1) [] (List.forall_mem_nil _)
        refine hnext.trans ⟨fun hrun => ⟨p, painted, rfl, ?_⟩, ?_⟩
        · rw [hsize]
          exact hrun
        · rintro ⟨q, later, heq, hrun⟩
          cases heq
          rw [hsize] at hrun
          exact hrun
      rw [isRun_append_iff hfirst (by simpa using hparts), if_pos hparts, List.mem_append,
        byteLen_reverse, hlater]
      cases first <;> simp
    · rw [if_neg hparts]
      have hmore := ih start (first ++ [p]) fun q hq => by
        rcases List.mem_append.mp hq with hq | hq
        · exact hfirst q hq
        · rw [List.mem_singleton.mp hq]
          exact Bool.not_eq_true _ ▸ hparts
      rw [List.append_assoc, List.singleton_append, List.map_append, List.reverse_append,
        List.any_append] at hmore
      rw [← hmore]
      simp

/-- The words of a value follow each other, with something between them. -/
theorem classWordsFrom_ordered (start : Nat) (word : List Char) (dynamic : Bool)
    (painted : List (Char × Bool)) :
    (classWordsFrom start word dynamic painted).Pairwise
        (fun w later => w.slice.stop < later.slice.offset) ∧
      ∀ w ∈ classWordsFrom start word dynamic painted, start ≤ w.slice.offset := by
  induction painted generalizing start word dynamic with
  | nil =>
    rw [classWordsFrom]
    split
    · exact ⟨.nil, fun w hw => absurd hw List.not_mem_nil⟩
    · refine ⟨List.pairwise_singleton _ _, fun w hw => ?_⟩
      rw [List.mem_singleton.mp hw]
  | cons p painted ih =>
    rw [classWordsFrom_cons]
    split
    · obtain ⟨hordered, hfrom⟩ := ih (start + byteLen word + 1) [] false
      -- between two words stands at least the blank
      have hlater : ∀ w ∈ classWordsFrom (start + byteLen word + 1) [] false painted,
          start + byteLen word < w.slice.offset := fun w hw => hfrom w hw
      split
      · exact ⟨hordered, fun w hw => by have := hlater w hw; omega⟩
      · refine ⟨List.pairwise_cons.mpr ⟨fun w hw => ?_, hordered⟩, fun w hw => ?_⟩
        · show start + byteLen word.reverse < w.slice.offset
          rw [byteLen_reverse]
          exact hlater w hw
        · rcases List.mem_cons.mp hw with rfl | hw
          · exact Nat.le_refl start
          · have := hlater w hw
            omega
    · exact ih start (p.1 :: word) (dynamic || p.2)

/-! ### Words of a value -/

namespace Slice

/-- `value.PartsWordsAt offset`: at the offset, the class value has an ASCII blank that is in none
of its placeholders. -/
def PartsWordsAt (value : Slice) (offset : Nat) : Prop :=
  ∃ before c after, value.text = before ++ c :: after ∧ offset = value.offset + byteLen before ∧
    isAsciiBlank c = true ∧ ∀ span ∈ Placeholder.all value, ¬span.Covers offset

/-- `w.IsWordOf value`: the slice is a longest piece of the class value in which no character parts
words. -/
structure IsWordOf (w value : Slice) : Prop where
  inside : w.Inside value
  nonempty : w.text ≠ []
  whole : ∀ offset, value.PartsWordsAt offset → ¬w.Covers offset
  starts : w.offset = value.offset ∨ ∃ offset, value.PartsWordsAt offset ∧ w.offset = offset + 1
  ends : w.stop = value.stop ∨ value.PartsWordsAt w.stop

variable {value : Slice} {xs ys : List (Char × Bool)} {p : Char × Bool}

/-- A word does not end next to a placeholder: if it touches one, they share a byte. -/
theorem IsWordOf.overlaps_of_touches {w span : Slice} (h : w.IsWordOf value)
    (hspan : span ∈ Placeholder.all value) (htouches : w.touches span = true) :
    w.Overlaps span := by
  obtain ⟨hle, hge⟩ := touches_iff.mp htouches
  have hbounds := (Placeholder.inside_of_mem_all hspan).bounds
  have hlong : span.offset < span.stop := by
    obtain ⟨c, cs, hcs⟩ := List.exists_cons_of_ne_nil (Placeholder.text_ne_nil_of_mem_all hspan)
    have hpos := c.utf8Size_pos
    simp only [stop, hcs, byteLen_cons]
    omega
  -- a blank that parts words is in no placeholder
  have hapart : ∀ offset, value.PartsWordsAt offset →
      offset < span.offset ∨ span.stop ≤ offset := by
    rintro offset ⟨_, _, _, _, _, _, hout⟩
    have hnot := hout span hspan
    unfold Covers at hnot
    omega
  constructor
  · rcases h.starts with hstart | ⟨offset, hparts, hstart⟩
    · omega
    · have := hapart offset hparts
      omega
  · rcases h.ends with hend | hparts
    · omega
    · have := hapart w.stop hparts
      omega

/-- How a character of a value is painted. -/
theorem paintedRight_of_paint (h : Placeholder.paint value.text = xs ++ p :: ys) :
    Placeholder.PaintedRight (Placeholder.all value) (value.offset + byteLen (xs.map Prod.fst)) p
      (ys.map Prod.fst) :=
  Placeholder.paintedRight_of_paintFrom (.start value) h

theorem text_eq_of_paint (h : Placeholder.paint value.text = xs ++ p :: ys) :
    value.text = xs.map Prod.fst ++ p.1 :: ys.map Prod.fst := by
  have hfst := congrArg (List.map Prod.fst) h
  rw [Placeholder.paint, Placeholder.map_fst_paintFrom] at hfst
  simpa using hfst

/-- A character parts words if it is painted so. -/
theorem partsWordsAt_iff (h : Placeholder.paint value.text = xs ++ p :: ys) :
    value.PartsWordsAt (value.offset + byteLen (xs.map Prod.fst)) ↔ partsWords p = true := by
  have hright := paintedRight_of_paint h
  have htext := text_eq_of_paint h
  have hpainted : p.2 = false ↔ ∀ span ∈ Placeholder.all value,
      ¬span.Covers (value.offset + byteLen (xs.map Prod.fst)) := by
    rw [← Bool.not_eq_true, hright.inside_iff]
    push Not
    rfl
  rw [partsWords, Bool.and_eq_true, Bool.not_eq_true', hpainted]
  constructor
  · rintro ⟨before, c, after, hsplit, hplace, hblank, hout⟩
    obtain ⟨_, hrest⟩ := append_inj_of_byteLen_eq (htext.symm.trans hsplit) (by omega)
    rw [(List.cons.inj hrest).1]
    exact ⟨hblank, hout⟩
  · rintro ⟨hblank, hout⟩
    exact ⟨_, p.1, _, htext, rfl, hblank, hout⟩

end Slice

/-- A character of a painted text whose place is in a run is one of the run. -/
theorem exists_of_place_in_run {xs run ys us vs : List (Char × Bool)} {p : Char × Bool}
    (h : xs ++ run ++ ys = us ++ p :: vs)
    (hle : byteLen (xs.map Prod.fst) ≤ byteLen (us.map Prod.fst))
    (hlt : byteLen (us.map Prod.fst) < byteLen (xs.map Prod.fst) + byteLen (run.map Prod.fst)) :
    ∃ front back, run = front ++ p :: back ∧ us = xs ++ front := by
  have hpos := p.1.utf8Size_pos
  -- the place does not lie before the run
  have hbehind : ∃ front, us = xs ++ front ∧ run ++ ys = front ++ p :: vs := by
    rw [List.append_assoc] at h
    rcases List.append_eq_append_iff.mp h with ⟨front, hus, hrest⟩ | ⟨extra, hxs, hrest⟩
    · exact ⟨front, hus, hrest⟩
    · cases extra with
      | nil => exact ⟨[], by simpa using hxs.symm, hrest.symm⟩
      | cons q extra =>
        obtain ⟨rfl, _⟩ := List.cons.inj hrest
        simp only [hxs, List.map_append, List.map_cons, byteLen_append, byteLen_cons] at hle
        omega
  obtain ⟨front, rfl, hrest⟩ := hbehind
  simp only [List.map_append, byteLen_append] at hlt
  rcases List.append_eq_append_iff.mp hrest with ⟨extra, rfl, _⟩ | ⟨back, rfl, hback⟩
  · simp only [List.map_append, byteLen_append] at hlt
    omega
  · cases back with
    | nil => simp at hlt
    | cons q back =>
      obtain ⟨rfl, _⟩ := List.cons.inj hback
      exact ⟨front, back, rfl, rfl⟩

namespace IsRun

variable {value : Slice} {w : ClassWord}

/-- A run of a value is a word of it. -/
theorem isWordOf (h : IsRun value.offset (Placeholder.paint value.text) w) :
    w.slice.IsWordOf value := by
  obtain ⟨xs, run, ys, hpaint, hne, hrun, hbefore, hafter, rfl⟩ := h
  have htext : value.text = xs.map Prod.fst ++ run.map Prod.fst ++ ys.map Prod.fst := by
    have hfst := congrArg (List.map Prod.fst) hpaint
    rw [Placeholder.paint, Placeholder.map_fst_paintFrom] at hfst
    simpa using hfst
  refine ⟨⟨xs.map Prod.fst, ys.map Prod.fst, htext, rfl⟩, by simpa using hne, ?_, ?_, ?_⟩
  · -- a character that parts words is not one of the run
    rintro offset hparts ⟨hle, hlt⟩
    obtain ⟨before, c, after, hsplit, rfl, _⟩ := id hparts
    obtain ⟨us, inside, vs, hat, rfl, _⟩ := Placeholder.exists_paint_of_split hsplit
    simp only [Slice.stop] at hle hlt
    obtain ⟨front, back, rfl, _⟩ :=
      exists_of_place_in_run (hpaint.symm.trans hat) (by omega) (by omega)
    have hin := hrun (c, inside) (by simp)
    rw [(Slice.partsWordsAt_iff hat).mp hparts] at hin
    exact absurd hin (by decide)
  · cases hlast : xs.getLast? with
    | none =>
      rw [List.getLast?_eq_none_iff.mp hlast]
      exact .inl rfl
    | some q =>
      obtain ⟨xs, rfl⟩ := List.getLast?_eq_some_iff.mp hlast
      have hparts := hbefore q hlast
      have hsize := utf8Size_of_isAsciiBlank (Bool.and_eq_true_iff.mp hparts).1
      rw [List.append_assoc, List.append_assoc, List.singleton_append] at hpaint
      refine .inr ⟨_, (Slice.partsWordsAt_iff hpaint).mpr hparts, ?_⟩
      simp only [List.map_append, List.map_cons, List.map_nil, byteLen_append, byteLen_cons, hsize,
        byteLen_nil]
      omega
  · cases ys with
    | nil =>
      left
      simp only [Slice.stop, htext, List.map_nil, byteLen_append, byteLen_nil]
      omega
    | cons q ys =>
      have hplace := (Slice.partsWordsAt_iff hpaint).mpr (hafter q rfl)
      rw [List.map_append, byteLen_append, ← Nat.add_assoc] at hplace
      exact .inr hplace

/-- A run is painted somewhere if it touches a placeholder. -/
theorem dynamic_iff (h : IsRun value.offset (Placeholder.paint value.text) w) :
    w.dynamic = true ↔ ∃ span ∈ Placeholder.all value, w.slice.touches span = true := by
  have hword := h.isWordOf
  obtain ⟨xs, run, ys, hpaint, hne, hrun, hbefore, hafter, rfl⟩ := h
  constructor
  · intro hdynamic
    obtain ⟨p, hp, hinside⟩ := List.any_eq_true.mp hdynamic
    obtain ⟨front, back, rfl⟩ := List.append_of_mem hp
    have hat : Placeholder.paint value.text = (xs ++ front) ++ p :: (back ++ ys) := by
      rw [hpaint]
      simp
    obtain ⟨span, hspan, hle, hlt⟩ := (Slice.paintedRight_of_paint hat).inside_iff.mp hinside
    refine ⟨span, hspan, Slice.touches_iff.mpr ?_⟩
    simp only [List.map_append, List.map_cons, byteLen_append, byteLen_cons, Slice.stop]
      at hle hlt ⊢
    omega
  · rintro ⟨span, hspan, htouches⟩
    obtain ⟨hfrom, hto⟩ := hword.overlaps_of_touches hspan htouches
    simp only [Slice.stop] at hfrom hto
    have hpainted : ∀ us p vs, Placeholder.paint value.text = us ++ p :: vs →
        span.Covers (value.offset + byteLen (us.map Prod.fst)) →
        byteLen (xs.map Prod.fst) ≤ byteLen (us.map Prod.fst) →
        byteLen (us.map Prod.fst) < byteLen (xs.map Prod.fst) + byteLen (run.map Prod.fst) →
        run.any Prod.snd = true := by
      intro us p vs hat hcovers hle hlt
      obtain ⟨front, back, rfl, _⟩ := exists_of_place_in_run (hpaint.symm.trans hat) hle hlt
      have hinside := (Slice.paintedRight_of_paint hat).inside_iff.mpr ⟨span, hspan, hcovers⟩
      exact List.any_eq_true.mpr ⟨p, by simp, hinside⟩
    -- the first character that the two have in common
    by_cases hfirst : span.offset ≤ value.offset + byteLen (xs.map Prod.fst)
    · obtain ⟨p, run, rfl⟩ := List.exists_cons_of_ne_nil hne
      have hpos := p.1.utf8Size_pos
      rw [List.append_assoc] at hpaint
      refine hpainted xs p (run ++ ys) hpaint ⟨hfirst, hfrom⟩ (Nat.le_refl _) ?_
      simp only [List.map_cons, byteLen_cons]
      omega
    · obtain ⟨before, after, htext, hoffset⟩ := Placeholder.inside_of_mem_all hspan
      obtain ⟨c, cs, hcs⟩ := List.exists_cons_of_ne_nil (Placeholder.text_ne_nil_of_mem_all hspan)
      have hpos := c.utf8Size_pos
      rw [hcs, List.append_assoc] at htext
      obtain ⟨us, inside, vs, hat, rfl, _⟩ := Placeholder.exists_paint_of_split htext
      refine hpainted us (c, inside) vs hat ⟨by omega, ?_⟩ (by omega) (by omega)
      simp only [Slice.stop, hcs, byteLen_cons]
      omega

end IsRun

/-- A word of a value is a run of it. -/
theorem Slice.IsWordOf.exists_isRun {w value : Slice} (h : w.IsWordOf value) :
    ∃ dynamic, IsRun value.offset (Placeholder.paint value.text) ⟨w, dynamic⟩ := by
  obtain ⟨before, after, htext, hoffset⟩ := h.inside
  have hfst : (Placeholder.paint value.text).map Prod.fst = before ++ w.text ++ after := by
    rw [Placeholder.paint, Placeholder.map_fst_paintFrom]
    exact htext
  obtain ⟨front, ys, hfront, hword, rfl⟩ := List.map_eq_append_iff.mp hfst
  obtain ⟨xs, run, rfl, rfl, hrun⟩ := List.map_eq_append_iff.mp hword
  refine ⟨run.any Prod.snd, xs, run, ys, hfront, ?_, fun p hp => ?_, fun q hq => ?_,
    fun q hq => ?_, ?_⟩
  · rintro rfl
    exact h.nonempty hrun.symm
  · -- a blank outside of placeholders would part the word
    obtain ⟨r, s, rfl⟩ := List.append_of_mem hp
    have hat : Placeholder.paint value.text = (xs ++ r) ++ p :: (s ++ ys) := by
      rw [hfront]
      simp
    refine Bool.eq_false_iff.mpr fun hparts => h.whole _ ((partsWordsAt_iff hat).mpr hparts) ?_
    have hpos := p.1.utf8Size_pos
    simp only [Covers, stop, ← hrun, hoffset, List.map_append, List.map_cons, byteLen_append,
      byteLen_cons]
    omega
  · obtain ⟨xs, rfl⟩ := List.getLast?_eq_some_iff.mp hq
    rw [List.append_assoc, List.append_assoc, List.singleton_append] at hfront
    have hpos := q.1.utf8Size_pos
    simp only [List.map_append, List.map_cons, List.map_nil, byteLen_append, byteLen_cons,
      byteLen_nil] at hoffset
    rcases h.starts with hstart | ⟨offset, hparts, hstart⟩
    · omega
    · -- the last character before the word is the one that parts it
      obtain ⟨us, c, vs, hsplit, hplace, hblank, _⟩ := id hparts
      have hsize := utf8Size_of_isAsciiBlank hblank
      have htwo : (us ++ [c]) ++ vs = (xs.map Prod.fst ++ [q.1]) ++ (run ++ ys).map Prod.fst := by
        rw [List.append_assoc, List.append_assoc]
        exact hsplit.symm.trans (text_eq_of_paint hfront)
      have hbytes : byteLen (us ++ [c]) = byteLen (xs.map Prod.fst ++ [q.1]) := by
        simp only [byteLen_append, byteLen_cons, byteLen_nil, hsize]
        omega
      have hus := (List.append_inj' (append_inj_of_byteLen_eq htwo hbytes).1 rfl).1
      rw [hplace, hus] at hparts
      exact (partsWordsAt_iff hfront).mp hparts
  · obtain ⟨ys, rfl⟩ := List.head?_eq_some_iff.mp hq
    have hpos := q.1.utf8Size_pos
    have hstop : w.stop = value.offset + byteLen ((xs ++ run).map Prod.fst) := by
      rw [stop, hoffset, ← hrun, List.map_append, byteLen_append, Nat.add_assoc]
    rcases h.ends with hend | hparts
    · rw [stop, stop, htext, hoffset] at hend
      simp only [List.map_cons, byteLen_append, byteLen_cons] at hend
      omega
    · rw [hstop] at hparts
      exact (partsWordsAt_iff hfront).mp hparts
  · rw [hrun, ← hoffset]

/-- The words that a value is cut into are its words, in order, each marked if it touches a
placeholder. -/
theorem classWords_spec (value : Slice) :
    (∀ w, w ∈ (classWords value).map ClassWord.slice ↔ w.IsWordOf value) ∧
      (classWords value).Pairwise (fun w later => w.slice.stop < later.slice.offset) ∧
      ∀ w ∈ classWords value, w.dynamic = (Placeholder.all value).any w.slice.touches := by
  have hmem : ∀ w, w ∈ classWords value ↔ IsRun value.offset (Placeholder.paint value.text) w :=
    fun w => mem_classWordsFrom_iff value.offset [] _ (List.forall_mem_nil _)
  refine ⟨fun w => ⟨fun hw => ?_, fun hw => ?_⟩, (classWordsFrom_ordered _ _ _ _).1, fun w hw => ?_⟩
  · obtain ⟨found, hfound, rfl⟩ := List.mem_map.mp hw
    exact ((hmem found).mp hfound).isWordOf
  · obtain ⟨dynamic, hrun⟩ := hw.exists_isRun
    exact List.mem_map.mpr ⟨_, (hmem _).mpr hrun, rfl⟩
  · rw [Bool.eq_iff_iff, ((hmem w).mp hw).dynamic_iff, List.any_eq_true]

/-! ### Names of a value -/

/-- The name that a slice holds between padding: it is not empty and holds no blanks. -/
def strippedName? (s : Slice) : Option Slice :=
  let name := s.trim isNamePadding
  if name.text.isEmpty || name.text.any isBlank then none else some name

/-- Away from the placeholders of a value there is nothing else to look for. -/
theorem singleName?_of_apart {w value : Slice} (hin : w.Inside value)
    (h : ∀ span ∈ Placeholder.all value, ¬w.Overlaps span) : singleName? w = strippedName? w := by
  have hname := Slice.inside_trim isNamePadding w
  have hnone : Placeholder.all (w.trim isNamePadding) = [] := by
    refine Placeholder.all_eq_nil_of_apart (hname.trans hin) fun span hspan hover => h span hspan ?_
    have hbounds := hname.bounds
    unfold Slice.Overlaps at hover ⊢
    omega
  simp only [singleName?, strippedName?, hnone, List.isEmpty_nil, Bool.not_true, Bool.or_false]

/-- A word that touches no placeholder shares no character with one. -/
theorem apart_of_not_touches {w value : Slice}
    (h : (!(Placeholder.all value).any w.touches) = true) :
    ∀ span ∈ Placeholder.all value, ¬w.Overlaps span := by
  rintro span hspan ⟨hfrom, hto⟩
  rw [Bool.not_eq_true', List.any_eq_false] at h
  exact h span hspan (Slice.touches_iff.mpr ⟨Nat.le_of_lt hfrom, Nat.le_of_lt hto⟩)

/-- The names outside the literals are the words that touch no placeholder. -/
theorem names_of_classWords (value : Slice) :
    ((classWords value).filter fun w => !w.dynamic).filterMap (fun w => singleName? w.slice) =
      (((classWords value).map ClassWord.slice).filter fun w =>
        !(Placeholder.all value).any w.touches).filterMap strippedName? := by
  obtain ⟨hwords, _, hdynamic⟩ := classWords_spec value
  rw [List.filter_map, List.filterMap_map]
  have hfilter : (classWords value).filter (fun w => !w.dynamic) =
      (classWords value).filter
        ((fun w => !(Placeholder.all value).any w.touches) ∘ ClassWord.slice) :=
    List.filter_congr fun w hw => congrArg (!·) (hdynamic w hw)
  rw [hfilter]
  refine List.filterMap_congr fun w hw => ?_
  obtain ⟨hmem, hapart⟩ := List.mem_filter.mp hw
  have hin := ((hwords w.slice).mp (List.mem_map_of_mem hmem)).inside
  exact singleName?_of_apart hin (apart_of_not_touches hapart)

/-! ### Literals in placeholders -/

namespace Script

/-- What closes the outermost literal is its quote. -/
theorem head?_closeFrom {quote : Char} {frame : Frame} {outer : List Frame} {cs : List Char}
    (h : (frame :: outer).getLast? = some (.quoted quote)) :
    ∀ c ∈ (closeFrom frame outer cs).2.head?, c = quote := by
  fun_induction closeFrom frame outer cs with
  | case1 | case2 => exact fun c hc => absurd hc (by simp)
  | case5 c cs =>
    intro d hd
    cases h
    exact (Option.some.inj hd).symm
  | case9 => exact absurd h (by simp)
  | case3 _ _ _ _ ih | case4 _ _ _ _ _ _ _ ih | case6 _ _ _ _ _ _ _ ih | case7 _ _ _ _ _ _ _ _ ih
  | case10 _ _ _ _ _ _ _ _ ih | case12 _ _ _ _ _ _ _ ih | case13 _ _ _ _ _ _ _ ih =>
    exact ih (by simpa [List.getLast?_cons] using h)
  | case8 depth outer _ _ _ ih | case11 depth outer _ _ _ _ _ ih =>
    -- the number of open brackets does not matter, but there is a construct around them
    cases outer with
    | nil => exact absurd h (by simp)
    | cons frame frames => exact ih (by simpa [List.getLast?_cons] using h)

/-- `literal.IsQuotedIn s`: the body stands in the slice between the quote and another one, or
between the quote and the end. -/
def Literal.IsQuotedIn (literal : Literal) (s : Slice) : Prop :=
  ∃ before after, s.text = before ++ literal.quote :: (literal.body.text ++ after) ∧
    literal.body.offset = s.offset + byteLen before + 1 ∧ Mask.isQuote literal.quote = true ∧
    ∀ c ∈ after.head?, c = literal.quote

/-- A literal stands between quotes, the second of which may be missing. -/
theorem isQuotedIn_of_mem_literals {s : Slice} {literal : Literal} (h : literal ∈ literals s) :
    literal.IsQuotedIn s := by
  obtain ⟨cur, taken, hr, hin, hne⟩ := Recogniser.mem_findAll h
  obtain ⟨found, hfound, heq⟩ := Option.map_eq_some_iff.mp hr
  cases heq
  obtain ⟨htext, hoffset⟩ := hin
  cases hrest : cur.rest with
  | nil => exact absurd hrest hne
  | cons c cs =>
    simp only [literalAt?, Cursor.toSlice, hrest] at hfound
    split at hfound
    · next hquote =>
      cases hfound
      refine ⟨cur.before.reverse, (closeFrom (.quoted c) [] cs).2, ?_, ?_, hquote,
        head?_closeFrom rfl⟩
      · rw [← quotedText_append, ← hrest]
        exact htext.symm
      · show cur.offset + 1 = _
        rw [hoffset, byteLen_reverse]
    · exact absurd hfound (by simp)

end Script

/-- A stripped name lies inside its word. -/
theorem inside_of_strippedName? {w name : Slice} (h : strippedName? w = some name) :
    name.Inside w := by
  simp only [strippedName?] at h
  split at h
  · exact absurd h (by simp)
  · rw [← Option.some.inj h]
    exact Slice.inside_trim isNamePadding w

/-- A piece of a placeholder overlaps no other one. -/
theorem Placeholder.eq_of_overlaps {value span other name : Slice} (hspan : span ∈ all value)
    (hother : other ∈ all value) (hin : name.Inside other) (hover : name.Overlaps span) :
    other = span := by
  by_contra hne
  have hapart : (all value).Pairwise fun s t => s.stop ≤ t.offset ∨ t.stop ≤ s.offset :=
    (all_ordered value).imp .inl
  have : Std.Symm fun s t : Slice => s.stop ≤ t.offset ∨ t.stop ≤ s.offset := ⟨fun _ _ => Or.symm⟩
  have htwo := hapart.forall hother hspan hne
  have hbounds := hin.bounds
  unfold Slice.Overlaps at hover
  omega

/-- The placeholders of a class value lie in it one after the other. The names of the value are
first, in order, what the words that touch no placeholder hold between padding: a word is a longest
piece without an ASCII blank outside the placeholders. What follows are names in quoted literals of
the placeholders, and no other name overlaps a placeholder. -/
theorem classNames_of_words (value : Slice) :
    ((Placeholder.all value).Pairwise (fun span later => span.stop ≤ later.offset) ∧
      ∀ span ∈ Placeholder.all value, span.Inside value ∧ span.text ≠ []) ∧
    (∃ words : List Slice, (∀ w, w ∈ words ↔ w.IsWordOf value) ∧
      words.Pairwise (fun w later => w.stop < later.offset) ∧
      classNames value =
        (words.filter fun w => !(Placeholder.all value).any w.touches).filterMap strippedName? ++
          (Placeholder.all value).flatMap fun span =>
            (Script.literals span).flatMap fun literal => classNames literal.body) ∧
    (∀ span ∈ Placeholder.all value, ∀ literal ∈ Script.literals span,
      literal.IsQuotedIn span ∧ ∀ name ∈ classNames literal.body, name.Inside literal.body) ∧
    ∀ name ∈ classNames value, ∀ span ∈ Placeholder.all value, name.Overlaps span →
      ∃ literal ∈ Script.literals span, name ∈ classNames literal.body := by
  obtain ⟨hwords, hordered, _⟩ := classWords_spec value
  have hspans := Placeholder.all_ordered value
  have hnames : classNames value = _ ++ _ := Bytes.classNames_eq_append value
  rw [names_of_classWords] at hnames
  refine ⟨⟨hspans, fun span hspan => ⟨Placeholder.inside_of_mem_all hspan,
    Placeholder.text_ne_nil_of_mem_all hspan⟩⟩, ⟨_, hwords, List.pairwise_map.mpr hordered, hnames⟩,
    fun span _ literal hliteral => ⟨Script.isQuotedIn_of_mem_literals hliteral,
      fun name hname => (inside_of_mem_classNames hname).1⟩, fun name hname span hspan hover => ?_⟩
  rw [hnames] at hname
  rcases List.mem_append.mp hname with hstatic | hnested
  · -- a word away from the placeholders
    obtain ⟨w, hw, hname⟩ := List.mem_filterMap.mp hstatic
    have hapart := apart_of_not_touches (List.mem_filter.mp hw).2 span hspan
    have hbounds := (inside_of_strippedName? hname).bounds
    unfold Slice.Overlaps at hover hapart
    omega
  · obtain ⟨other, hother, hliterals⟩ := List.mem_flatMap.mp hnested
    obtain ⟨literal, hliteral, hname⟩ := List.mem_flatMap.mp hliterals
    have hin := (inside_of_mem_classNames hname).1.trans (Script.inside_of_mem_literals hliteral)
    -- placeholders do not overlap, so the name is in this one
    obtain rfl := Placeholder.eq_of_overlaps hspan hother hin hover
    exact ⟨literal, hliteral, hname⟩

end StyleAudit
