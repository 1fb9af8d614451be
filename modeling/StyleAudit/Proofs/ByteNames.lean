import StyleAudit.Proofs.BytePlaceholders

/-!
# Names in values by byte offsets

The names that a value lists, read by byte offsets. A literal inside a placeholder is a value of its
own; the induction of `classNames_eq` is on the length of the value.
-/

namespace StyleAudit.Bytes

open Text

variable {text cs : List Char} {base start i : Nat} {c : Char} {spans : List Range}

/-! ### What a scan yields -/

/-- `Yields base found refs`: the scan does not fail, and its references are `refs` when they are
seen from a text that starts `base` bytes earlier. -/
def Yields (base : Nat) (found : Option (List Reference)) (refs : List Reference) : Prop :=
  found.map (List.map (Reference.shift base)) = some refs

theorem yields_nil (base : Nat) : Yields base (some []) [] := rfl

/-- Two searches one after the other find what both find. -/
theorem Yields.append {x y : Option (List Reference)} {xs ys : List Reference}
    (hx : Yields base x xs)
    (hy : Yields base y ys) :
    Yields base (x.bind fun a => y.bind fun b => some (a ++ b)) (xs ++ ys) := by
  obtain ⟨a, rfl, rfl⟩ := Option.map_eq_some_iff.mp hx
  obtain ⟨b, rfl, rfl⟩ := Option.map_eq_some_iff.mp hy
  exact congrArg some List.map_append

/-- One scan for each item of a list. -/
theorem yields_mapM {α β : Type} {R : α → β → Prop} {f : α → Option (List Reference)}
    {g : β → List Reference} {as : List α} {bs : List β} (h : List.Forall₂ R as bs)
    (hf : ∀ a, ∀ b ∈ bs, R a b → Yields base (f a) (g b)) :
    Yields base ((as.mapM f).bind fun found => some found.flatten) (bs.flatMap g) := by
  induction h with
  | nil => exact yields_nil base
  | @cons a b as bs hab _ ih =>
    have hrest := ih fun a b hb => hf a b (List.mem_cons_of_mem _ hb)
    obtain ⟨first, hfirst, hmap⟩ := Option.map_eq_some_iff.mp (hf a b List.mem_cons_self hab)
    obtain ⟨later, hlater, hmap'⟩ := Option.map_eq_some_iff.mp hrest
    obtain ⟨found, hfound, hflatten⟩ := Option.bind_eq_some_iff.mp hlater
    rw [← Option.some.inj hflatten] at hmap'
    rw [List.mapM_cons, hfirst, hfound, List.flatMap_cons, ← hmap, ← hmap']
    exact congrArg some List.map_append

theorem isEmpty_of_forall₂ {α β : Type} {R : α → β → Prop} {as : List α} {bs : List β}
    (h : List.Forall₂ R as bs) : as.isEmpty = bs.isEmpty := by
  cases h with
  | nil => rfl
  | cons _ _ => rfl

/-! ### Single names -/

/-- A single name is trimmed, and left out for its placeholders, alike by bytes and by
characters. -/
theorem singleName_eq {range : Range} {raw : List Char} {offset : Nat} (kind : NameKind)
    (site : ReferenceSite) (h : slice? text range.start range.stop = some raw)
    (hoffset : base + (start + range.start) = offset) :
    Yields base (singleName text range start kind site)
      ((singleName? ⟨offset, raw⟩).toList.map (Reference.ofSlice kind site)) := by
  have htrim : (⟨offset, raw⟩ : Slice).trim isNamePadding =
      ⟨offset + byteLen (raw.takeWhile isNamePadding), trim isNamePadding raw⟩ := rfl
  obtain ⟨found, hfound, hrel⟩ :=
    placeholders_eq (offset + byteLen (raw.takeWhile isNamePadding)) (trim isNamePadding raw)
  have hempty : found.isEmpty = (Placeholder.all
      ⟨offset + byteLen (raw.takeWhile isNamePadding), trim isNamePadding raw⟩).isEmpty :=
    isEmpty_of_forall₂ hrel
  rw [singleName, h, singleName?, htrim]
  simp only [Option.bind_eq_bind, Option.bind_some]
  rw [hfound, Option.bind_some, hempty]
  split
  · exact yields_nil base
  · rw [byteLen_sub_trimLeft, ← hoffset, show
      base + (start + range.start) + byteLen (raw.takeWhile isNamePadding) =
        base + (start + range.start + byteLen (raw.takeWhile isNamePadding)) from by omega]
    rfl

/-! ### Words -/

theorem wordEnd_of_le {dynamic : Bool} (h : byteLen text ≤ i) :
    wordEnd text spans dynamic i = some (i, dynamic) := by
  rw [wordEnd, if_neg (by omega)]
  rfl

/-- One step of the search for the end of a word. -/
theorem wordEnd_of_byteAt? {dynamic : Bool} {b : Char} (h : byteAt? text i = some b) :
    wordEnd text spans dynamic i =
      if isAsciiBlank b then some (i, dynamic)
      else match spans.find? fun span => span.start == i with
        | some span => jump? i span.stop fun _ => wordEnd text spans true span.stop
        | none => wordEnd text spans dynamic (i + 1) := by
  rw [wordEnd, if_pos (lt_of_byteAt? h), h]
  rfl

theorem find?_start_eq_none (h : ∀ span ∈ spans, span.start ≠ i) :
    (spans.find? fun span => span.start == i) = none := by
  rw [List.find?_eq_none]
  intro span hspan
  rw [beq_iff_eq]
  exact h span hspan

/-- `StartsSmall text spans`: each range starts with a character of one byte. -/
def StartsSmall (text : List Char) (spans : List Range) : Prop :=
  ∀ span ∈ spans, ∃ b, byteAt? text span.start = some b ∧ b.utf8Size = 1

/-- The later bytes of a wide character are passed over: no placeholder starts there. -/
theorem passes_wordEnd (hspans : StartsSmall text spans) (dynamic : Bool) :
    Passes text (fun b => b.utf8Size ≠ 1) (wordEnd text spans dynamic) where
  wide _ hb := hb
  step j b hbyte hb := by
    have hnone : (spans.find? fun span => span.start == j) = none := by
      refine find?_start_eq_none fun span hspan hstart => ?_
      obtain ⟨b', hbyte', hb'⟩ := hspans span hspan
      rw [hstart, hbyte, Option.some.injEq] at hbyte'
      exact hb (hbyte' ▸ hb')
    have hblank : isAsciiBlank b = false :=
      eq_false_of_utf8Size (fun _ => utf8Size_of_isAsciiBlank) hb
    rw [wordEnd_of_byteAt? hbyte, hblank, if_neg Bool.false_ne_true, hnone]

/-- A character that is no blank and starts no placeholder belongs to the word. -/
theorem wordEnd_of_none {dynamic : Bool} (hspans : StartsSmall text spans) (h : At text i (c :: cs))
    (hc : isAsciiBlank c = false) (hnone : ∀ span ∈ spans, span.start ≠ i) :
    wordEnd text spans dynamic i = wordEnd text spans dynamic (i + c.utf8Size) := by
  by_cases hsize : c.utf8Size = 1
  · rw [wordEnd_of_byteAt? (h.byteAt? hsize), hc, if_neg Bool.false_ne_true,
      find?_start_eq_none hnone, hsize]
  · exact (passes_wordEnd hspans dynamic).char h hsize

/-- No placeholder starts at a blank. -/
theorem length?_of_isAsciiBlank (h : At text i (c :: cs)) (hc : isAsciiBlank c = true) :
    Placeholder.length? (c :: cs) = none := by
  cases hn : Placeholder.length? (c :: cs) with
  | none => rfl
  | some n =>
    obtain ⟨_, hblank, _⟩ := placeholdersFrom_of_some h hn
    rw [hc] at hblank
    exact absurd hblank (by decide)

/-- A placeholder is taken into the word, blanks and all, and makes the word dynamic. -/
theorem classWordsFrom_inside (offset : Nat) (word xs : List Char) (dynamic : Bool)
    (painted : List (Char × Bool)) :
    classWordsFrom offset word dynamic (xs.map (·, true) ++ painted) =
      classWordsFrom offset (xs.reverse ++ word) (dynamic || !xs.isEmpty) painted := by
  induction xs generalizing word dynamic with
  | nil =>
    rw [List.map_nil, List.nil_append, List.reverse_nil, List.nil_append, List.isEmpty_nil,
      Bool.not_true, Bool.or_false]
  | cons x xs ih =>
    rw [List.map_cons, List.cons_append, classWordsFrom, Bool.not_true, Bool.and_false,
      if_neg Bool.false_ne_true, ih, List.reverse_cons, List.append_assoc, Bool.or_true,
      Bool.true_or, List.isEmpty_cons, Bool.not_false, Bool.or_true]
    rfl

/-- A blank outside placeholders ends a word, and starts none. -/
theorem classWordsFrom_blank (offset : Nat) {word : List Char} (dynamic : Bool)
    (painted : List (Char × Bool)) (hword : word ≠ []) (hc : isAsciiBlank c = true) :
    classWordsFrom offset word dynamic ((c, false) :: painted) =
      ⟨⟨offset, word.reverse⟩, dynamic⟩ ::
        classWordsFrom (offset + byteLen word) [] false ((c, false) :: painted) := by
  have hcond : (isAsciiBlank c && !false) = true := by rw [hc]; rfl
  have hempty : ¬(word.isEmpty = true) := by
    rw [List.isEmpty_iff]
    exact hword
  rw [classWordsFrom, if_pos hcond]
  simp only
  rw [if_neg hempty, classWordsFrom, if_pos hcond]
  rfl

/-- `WordEnds text spans base start word dynamic i cs`: the scan over bytes comes to the end of a
word that started at `start` and of which `word` has been read, and it is the end that the scan over
characters comes to. -/
def WordEnds (text : List Char) (spans : List Range) (base start : Nat) (word : List Char)
    (dynamic : Bool) (i : Nat) (cs : List Char) : Prop :=
  ∃ stop dynamic' piece rest, wordEnd text spans dynamic i = some (stop, dynamic') ∧
    cs = piece ++ rest ∧ (word = [] → piece ≠ []) ∧ At text stop rest ∧ Ahead text spans stop ∧
    classWordsFrom (base + start) word dynamic (Placeholder.paintFrom 0 cs) =
      ⟨⟨base + start, word.reverse ++ piece⟩, dynamic'⟩ ::
        classWordsFrom (base + stop) [] false (Placeholder.paintFrom 0 rest)

namespace WordEnds

variable {word : List Char} {dynamic : Bool}

/-- A word ends with the text. -/
theorem of_nil (hword : word ≠ []) (h : At text i []) (hahead : Ahead text spans i) :
    WordEnds text spans base start word dynamic i [] := by
  have hempty : ¬(word.isEmpty = true) := by
    rw [List.isEmpty_iff]
    exact hword
  refine ⟨i, dynamic, [], [], wordEnd_of_le h.reaches.le, rfl, fun hnil => absurd hnil hword, h,
    hahead, ?_⟩
  rw [List.append_nil, Placeholder.paintFrom, classWordsFrom, if_neg hempty]
  rfl

/-- A word ends before a blank. -/
theorem of_blank (hword : word ≠ []) (h : At text i (c :: cs)) (hahead : Ahead text spans i)
    (hstart : start + byteLen word = i) (hc : isAsciiBlank c = true) :
    WordEnds text spans base start word dynamic i (c :: cs) := by
  refine ⟨i, dynamic, [], c :: cs, ?_, rfl, fun hnil => absurd hnil hword, h, hahead, ?_⟩
  · rw [wordEnd_of_byteAt? (h.byteAt? (utf8Size_of_isAsciiBlank hc)), if_pos hc]
  · rw [Placeholder.paintFrom_of_none (length?_of_isAsciiBlank h hc),
      classWordsFrom_blank _ _ _ hword hc, List.append_nil, Nat.add_assoc, hstart]

/-- A character that is neither blank nor the start of a placeholder belongs to the word. -/
theorem cons (hspans : StartsSmall text spans) (h : At text i (c :: cs))
    (hc : isAsciiBlank c = false) (hplain : Placeholder.length? (c :: cs) = none)
    (houtside : ∀ span ∈ spans, span.start ≠ i)
    (hlater : WordEnds text spans base start (c :: word) dynamic (i + c.utf8Size) cs) :
    WordEnds text spans base start word dynamic i (c :: cs) := by
  obtain ⟨stop, dynamic', piece, rest, hend, hcs, _, hstop, hafter, hwords⟩ := hlater
  refine ⟨stop, dynamic', c :: piece, rest, ?_, by rw [hcs, List.cons_append],
    fun _ => List.cons_ne_nil c piece, hstop, hafter, ?_⟩
  · rw [wordEnd_of_none hspans h hc houtside]
    exact hend
  · have hcond : ¬((isAsciiBlank c && !false) = true) := by
      rw [hc]
      exact Bool.false_ne_true
    rw [Placeholder.paintFrom_of_none hplain, classWordsFrom, if_neg hcond, Bool.or_false, hwords,
      List.reverse_cons, List.append_assoc]
    rfl

/-- A placeholder belongs to the word as a whole, with its blanks, and makes it dynamic. -/
theorem placeholder {n stop' : Nat} (h : At text i (c :: cs))
    (hn : Placeholder.length? (c :: cs) = some n) (hstop' : At text stop' ((c :: cs).drop n))
    (hfind : (spans.find? fun span => span.start == i) = some ⟨i, stop'⟩)
    (hlater : WordEnds text spans base start (((c :: cs).take n).reverse ++ word) true stop'
      ((c :: cs).drop n)) :
    WordEnds text spans base start word dynamic i (c :: cs) := by
  obtain ⟨stop, dynamic', piece, rest, hend, hcs, _, hstop, hafter, hwords⟩ := hlater
  obtain ⟨hsize, hc, hpos, _⟩ := placeholdersFrom_of_some h hn
  have htake : (c :: cs).take n ≠ [] := by
    obtain ⟨m, rfl⟩ := Nat.exists_eq_succ_of_ne_zero (by omega : n ≠ 0)
    rw [List.take_succ_cons]
    exact List.cons_ne_nil c _
  refine ⟨stop, dynamic', (c :: cs).take n ++ piece, rest, ?_, ?_,
    fun _ hnil => ?_, hstop, hafter, ?_⟩
  · have hlt : i < stop' := (h.of_eq (List.take_append_drop n _).symm).lt_of_append hstop' htake
    rw [wordEnd_of_byteAt? (h.byteAt? hsize), hc, if_neg Bool.false_ne_true, hfind]
    exact (jump?_of_lt hlt).trans hend
  · rw [List.append_assoc, ← hcs, List.take_append_drop]
  · exact htake (List.append_eq_nil_iff.mp hnil).1
  · -- the painted characters of the placeholder make the word dynamic
    have hempty : (!((c :: cs).take n).isEmpty) = true := by
      rw [Bool.not_eq_true', List.isEmpty_eq_false_iff]
      exact htake
    rw [Placeholder.paintFrom_of_some hn hpos, classWordsFrom_inside, hempty, Bool.or_true, hwords,
      List.reverse_append, List.reverse_reverse, List.append_assoc]

end WordEnds

/-- Every word comes to its end. If nothing of it has been read, a character that is no blank comes
next. The induction is on the length of the text that is left. -/
theorem wordEnd_eq (base : Nat) {word : List Char} (dynamic : Bool)
    (hspans : StartsSmall text spans)
    (hahead : Ahead text spans i) (h : At text i cs) (hstart : At text start (word.reverse ++ cs))
    (hword : word = [] → ∃ c ds, cs = c :: ds ∧ isAsciiBlank c = false) :
    WordEnds text spans base start word dynamic i cs := by
  -- a placeholder is passed in one step, so the induction is on the length
  induction hlength : cs.length using Nat.strongRecOn generalizing i cs word dynamic with
  | _ length ih =>
    subst hlength
    cases cs with
    | nil =>
      refine .of_nil (fun hnil => ?_) h hahead
      obtain ⟨c, ds, hcons, _⟩ := hword hnil
      cases hcons
    | cons c cs =>
      cases hc : isAsciiBlank c with
      | true =>
        refine .of_blank (fun hnil => ?_) h hahead ?_ hc
        · obtain ⟨d, ds, hcons, hd⟩ := hword hnil
          rw [← (List.cons.inj hcons).1, hc] at hd
          cases hd
        · have hplace := hstart.append.unique h
          rw [byteLen_reverse] at hplace
          exact hplace
      | false =>
        cases hn : Placeholder.length? (c :: cs) with
        | none =>
          obtain ⟨hahead', houtside⟩ := hahead.of_none h hn
          refine .cons hspans h hc hn (fun span hspan => (houtside span hspan).1) ?_
          refine ih cs.length (Nat.lt_succ_self _) dynamic hahead' h.next ?_
            (fun hnil => absurd hnil (List.cons_ne_nil c word)) rfl
          rw [List.reverse_cons, List.append_assoc]
          exact hstart
        | some n =>
          obtain ⟨stop', hstop', hahead', hfind⟩ := hahead.of_some h hn
          obtain ⟨_, _, hpos, _⟩ := placeholdersFrom_of_some h hn
          refine .placeholder h hn hstop' hfind
            (ih _ ?_ true hahead' hstop' ?_ (fun hnil => ?_) rfl)
          · rw [List.length_drop, List.length_cons]
            omega
          · rw [List.reverse_append, List.reverse_reverse, List.append_assoc, List.take_append_drop]
            exact hstart
          · have htake := List.reverse_eq_nil_iff.mp (List.append_eq_nil_iff.mp hnil).1
            rcases List.take_eq_nil_iff.mp htake with hzero | hcons
            · omega
            · cases hcons

/-- Whether a character is blank shows in its first byte. -/
theorem isAsciiBlank_of_byteAt? {b : Char} (hb : ∀ d : Char, d.utf8Size = 1 → (b = d ↔ c = d)) :
    isAsciiBlank b = isAsciiBlank c := by
  by_cases hblank : isAsciiBlank c = true
  · rw [(hb c (utf8Size_of_isAsciiBlank hblank)).mpr rfl]
  · rw [Bool.eq_false_iff.mpr hblank, Bool.eq_false_iff]
    intro hblank'
    rw [(hb b (utf8Size_of_isAsciiBlank hblank')).mp rfl] at hblank
    exact hblank hblank'

/-- The names written as words of a class value, found by bytes. -/
theorem wordNamesFrom_eq (hspans : StartsSmall text spans) (hahead : Ahead text spans i)
    (h : At text i cs) :
    Yields base (wordNamesFrom text spans start i)
      ((((classWordsFrom (base + start + i) [] false (Placeholder.paintFrom 0 cs)).filter
        fun w => !w.dynamic).filterMap fun w => singleName? w.slice).map
          (Reference.ofSlice .className .classAttribute)) := by
  induction hlength : cs.length using Nat.strongRecOn generalizing i cs with
  | _ length ih =>
    subst hlength
    cases cs with
    | nil =>
      have hle := h.reaches.le
      rw [wordNamesFrom, if_neg (by omega)]
      exact yields_nil base
    | cons c cs =>
      obtain ⟨b, hbyte, hb⟩ := h.byteAt?_cons
      rw [wordNamesFrom, if_pos h.lt, hbyte]
      simp only [Option.bind_eq_bind, Option.bind_some]
      rw [isAsciiBlank_of_byteAt? hb]
      by_cases hc : isAsciiBlank c = true
      · have hnext := h.next
        have hlater := ih cs.length (by rw [List.length_cons]; omega)
          (hahead.of_none h (length?_of_isAsciiBlank h hc)).1 hnext rfl
        rw [utf8Size_of_isAsciiBlank hc] at hlater
        have hcond : (isAsciiBlank c && !false) = true := by rw [hc]; rfl
        rw [if_pos hc, Placeholder.paintFrom_of_none (length?_of_isAsciiBlank h hc), classWordsFrom,
          if_pos hcond]
        exact hlater
      · have hstart : At text i (([] : List Char).reverse ++ c :: cs) := h
        obtain ⟨stop, dynamic, piece, rest, hend, hcs, hpiece, hstop, hahead', hwords⟩ :=
          wordEnd_eq (base + start) false hspans hahead h hstart
            fun _ => ⟨c, cs, rfl, Bool.eq_false_iff.mpr hc⟩
        -- the word is not empty, so less is left behind it
        have hshorter : rest.length < (c :: cs).length := by
          have hpos := List.length_pos_iff.mpr (hpiece rfl)
          rw [hcs, List.length_append]
          omega
        have hlater := ih rest.length hshorter hahead' hstop rfl
        have hlt : i < stop := (h.of_eq hcs).lt_of_append hstop (hpiece rfl)
        rw [if_neg hc, hend, Option.bind_some, hwords, List.filter_cons]
        simp only [jump?_of_lt hlt]
        cases dynamic with
        | true => exact (yields_nil base).append hlater
        | false =>
          have hfirst : Yields base
              (singleName text ⟨i, stop⟩ start .className .classAttribute)
              ((singleName? ⟨base + start + i, piece⟩).toList.map
                (Reference.ofSlice .className .classAttribute)) :=
            singleName_eq _ _ ((h.of_eq hcs).slice? hstop) (Nat.add_assoc base start i).symm
          rw [if_pos (by rfl : (!false) = true), List.filterMap_eq_flatMap_toList,
            List.flatMap_cons, ← List.filterMap_eq_flatMap_toList, List.map_append]
          exact hfirst.append hlater

/-! ### Class values -/

/-- The proofs that go along with the items do not matter. -/
theorem attach_flatMap {α β : Type} (as : List α) (f : α → List β) :
    (as.attach.flatMap fun a => f a.1) = as.flatMap f := by
  rw [List.flatMap_subtype (g := f) fun _ _ => rfl, List.unattach_attach]

/-- The names of a class value are its words, then the names in its placeholders. -/
theorem classNames_eq_append (value : Slice) :
    StyleAudit.classNames value =
      ((classWords value).filter fun w => !w.dynamic).filterMap (fun w => singleName? w.slice) ++
        (Placeholder.all value).flatMap fun span =>
          (Script.literals span).flatMap fun literal => StyleAudit.classNames literal.body := by
  have hliterals : ∀ span : Slice, ((Script.literals span).attach.flatMap fun literal =>
      StyleAudit.classNames literal.1.body) = (Script.literals span).flatMap fun literal =>
        StyleAudit.classNames literal.body :=
    fun span => attach_flatMap (Script.literals span) fun literal =>
      StyleAudit.classNames literal.body
  rw [StyleAudit.classNames]
  simp only [hliterals]
  congr 1
  exact attach_flatMap (Placeholder.all value) fun span =>
    (Script.literals span).flatMap fun literal => StyleAudit.classNames literal.body

/-- One scan for each literal of a text. -/
theorem yields_literals {offset : Nat} {f : Literal → Option (List Reference)}
    {g : Script.Literal → List Reference}
    (hf : ∀ l, ∀ literal ∈ Script.literals ⟨offset, text⟩, SameLiteral text offset l literal →
      Yields base (f l) (g literal)) :
    Yields base ((literals text).bind fun found => (found.mapM f).bind fun names =>
      some names.flatten) ((Script.literals ⟨offset, text⟩).flatMap g) := by
  obtain ⟨found, hfound, hsame⟩ := literals_eq offset text
  rw [hfound, Option.bind_some]
  exact yields_mapM hsame hf

/-- The names of a class value, those inside its placeholders included, found by bytes. -/
theorem classNames_eq (base start : Nat) (text : List Char) :
    Yields base (classNames text start)
      ((StyleAudit.classNames ⟨base + start, text⟩).map
        (Reference.ofSlice .className .classAttribute)) := by
  induction hlength : text.length using Nat.strongRecOn generalizing text start with
  | _ length ih =>
    subst hlength
    obtain ⟨spans, hspans, hcut⟩ := placeholders_eq (base + start) text
    have hsmall : StartsSmall text spans := fun span hspan =>
      (start_of_mem_placeholdersFrom (at_zero text) hspans span hspan).2
    have hwords : Yields base (wordNamesFrom text spans start 0) _ :=
      wordNamesFrom_eq hsmall (ahead_zero hspans) (at_zero text)
    have hnested : Yields base ((spans.mapM fun span =>
        (slice? text span.start span.stop).bind fun inner => (literals inner).bind fun found =>
          (found.mapM fun literal =>
            (slice? text (span.start + literal.body.start) (span.start + literal.body.stop)).bind
              fun value => jump? value.length text.length fun _ =>
                classNames value (start + (span.start + literal.body.start))).bind
                fun names => some names.flatten).bind fun nested => some nested.flatten)
        ((Placeholder.all ⟨base + start, text⟩).flatMap fun span => (Script.literals span).flatMap
          fun literal => (StyleAudit.classNames literal.body).map
            (Reference.ofSlice .className .classAttribute)) := by
      refine yields_mapM hcut fun range span hspan hrange => ?_
      rw [hrange.2, Option.bind_some]
      refine yields_literals fun l literal hliteral hsame => ?_
      -- the literal is shorter than the text
      have hshorter : literal.body.text.length < text.length :=
        Nat.lt_of_lt_of_le (Script.length_body_lt_of_mem_literals hliteral)
          (Placeholder.length_le_of_mem_all hspan)
      have hoffset : base + (start + (range.start + l.body.start)) = literal.body.offset := by
        have hrange' := hrange.1
        have hbody := hsame.2.1
        omega
      rw [slice?_slice? hrange.2 hsame.2.2, Option.bind_some, jump?_of_lt hshorter]
      have hnames := ih _ hshorter (start + (range.start + l.body.start)) literal.body.text rfl
      rw [hoffset] at hnames
      exact hnames
    rw [classNames, hspans, classNames_eq_append, List.map_append, List.map_flatMap]
    simp only [Option.bind_eq_bind, Option.bind_some, List.map_flatMap]
    have happend := hwords.append hnested
    simp only [Option.bind_assoc, Option.bind_some] at happend
    exact happend

/-- The names in the literals of a bound class value, found by bytes. -/
theorem boundClassNames_eq (base start : Nat) (text : List Char) :
    Yields base (boundClassNames text start)
      ((StyleAudit.boundClassNames ⟨base + start, text⟩).map
        (Reference.ofSlice .className .classAttribute)) := by
  rw [boundClassNames, StyleAudit.boundClassNames, List.map_flatMap]
  refine yields_literals fun l literal _ hsame => ?_
  have hoffset : base + (start + l.body.start) = literal.body.offset := by
    have hbody := hsame.2.1
    omega
  have hnames := classNames_eq base (start + l.body.start) literal.body.text
  rw [hoffset] at hnames
  simp only [Option.bind_eq_bind]
  rw [hsame.2.2, Option.bind_some]
  exact hnames

end StyleAudit.Bytes
