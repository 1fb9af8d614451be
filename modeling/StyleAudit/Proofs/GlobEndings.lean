import StyleAudit.Glob.Match

/-!
# Globs for the end of a path

A glob is read character by character and matched byte by byte. A glob `**/*.ext` matches the paths
whose bytes end in those of `.ext`.

* **`mem_tokensRests_endingTokens`** says what remains to be matched after the tokens of such a
  glob, and **`isMatch_endingTokens`** what it matches. An ending of dots alone is not found in `..`
  (**`isMatch_endingTokens_of_ne`**).
* **`parse_ending`** says that `**/*.ext` is read into these tokens.
-/

namespace StyleAudit.Glob

open Path (separator dot)
open Text

/-! ### Matching -/

theorem mem_suffixes {rest bytes : List UInt8} : rest ∈ suffixes bytes ↔ rest <:+ bytes := by
  induction bytes with
  | nil => simp [suffixes]
  | cons b bytes ih => rw [suffixes, List.mem_cons, ih, List.suffix_cons_iff]

theorem suffix_of_mem_afterSeparators {rest bytes : List UInt8} (h : rest ∈ afterSeparators bytes) :
    rest <:+ bytes := by
  induction bytes with
  | nil => cases h
  | cons b bytes ih =>
    rw [afterSeparators] at h
    split at h
    · rcases List.mem_cons.mp h with rfl | h
      · exact List.suffix_cons b _
      · exact (ih h).trans (List.suffix_cons b bytes)
    · exact (ih h).trans (List.suffix_cons b bytes)

theorem afterBytes?_eq_some_iff {word bytes rest : List UInt8} :
    afterBytes? word bytes = some rest ↔ bytes = word ++ rest := by
  fun_induction afterBytes? word bytes with
  | case1 bytes => simp
  | case2 => simp
  | case3 w ws bytes ih => simpa using ih
  | case4 w ws b bytes hne => simp [Ne.symm hne]

/-- What remains after literal characters is what follows their bytes. -/
theorem mem_tokensRests_literals {cs : List Char} {rest : List UInt8} {states : List (List UInt8)} :
    rest ∈ tokensRests (cs.map .literal) states ↔ utf8 cs ++ rest ∈ states := by
  induction cs generalizing states with
  | nil => rfl
  | cons c cs ih =>
    rw [List.map_cons, tokensRests, ih, List.mem_eraseDups, List.mem_flatMap]
    simp only [Token.rests, Option.mem_toList, afterBytes?_eq_some_iff]
    simp [utf8_cons]

/-- The tokens of a glob for everything that ends in `ending`. -/
def endingTokens (ending : List Char) : List Token :=
  .leadingDirs :: .many :: ending.map .literal

/-- An ending may stand anywhere in a path, and then any rest follows. -/
theorem mem_tokensRests_endingTokens {ending : List Char} {rest bytes : List UInt8} :
    rest ∈ tokensRests (endingTokens ending) [bytes] ↔ utf8 ending ++ rest <:+ bytes := by
  rw [endingTokens, tokensRests, tokensRests, mem_tokensRests_literals, List.mem_eraseDups,
    List.mem_flatMap]
  simp only [Token.rests, List.flatMap_singleton, List.mem_eraseDups, mem_suffixes]
  constructor
  · rintro ⟨start, hstart, hrest⟩
    rcases List.mem_cons.mp hstart with rfl | hstart
    · exact hrest
    · exact hrest.trans (suffix_of_mem_afterSeparators hstart)
  · exact fun hrest => ⟨bytes, List.mem_cons_self, hrest⟩

/-- A path without a name at its end is `..`, or it ends so after a separator. -/
theorem lastPart_eq_upward {path : Spelling} (h : lastPart path = upward) :
    path = upward ∨ separator :: upward <:+ path := by
  have htaken : path.reverse.takeWhile (· ≠ separator) = upward.reverse :=
    List.reverse_eq_iff.mp h
  -- the last part is what comes first in the reversed path, up to a separator
  have hsplit := @List.takeWhile_append_dropWhile _ (fun b => decide (b ≠ separator)) path.reverse
  rw [htaken] at hsplit
  cases hrest : path.reverse.dropWhile (fun b => decide (b ≠ separator)) with
  | nil =>
    rw [hrest, List.append_nil] at hsplit
    exact Or.inl (List.reverse_inj.mp hsplit.symm)
  | cons b rest =>
    obtain rfl : b = separator := by
      have hhead := List.head?_dropWhile_not (fun b => decide (b ≠ separator)) path.reverse
      rw [hrest] at hhead
      simpa using hhead
    rw [hrest] at hsplit
    refine Or.inr ⟨rest.reverse, ?_⟩
    have hbytes := congrArg List.reverse hsplit
    rw [List.reverse_reverse, List.reverse_append, List.reverse_cons, List.append_assoc] at hbytes
    exact hbytes

/-- A path that ends in more than dots has a name at its end. -/
theorem lastPart_ne_upward {ending path : Spelling} (hsep : separator ∉ ending)
    (hname : ∃ b ∈ ending, b ≠ dot) (h : ending <:+ path) : lastPart path ≠ upward := by
  obtain ⟨b, hb, hdot⟩ := hname
  have hdots : ¬ ending <:+ upward := by
    intro hsuffix
    have hmem := hsuffix.subset hb
    simp only [upward, List.mem_cons, List.not_mem_nil, or_false, or_self] at hmem
    exact hdot hmem
  intro hup
  rcases lastPart_eq_upward hup with rfl | hparent
  · exact hdots h
  · -- the ending is a part of the last name, or reaches across the separator before it
    rcases List.suffix_or_suffix_of_suffix h hparent with hshort | hlong
    · rcases List.suffix_cons_iff.mp hshort with rfl | hshort
      · exact hsep List.mem_cons_self
      · exact hdots hshort
    · exact hsep (hlong.subset List.mem_cons_self)

/-- An ending matches a path that ends with it. -/
theorem any_tokensRests_endingTokens (ending : List Char) (path : Spelling) :
    (tokensRests (endingTokens ending) [path]).any List.isEmpty = true ↔ utf8 ending <:+ path := by
  rw [List.any_eq_true]
  constructor
  · rintro ⟨rest, hmem, hempty⟩
    rw [List.isEmpty_iff.mp hempty] at hmem
    rwa [mem_tokensRests_endingTokens, List.append_nil] at hmem
  · intro hends
    exact ⟨[], mem_tokensRests_endingTokens.mpr (by rwa [List.append_nil]), rfl⟩

/-- Where there is a name at the end of a path, only the ending counts. -/
theorem isMatch_endingTokens_of_ne {path : Spelling} (h : lastPart path ≠ upward)
    (ending : List Char) :
    (⟨endingTokens ending⟩ : Glob).isMatch path = true ↔ utf8 ending <:+ path := by
  show (if _ then false else _) = true ↔ _
  rw [decide_eq_false h, Bool.and_false, if_neg Bool.false_ne_true]
  exact any_tokensRests_endingTokens ending path

/-- An ending without a separator has no byte that is one. -/
theorem separator_not_mem_utf8 {ending : List Char} (h : '/' ∉ ending) :
    separator ∉ utf8 ending := fun hmem =>
  h ((@mem_utf8_iff '/' separator (by decide) rfl ending).mp hmem)

/-- An ending that is more than dots has bytes that are more than dots. -/
theorem exists_ne_dot_utf8 {ending : List Char} (h : ∃ c ∈ ending, c ≠ '.') :
    ∃ b ∈ utf8 ending, b ≠ dot := by
  obtain ⟨c, hc, hne⟩ := h
  obtain ⟨b, rest, hbytes⟩ := List.exists_cons_of_ne_nil (@String.utf8EncodeChar_ne_nil c)
  have hb : b ∈ String.utf8EncodeChar c := by rw [hbytes]; exact List.mem_cons_self
  refine ⟨b, List.mem_flatMap.mpr ⟨c, hc, hb⟩, ?_⟩
  rintro rfl
  exact hne (Char.toNat_inj.mp ((mem_utf8EncodeChar_iff (by decide)).mp hb))

/-- A glob for an ending that is more than dots matches what ends so. -/
theorem isMatch_endingTokens {ending : List Char} (hsep : '/' ∉ ending)
    (hname : ∃ c ∈ ending, c ≠ '.') (path : Spelling) :
    (⟨endingTokens ending⟩ : Glob).isMatch path = true ↔ utf8 ending <:+ path := by
  by_cases hup : lastPart path = upward
  · have hends : ¬ utf8 ending <:+ path := fun hends =>
      lastPart_ne_upward (separator_not_mem_utf8 hsep) (exists_ne_dot_utf8 hname) hends hup
    rw [← any_tokensRests_endingTokens] at hends
    refine iff_of_false ?_ (mt (any_tokensRests_endingTokens ending path).mpr hends)
    show ¬ (if _ then false else _) = true
    split
    · exact Bool.false_ne_true
    · exact hends
  · exact isMatch_endingTokens_of_ne hup ending

/-! ### Reading -/

/-- `IsOrdinary c`: in a glob, outside of groups, `c` stands for itself. -/
def IsOrdinary (c : Char) : Prop := c ∉ ['?', '*', '[', '\x7b', '\x7d', '\\']

instance (c : Char) : Decidable (IsOrdinary c) := inferInstanceAs (Decidable (¬ _))

/-- An ordinary character of a glob stands for itself. -/
theorem plainStep_of_isOrdinary {c : Char} (h : IsOrdinary c) (current : List Token)
    (last : Option Char) :
    ReadState.plainStep ⟨[], current, last, .plain⟩ c =
      .ok ⟨[], .literal c :: current, some c, .plain⟩ := by
  simp only [IsOrdinary, List.mem_cons, List.not_mem_nil, or_false, not_or] at h
  unfold ReadState.plainStep
  split <;> simp_all [ReadState.comma, ReadState.push]

/-- Reading ordinary characters one after the other adds them all as literals. -/
theorem foldlM_step_of_isOrdinary {cs : List Char} (h : ∀ c ∈ cs, IsOrdinary c)
    (current : List Token) (last : Option Char) :
    ∃ last', cs.foldlM ReadState.step ⟨[], current, last, .plain⟩ =
      .ok ⟨[], (cs.map .literal).reverse ++ current, last', .plain⟩ := by
  induction cs generalizing current last with
  | nil => exact ⟨last, rfl⟩
  | cons c cs ih =>
    obtain ⟨last', hlast⟩ := ih (fun d hd => h d (List.mem_cons_of_mem c hd))
      (.literal c :: current)
      (some c)
    refine ⟨last', ?_⟩
    rw [List.foldlM_cons]
    -- tokens are collected in reverse, before those that are there
    have hstep : ReadState.step ⟨[], current, last, .plain⟩ c =
        .ok ⟨[], .literal c :: current, some c, .plain⟩ :=
      plainStep_of_isOrdinary (h c List.mem_cons_self) current last
    rw [hstep]
    show cs.foldlM ReadState.step _ = _
    rw [hlast]
    simp

/-- A glob for an ending after a dot is read as that. -/
theorem parse_ending {cs : List Char} (h : ∀ c ∈ cs, IsOrdinary c) :
    Glob.parse ("**/*." ++ String.ofList cs) = .ok ⟨endingTokens ('.' :: cs)⟩ := by
  obtain ⟨last, hlast⟩ := foldlM_step_of_isOrdinary h [.literal '.', .many, .leadingDirs] (some '.')
  have hread : ("**/*." ++ String.ofList cs).toList.foldlM ReadState.step .start =
      .ok ⟨[], (cs.map .literal).reverse ++ [.literal '.', .many, .leadingDirs], last, .plain⟩ := by
    have hstart : "**/*.".toList.foldlM ReadState.step .start =
        .ok ⟨[], [.literal '.', .many, .leadingDirs], some '.', .plain⟩ := rfl
    rw [String.toList_append, @String.toList_ofList cs, List.foldlM_append, hstart]
    exact hlast
  unfold Glob.parse
  rw [hread]
  simp [ReadState.finish, bind, Except.bind, pure, Except.pure, endingTokens]

end StyleAudit.Glob
