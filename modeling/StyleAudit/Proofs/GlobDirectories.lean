import Mathlib.Data.Nat.Init
import StyleAudit.Proofs.GlobEndings
import StyleAudit.Proofs.PathParts

/-!
# Globs for the content of a directory

A glob `**/name/**` is matched byte by byte against a path. It matches the paths that lead through a
directory of that name.

* **`Glob.isMatch_directoryTokens`** says what such a glob matches, and
  **`Path.exists_append_iff_mem`** which parts of a path are followed by a separator.
* **`Glob.isMatch_descend`** puts this together for a way down from some path: the directory is one
  of that path as it is written, or one on the way.
-/

namespace StyleAudit

namespace Glob

open Path (separator)
open Text

/-! ### Matching -/

/-- The rests after separators, one for each separator. -/
theorem mem_afterSeparators {rest bytes : List UInt8} :
    rest ∈ afterSeparators bytes ↔ ∃ front, bytes = front ++ separator :: rest := by
  induction bytes with
  | nil => simp [afterSeparators]
  | cons b bytes ih =>
    rw [afterSeparators]
    constructor
    · intro h
      split at h
      · next hb =>
        rcases List.mem_cons.mp h with rfl | h
        · exact ⟨[], by rw [hb]; rfl⟩
        · obtain ⟨front, hfront⟩ := ih.mp h
          exact ⟨b :: front, by rw [hfront]; rfl⟩
      · obtain ⟨front, hfront⟩ := ih.mp h
        exact ⟨b :: front, by rw [hfront]; rfl⟩
    · rintro ⟨front, hfront⟩
      -- the separator is the first byte, or it comes later
      cases front with
      | nil =>
        obtain ⟨rfl, rfl⟩ := List.cons.inj hfront
        rw [if_pos rfl]
        exact List.mem_cons_self
      | cons b' front =>
        have hlater := ih.mpr ⟨front, (List.cons.inj hfront).2⟩
        split
        · exact List.mem_cons_of_mem _ hlater
        · exact hlater

/-- Tokens are matched one after another. -/
theorem tokensRests_append (ts us : List Token) (states : List (List UInt8)) :
    tokensRests (ts ++ us) states = tokensRests us (tokensRests ts states) := by
  induction ts generalizing states with
  | nil => rfl
  | cons t ts ih =>
    rw [List.cons_append, tokensRests, tokensRests]
    exact ih _

/-- The tokens of a glob for everything in directories of some name. -/
def directoryTokens (name : List Char) : List Token :=
  .leadingDirs :: (name.map .literal ++ [.trailingDirs])

/-- A directory glob is matched against whole paths, not only against names. -/
theorem isAboutName_directoryTokens (name : List Char) :
    (criterion (directoryTokens name)).isAboutName = false := by
  -- the tests for the short forms fail, whatever the name
  have hbase : isBaseName (directoryTokens name) = false := by
    cases name <;> simp [directoryTokens, isBaseName, Token.isLiteral]
  have hextension : isExtension (directoryTokens name) = false := by
    cases name <;> simp [directoryTokens, isExtension, afterLeadingDirs]
  have hending : hasExtension (directoryTokens name) = false := by
    simp [directoryTokens, hasExtension, Token.isLiteral, Token.isChar]
  unfold criterion
  rw [hbase, hextension, hending]
  simp only [Bool.false_eq_true, if_false]
  split
  · rfl
  · split
    · rfl
    · split <;> rfl

/-- A glob that is about paths matches if its tokens can be matched to the end. -/
theorem isMatch_of_not_isAboutName {g : Glob} (hne : g.tokens ≠ [.leadingDirs])
    (h : (criterion g.tokens).isAboutName = false) (path : Spelling) :
    g.isMatch path = (tokensRests g.tokens [path]).any List.isEmpty := by
  unfold isMatch
  split
  · next hall => exact absurd hall hne
  · simp only [h, Bool.false_and, Bool.false_eq_true, if_false]

/-- A directory glob matches to the end if the name stands after a separator, or first, and a
separator follows it. -/
theorem nil_mem_tokensRests_directoryTokens {name : List Char} {bytes : List UInt8} :
    [] ∈ tokensRests (directoryTokens name) [bytes] ↔
      ∃ back, utf8 name ++ separator :: back ∈ bytes :: afterSeparators bytes := by
  -- the last token takes a separator and anything behind it
  have htrailing : ∀ rest, [] ∈ Token.trailingDirs.rests rest ↔
      ∃ back, rest = separator :: back := by
    intro rest
    simp [Token.rests, afterBytes?_eq_some_iff, mem_suffixes]
  have hleading : Token.leadingDirs.rests bytes = bytes :: afterSeparators bytes := by
    rw [Token.rests]
  rw [directoryTokens, tokensRests, tokensRests_append, tokensRests, tokensRests,
    List.mem_eraseDups, List.mem_flatMap]
  simp only [htrailing, mem_tokensRests_literals, List.mem_eraseDups,
    List.flatMap_singleton, hleading]
  constructor
  · rintro ⟨_, hmem, back, rfl⟩
    exact ⟨back, hmem⟩
  · rintro ⟨back, hmem⟩
    exact ⟨_, hmem, back, rfl⟩

/-- The glob of a directory matches where its name stands between two separators, or at the start
before one. -/
theorem isMatch_directoryTokens (name : List Char) (path : Spelling) :
    (⟨directoryTokens name⟩ : Glob).isMatch path = true ↔
      ∃ front back, path = front ++ (utf8 name ++ separator :: back) ∧
        Path.EndsDirectory front := by
  have hmatch := @isMatch_of_not_isAboutName ⟨directoryTokens name⟩ (by simp [directoryTokens])
    (isAboutName_directoryTokens name) path
  have hnil : ∀ states : List (List UInt8), states.any List.isEmpty = true ↔ [] ∈ states := by
    intro states
    simp [List.any_eq_true]
  rw [hmatch, hnil, nil_mem_tokensRests_directoryTokens]
  constructor
  · rintro ⟨back, hmem⟩
    -- the name stands at the start of the path, or after one of its separators
    rcases List.mem_cons.mp hmem with hall | hlater
    · exact ⟨[], back, hall.symm, Or.inl rfl⟩
    · obtain ⟨front, hfront⟩ := mem_afterSeparators.mp hlater
      refine ⟨front ++ [separator], back, ?_, Or.inr List.getLast?_concat⟩
      rw [hfront, List.append_assoc, List.singleton_append]
  · rintro ⟨front, back, rfl, hfront⟩
    refine ⟨back, List.mem_cons.mpr ?_⟩
    rcases hfront with rfl | hlast
    · exact Or.inl rfl
    · obtain ⟨before, rfl⟩ := List.getLast?_eq_some_iff.mp hlast
      refine Or.inr (mem_afterSeparators.mpr ⟨before, ?_⟩)
      rw [List.append_assoc, List.singleton_append]

end Glob

/-! ### Parts that a separator follows -/

namespace Path

/-- A part of a path stands between two separators, or at an end of the path. -/
theorem exists_append_of_mem_spelledParts {cs part : Spelling} (h : part ∈ spelledParts cs) :
    ∃ front back, cs = front ++ (part ++ back) ∧ EndsDirectory front ∧
      (back = [] ∨ back.head? = some separator) := by
  induction hlength : cs.length using Nat.strong_induction_on generalizing cs with
  | _ length ih =>
    -- by the first separator of the path: the part is before it or behind it
    by_cases hsep : separator ∈ cs
    · obtain ⟨first, rest, rfl, hfirst⟩ := List.eq_append_cons_of_mem hsep
      rw [spelledParts_separator] at h
      rcases List.mem_append.mp h with h | h
      · cases first with
        | nil => exact absurd h List.not_mem_nil
        | cons c first =>
          rw [spelledParts_of_not_mem (List.cons_ne_nil c first) hfirst] at h
          exact ⟨[], separator :: rest, by rw [List.mem_singleton.mp h]; rfl,
            Or.inl rfl, Or.inr rfl⟩
      · have hshort : rest.length < length := by
          rw [← hlength, List.length_append, List.length_cons]
          omega
        obtain ⟨front, back, hrest, hfront, hback⟩ := ih _ hshort h rfl
        refine ⟨first ++ separator :: front, back, ?_, ?_, hback⟩
        · rw [hrest, List.append_assoc, List.cons_append]
        · right
          rw [List.getLast?_append, List.getLast?_cons]
          rcases hfront with rfl | hlast
          · rfl
          · rw [hlast]
            rfl
    · cases cs with
      | nil => exact absurd h List.not_mem_nil
      | cons c cs =>
        rw [spelledParts_of_not_mem (List.cons_ne_nil c cs) hsep] at h
        exact ⟨[], [], by rw [List.mem_singleton.mp h]; simp, Or.inl rfl, Or.inl rfl⟩

/-- The parts of a directory are what is followed by a separator in a path that ends in it. -/
theorem exists_append_iff_mem {dir last part : Spelling} (hdir : EndsDirectory dir)
    (hlast : separator ∉ last) (hne : part ≠ []) (hsep : separator ∉ part) :
    (∃ front back, dir ++ last = front ++ (part ++ separator :: back) ∧ EndsDirectory front) ↔
      part ∈ spelledParts dir := by
  constructor
  · rintro ⟨front, back, heq, hfront⟩
    -- the separator after the part is not one of the last part
    obtain ⟨more, hmore⟩ : ∃ more, dir = front ++ (part ++ separator :: more) := by
      have heq' : dir ++ last = (front ++ (part ++ [separator])) ++ back := by simpa using heq
      rcases List.append_eq_append_iff.mp heq' with ⟨more, hall, hback⟩ | ⟨more, hdir', _⟩
      · have hends := congrArg List.getLast? hall
        rw [← List.append_assoc, List.getLast?_concat, List.getLast?_append] at hends
        cases hmore : more.getLast? with
        | none =>
          rw [List.getLast?_eq_none_iff.mp hmore, List.append_nil] at hall
          exact ⟨[], hall.symm⟩
        | some c =>
          rw [hmore] at hends
          obtain rfl := Option.some.inj hends
          exact absurd (hback ▸ List.mem_append_left back (List.mem_of_getLast? hmore)) hlast
      · -- here the whole piece lies in the directory
        exact ⟨more, by simpa using hdir'⟩
    rw [hmore, spelledParts_directory hfront, spelledParts_separator,
      spelledParts_of_not_mem hne hsep]
    simp
  · intro h
    obtain ⟨front, back, hfound, hfront, hback⟩ := exists_append_of_mem_spelledParts h
    rcases hback with rfl | hback
    · -- a directory does not end in a part
      rw [List.append_nil] at hfound
      have hends : (front ++ part).getLast? = some separator := by
        rcases hdir with hnil | hends
        · rw [hnil] at hfound
          exact absurd (List.append_eq_nil_iff.mp hfound.symm).2 hne
        · rwa [hfound] at hends
      rw [List.getLast?_append] at hends
      obtain ⟨c, hc⟩ := Option.ne_none_iff_exists'.mp (mt List.getLast?_eq_none_iff.mp hne)
      rw [hc] at hends
      obtain rfl := Option.some.inj hends
      exact absurd (List.mem_of_getLast? hc) hsep
    · -- a part that a separator follows is followed by it in the longer path too
      obtain ⟨more, rfl⟩ := List.head?_eq_some_iff.mp hback
      refine ⟨front, more ++ last, ?_, hfront⟩
      rw [hfound]
      simp

end Path

open StyleAudit.Path Text in
/-- A way down leads through a directory if that is one of where it starts, or one of the names but
the last. -/
theorem Glob.isMatch_descend {names : List Spelling} (hnames : ∀ name ∈ names, IsName name)
    (hne : names ≠ []) (root : Path) {part : List Char} (hpart : IsName (utf8 part)) :
    (⟨directoryTokens part⟩ : Glob).isMatch (root.descend names).raw = true ↔
      utf8 part ∈ spelledParts root.raw ∨ utf8 part ∈ names.dropLast := by
  obtain ⟨front, last, rfl⟩ := List.eq_nil_or_concat names |>.resolve_left hne
  rw [List.concat_eq_append] at hnames ⊢
  have hlast := hnames last (by simp)
  have hfront : ∀ name ∈ front, IsName name := fun name h => hnames name (by simp [h])
  have hraw : (root.descend (front ++ [last])).raw = (root.descend front).slashed ++ last := by
    rw [descend, List.foldl_append]
    exact raw_child _ hlast
  rw [isMatch_directoryTokens, hraw,
    exists_append_iff_mem (endsDirectory_slashed _) hlast.2.1 hpart.1 hpart.2.1,
    spelledParts_slashed, spelledParts_descend hfront root, List.mem_append, List.dropLast_concat]

end StyleAudit
