import Mathlib.Data.List.Infix
import Mathlib.Data.List.TakeWhile
import StyleAudit.Link
import StyleAudit.Proofs.Slices

/-!
# Queries and fragments of a link

A link to a file may carry a query or a fragment, which is cut off before the file is looked up.
Whether the link is one to a file at all is decided before that, on the whole text.

* **`Text.isSome_after?_iff`** and **`Text.contains_iff`** are the tests on the text, and
  **`Text.prefix_append_mark`** / **`Text.infix_append_mark`** say that a word is found on one side
  of a mark that it does not hold.
* **`LinkTarget.IsLocalText`** is what the tests ask of a link to a file: no scheme, no host and no
  inline data. **`LinkTarget.ofHref?_of_isLocalText`** is the target of such a link.
* **`suffix_keeps_local_link_iff`**: a query or fragment leaves such a link alone, unless there is
  an address in it. Then there is no target any more (**`address_in_query_loses_link`**).
-/

namespace StyleAudit

namespace Text

/-! ### Words in a text -/

/-- A text goes on after a word when it begins with it. -/
theorem isSome_after?_iff {word cs : List Char} : (after? word cs).isSome = true ↔ word <+: cs := by
  constructor
  · intro h
    obtain ⟨rest, hrest⟩ := Option.isSome_iff_exists.mp h
    exact ⟨rest, (eq_append_of_after? hrest).symm⟩
  · rintro ⟨rest, rfl⟩
    rw [after?_append]
    rfl

/-- `contains` finds a word that is not empty. -/
theorem contains_iff {word cs : List Char} (hne : word ≠ []) :
    contains word cs = true ↔ word <:+: cs := by
  have hempty : word.isEmpty = false := List.isEmpty_eq_false_iff.mpr hne
  rw [contains, hempty, Bool.false_or]
  induction cs with
  | nil => simp [breakOn, hne]
  | cons c cs ih =>
    rw [List.infix_cons_iff, ← isSome_after?_iff, breakOn]
    split
    · next hhere => simp [hhere]
    · next hlater => simpa [hlater] using ih

section Mark

variable {word xs ys : List Char} {mark : Char} (hmark : mark ∉ word)

include hmark

/-- Whether a word begins a text is settled before a mark the word does not have. -/
theorem prefix_append_mark : word <+: xs ++ mark :: ys ↔ word <+: xs := by
  refine ⟨fun h => ?_, fun h => h.trans (List.prefix_append xs _)⟩
  rcases List.prefix_or_prefix_of_prefix h (List.prefix_append xs _) with hshort | ⟨more, rfl⟩
  · exact hshort
  · -- what the word has beyond `xs` would start with the mark
    cases more with
    | nil => exact (List.append_nil xs).symm ▸ List.prefix_refl _
    | cons c more =>
      have hc := List.cons_prefix_cons.mp ((List.prefix_append_right_inj xs).mp h)
      exact absurd (List.mem_append_right xs (hc.1 ▸ List.mem_cons_self)) hmark

/-- A mark the word does not have separates the places where the word can stand. -/
theorem infix_append_mark : word <:+: xs ++ mark :: ys ↔ word <:+: xs ∨ word <:+: ys := by
  constructor
  · intro h
    rcases List.infix_append_iff.mp h with h | h | ⟨front, back, rfl, hfront, hback⟩
    · exact Or.inl h
    · rcases List.infix_cons_iff.mp h with h | h
      · have hnil : word = [] := by
          have hprefix := (@prefix_append_mark word [] ys mark hmark).mp h
          exact List.prefix_nil.mp hprefix
        exact Or.inl (hnil ▸ List.nil_infix)
      · exact Or.inr h
    · -- the mark divides the word nowhere, so nothing of it comes after `xs`
      have hback' : back <+: ([] : List Char) :=
        (prefix_append_mark fun hmem => hmark (List.mem_append_right front hmem)).mp hback
      rw [List.prefix_nil.mp hback', List.append_nil]
      exact Or.inl hfront.isInfix
  · rintro (h | h)
    · exact h.trans (List.prefix_append xs _).isInfix
    · exact h.trans ((List.suffix_cons mark ys).trans (List.suffix_append xs _)).isInfix

end Mark

/-- The sign of a scheme is the same in lower case. -/
theorem infix_toAsciiLower {word cs : List Char}
    (hword : ∀ w ∈ word, w.toLower = w ∧ ¬ (97 ≤ w.toNat ∧ w.toNat ≤ 122)) :
    word <:+: toAsciiLower cs ↔ word <:+: cs := by
  constructor
  · rintro ⟨front, back, h⟩
    obtain ⟨before, rest, rfl, hbefore, hrest⟩ := List.map_eq_append_iff.mp h.symm
    obtain ⟨xs, ys, rfl, hxs, hys⟩ := List.map_eq_append_iff.mp hbefore
    -- no capital was lowered to a character of the word
    have hsame : ys = word := by
      rw [← hys]
      refine (List.map_id ys).symm.trans (List.map_congr_left fun c hc => ?_)
      exact eq_of_toLower_eq (hword _ (hys ▸ List.mem_map_of_mem hc)).2 rfl
    exact hsame ▸ ⟨xs, rest, rfl⟩
  · intro h
    have hlower : toAsciiLower word = word :=
      (List.map_congr_left fun w hw => (hword w hw).1).trans (List.map_id word)
    exact hlower ▸ h.map Char.toLower

/-! ### Trimming -/

/-- Trimming at the right stops at a kept character. -/
theorem trimRight_append_mark {p : Char → Bool} {mark : Char} (hmark : p mark = false)
    (xs ys : List Char) : trimRight p (xs ++ mark :: ys) = xs ++ mark :: trimRight p ys := by
  have hstop : (mark :: xs.reverse).dropWhile p = mark :: xs.reverse :=
    List.dropWhile_cons_of_neg (by simp [hmark])
  unfold trimRight
  rw [List.reverse_append, List.reverse_cons, List.append_assoc, List.singleton_append,
    List.dropWhile_append, hstop]
  split
  · next hempty => simp [List.isEmpty_iff.mp hempty]
  · simp

/-- Trimming hides no word without trimmed characters. -/
theorem infix_trimRight {p : Char → Bool} {word cs : List Char} (hne : word ≠ [])
    (hword : ∀ w ∈ word, p w = false) : word <:+: trimRight p cs ↔ word <:+: cs := by
  have hsplit : cs = trimRight p cs ++ (cs.reverse.takeWhile p).reverse := by
    rw [trimRight, ← List.reverse_append, List.takeWhile_append_dropWhile, List.reverse_reverse]
  have hblank : ∀ b ∈ (cs.reverse.takeWhile p).reverse, p b = true := fun b hb =>
    List.mem_takeWhile_imp (List.mem_reverse.mp hb)
  refine ⟨fun h => ?_, fun h => ?_⟩
  · rw [hsplit]
    exact h.trans (List.prefix_append _ _).isInfix
  · rw [hsplit] at h
    cases hblanks : (cs.reverse.takeWhile p).reverse with
    | nil => rwa [hblanks, List.append_nil] at h
    | cons b bs =>
      rw [hblanks] at h hblank
      -- what is trimmed is blank and the word has no blank, so no part of it was cut off
      have hb : b ∉ word := fun hmem => by
        have hfalse := hword b hmem
        rw [hblank b List.mem_cons_self] at hfalse
        exact Bool.noConfusion hfalse
      rcases (infix_append_mark hb).mp h with h | h
      · exact h
      · obtain ⟨w, hw⟩ := List.exists_mem_of_ne_nil word hne
        have hfalse := hword w hw
        rw [hblank w (List.mem_cons_of_mem b (h.subset hw))] at hfalse
        exact Bool.noConfusion hfalse

/-- A text that trimming leaves alone starts with a character that is not trimmed. -/
theorem trimLeft_eq_self {p : Char → Bool} {cs : List Char} (h : trim p cs = cs) :
    trimLeft p cs = cs := by
  have hle : (trim p cs).length ≤ (trimLeft p cs).length := by
    rw [trim, trimRight, List.length_reverse]
    exact (List.dropWhile_sublist p).length_le.trans_eq List.length_reverse
  rw [h] at hle
  exact (List.dropWhile_suffix p).eq_of_length_le hle

/-- A suffix behind a trimmed text can only lose characters at its own end. -/
theorem trim_append_mark {p : Char → Bool} {mark : Char} {xs : List Char} (hne : xs ≠ [])
    (htrim : trim p xs = xs) (hmark : p mark = false) (ys : List Char) :
    trim p (xs ++ mark :: ys) = xs ++ mark :: trimRight p ys := by
  have hleft : trimLeft p (xs ++ mark :: ys) = xs ++ mark :: ys := by
    have hxs : xs.dropWhile p = xs := trimLeft_eq_self htrim
    have hempty : (xs.dropWhile p).isEmpty = false := by rwa [hxs, List.isEmpty_eq_false_iff]
    rw [trimLeft, List.dropWhile_append, hempty, hxs]
    rfl
  rw [trim, hleft, trimRight_append_mark hmark]

end Text

open Text

/-! ### Links to files -/

namespace LinkTarget

/-- `IsLocalText cs`: the text of a link has no scheme, no host and no inline data. -/
structure IsLocalText (cs : List Char) : Prop where
  scheme : ¬ "://".toList <:+: cs
  host : ¬ "//".toList <+: cs
  data : ¬ "data:".toList <+: toAsciiLower cs

/-- The scheme mark has no letters, so folding case neither makes nor hides one. -/
theorem infix_scheme_toAsciiLower (cs : List Char) :
    "://".toList <:+: toAsciiLower cs ↔ "://".toList <:+: cs := by
  refine infix_toAsciiLower fun w hw => ?_
  have hcases : w = ':' ∨ w = '/' := by simpa using hw
  rcases hcases with rfl | rfl <;> decide

variable {href : String} {dir root : Option Path}

/-- The target of a link to a file: the file that is named before the query and the fragment. -/
theorem ofHref?_of_isLocalText (h : IsLocalText (trim isBlank href.toList)) :
    ofHref? href dir root =
      if ((trim isBlank href.toList).takeWhile fun c => c ≠ '?' && c ≠ '#').isEmpty then none
      else (locate ((trim isBlank href.toList).takeWhile fun c => c ≠ '?' && c ≠ '#') dir root).map
        fun path => .file path.normalize := by
  have hcontains : Text.contains "://".toList (toAsciiLower (trim isBlank href.toList)) =
      false := by
    rw [Bool.eq_false_iff, Ne, contains_iff (by decide), infix_scheme_toAsciiLower]
    exact h.scheme
  -- every remote scheme holds the scheme mark
  have hword : ∀ word : List Char, "://".toList <:+: word →
      (after? word (toAsciiLower (trim isBlank href.toList))).isSome = false := by
    intro word hscheme
    rw [Bool.eq_false_iff, Ne, isSome_after?_iff]
    intro hprefix
    exact h.scheme ((infix_scheme_toAsciiLower _).mp (hscheme.trans hprefix.isInfix))
  have hdata : (after? "data:".toList (toAsciiLower (trim isBlank href.toList))).isSome =
      false := by
    rw [Bool.eq_false_iff, Ne, isSome_after?_iff]
    exact h.data
  have hhost : after? "//".toList (trim isBlank href.toList) = none := by
    rw [← Option.not_isSome_iff_eq_none, isSome_after?_iff]
    exact h.host
  unfold ofHref?
  simp only [hword "http://".toList (by decide), hword "https://".toList (by decide), hhost, hdata,
    hcontains, Bool.or_self, Bool.false_eq_true, if_false]

/-- Only a local text leads to a file. -/
theorem isLocalText_of_file {path : Path} (h : ofHref? href dir root = some (.file path)) :
    IsLocalText (trim isBlank href.toList) := by
  unfold ofHref? at h
  simp only at h
  split at h
  · cases h
  · split at h
    · cases h
    · next hhost =>
      split at h
      · cases h
      · next hscheme =>
        obtain ⟨hdata, hcontains⟩ := not_or.mp (mt Bool.or_eq_true_iff.mpr hscheme)
        refine ⟨fun hinfix => hcontains ?_, fun hprefix => ?_, fun hprefix => hdata ?_⟩
        · exact (contains_iff (by decide)).mpr ((infix_scheme_toAsciiLower _).mpr hinfix)
        · have hsome := isSome_after?_iff.mpr hprefix
          rw [hhost] at hsome
          exact Bool.noConfusion hsome
        · exact isSome_after?_iff.mpr hprefix

/-- A scheme somewhere in the text, with no address at its start, leaves no target. -/
theorem ofHref?_eq_none (hhttp : ¬ "http://".toList <+: toAsciiLower (trim isBlank href.toList))
    (hhttps : ¬ "https://".toList <+: toAsciiLower (trim isBlank href.toList))
    (hhost : ¬ "//".toList <+: trim isBlank href.toList)
    (hscheme : "://".toList <:+: trim isBlank href.toList) : ofHref? href dir root = none := by
  have hcontains : Text.contains "://".toList (toAsciiLower (trim isBlank href.toList)) = true :=
    (contains_iff (by decide)).mpr ((infix_scheme_toAsciiLower _).mpr hscheme)
  have hnone : after? "//".toList (trim isBlank href.toList) = none := by
    rw [← Option.not_isSome_iff_eq_none, isSome_after?_iff]
    exact hhost
  rw [← isSome_after?_iff, Bool.not_eq_true] at hhttp hhttps
  unfold ofHref?
  simp only [hhttp, hhttps, hnone, hcontains, Bool.or_self, Bool.or_true, Bool.false_eq_true,
    if_false, if_true]

/-- `IsSuffixMark mark`: a query or a fragment starts here. -/
def IsSuffixMark (mark : Char) : Prop := mark = '?' ∨ mark = '#'

namespace IsLocalText

variable {cs rest : List Char} {mark : Char} (hmark : IsSuffixMark mark)

include hmark

theorem lower_append (cs rest : List Char) :
    toAsciiLower (cs ++ mark :: rest) = toAsciiLower cs ++ mark :: toAsciiLower rest := by
  have hlower : mark.toLower = mark := by rcases hmark with rfl | rfl <;> decide
  rw [toAsciiLower, List.map_append, List.map_cons, hlower]
  rfl

/-- What follows the mark decides nothing but whether there is a scheme. -/
theorem append_iff : IsLocalText (cs ++ mark :: rest) ↔
    IsLocalText cs ∧ ¬ "://".toList <:+: rest := by
  have hword : ∀ word ∈ ["://".toList, "//".toList, "data:".toList], mark ∉ word := by
    rcases hmark with rfl | rfl <;> decide
  constructor
  · intro h
    have hscheme := not_or.mp (mt (infix_append_mark (hword _ (by simp))).mpr h.scheme)
    refine ⟨⟨hscheme.1, fun hhost => ?_, fun hdata => ?_⟩, hscheme.2⟩
    · exact h.host ((prefix_append_mark (hword _ (by simp))).mpr hhost)
    · refine h.data ?_
      rw [lower_append hmark]
      exact (prefix_append_mark (hword _ (by simp))).mpr hdata
  · rintro ⟨h, hrest⟩
    refine ⟨fun hscheme => ?_, fun hhost => ?_, fun hdata => ?_⟩
    · rcases (infix_append_mark (hword _ (by simp))).mp hscheme with hscheme | hscheme
      · exact h.scheme hscheme
      · exact hrest hscheme
    · exact h.host ((prefix_append_mark (hword _ (by simp))).mp hhost)
    · rw [lower_append hmark] at hdata
      exact h.data ((prefix_append_mark (hword _ (by simp))).mp hdata)

end IsLocalText

end LinkTarget

open LinkTarget

section Suffix

variable {href suffix : String} {dir root : Option Path} {path : Path} {mark : Char}
  (hmarks : ∀ c ∈ href.toList, ¬ IsSuffixMark c) (htrim : trim isBlank href.toList = href.toList)
  (hlocal : ofHref? href dir root = some (.file path))

include hmarks in
/-- The file is named by all that stands before a query or a fragment. -/
theorem takeWhile_href {rest : List Char} (hrest : ∀ c ∈ rest.head?, IsSuffixMark c) :
    ((href.toList ++ rest).takeWhile fun c => c ≠ '?' && c ≠ '#') = href.toList := by
  have hkept : ∀ c ∈ href.toList, (decide (c ≠ '?') && decide (c ≠ '#')) = true := by
    intro c hc
    obtain ⟨hquery, hfragment⟩ := not_or.mp (hmarks c hc)
    simp [hquery, hfragment]
  rw [List.takeWhile_append_of_pos hkept]
  cases rest with
  | nil => simp
  | cons mark rest =>
    have hstop : (decide (mark ≠ '?') && decide (mark ≠ '#')) = false := by
      rcases hrest mark rfl with rfl | rfl <;> rfl
    rw [List.takeWhile_cons, hstop, if_neg Bool.false_ne_true, List.append_nil]

include hmarks htrim hlocal in
/-- What is known of a link to a file that has neither query nor fragment. -/
theorem locate_of_file : href.toList ≠ [] ∧
    (locate href.toList dir root).map (fun path => LinkTarget.file path.normalize) =
      some (.file path) := by
  have htarget := hlocal
  have hall := @takeWhile_href href hmarks [] (by simp)
  rw [List.append_nil] at hall
  rw [ofHref?_of_isLocalText (isLocalText_of_file hlocal), htrim, hall] at htarget
  split at htarget
  · cases htarget
  · next hne => exact ⟨mt List.isEmpty_iff.mpr hne, htarget⟩

/-- The sign of a scheme is found in what is left of a suffix if it is found in the suffix: neither
the mark nor what is trimmed can be a part of it. -/
theorem scheme_trimRight_iff (hmark : IsSuffixMark mark) (tail : List Char) :
    "://".toList <:+: trimRight isBlank tail ↔ "://".toList <:+: mark :: tail := by
  have hmem : mark ∉ "://".toList := by rcases hmark with rfl | rfl <;> decide
  have hword : ∀ w ∈ "://".toList, isBlank w = false := by simp [isBlank]
  have hcut := @infix_append_mark "://".toList [] tail mark hmem
  rw [infix_trimRight (by decide) hword, ← List.nil_append (mark :: tail), hcut, List.infix_nil]
  simp

/-- Trimming a reference with a suffix trims the suffix only. -/
theorem trim_append_suffix (hne : href.toList ≠ []) (htrim : trim isBlank href.toList = href.toList)
    (hmark : IsSuffixMark mark) {tail : List Char} (htail : suffix.toList = mark :: tail) :
    trim isBlank (href ++ suffix).toList = href.toList ++ mark :: trimRight isBlank tail := by
  have hblank : isBlank mark = false := by rcases hmark with rfl | rfl <;> decide
  rw [String.toList_append, htail]
  exact trim_append_mark hne htrim hblank tail

/-- An address after the mark leaves no target, since the start of the text is none. -/
theorem ofHref?_eq_none_of_suffix {cs rest : List Char} (hcs : IsLocalText cs)
    (hmark : IsSuffixMark mark) (htext : trim isBlank href.toList = cs ++ mark :: rest)
    (hscheme : "://".toList <:+: rest) : ofHref? href dir root = none := by
  have hstart : ∀ word : List Char, mark ∉ word → "://".toList <:+: word →
      ¬ word <+: toAsciiLower (trim isBlank href.toList) := by
    intro word hmem hsign hprefix
    rw [htext, IsLocalText.lower_append hmark, prefix_append_mark hmem] at hprefix
    exact hcs.scheme ((infix_scheme_toAsciiLower _).mp (hsign.trans hprefix.isInfix))
  apply ofHref?_eq_none
  · exact hstart _ (by rcases hmark with rfl | rfl <;> decide) (by decide)
  · exact hstart _ (by rcases hmark with rfl | rfl <;> decide) (by decide)
  · rw [htext, prefix_append_mark (by rcases hmark with rfl | rfl <;> decide)]
    exact hcs.host
  · rw [htext]
    exact hscheme.trans ((List.suffix_cons mark _).trans (List.suffix_append _ _)).isInfix

/-- **A query or a fragment leaves a link to a file alone, unless it holds an address.** The target
of `href ++ suffix` is that of `href` if and only if `://` does not occur in the suffix, and
otherwise there is no target at all. -/
theorem suffix_keeps_local_link_iff (hmarks : ∀ c ∈ href.toList, ¬ IsSuffixMark c)
    (htrim : trim isBlank href.toList = href.toList)
    (hlocal : ofHref? href dir root = some (.file path))
    (hsuffix : suffix.toList.head? = some mark) (hmark : IsSuffixMark mark) :
    (ofHref? (href ++ suffix) dir root = ofHref? href dir root ↔
      ¬ "://".toList <:+: suffix.toList) ∧
    ("://".toList <:+: suffix.toList → ofHref? (href ++ suffix) dir root = none) := by
  obtain ⟨tail, htail⟩ := List.head?_eq_some_iff.mp hsuffix
  obtain ⟨hne, hlocate⟩ := locate_of_file hmarks htrim hlocal
  have hlocaltext : IsLocalText href.toList := htrim ▸ isLocalText_of_file hlocal
  have htext := trim_append_suffix hne htrim hmark htail
  have hscheme := scheme_trimRight_iff hmark tail
  rw [← htail] at hscheme
  have hnone : "://".toList <:+: suffix.toList → ofHref? (href ++ suffix) dir root = none :=
    fun hinfix => ofHref?_eq_none_of_suffix hlocaltext hmark htext (hscheme.mpr hinfix)
  refine ⟨⟨fun hsame hinfix => ?_, fun hinfix => ?_⟩, hnone⟩
  · rw [hnone hinfix, hlocal] at hsame
    cases hsame
  · -- both lead to the text before the mark
    have hkept : IsLocalText (trim isBlank (href ++ suffix).toList) := by
      rw [htext, IsLocalText.append_iff hmark, hscheme]
      exact ⟨hlocaltext, hinfix⟩
    rw [ofHref?_of_isLocalText hkept, htext, takeWhile_href hmarks (by simpa using hmark),
      if_neg (mt List.isEmpty_iff.mp hne), hlocate, hlocal]

end Suffix

/-- A link up from the directory of a page, with a query in which a colon and a slash stand apart, a
fragment that looks like inline data, and a blank after it. -/
theorem suffix_keeps_local_link_iff_version :
    ofHref? "../css/a.css" (some (.ofText "/site/pages")) none =
      some (.file (.ofText "/site/css/a.css")) ∧
    ofHref? ("../css/a.css" ++ "?v=HTTP:/2#data: ") (some (.ofText "/site/pages")) none =
      some (.file (.ofText "/site/css/a.css")) := by
  have hlocal : ofHref? "../css/a.css" (some (.ofText "/site/pages")) none =
      some (.file (.ofText "/site/css/a.css")) := by decide +kernel
  have hkeeps := (@suffix_keeps_local_link_iff "../css/a.css" "?v=HTTP:/2#data: "
    (some (.ofText "/site/pages")) none _ '?' (by simp [IsSuffixMark]) (by decide) hlocal rfl
    (Or.inl rfl)).1
  exact ⟨hlocal, (hkeeps.mpr (by decide)).trans hlocal⟩

/-- An address in the query of a link to a file, and the link has no target. -/
theorem address_in_query_loses_link :
    ofHref? "x" (some (.ofText "/site")) none = some (.file (.ofText "/site/x")) ∧
    ofHref? ("x" ++ "?u=http://y") (some (.ofText "/site")) none = none := by
  decide +kernel

end StyleAudit
