import Mathlib.Data.String.Basic
import StyleAudit.Text.Cursor
import StyleAudit.Text.Fold

/-!
# Slices of slices

A slice of a slice of a text is a slice of the text. Scanners cut texts into pieces and those into
smaller ones, and each time compute the offset of the piece anew; this module says for each way of
cutting that the offset is right.

* **`Slice.Inside`** relates a piece to the slice it was cut from. It composes (`Inside.trans`).
* **`Slice.inside_trim`**, **`Cursor.IsIn.toSlice_inside`** and **`Slice.Inside.dropTo`** are about
  ways of cutting.
* **`Text.Masked`** relates a text to a copy with the same byte offsets in which some characters are
  replaced by fillers, and **`Text.Masked.part`** finds a piece of the copy that holds no filler in
  the text itself.
* **`Slice.IsPartOf.isValid`** and **`Slice.IsPartOf.extract`** say what a slice of a whole text is:
  its ends are boundaries of characters, and its text stands between them.
-/

namespace StyleAudit

open Text

/-! ### Pieces of a text -/

namespace Slice

/-- `s.Inside t`: the slice `t` holds the characters of `s` at the offset of `s`. -/
def Inside (s t : Slice) : Prop :=
  ∃ before after, t.text = before ++ s.text ++ after ∧ s.offset = t.offset + byteLen before

variable {s t u : Slice}

theorem Inside.refl (s : Slice) : s.Inside s :=
  ⟨[], [], by simp, by simp⟩

theorem Inside.trans (hst : s.Inside t) (htu : t.Inside u) : s.Inside u := by
  obtain ⟨before, after, htext, hoffset⟩ := hst
  obtain ⟨before', after', htext', hoffset'⟩ := htu
  refine ⟨before' ++ before, after ++ after', ?_, ?_⟩
  · rw [htext', htext]
    simp only [List.append_assoc]
  · rw [hoffset, hoffset', byteLen_append]
    omega

/-- `s.Covers offset`: the byte at the offset is one of the slice. -/
def Covers (s : Slice) (offset : Nat) : Prop := s.offset ≤ offset ∧ offset < s.stop

instance (s : Slice) (offset : Nat) : Decidable (s.Covers offset) :=
  inferInstanceAs (Decidable (_ ∧ _))

theorem Inside.bounds (h : s.Inside t) : t.offset ≤ s.offset ∧ s.stop ≤ t.stop := by
  obtain ⟨before, after, htext, hoffset⟩ := h
  simp only [stop, htext, byteLen_append]
  omega

/-- The first characters of a slice. -/
theorem inside_of_append {front rest : List Char} (h : s.text = front ++ rest) :
    Inside ⟨s.offset, front⟩ s :=
  ⟨[], rest, by simpa using h, by simp⟩

/-- The last characters of a slice. -/
theorem inside_of_after {front rest : List Char} (h : s.text = front ++ rest) :
    Inside ⟨s.offset + byteLen front, rest⟩ s :=
  ⟨front, [], by simpa using h, rfl⟩

/-- The characters after a first one of a single byte. -/
theorem inside_of_cons {c : Char} {rest : List Char} (h : s.text = c :: rest)
    (hc : c.utf8Size = 1) : Inside ⟨s.offset + 1, rest⟩ s := by
  refine ⟨[c], [], by simpa using h, ?_⟩
  simp [hc]

/-- What follows a piece, kept last character first, and a separator of a single byte. -/
theorem inside_of_separator {start : Nat} {piece rest : List Char} {c : Char}
    (hc : c.utf8Size = 1) :
    Inside ⟨start + byteLen piece + 1, rest⟩ ⟨start, piece.reverse ++ c :: rest⟩ := by
  refine ⟨piece.reverse ++ [c], [], by simp, ?_⟩
  show start + byteLen piece + 1 = start + byteLen (piece.reverse ++ [c])
  rw [byteLen_append, byteLen_reverse, byteLen_cons, byteLen_nil, hc]
  omega

theorem inside_trimLeft (p : Char → Bool) (s : Slice) : (s.trimLeft p).Inside s :=
  inside_of_after (List.takeWhile_append_dropWhile).symm

theorem inside_trimRight (p : Char → Bool) (s : Slice) : (s.trimRight p).Inside s := by
  have hsplit : s.text = Text.trimRight p s.text ++ (s.text.reverse.takeWhile p).reverse := by
    rw [Text.trimRight, ← List.reverse_append, List.takeWhile_append_dropWhile,
      List.reverse_reverse]
  exact inside_of_append hsplit

theorem inside_trim (p : Char → Bool) (s : Slice) : (s.trim p).Inside s :=
  (inside_trimRight p _).trans (inside_trimLeft p s)

/-- A first character that is not trimmed stays first. -/
theorem head?_trimRight {p : Char → Bool} {c : Char} (hc : p c = false) (cs : List Char) :
    (Text.trimRight p (c :: cs)).head? = some c := by
  rw [Text.trimRight, List.head?_reverse, List.reverse_cons, List.dropWhile_append,
    List.dropWhile_cons, hc, if_neg Bool.false_ne_true]
  split
  · rfl
  · exact List.getLast?_concat

/-- A slice that begins with a kept character still begins with it after trimming. -/
theorem head?_trim {p : Char → Bool} {c : Char} (hc : p c = false) (offset : Nat)
    (cs : List Char) : ((⟨offset, c :: cs⟩ : Slice).trim p).text.head? = some c := by
  have hleft : (c :: cs).dropWhile p = c :: cs := by
    rw [List.dropWhile_cons, hc, if_neg Bool.false_ne_true]
  change (Text.trimRight p ((c :: cs).dropWhile p)).head? = some c
  rw [hleft]
  exact head?_trimRight hc cs

/-- Bytes are dropped at the boundary of a character. -/
theorem dropBytes_append (front rest : List Char) :
    dropBytes (byteLen front) (front ++ rest) = rest := by
  induction front with
  | nil => simp [dropBytes]
  | cons c front ih =>
    have hpos : 0 < c.utf8Size := c.utf8Size_pos
    obtain ⟨n, hn⟩ : ∃ n, c.utf8Size + byteLen front = n + 1 :=
      ⟨c.utf8Size + byteLen front - 1, by omega⟩
    have hrest : n + 1 - c.utf8Size = byteLen front := by omega
    rw [byteLen_cons, hn, List.cons_append, dropBytes, hrest]
    exact ih

/-- The rest of a slice from where a piece of it starts. -/
theorem Inside.dropTo (h : s.Inside t) : (t.dropTo s.offset).Inside t := by
  obtain ⟨before, after, htext, hoffset⟩ := h
  have hbytes : s.offset - t.offset = byteLen before := by omega
  have hdrop : dropBytes (byteLen before) t.text = s.text ++ after := by
    rw [htext, List.append_assoc]
    exact dropBytes_append before _
  refine ⟨before, [], ?_, hoffset⟩
  rw [Slice.dropTo, hbytes, hdrop, htext]
  simp

end Slice

namespace Cursor

/-- The text from a place on. -/
theorem IsIn.toSlice_inside {cur : Cursor} {s : Slice} (h : cur.IsIn s) : cur.toSlice.Inside s := by
  refine ⟨cur.before.reverse, [], ?_, ?_⟩
  · rw [← h.1]
    simp [toSlice]
  · rw [byteLen_reverse]
    exact h.2

theorem IsIn.seek {cur : Cursor} {s : Slice} (h : cur.IsIn s) (rest : List Char) :
    (cur.seek rest).IsIn s :=
  h.advance _

/-- The distance to the rest of a text is what stands before it. -/
theorem distance_append (offset : Nat) (before front rest : List Char) :
    distance ⟨offset, before, front ++ rest⟩ rest = front.length := by
  rw [distance, List.length_append, Nat.add_sub_cancel]

theorem advance_append (offset : Nat) (before front rest : List Char) :
    advance front.length ⟨offset, before, front ++ rest⟩ =
      ⟨offset + byteLen front, front.reverse ++ before, rest⟩ := by
  simp [advance]

/-- Seeking the rest of a text does what advancing over its front does. -/
theorem seek_append (offset : Nat) (before front rest : List Char) :
    seek ⟨offset, before, front ++ rest⟩ rest =
      ⟨offset + byteLen front, front.reverse ++ before, rest⟩ := by
  rw [seek, distance_append, advance_append]

/-- Seeking an ending of the text arrives there. -/
theorem rest_seek {cur : Cursor} {rest : List Char} (h : rest <:+ cur.rest) :
    (cur.seek rest).rest = rest := by
  obtain ⟨offset, before, _⟩ := cur
  obtain ⟨front, rfl⟩ := h
  rw [seek_append]

end Cursor

/-! ### Masked texts -/

namespace Text

/-- `Masked P cs ms`: the text `ms` is `cs` with some characters replaced by fillers, one for each
of their bytes. Fillers satisfy `P`. -/
inductive Masked (P : Char → Prop) : List Char → List Char → Prop
  | nil : Masked P [] []
  | keep (c : Char) {cs ms : List Char} : Masked P cs ms → Masked P (c :: cs) (c :: ms)
  | hide (c filler : Char) {cs ms : List Char} : P filler → Masked P cs ms →
      Masked P (c :: cs) (List.replicate c.utf8Size filler ++ ms)

variable {P : Char → Prop} {cs ms : List Char}

/-- A run of a filler of one byte is as many bytes long as it has characters. -/
theorem byteLen_replicate {filler : Char} (h : filler.utf8Size = 1) (n : Nat) :
    byteLen (List.replicate n filler) = n := by
  induction n with
  | zero => rfl
  | succ n ih =>
    rw [List.replicate_succ, byteLen_cons, ih, h]
    omega

/-- A start of the masked text that holds no filler starts the text itself. -/
theorem Masked.front (h : Masked P cs ms) {raw after : List Char} (hms : ms = raw ++ after)
    (hraw : ∀ c ∈ raw, ¬P c) : ∃ after', cs = raw ++ after' := by
  induction h generalizing raw with
  | nil =>
    obtain ⟨rfl, _⟩ := List.append_eq_nil_iff.mp hms.symm
    exact ⟨[], rfl⟩
  | @keep c cs ms _ ih =>
    cases raw with
    | nil => exact ⟨c :: cs, rfl⟩
    | cons r raw =>
      obtain ⟨rfl, hrest⟩ := List.cons.inj hms
      obtain ⟨after', rfl⟩ := ih hrest fun d hd => hraw d (by simp [hd])
      exact ⟨after', rfl⟩
  | @hide c filler cs ms hfiller _ _ =>
    cases raw with
    | nil => exact ⟨c :: cs, rfl⟩
    | cons r raw =>
      -- a character has at least one byte, so `r` is a filler
      obtain ⟨n, hn⟩ : ∃ n, c.utf8Size = n + 1 := ⟨c.utf8Size - 1, by have := c.utf8Size_pos; omega⟩
      rw [hn, List.replicate_succ] at hms
      obtain ⟨rfl, _⟩ := List.cons.inj hms
      exact absurd hfiller (hraw _ (by simp))

/-- A piece of the masked text that holds no filler is a piece of the text, at the same offset. -/
theorem Masked.part (h : Masked P cs ms) (hP : ∀ c, P c → c.utf8Size = 1)
    {before raw after : List Char} (hms : ms = before ++ raw ++ after) (hne : raw ≠ [])
    (hraw : ∀ c ∈ raw, ¬P c) :
    ∃ before' after', cs = before' ++ raw ++ after' ∧ byteLen before' = byteLen before := by
  induction h generalizing before with
  | nil =>
    have hnil := (List.append_eq_nil_iff.mp hms.symm).1
    exact absurd (List.append_eq_nil_iff.mp hnil).2 hne
  | @keep c cs ms hmasked ih =>
    cases before with
    | nil =>
      rw [List.nil_append] at hms
      obtain ⟨after', hcs⟩ := (Masked.keep c hmasked).front hms hraw
      exact ⟨[], after', by simpa using hcs, rfl⟩
    | cons b before =>
      obtain ⟨rfl, hrest⟩ := List.cons.inj hms
      obtain ⟨before', after', rfl, hlen⟩ := ih hrest
      exact ⟨c :: before', after', by simp, by simp [hlen]⟩
  | @hide c filler cs ms hfiller hmasked ih =>
    rw [List.append_assoc] at hms
    rcases List.append_eq_append_iff.mp hms with ⟨before₂, rfl, hrest⟩ | ⟨extra, hextra, hrest⟩
    · obtain ⟨before', after', rfl, hlen⟩ := ih (hrest.trans (List.append_assoc ..).symm)
      refine ⟨c :: before', after', by simp, ?_⟩
      rw [byteLen_cons, byteLen_append, byteLen_replicate (hP filler hfiller), hlen]
    · cases extra with
      | nil =>
        -- the piece starts right after the fillers
        have hms' : ms = [] ++ raw ++ after := by simpa using hrest.symm
        obtain ⟨before', after', rfl, hlen⟩ := ih hms'
        refine ⟨c :: before', after', by simp, ?_⟩
        rw [List.append_nil] at hextra
        rw [byteLen_cons, hlen, ← hextra, byteLen_replicate (hP filler hfiller), byteLen_nil]
        rfl
      | cons o extra =>
        -- the piece would start with a filler
        obtain ⟨r, raw, rfl⟩ := List.exists_cons_of_ne_nil hne
        obtain ⟨rfl, _⟩ := List.cons.inj hrest
        have hmem : r ∈ List.replicate c.utf8Size filler := by rw [hextra]; simp
        rw [List.eq_of_mem_replicate hmem] at hraw
        exact absurd hfiller (hraw filler (by simp))

end Text

/-! ### Pieces of a string -/

namespace Slice

/-- The byte length is the length of the UTF-8 encoding. -/
theorem byteLen_eq_utf8Len (cs : List Char) : byteLen cs = String.utf8Len cs := by
  induction cs with
  | nil => rfl
  | cons c cs ih =>
    rw [byteLen_cons, String.utf8Len_cons, ih]
    omega

theorem utf8ByteSize_eq_byteLen (text : String) : text.utf8ByteSize = byteLen text.toList := by
  rw [byteLen_eq_utf8Len, ← String.utf8ByteSize_ofList, String.ofList_toList]

theorem Inside.isPartOf {s : Slice} {cs : List Char} (h : s.Inside (.ofText cs)) :
    s.IsPartOf cs := by
  obtain ⟨before, after, htext, hoffset⟩ := h
  exact ⟨before, after, htext, (hoffset.trans (Nat.zero_add _)).symm⟩

variable {s : Slice} {text : String}

/-- The end of the first characters of a text is the boundary of a character. -/
theorem isValid_of_append {front rest : List Char} (h : text.toList = front ++ rest) :
    String.Pos.Raw.IsValid text ⟨byteLen front⟩ := by
  rw [String.Pos.Raw.isValid_iff_exists_append]
  refine ⟨String.ofList front, String.ofList rest, ?_, ?_⟩
  · rw [← String.ofList_append, ← h, String.ofList_toList]
  · rw [byteLen_eq_utf8Len, ← String.utf8ByteSize_ofList]
    rfl

/-- A piece of a text starts and ends at boundaries of characters. -/
theorem IsPartOf.isValid (h : s.IsPartOf text.toList) :
    String.Pos.Raw.IsValid text ⟨s.offset⟩ ∧ String.Pos.Raw.IsValid text ⟨s.stop⟩ := by
  obtain ⟨before, after, htext, hoffset⟩ := h
  refine ⟨?_, ?_⟩
  · rw [← hoffset]
    exact isValid_of_append (htext.trans (List.append_assoc ..))
  · rw [stop, ← hoffset, ← byteLen_append]
    exact isValid_of_append htext

theorem IsPartOf.stop_le (h : s.IsPartOf text.toList) : s.stop ≤ text.utf8ByteSize := by
  obtain ⟨before, after, htext, hoffset⟩ := h
  rw [utf8ByteSize_eq_byteLen, htext, stop, ← hoffset, byteLen_append, byteLen_append]
  omega

/-- What stands between the ends of a piece is the piece. -/
theorem IsPartOf.extract (h : s.IsPartOf text.toList) :
    String.Pos.Raw.extract text ⟨s.offset⟩ ⟨s.stop⟩ = String.ofList s.text := by
  obtain ⟨before, after, htext, hoffset⟩ := h
  have hpiece := String.extract_of_valid before s.text after
  rw [← htext, String.ofList_toList, ← byteLen_eq_utf8Len, ← byteLen_eq_utf8Len, hoffset] at hpiece
  exact hpiece

end Slice

end StyleAudit
