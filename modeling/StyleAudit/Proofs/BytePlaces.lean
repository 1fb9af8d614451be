import StyleAudit.Bytes.Basic
import StyleAudit.Proofs.Cuts

/-!
# Byte offsets and characters

A scanner over bytes and a scanner over characters agree as long as the offset stands before the
same character. `At text i rest` says that it does: `rest` is what follows offset `i`. A byte
scanner may leave these places in two ways. A jump over a backslash and one more byte may land
inside a character, or past the end of the text.

* **`At.byteAt?`**, **`At.drop?`** and **`At.slice?`**: at such a place no index and no slice fails.
* **`Passes`**: a loop that only tests for characters of one byte walks through the bytes of a
  longer character, wherever in it the walk starts (**`Passes.tail`**).
* **`Reaches`** also allows for a place past the end.
-/

namespace StyleAudit.Bytes

open Text

/-! ### Bytes of a character -/

theorem encode_append (xs ys : List Char) : encode (xs ++ ys) = encode xs ++ encode ys :=
  List.flatMap_append

/-- The encoding is as long as the byte length says. -/
theorem length_encode (cs : List Char) : (encode cs).length = byteLen cs := by
  induction cs with
  | nil => rfl
  | cons c cs ih =>
    have hsplit : encode (c :: cs) = encode [c] ++ encode cs := encode_append [c] cs
    have hfirst : (encode [c]).length = c.utf8Size := by
      rw [encode, List.flatMap_singleton, List.length_map, String.length_utf8EncodeChar]
    rw [hsplit, List.length_append, hfirst, ih, byteLen_cons]

/-- A number below 256 survives as a byte. -/
theorem toNat_ofNat_of_lt {n : Nat} (h : n < 256) :
    (Char.ofNat (UInt8.ofNat n).toNat).toNat = n := by
  have hbyte : (UInt8.ofNat n).toNat = n := UInt8.toNat_ofNat_of_lt h
  rw [hbyte]
  have hvalid : n.isValidChar := Or.inl (by omega)
  rw [Char.ofNat, dif_pos hvalid]
  rfl

theorem utf8Size_eq_one_iff {c : Char} : c.utf8Size = 1 ↔ c.toNat ≤ 127 := by
  rw [Char.utf8Size_eq_one_iff, UInt32.le_iff_toNat_le]
  rfl

/-- A character of one byte is its own encoding. -/
theorem encode_cons_of_utf8Size {c : Char} (hc : c.utf8Size = 1) (cs : List Char) :
    encode (c :: cs) = c :: encode cs := by
  have hle : c.toNat ≤ 127 := utf8Size_eq_one_iff.mp hc
  have hfirst : String.utf8EncodeChar c = [UInt8.ofNat c.toNat] := if_pos hle
  have hbyte : Char.ofNat (UInt8.ofNat c.toNat).toNat = c := by
    have hnat : (UInt8.ofNat c.toNat).toNat = c.toNat :=
      UInt8.toNat_ofNat_of_lt (by omega : c.toNat < 256)
    rw [hnat, Char.ofNat_toNat]
  rw [encode, List.flatMap_cons, hfirst, List.map_singleton, hbyte]
  rfl

/-- No byte of a longer character is mistaken for a character of one byte. -/
theorem utf8Size_ne_of_mem_encode {c b : Char} (hc : c.utf8Size ≠ 1) (hb : b ∈ encode [c]) :
    b.utf8Size ≠ 1 := by
  have hlarge : ∀ n, 128 ≤ n → n < 256 → (Char.ofNat (UInt8.ofNat n).toNat).utf8Size ≠ 1 := by
    intro n hn hlt hsize
    rw [utf8Size_eq_one_iff, toNat_ofNat_of_lt hlt] at hsize
    omega
  have hc' : ¬c.val.toNat ≤ 127 := fun h => hc (utf8Size_eq_one_iff.mpr h)
  rw [encode, List.flatMap_singleton, String.utf8EncodeChar] at hb
  simp only [if_neg hc'] at hb
  -- two, three or four bytes, each of them at least 128
  split at hb
  · simp only [List.map_cons, List.map_nil, List.mem_cons, List.not_mem_nil, or_false] at hb
    rcases hb with rfl | rfl <;> exact hlarge _ (by omega) (by omega)
  · split at hb
    · simp only [List.map_cons, List.map_nil, List.mem_cons, List.not_mem_nil, or_false] at hb
      rcases hb with rfl | rfl | rfl <;> exact hlarge _ (by omega) (by omega)
    · simp only [List.map_cons, List.map_nil, List.mem_cons, List.not_mem_nil, or_false] at hb
      rcases hb with rfl | rfl | rfl | rfl <;> exact hlarge _ (by omega) (by omega)

/-- A byte of a wide character is no ASCII character. -/
theorem ne_of_utf8Size {b c : Char} (hb : b.utf8Size ≠ 1) (hc : c.utf8Size = 1) : b ≠ c := by
  rintro rfl
  exact hb hc

/-- A class of characters of one byte holds no byte of a longer character. -/
theorem eq_false_of_utf8Size {p : Char → Bool} (hp : ∀ c, p c = true → c.utf8Size = 1) {b : Char}
    (hb : b.utf8Size ≠ 1) : p b = false := by
  rw [Bool.eq_false_iff]
  exact fun h => hb (hp b h)

/-! ### Places -/

/-- `At text i rest`: offset `i` of the text is a place between characters, and `rest` follows. -/
def At (text : List Char) (i : Nat) (rest : List Char) : Prop :=
  ∃ front, text = front ++ rest ∧ byteLen front = i

variable {text rest xs ys cs : List Char} {i j : Nat} {c : Char}

theorem at_zero (text : List Char) : At text 0 text := ⟨[], rfl, rfl⟩

theorem At.add_byteLen (h : At text i rest) : i + byteLen rest = byteLen text := by
  obtain ⟨front, rfl, rfl⟩ := h
  rw [byteLen_append]

theorem At.append (h : At text i (xs ++ ys)) : At text (i + byteLen xs) ys := by
  obtain ⟨front, rfl, rfl⟩ := h
  refine ⟨front ++ xs, ?_, byteLen_append front xs⟩
  rw [List.append_assoc]

theorem At.next (h : At text i (c :: cs)) : At text (i + c.utf8Size) cs := by
  obtain ⟨front, rfl, rfl⟩ := h
  refine ⟨front ++ [c], ?_, byteLen_append front [c]⟩
  rw [List.append_assoc, List.singleton_append]

theorem At.succ (h : At text i (c :: cs)) (hc : c.utf8Size = 1) : At text (i + 1) cs := by
  have hnext := h.next
  rw [hc] at hnext
  exact hnext

theorem At.of_eq (h : At text i xs) (hxs : xs = ys) : At text i ys := by
  rw [← hxs]
  exact h

theorem At.lt (h : At text i (c :: cs)) : i < byteLen text := by
  have hlen := h.add_byteLen
  have hpos := c.utf8Size_pos
  rw [byteLen_cons] at hlen
  omega

/-- A place with less left lies further on. -/
theorem At.lt_of_append {j : Nat} (h : At text i (xs ++ ys)) (h' : At text j ys) (hxs : xs ≠ []) :
    i < j := by
  obtain ⟨c, cs, rfl⟩ := List.exists_cons_of_ne_nil hxs
  have hlen := h.add_byteLen
  have hlen' := h'.add_byteLen
  have hpos := c.utf8Size_pos
  rw [byteLen_append, byteLen_cons] at hlen
  omega

theorem At.encode (h : At text i rest) (k : Nat) :
    byteAt? text (i + k) = (Bytes.encode rest)[k]? := by
  obtain ⟨front, rfl, rfl⟩ := h
  rw [byteAt?, encode_append, ← length_encode front,
    List.getElem?_append_right (Nat.le_add_right ..), Nat.add_sub_cancel_left]

theorem At.byteAt? (h : At text i (c :: cs)) (hc : c.utf8Size = 1) :
    Bytes.byteAt? text i = some c := by
  have hat := h.encode 0
  rw [encode_cons_of_utf8Size hc] at hat
  exact hat

/-- Inside a wide character there is no ASCII byte. -/
theorem At.byteAt?_wide (h : At text i (c :: cs)) (hc : c.utf8Size ≠ 1) {k : Nat}
    (hk : k < c.utf8Size) : ∃ b, Bytes.byteAt? text (i + k) = some b ∧ b.utf8Size ≠ 1 := by
  have hlength : (Bytes.encode [c]).length = c.utf8Size := by
    rw [length_encode, byteLen_cons, byteLen_nil, Nat.add_zero]
  have hlt : k < (Bytes.encode [c]).length := by omega
  have hsplit : Bytes.encode (c :: cs) = Bytes.encode [c] ++ Bytes.encode cs := encode_append [c] cs
  refine ⟨(Bytes.encode [c])[k], ?_, utf8Size_ne_of_mem_encode hc (List.getElem_mem hlt)⟩
  rw [h.encode, hsplit, List.getElem?_append_left hlt, List.getElem?_eq_getElem]

/-- The byte after a character of one byte tells whether a given such character comes next. -/
theorem At.byteAt?_next (h : At text i (c :: cs)) (hc : c.utf8Size = 1) {d : Char}
    (hd : d.utf8Size = 1) : Bytes.byteAt? text (i + 1) = some d ↔ cs.head? = some d := by
  have hnext : At text (i + 1) cs := h.succ hc
  cases cs with
  | nil =>
    have hbyte : Bytes.byteAt? text (i + 1) = none := hnext.encode 0
    rw [hbyte, List.head?_nil]
  | cons e es =>
    by_cases he : e.utf8Size = 1
    · rw [hnext.byteAt? he, List.head?_cons]
    · -- `d` is ASCII, and neither `e` nor any byte of it is
      obtain ⟨b, hbyte, hb⟩ := hnext.byteAt?_wide he (k := 0) e.utf8Size_pos
      refine ⟨fun hsome => ?_, fun hhead => ?_⟩
      · rw [Option.some.inj (hbyte.symm.trans hsome)] at hb
        exact absurd hd hb
      · rw [Option.some.inj hhead] at he
        exact absurd hd he

/-- A class of characters of one byte can be tested on bytes. -/
theorem At.any_byteAt? (h : At text i rest) {p : Char → Bool}
    (hp : ∀ c, p c = true → c.utf8Size = 1) : (Bytes.byteAt? text i).any p = rest.head?.any p := by
  cases rest with
  | nil =>
    have hbyte : Bytes.byteAt? text i = none := h.encode 0
    rw [hbyte, List.head?_nil]
  | cons c cs =>
    by_cases hc : c.utf8Size = 1
    · rw [h.byteAt? hc, List.head?_cons]
    · obtain ⟨b, hbyte, hb⟩ := h.byteAt?_wide hc (k := 0) c.utf8Size_pos
      rw [Nat.add_zero] at hbyte
      rw [hbyte, List.head?_cons, Option.any_some, Option.any_some, eq_false_of_utf8Size hp hb,
        eq_false_of_utf8Size hp hc]

theorem lt_of_byteAt? {b : Char} (h : byteAt? text i = some b) : i < byteLen text := by
  rw [← length_encode]
  exact (List.getElem?_eq_some_iff.mp h).1

/-- A slice from a place between characters does not fail. -/
theorem At.drop? (h : At text i rest) : Bytes.drop? i text = some rest := by
  obtain ⟨front, rfl, rfl⟩ := h
  induction front with
  | nil => rw [byteLen_nil, Bytes.drop?]; rfl
  | cons c front ih =>
    have hpos := c.utf8Size_pos
    obtain ⟨n, hn⟩ := Nat.exists_eq_succ_of_ne_zero (by omega : c.utf8Size + byteLen front ≠ 0)
    rw [byteLen_cons, List.cons_append, hn, Bytes.drop?, if_pos (by omega), ← ih]
    congr 1
    omega

/-- A slice up to a place between characters does not fail. -/
theorem take?_append (xs ys : List Char) : take? (byteLen xs) (xs ++ ys) = some xs := by
  induction xs with
  | nil => rw [byteLen_nil, take?]
  | cons c xs ih =>
    have hpos := c.utf8Size_pos
    obtain ⟨n, hn⟩ := Nat.exists_eq_succ_of_ne_zero (by omega : c.utf8Size + byteLen xs ≠ 0)
    have hrest : n + 1 - c.utf8Size = byteLen xs := by omega
    rw [byteLen_cons, List.cons_append, hn, take?, if_pos (by omega), hrest, ih]
    rfl

/-- A slice between two places does not fail. -/
theorem At.slice? (h : At text i (xs ++ ys)) (hj : At text j ys) :
    Bytes.slice? text i j = some xs := by
  have hlen := h.add_byteLen
  have hlen' := hj.add_byteLen
  rw [byteLen_append] at hlen
  have hwidth : j - i = byteLen xs := by omega
  rw [Bytes.slice?, if_pos (by omega), h.drop?, hwidth]
  exact take?_append xs ys

/-- A slice succeeds only from a place between characters. -/
theorem at_of_drop? (h : Bytes.drop? i text = some rest) : At text i rest := by
  induction text generalizing i with
  | nil =>
    cases i with
    | zero =>
      rw [Bytes.drop?] at h
      rw [← Option.some.inj h]
      exact at_zero []
    | succ n => exact absurd h (by simp [Bytes.drop?])
  | cons c text ih =>
    cases i with
    | zero =>
      rw [Bytes.drop?] at h
      rw [← Option.some.inj h]
      exact at_zero (c :: text)
    | succ n =>
      rw [Bytes.drop?] at h
      split at h
      · next hle =>
        obtain ⟨front, rfl, hfront⟩ := ih h
        refine ⟨c :: front, rfl, ?_⟩
        rw [byteLen_cons]
        omega
      · exact absurd h (by simp)

/-- A slice succeeds only up to a place between characters. -/
theorem eq_append_of_take? {n : Nat} (h : take? n cs = some xs) :
    byteLen xs = n ∧ ∃ ys, cs = xs ++ ys := by
  induction cs generalizing n xs with
  | nil =>
    cases n with
    | zero =>
      rw [take?] at h
      rw [← Option.some.inj h]
      exact ⟨rfl, [], rfl⟩
    | succ n => exact absurd h (by simp [take?])
  | cons c cs ih =>
    cases n with
    | zero =>
      rw [take?] at h
      rw [← Option.some.inj h]
      exact ⟨rfl, c :: cs, rfl⟩
    | succ n =>
      rw [take?] at h
      split at h
      · next hle =>
        obtain ⟨front, hfront, rfl⟩ := Option.map_eq_some_iff.mp h
        obtain ⟨hlen, ys, rfl⟩ := ih hfront
        refine ⟨?_, ys, rfl⟩
        rw [byteLen_cons]
        omega
      · exact absurd h (by simp)

/-- A slice that does not fail lies between two places. -/
theorem at_of_slice? (h : slice? text i j = some xs) :
    ∃ ys, At text i (xs ++ ys) ∧ At text j ys := by
  unfold slice? at h
  split at h
  · next hle =>
    obtain ⟨rest, hrest, htake⟩ := Option.bind_eq_some_iff.mp h
    obtain ⟨hlen, ys, rfl⟩ := eq_append_of_take? htake
    have hat := at_of_drop? hrest
    have hnext := hat.append
    rw [show i + byteLen xs = j from by omega] at hnext
    exact ⟨ys, hat, hnext⟩
  · exact absurd h (by simp)

/-- A place of a slice is a place of the text. -/
theorem At.within {inner after : List Char} (h : At text i (inner ++ after))
    (hj : At inner j rest) :
    At text (i + j) (rest ++ after) := by
  obtain ⟨front, rfl, rfl⟩ := h
  obtain ⟨inside, rfl, rfl⟩ := hj
  refine ⟨front ++ inside, ?_, byteLen_append front inside⟩
  simp only [List.append_assoc]

/-- What is cut out of a slice can be cut out of the text, at offsets counted from its start. -/
theorem slice?_slice? {inner : List Char} {start stop : Nat} (h : slice? text i j = some inner)
    (hinner : slice? inner start stop = some xs) :
    slice? text (i + start) (i + stop) = some xs := by
  obtain ⟨after, hat, _⟩ := at_of_slice? h
  obtain ⟨ys, hstart, hstop⟩ := at_of_slice? hinner
  exact ((hat.within hstart).of_eq (List.append_assoc ..)).slice? (hat.within hstop)

/-- The places of a text are determined by what follows. -/
theorem At.unique (h : At text i rest) (hj : At text j rest) : i = j := by
  have hlen := h.add_byteLen
  have hlen' := hj.add_byteLen
  omega

/-- What trimming takes off is the run of leading characters. -/
theorem byteLen_sub_trimLeft (p : Char → Bool) (cs : List Char) :
    byteLen cs - byteLen (trimLeft p cs) = byteLen (cs.takeWhile p) := by
  have hsplit : byteLen cs = byteLen (cs.takeWhile p) + byteLen (trimLeft p cs) := by
    rw [← byteLen_append, trimLeft, List.takeWhile_append_dropWhile]
  omega

/-! ### Places past the end -/

/-- `Reaches text i rest`: offset `i` stands before `rest`, or past the end of the text. -/
def Reaches (text : List Char) (i : Nat) (rest : List Char) : Prop :=
  At text i rest ∨ rest = [] ∧ byteLen text ≤ i

theorem At.reaches (h : At text i rest) : Reaches text i rest := .inl h

/-- Where there is a character left, the place is exact. -/
theorem Reaches.at_cons (h : Reaches text i (c :: cs)) : At text i (c :: cs) := by
  rcases h with h | ⟨hnil, _⟩
  · exact h
  · exact absurd hnil (List.cons_ne_nil c cs)

/-- With nothing left, the place is at the end of the text or behind it. -/
theorem Reaches.le (h : Reaches text i []) : byteLen text ≤ i := by
  rcases h with h | ⟨_, hle⟩
  · exact Nat.le_of_eq h.add_byteLen.symm
  · exact hle

/-- One byte after a place that a character of one byte follows, or after the end. -/
theorem At.reaches_tail (h : At text i rest) (hrest : ∀ c ∈ rest.head?, c.utf8Size = 1) :
    Reaches text (i + 1) rest.tail := by
  cases rest with
  | nil =>
    have hlen := h.add_byteLen
    exact .inr ⟨rfl, by rw [byteLen_nil] at hlen; omega⟩
  | cons c cs => exact .inl (h.succ (hrest c rfl))

/-! ### Loops that pass over characters -/

/-- `Passes text P g`: the loop `g` over offsets takes one step over a byte of class `P`, and all
bytes of longer characters are of this class. -/
structure Passes {β : Type} (text : List Char) (P : Char → Prop) (g : Nat → β) : Prop where
  wide : ∀ b : Char, b.utf8Size ≠ 1 → P b
  step : ∀ j b, byteAt? text j = some b → P b → g j = g (j + 1)

section Passes

variable {β : Type} {P : Char → Prop} {g : Nat → β}

/-- From any byte of a longer character the loop comes to its end. -/
theorem Passes.wide_char (hg : Passes text P g) (h : At text i (c :: cs)) (hc : c.utf8Size ≠ 1)
    {k : Nat} (hk : k ≤ c.utf8Size) : g (i + k) = g (i + c.utf8Size) := by
  -- induction on the number of bytes that are left
  induction hleft : c.utf8Size - k generalizing k with
  | zero =>
    have hkc : k = c.utf8Size := by omega
    rw [hkc]
  | succ left ih =>
    obtain ⟨b, hbyte, hb⟩ := h.byteAt?_wide hc (by omega : k < c.utf8Size)
    rw [hg.step _ b hbyte (hg.wide b hb)]
    exact ih (k := k + 1) (by omega) (by omega)

theorem Passes.char (hg : Passes text P g) (h : At text i (c :: cs)) (hc : P c) :
    g i = g (i + c.utf8Size) := by
  by_cases hsize : c.utf8Size = 1
  · rw [hsize]
    exact hg.step i c (h.byteAt? hsize) hc
  · exact hg.wide_char (k := 0) h hsize (Nat.zero_le _)

/-- One byte into a character is as good as past it. -/
theorem Passes.tail (hg : Passes text P g) (h : At text i (c :: cs)) :
    g (i + 1) = g (i + c.utf8Size) := by
  by_cases hsize : c.utf8Size = 1
  · rw [hsize]
  · exact hg.wide_char h hsize c.utf8Size_pos

end Passes

/-- `Runs P g`: the loop `g` over the bytes of a text, with the offset of the first of them, takes
one step over a byte of class `P`, and all bytes of longer characters are of this class. -/
structure Runs {β : Type} (P : Char → Prop) (g : Nat → List Char → β) : Prop where
  wide : ∀ b : Char, b.utf8Size ≠ 1 → P b
  step : ∀ i b bs, P b → g i (b :: bs) = g (i + 1) bs

section Runs

variable {β : Type} {P : Char → Prop} {g : Nat → List Char → β}

/-- A run of passed bytes is passed. -/
theorem Runs.bytes (hg : Runs P g) {bs : List Char} (hbs : ∀ b ∈ bs, P b) (i : Nat)
    (more : List Char) : g i (bs ++ more) = g (i + bs.length) more := by
  induction bs generalizing i with
  | nil => rfl
  | cons b bs ih =>
    rw [List.cons_append, hg.step i b _ (hbs b List.mem_cons_self),
      ih fun d hd => hbs d (List.mem_cons_of_mem b hd), List.length_cons,
      show i + 1 + bs.length = i + (bs.length + 1) from by omega]

/-- A run of passed characters is passed: their bytes are ASCII or belong to wide characters. -/
theorem Runs.chars (hg : Runs P g) (hxs : ∀ c ∈ xs, P c) (i : Nat) (ys : List Char) :
    g i (Bytes.encode (xs ++ ys)) = g (i + byteLen xs) (Bytes.encode ys) := by
  rw [encode_append, ← length_encode xs]
  refine hg.bytes (fun b hb => ?_) i _
  obtain ⟨c, hc, hmem⟩ := List.mem_flatMap.mp hb
  by_cases hsize : c.utf8Size = 1
  · -- the only byte of `c` is `c`
    have hsingle : Bytes.encode [c] = [c] := encode_cons_of_utf8Size hsize []
    have hbyte : b ∈ Bytes.encode [c] := by
      rw [Bytes.encode, List.flatMap_singleton]
      exact hmem
    rw [hsingle, List.mem_singleton] at hbyte
    rw [hbyte]
    exact hxs c hc
  · refine hg.wide b (utf8Size_ne_of_mem_encode hsize ?_)
    rw [Bytes.encode, List.flatMap_singleton]
    exact hmem

end Runs

end StyleAudit.Bytes
