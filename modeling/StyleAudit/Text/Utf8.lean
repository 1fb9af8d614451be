import StyleAudit.Text.Basic

/-!
# UTF-8

Texts are lists of characters, and names of files are bytes. Most names are the UTF-8 form of a
text, but any bytes without a separator may be one. What is shown of a name that is no text has a
replacement character for each run of bytes that starts like a character and is none.
-/

namespace StyleAudit.Text

/-- The UTF-8 form of a text. -/
def utf8 (cs : List Char) : List UInt8 := cs.flatMap String.utf8EncodeChar

theorem utf8_cons (c : Char) (cs : List Char) :
    utf8 (c :: cs) = String.utf8EncodeChar c ++ utf8 cs := rfl

theorem utf8_append (cs ds : List Char) : utf8 (cs ++ ds) = utf8 cs ++ utf8 ds :=
  List.flatMap_append

/-- The bytes that are still to be read come after those that were. -/
theorem toList_loop_append {bytes : ByteArray} {front rest : List UInt8}
    (h : bytes.data.toList = front ++ rest) (read : List UInt8) :
    ByteArray.toList.loop bytes front.length read = read.reverse ++ rest := by
  have hsize : bytes.size = front.length + rest.length := by
    rw [← List.length_append, ← h, Array.length_toList]
    rfl
  induction rest generalizing front read with
  | nil =>
    rw [ByteArray.toList.loop, if_neg (by simp [hsize]), List.append_nil]
  | cons b rest ih =>
    have hlt : front.length < bytes.size := by
      rw [hsize, List.length_cons]
      omega
    have hget : bytes.get! front.length = b := by
      have hfound : bytes.data[front.length]? = some b := by
        rw [← Array.getElem?_toList, h]
        simp
      rw [ByteArray.get!, getElem!_def, hfound]
    have hnext := @ih (front ++ [b]) (by rw [h, List.append_assoc]; rfl) (b :: read)
      (by rw [hsize, List.length_append, List.length_cons, List.length_singleton]; omega)
    rw [ByteArray.toList.loop, if_pos hlt, hget]
    rwa [List.length_append, List.length_singleton, List.reverse_cons, List.append_assoc] at hnext

/-- A string is stored as the bytes of its characters. -/
theorem toUTF8_toList (s : String) : s.toUTF8.toList = utf8 s.toList := by
  have hbytes : s.toUTF8 = (utf8 s.toList).toByteArray := by
    rw [String.toUTF8_eq_toByteArray, ← String.utf8Encode_toList]
    rfl
  have hdata : s.toUTF8.data.toList = [] ++ utf8 s.toList := by
    rw [hbytes, List.toList_data_toByteArray, List.nil_append]
  exact toList_loop_append hdata []

/-- Different texts have different forms. -/
theorem utf8_inj {cs ds : List Char} : utf8 cs = utf8 ds ↔ cs = ds := by
  refine ⟨fun h => ?_, fun h => congrArg utf8 h⟩
  have hbytes : cs.utf8Encode = ds.utf8Encode := congrArg List.toByteArray h
  have hstring : String.ofList cs = String.ofList ds := String.toByteArray_inj.mp hbytes
  simpa using congrArg String.toList hstring

/-- A byte below 128 is part of no character but the one with its code. -/
theorem mem_utf8EncodeChar_iff {c : Char} {b : UInt8} (hb : b.toNat < 128) :
    b ∈ String.utf8EncodeChar c ↔ c.toNat = b.toNat := by
  have hlarge : ∀ n, 128 ≤ n → n < 256 → b ≠ UInt8.ofNat n := by
    rintro n hn hlt rfl
    have hcode : (UInt8.ofNat n).toNat = n := UInt8.toNat_ofNat_of_lt hlt
    omega
  rw [String.utf8EncodeChar]
  split
  · next hsmall =>
    have hcode : (UInt8.ofNat c.val.toNat).toNat = c.val.toNat :=
      UInt8.toNat_ofNat_of_lt (Nat.lt_of_le_of_lt hsmall (by decide))
    rw [List.mem_singleton, ← UInt8.toNat_inj, hcode]
    exact eq_comm
  · next hwide =>
    -- all bytes of a longer character are from 128 on
    have hne : c.toNat ≠ b.toNat := fun heq => hwide (by show c.toNat ≤ 127; omega)
    refine iff_of_false ?_ hne
    split
    · simp only [List.mem_cons, List.not_mem_nil, or_false, not_or]
      exact ⟨hlarge _ (by omega) (by omega), hlarge _ (by omega) (by omega)⟩
    · split
      · simp only [List.mem_cons, List.not_mem_nil, or_false, not_or]
        exact ⟨hlarge _ (by omega) (by omega), hlarge _ (by omega) (by omega),
          hlarge _ (by omega) (by omega)⟩
      · simp only [List.mem_cons, List.not_mem_nil, or_false, not_or]
        exact ⟨hlarge _ (by omega) (by omega), hlarge _ (by omega) (by omega),
          hlarge _ (by omega) (by omega), hlarge _ (by omega) (by omega)⟩

/-- An ASCII byte occurs where its character does. -/
theorem mem_utf8_iff {c : Char} {b : UInt8} (hb : b.toNat < 128) (hc : c.toNat = b.toNat)
    {cs : List Char} : b ∈ utf8 cs ↔ c ∈ cs := by
  rw [utf8, List.mem_flatMap]
  constructor
  · rintro ⟨d, hd, hmem⟩
    have hcode := (mem_utf8EncodeChar_iff hb).mp hmem
    rwa [Char.toNat_inj.mp (hc.trans hcode.symm)]
  · exact fun hmem => ⟨c, hmem, (mem_utf8EncodeChar_iff hb).mpr hc⟩

/-! ### Bytes that are no text -/

/-- The character that stands for bytes that are no text. -/
def replacement : Char := '�'

/-- The first character of some bytes, if they start with one. -/
def firstChar? (bytes : List UInt8) : Option Char := bytes.toByteArray.utf8DecodeChar? 0

/-- Whether `second` may follow `first` in a character of three or four bytes. -/
def mayFollow (first second : UInt8) : Bool :=
  if first = 0xE0 then 0xA0 ≤ second && second ≤ 0xBF
  else if first = 0xED then 0x80 ≤ second && second ≤ 0x9F
  else if first = 0xF0 then 0x90 ≤ second && second ≤ 0xBF
  else if first = 0xF4 then 0x80 ≤ second && second ≤ 0x8F
  else 0xE1 ≤ first && first ≤ 0xF3 && 0x80 ≤ second && second ≤ 0xBF

/-- How many bytes after the first one a replacement character stands for, when there is no
character: those that could still belong to one. -/
def lostAfter (first : UInt8) : List UInt8 → Nat
  | [] => 0
  | second :: rest =>
    if mayFollow first second then
      match rest with
      | third :: _ => if 0xF0 ≤ first && 0x80 ≤ third && third ≤ 0xBF then 2 else 1
      | [] => 1
    else 0

/-- What is shown of some bytes after the first `skip` of them. -/
def shownFrom : (skip : Nat) → List UInt8 → List Char
  | _, [] => []
  | skip + 1, _ :: bytes => shownFrom skip bytes
  | 0, b :: bytes =>
    match firstChar? (b :: bytes) with
    | some c => c :: shownFrom (c.utf8Size - 1) bytes
    | none => replacement :: shownFrom (lostAfter b bytes) bytes

/-- What is shown of some bytes: the text that they are, or as much of it as there is. -/
def shown (bytes : List UInt8) : List Char := shownFrom 0 bytes

theorem firstChar?_utf8 (c : Char) (cs : List Char) : firstChar? (utf8 (c :: cs)) = some c := by
  rw [utf8_cons, firstChar?, List.toByteArray_append]
  exact ByteArray.utf8DecodeChar?_utf8EncodeChar_append

theorem shownFrom_append (front bytes : List UInt8) :
    shownFrom front.length (front ++ bytes) = shownFrom 0 bytes := by
  induction front with
  | nil => rfl
  | cons b front ih => exact ih

/-- A text is shown as it is. -/
theorem shown_utf8 (cs : List Char) : shown (utf8 cs) = cs := by
  induction cs with
  | nil => rfl
  | cons c cs ih =>
    obtain ⟨b, front, hc⟩ := List.exists_cons_of_ne_nil (@String.utf8EncodeChar_ne_nil c)
    have hbytes : utf8 (c :: cs) = b :: (front ++ utf8 cs) := by
      rw [utf8_cons, hc, List.cons_append]
    have hsize : c.utf8Size - 1 = front.length := by
      rw [← String.length_utf8EncodeChar c, hc, List.length_cons, Nat.add_sub_cancel]
    have hfirst := firstChar?_utf8 c cs
    rw [hbytes] at hfirst ⊢
    rw [shown, shownFrom, hfirst]
    simp only
    rw [hsize, shownFrom_append]
    exact congrArg (c :: ·) ih

/-- The text that bytes are the form of, if there is one. -/
def ofUtf8? (bytes : List UInt8) : Option (List Char) :=
  if utf8 (shown bytes) = bytes then some (shown bytes) else none

theorem ofUtf8?_eq_some_iff {bytes : List UInt8} {cs : List Char} :
    ofUtf8? bytes = some cs ↔ bytes = utf8 cs := by
  unfold ofUtf8?
  constructor
  · intro h
    split at h
    · next hform => rw [← Option.some.inj h, hform]
    · cases h
  · rintro rfl
    rw [shown_utf8, if_pos rfl]

end StyleAudit.Text
