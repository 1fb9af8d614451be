import StyleAudit.Bytes.Stylesheet
import StyleAudit.Proofs.EscapedNames

/-!
# Compound selectors

A compound selector is a row of classes, ids and attribute selectors without blanks between them.
Names may hold any character, since they are written with escapes. A scan for names reads each name
up to the marker or bracket that comes next, and passes over attribute selectors as a whole,
whatever stands in them.

* **`Compound.Balanced`** says what may stand between the brackets of an attribute selector, and
  **`Compound.Balanced.attributeLength_append`** that the scan follows its brackets and quotes.
* **`Compound.tokenRecogniser_attribute`** and **`Compound.tokenRecogniser_name`** read one part.
* **`Compound.scan_textOf`** goes through all parts, one after the other.
* **`Compound.tokens_insert`** compares a selector with and without one of its attribute selectors.
-/

namespace StyleAudit

open Text

namespace Compound

/-! ### Attribute selectors -/

/-- `Balanced cs`: brackets outside of quotes come in pairs, quotes are closed, and there is no
backslash. -/
inductive Balanced : List Char → Prop
  | nil : Balanced []
  | plain {c : Char} {cs : List Char} : c ∉ ['[', ']', '\x27', '\x22', '\\'] → Balanced cs →
      Balanced (c :: cs)
  | quoted {quote : Char} {body cs : List Char} : quote ∈ ['\x27', '\x22'] → quote ∉ body →
      '\\' ∉ body → Balanced cs → Balanced (quote :: (body ++ quote :: cs))
  | bracketed {inner cs : List Char} : Balanced inner → Balanced cs →
      Balanced ('[' :: (inner ++ ']' :: cs))

/-- One step over an attribute outside its quotes. -/
theorem attributeLength_cons {c : Char} (hc : c ≠ '\\') (depth : Nat) (cs : List Char) :
    attributeLength depth none (c :: cs) =
      if c = '[' then 1 + attributeLength (depth + 1) none cs
      else if c = ']' then if depth ≤ 1 then 1 else 1 + attributeLength (depth - 1) none cs
      else if c = '\x27' ∨ c = '\x22' then 1 + attributeLength depth (some c) cs
      else 1 + attributeLength depth none cs := by
  rw [attributeLength]
  · exact fun h => absurd h hc
  · exact fun _ _ h => absurd h hc

/-- One step over an attribute inside its quotes. -/
theorem attributeLength_quoted_cons {c : Char} (hc : c ≠ '\\') (depth : Nat) (quote : Char)
    (cs : List Char) :
    attributeLength depth (some quote) (c :: cs) =
      1 + attributeLength depth (if c = quote then none else some quote) cs := by
  rw [attributeLength]
  · exact fun h => absurd h hc
  · exact fun _ _ h => absurd h hc

/-- A string in an attribute selector is passed over up to the quote that closes it. -/
theorem attributeLength_quoted {quote : Char} {body : List Char} (hquote : quote ≠ '\\')
    (hbody : quote ∉ body) (hbackslash : '\\' ∉ body) (depth : Nat) (rest : List Char) :
    attributeLength depth (some quote) (body ++ quote :: rest) =
      body.length + 1 + attributeLength depth none rest := by
  induction body with
  | nil =>
    rw [List.nil_append, attributeLength_quoted_cons hquote, if_pos rfl]
    rfl
  | cons c body ih =>
    rw [List.mem_cons, not_or] at hbody hbackslash
    rw [List.cons_append, attributeLength_quoted_cons (Ne.symm hbackslash.1),
      if_neg (Ne.symm hbody.1), ih hbody.2 hbackslash.2, List.length_cons]
    omega

/-- The text between brackets is passed over as a whole. The induction follows the pairs of
brackets; the depth goes up by one inside of a pair and is back where it was behind it. -/
theorem Balanced.attributeLength_append {cs : List Char} (h : Balanced cs) (depth : Nat)
    (rest : List Char) :
    attributeLength (depth + 1) none (cs ++ rest) =
      cs.length + attributeLength (depth + 1) none rest := by
  induction h generalizing depth rest with
  | nil => simp
  | @plain c cs hc _ ih =>
    simp only [List.mem_cons, List.not_mem_nil, or_false, not_or] at hc
    obtain ⟨hopen, hclose, hsingle, hdouble, hbackslash⟩ := hc
    rw [List.cons_append, attributeLength_cons hbackslash, if_neg hopen, if_neg hclose,
      if_neg (not_or.mpr ⟨hsingle, hdouble⟩), ih, List.length_cons]
    omega
  | @quoted quote body cs hquote hbody hbackslash _ ih =>
    have hstep : attributeLength (depth + 1) none (quote :: (body ++ quote :: (cs ++ rest))) =
        1 + attributeLength (depth + 1) (some quote) (body ++ quote :: (cs ++ rest)) := by
      rcases List.mem_pair.mp hquote with rfl | rfl <;>
        exact attributeLength_cons (by decide) _ _
    have hne : quote ≠ '\\' := by
      rcases List.mem_pair.mp hquote with rfl | rfl <;> decide
    rw [List.cons_append, List.append_assoc, List.cons_append, hstep,
      attributeLength_quoted hne hbody hbackslash, ih]
    simp only [List.length_cons, List.length_append]
    omega
  -- the inner bracket is one level deeper; its closing bracket comes back to this level
  | @bracketed inner cs _ _ ihInner ih =>
    have hclose : attributeLength (depth + 1 + 1) none (']' :: (cs ++ rest)) =
        1 + attributeLength (depth + 1) none (cs ++ rest) := by
      rw [attributeLength_cons (by decide), if_neg (by decide), if_pos rfl, if_neg (by omega)]
      rfl
    rw [List.cons_append, List.append_assoc, List.cons_append, attributeLength_cons (by decide),
      if_pos rfl, ihInner, hclose, ih]
    simp only [List.length_cons, List.length_append]
    omega

/-! ### Parts -/

structure Attribute where
  content : List Char
  balanced : Balanced content

def Attribute.text (a : Attribute) : List Char := '[' :: (a.content ++ [']'])

/-- A class or id whose name may hold any character but U+0001. -/
structure Name where
  kind : NameKind
  name : List Char
  nonempty : name ≠ [] := by decide
  static : Mask.dynamic ∉ name := by decide

def Name.text (n : Name) : List Char := n.kind.marker :: escape n.name

/-- What is found for the name, when its marker stands at an offset. -/
def Name.token (offset : Nat) (n : Name) : Token where
  offset := offset
  kind := n.kind
  name := String.ofList n.name
  rawLen := byteLen (escape n.name)

/-- A part of a compound selector. -/
inductive Part
  | bracket (a : Attribute)
  | named (n : Name)

def Part.text : Part → List Char
  | .bracket a => a.text
  | .named n => n.text

def textOf (parts : List Part) : List Char := parts.flatMap Part.text

/-- What is found for the names of a selector that starts at an offset. -/
def tokensAt (offset : Nat) : List Part → List Token
  | [] => []
  | .bracket a :: parts => tokensAt (offset + byteLen a.text) parts
  | .named n :: parts => n.token offset :: tokensAt (offset + byteLen n.text) parts

@[simp] theorem textOf_nil : textOf [] = [] := rfl

@[simp] theorem textOf_cons (part : Part) (parts : List Part) :
    textOf (part :: parts) = part.text ++ textOf parts := rfl

/-- The tokens of two runs of parts, the second moved behind the text of the first. -/
theorem tokensAt_append (offset : Nat) (front back : List Part) :
    tokensAt offset (front ++ back) =
      tokensAt offset front ++ tokensAt (offset + byteLen (textOf front)) back := by
  induction front generalizing offset with
  | nil => rfl
  | cons part front ih => cases part <;> simp [tokensAt, ih, Part.text, Nat.add_assoc]

/-- Each part starts with a character that ends the name before it. -/
theorem endsName_textOf (parts : List Part) : EndsName (textOf parts) := by
  cases parts with
  | nil => exact fun c hc => absurd hc (by simp)
  | cons part parts =>
    intro c hc
    cases part with
    | bracket a =>
      rw [← Option.some.inj hc]
      decide
    | named n =>
      rw [← Option.some.inj hc]
      cases n.kind <;> decide

/-! ### Reading parts -/

/-- An attribute is read whole and gives no token. -/
theorem tokenRecogniser_attribute (a : Attribute) (offset : Nat) (before rest : List Char) :
    tokenRecogniser ⟨offset, before, a.text ++ rest⟩ = some (none, a.text.length) := by
  have hlength : attributeLength 0 none ('[' :: (a.content ++ ']' :: rest)) = a.text.length := by
    rw [attributeLength_cons (by decide), if_pos rfl, a.balanced.attributeLength_append,
      attributeLength_cons (by decide), if_neg (by decide), if_pos rfl, if_pos (by decide),
      Attribute.text, List.length_cons, List.length_append, List.length_singleton]
    omega
  have htext : a.text ++ rest = '[' :: (a.content ++ ']' :: rest) := by simp [Attribute.text]
  rw [htext, ← hlength]
  rfl

/-- A printed name is read whole and gives its token. -/
theorem tokenRecogniser_name (n : Name) (offset : Nat) (before : List Char) {rest : List Char}
    (hrest : EndsName rest) :
    tokenRecogniser ⟨offset, before, n.text ++ rest⟩ =
      some (some (n.token offset), n.text.length) := by
  obtain ⟨hwritten, hdigit⟩ := written_escape n.name
  have hread := tokenRecogniser_of_written hwritten n.nonempty n.static hdigit n.kind offset before
    hrest
  rw [Nat.add_comm] at hread
  exact hread

/-- Each part is read up to where the next one starts. -/
theorem scan_textOf (parts : List Part) (offset : Nat) (before : List Char) :
    (tokenRecogniser.scan ⟨offset, before, textOf parts⟩).filterMap id = tokensAt offset parts := by
  induction parts generalizing offset before with
  | nil => rfl
  | cons part parts ih =>
    cases part with
    | bracket a =>
      have hread := tokenRecogniser_attribute a offset before (textOf parts)
      show (tokenRecogniser.scan ⟨offset, before, a.text ++ textOf parts⟩).filterMap id = _
      rw [Recogniser.scan_of_some (by simp [Attribute.text]) (by simp [Attribute.text]) hread,
        Cursor.advance_append, List.filterMap_cons_none rfl, ih]
      rfl
    | named n =>
      have hread := tokenRecogniser_name n offset before (endsName_textOf parts)
      show (tokenRecogniser.scan ⟨offset, before, n.text ++ textOf parts⟩).filterMap id = _
      rw [Recogniser.scan_of_some (by simp [Name.text]) (by simp [Name.text]) hread,
        Cursor.advance_append]
      exact congrArg (n.token offset :: ·) (ih _ _)

/-- Printing parts and reading them gives the tokens that the parts stand for. -/
theorem tokens_textOf (parts : List Part) (offset : Nat) :
    tokens ⟨offset, textOf parts⟩ = tokensAt offset parts :=
  scan_textOf parts offset []

/-- Without attribute selectors each name stands behind those before it. -/
theorem tokensAt_map_named (names : List Name) (offset : Nat) :
    tokensAt offset (names.map .named) =
      names.mapIdx fun i n => n.token (offset + byteLen ((names.take i).flatMap Name.text)) := by
  induction names generalizing offset with
  | nil => rfl
  | cons n names ih =>
    rw [List.map_cons, tokensAt, ih, List.mapIdx_cons]
    simp only [List.take_succ_cons, List.flatMap_cons, byteLen_append, Nat.add_assoc]
    rfl

/-! ### Inserting an attribute selector -/

/-- The name where it stands after `count` bytes were put in at `place`. -/
def moved (place count : Nat) (t : Token) : Token :=
  if place ≤ t.offset then t.shift count else t

/-- Moving the parts moves their tokens. -/
theorem tokensAt_shift (count offset : Nat) (parts : List Part) :
    tokensAt (count + offset) parts = (tokensAt offset parts).map (Token.shift count) := by
  induction parts generalizing offset with
  | nil => rfl
  | cons part parts ih =>
    cases part with
    | bracket a => rw [tokensAt, tokensAt, Nat.add_assoc, ih]
    | named n =>
      rw [tokensAt, tokensAt, Nat.add_assoc, ih]
      rfl

/-- Names lie within their selector. -/
theorem offset_of_mem_tokensAt {offset : Nat} {parts : List Part} {t : Token}
    (h : t ∈ tokensAt offset parts) :
    offset ≤ t.offset ∧ t.offset < offset + byteLen (textOf parts) := by
  rw [← tokens_textOf] at h
  have hbounds := (tokens_ordered ⟨offset, textOf parts⟩).2 t h
  simp only [Token.stop, Slice.stop] at hbounds
  omega

/-- An attribute selector moves the names behind it and leaves those before it alone. -/
theorem tokens_insert (front back : List Part) (a : Attribute) :
    tokens (.ofText (textOf (front ++ .bracket a :: back))) =
      (tokens (.ofText (textOf (front ++ back)))).map
        (moved (byteLen (textOf front)) (byteLen a.text)) := by
  have hfront : (tokensAt 0 front).map (moved (byteLen (textOf front)) (byteLen a.text)) =
      tokensAt 0 front := by
    refine (List.map_congr_left fun t ht => ?_).trans (List.map_id _)
    have hoffset := offset_of_mem_tokensAt ht
    exact if_neg (by omega)
  -- every token of `back` begins at or after the end of `front`, where `moved` starts to act
  have hback : (tokensAt (0 + byteLen (textOf front)) back).map
      (moved (byteLen (textOf front)) (byteLen a.text)) =
        tokensAt (byteLen a.text + (0 + byteLen (textOf front))) back := by
    rw [tokensAt_shift (byteLen a.text)]
    refine List.map_congr_left fun t ht => ?_
    have hoffset := offset_of_mem_tokensAt ht
    exact if_pos (by omega)
  unfold Slice.ofText
  rw [tokens_textOf, tokens_textOf, tokensAt_append, tokensAt_append,
    List.map_append, hfront, hback, tokensAt, Nat.add_comm (byteLen a.text)]

end Compound

/-- **Compound selectors are read back.** Whatever classes and ids are written in a row, with
escapes in their names, are what is found, in order, each at the place of its marker and with the
length of the written name. An attribute selector in front of any of them, or at the end, has no
names and cuts none; what comes after it moves by its length. -/
theorem compound_selectors_are_read_back :
    (∀ names : List Compound.Name,
      tokens (.ofText (names.flatMap Compound.Name.text)) =
        names.mapIdx fun i n => n.token (byteLen ((names.take i).flatMap Compound.Name.text))) ∧
    ∀ (front back : List Compound.Part) (a : Compound.Attribute),
      tokens (.ofText (Compound.textOf (front ++ .bracket a :: back))) =
        (tokens (.ofText (Compound.textOf (front ++ back)))).map
          (Compound.moved (byteLen (Compound.textOf front)) (byteLen a.text)) := by
  refine ⟨fun names => ?_, Compound.tokens_insert⟩
  -- a row of names is the case of parts without brackets
  have htext : names.flatMap Compound.Name.text = Compound.textOf (names.map .named) := by
    rw [Compound.textOf, List.flatMap_map]
    rfl
  have htokens := Compound.tokensAt_map_named names 0
  simp only [Nat.zero_add] at htokens
  rw [← htokens, htext]
  exact Compound.tokens_textOf _ 0

/-- A digit, a backslash, a bracket and a dot in names, and an attribute selector with a bracket and
a dot in a string and a pair of brackets of its own. -/
theorem compound_selectors_are_read_back_brackets :
    let first : Compound.Name := { kind := .idName, name := "1\\é".toList }
    let second : Compound.Name := { kind := .className, name := "a].b".toList }
    let a : Compound.Attribute :=
      ⟨'[' :: (['x'] ++ ']' :: '=' :: '\x27' :: (['.', ']'] ++ ['\x27'])),
        .bracketed (.plain (by decide) .nil) <| .plain (by decide) <|
          .quoted (by decide) (by decide) (by decide) .nil⟩
    [first, second].flatMap Compound.Name.text = "#\\1\\\\é.a\\]\\.b".toList ∧
      tokens (.ofText "#\\1\\\\é.a\\]\\.b".toList) =
        [⟨0, .idName, "1\\é", 6⟩, ⟨7, .className, "a].b", 6⟩] ∧
      Compound.textOf [.named first, .bracket a, .named second] =
        "#\\1\\\\é[[x]='.]'].a\\]\\.b".toList ∧
      tokens (.ofText "#\\1\\\\é[[x]='.]'].a\\]\\.b".toList) =
        [⟨0, .idName, "1\\é", 6⟩, ⟨17, .className, "a].b", 6⟩] := by
  intro first second a
  obtain ⟨hnames, hinsert⟩ := compound_selectors_are_read_back
  have hrow := hnames [first, second]
  have hmoved := hinsert [.named first] [.named second] a
  exact ⟨by decide, hrow, by decide, hmoved.trans (congrArg (List.map _) hrow)⟩

end StyleAudit
