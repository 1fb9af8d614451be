import StyleAudit.Proofs.ByteMask

/-!
# Names by byte offsets

The scan for names over bytes finds the names that the scan over characters finds
(`tokensFrom_eq`), and none of its indices and slices fails.
-/

namespace StyleAudit.Bytes

open Text

variable {text cs : List Char} {base i : Nat} {c : Char}

/-! ### Two scans side by side -/

/-- `Tracks text base i cur`: offset `i` of the text, seen from a text that starts `base` bytes
earlier, is the place of `cur`. -/
def Tracks (text : List Char) (base i : Nat) (cur : Cursor) : Prop :=
  Reaches text i cur.rest ∧ (cur.rest ≠ [] → cur.offset = base + i)

theorem tracks_start (base : Nat) (text : List Char) : Tracks text base 0 (.start ⟨base, text⟩) :=
  ⟨(at_zero text).reaches, fun _ => rfl⟩

/-- The byte offset follows the cursor over any number of characters. -/
theorem Tracks.advance {cur : Cursor} {j n : Nat} (h : Tracks text base i cur)
    (hj : Reaches text j (cur.rest.drop n)) : Tracks text base j (cur.advance n) := by
  refine ⟨hj, fun hne => ?_⟩
  change cur.rest.drop n ≠ [] at hne
  have hrest : cur.rest ≠ [] := by
    intro hnil
    rw [hnil, List.drop_nil] at hne
    exact hne rfl
  obtain ⟨c, cs, hcons⟩ := List.exists_cons_of_ne_nil hrest
  obtain ⟨d, ds, hdrop⟩ := List.exists_cons_of_ne_nil hne
  have hoffset := h.2 hrest
  -- both places are as far from the end as the text that follows is long
  have hi : i + byteLen cur.rest = byteLen text := by
    have hreaches := h.1
    rw [hcons] at hreaches ⊢
    exact hreaches.at_cons.add_byteLen
  have hj' : j + byteLen (cur.rest.drop n) = byteLen text := by
    rw [hdrop] at hj ⊢
    exact hj.at_cons.add_byteLen
  have hsplit : byteLen cur.rest = byteLen (cur.rest.take n) + byteLen (cur.rest.drop n) := by
    rw [← byteLen_append, List.take_append_drop]
  change cur.offset + byteLen (cur.rest.take n) = base + j
  omega

/-- `SkipsTo text scan i rest`: from an offset on, a scan comes to the place from which `rest`
follows. -/
def SkipsTo (text : List Char) (scan : Nat → Option Nat) (i : Nat) (rest : List Char) : Prop :=
  ∃ j, scan i = some j ∧ Reaches text j rest

/-- The scan goes on behind `front`, possibly as another scan. -/
theorem SkipsTo.over {scan scan' : Nat → Option Nat} {i' n : Nat} (front : List Char)
    (hstep : scan i = scan' i') (h : SkipsTo text scan' i' (cs.drop n)) :
    SkipsTo text scan i ((front ++ cs).drop (front.length + n)) := by
  obtain ⟨j, hj, hreaches⟩ := h
  refine ⟨j, hstep.trans hj, ?_⟩
  rw [← List.drop_drop, List.drop_left]
  exact hreaches

/-! ### Quoted strings and attribute selectors -/

theorem skipQuoted_of_le {quote : Char} (h : byteLen text ≤ i) :
    skipQuoted text quote i = some i := by
  rw [skipQuoted, if_neg (by omega)]
  rfl

/-- One step over a quoted string. -/
theorem skipQuoted_of_byteAt? {quote b : Char} (h : byteAt? text i = some b) :
    skipQuoted text quote i =
      if b = '\\' then skipQuoted text quote (i + 2)
      else if b = quote then some (i + 1)
      else skipQuoted text quote (i + 1) := by
  rw [skipQuoted, if_pos (lt_of_byteAt? h), h]
  rfl

/-- Bytes that are no backslash and no quote are passed over. -/
theorem passes_skipQuoted (text : List Char) {quote : Char} (hquote : quote.utf8Size = 1) :
    Passes text (fun b => b ≠ '\\' ∧ b ≠ quote) (skipQuoted text quote) where
  wide b hb := ⟨ne_of_utf8Size hb rfl, ne_of_utf8Size hb hquote⟩
  step j b hbyte hb := by rw [skipQuoted_of_byteAt? hbyte, if_neg hb.1, if_neg hb.2]

/-- A backslash and the character after it, or the end, are passed over by two bytes. -/
theorem Reaches.of_backslash (h : At text i ['\\']) : Reaches text (i + 2) [] := by
  have hlen := h.next.add_byteLen
  have hsize : Char.utf8Size '\\' = 1 := rfl
  rw [byteLen_nil] at hlen
  exact .inr ⟨rfl, by omega⟩

/-- A quoted string ends, by bytes, where its characters end. -/
theorem skipQuoted_eq {quote : Char} (hquote : quote.utf8Size = 1) (h : Reaches text i cs) :
    SkipsTo text (skipQuoted text quote) i (cs.drop (quotedLength quote cs)) := by
  fun_induction quotedLength quote cs generalizing i with
  | case1 => exact ⟨i, skipQuoted_of_le h.le, h⟩
  | case2 =>
    have hat := h.at_cons
    have hpast := Reaches.of_backslash hat
    refine ⟨i + 2, ?_, hpast⟩
    rw [skipQuoted_of_byteAt? (hat.byteAt? rfl), if_pos rfl, skipQuoted_of_le hpast.le]
  -- the escaped character may be wide; two bytes on we may be inside of it
  | case3 c cs ih =>
    have hat := h.at_cons
    have hnext : At text (i + 1) (c :: cs) := hat.next
    refine .over ['\\', c] ?_ (ih hnext.next.reaches)
    rw [skipQuoted_of_byteAt? (hat.byteAt? rfl), if_pos rfl]
    exact (passes_skipQuoted text hquote).tail hnext
  | case4 cs hlone hpair =>
    have hat := h.at_cons
    refine ⟨i + 1, ?_, (hat.succ hquote).reaches⟩
    rw [skipQuoted_of_byteAt? (hat.byteAt? hquote),
      if_neg (ne_backslash_of_not_escape hlone hpair), if_pos rfl]
  | case5 c cs hlone hpair hne ih =>
    have hat := h.at_cons
    have hstep := (passes_skipQuoted text hquote).char hat
      ⟨ne_backslash_of_not_escape hlone hpair, hne⟩
    exact .over [c] hstep (ih hat.next.reaches)

/-- Skipping a string does not go back. -/
theorem le_of_skipQuoted {quote : Char} {j : Nat} (h : skipQuoted text quote i = some j) :
    i ≤ j := by
  fun_induction skipQuoted text quote i with
  | case1 i _ hescaped hplain =>
    obtain ⟨b, _, h⟩ := Option.bind_eq_some_iff.mp h
    split at h
    · have hle := hescaped h
      omega
    · split at h
      · have heq := Option.some.inj h
        omega
      · have hle := hplain h
        omega
  | case2 i _ => exact Nat.le_of_eq (Option.some.inj h)

theorem skipAttribute_of_le {depth : Nat} (h : byteLen text ≤ i) :
    skipAttribute text depth i = some i := by
  rw [skipAttribute, if_neg (by omega)]
  rfl

/-- One step over an attribute. -/
theorem skipAttribute_of_byteAt? {depth : Nat} {b : Char} (h : byteAt? text i = some b) :
    skipAttribute text depth i =
      if b = '[' then skipAttribute text (depth + 1) (i + 1)
      else if b = ']' then
        if depth - 1 = 0 then some (i + 1) else skipAttribute text (depth - 1) (i + 1)
      else if b = '\\' then skipAttribute text depth (i + 2)
      else if b = '\x27' ∨ b = '\x22' then
        (skipQuoted text b (i + 1)).bind (skipAttribute text depth)
      else skipAttribute text depth (i + 1) := by
  rw [skipAttribute, if_pos (lt_of_byteAt? h), h, ← bind_jump? fun _ => le_of_skipQuoted]
  rfl

/-- Skipping an attribute does not go back. -/
theorem le_of_skipAttribute {depth j : Nat} (h : skipAttribute text depth i = some j) :
    i ≤ j := by
  fun_induction skipAttribute text depth i with
  | case1 depth i _ hopen hclose hescaped hstring hplain =>
    obtain ⟨b, _, h⟩ := Option.bind_eq_some_iff.mp h
    split at h
    · have hle := hopen h
      omega
    · split at h
      · split at h
        · have heq := Option.some.inj h
          omega
        · have hle := hclose h
          omega
      · split at h
        · have hle := hescaped h
          omega
        · split at h
          · obtain ⟨k, _, h⟩ := Option.bind_eq_some_iff.mp h
            obtain ⟨hlt, h⟩ := exists_of_jump? h
            have hle := hstring k hlt h
            omega
          · have hle := hplain h
            omega
  | case2 depth i _ => exact Nat.le_of_eq (Option.some.inj h)

/-- The rest of an attribute selector, from outside or inside a string in it. -/
def skipAttributeIn (text : List Char) (depth : Nat) : (quote : Option Char) → Nat → Option Nat
  | none, i => skipAttribute text depth i
  | some quote, i => (skipQuoted text quote i).bind (skipAttribute text depth)

/-- Bytes that are no bracket, quote or backslash are passed over. -/
theorem passes_skipAttribute (text : List Char) (depth : Nat) :
    Passes text (fun b => b ≠ '[' ∧ b ≠ ']' ∧ b ≠ '\\' ∧ ¬(b = '\x27' ∨ b = '\x22'))
      (skipAttribute text depth) where
  wide b hb := by
    refine ⟨ne_of_utf8Size hb rfl, ne_of_utf8Size hb rfl, ne_of_utf8Size hb rfl, ?_⟩
    rintro (rfl | rfl)
    · exact hb rfl
    · exact hb rfl
  step j b hbyte hb := by
    obtain ⟨hopen, hclose, hbackslash, hquote⟩ := hb
    rw [skipAttribute_of_byteAt? hbyte, if_neg hopen, if_neg hclose, if_neg hbackslash,
      if_neg hquote]

/-- Behind the first byte of a character the rest of it is passed over. -/
theorem skipAttributeIn_tail (depth : Nat) {quote : Option Char}
    (hquote : ∀ q ∈ quote, q.utf8Size = 1) (h : At text i (c :: cs)) :
    skipAttributeIn text depth quote (i + 1) =
      skipAttributeIn text depth quote (i + c.utf8Size) := by
  cases quote with
  | none => exact (passes_skipAttribute text depth).tail h
  | some q => exact congrArg (Option.bind · _) ((passes_skipQuoted text (hquote q rfl)).tail h)

/-- A backslash and the byte behind it are skipped. -/
theorem skipAttributeIn_backslash (depth : Nat) {quote : Option Char}
    (hquote : ∀ q ∈ quote, q.utf8Size = 1) (h : At text i ('\\' :: cs)) :
    skipAttributeIn text depth quote i = skipAttributeIn text depth quote (i + 2) := by
  have hbyte := h.byteAt? rfl
  cases quote with
  | none =>
    rw [skipAttributeIn, skipAttribute_of_byteAt? hbyte, if_neg (by decide), if_neg (by decide),
      if_pos rfl]
    rfl
  | some q =>
    rw [skipAttributeIn, skipQuoted_of_byteAt? hbyte, if_pos rfl]
    rfl

theorem skipAttributeIn_of_le (depth : Nat) (quote : Option Char) (h : byteLen text ≤ i) :
    skipAttributeIn text depth quote i = some i := by
  cases quote with
  | none => exact skipAttribute_of_le h
  | some q =>
    rw [skipAttributeIn, skipQuoted_of_le h]
    exact skipAttribute_of_le h

/-- One character of a string in an attribute. -/
theorem skipAttributeIn_string (depth : Nat) {q : Char} (hq : q.utf8Size = 1)
    (h : At text i (c :: cs)) (hc : c ≠ '\\') :
    skipAttributeIn text depth (some q) i =
      skipAttributeIn text depth (if c = q then none else some q) (i + c.utf8Size) := by
  split
  · next heq =>
    subst heq
    have hend : skipQuoted text c i = some (i + c.utf8Size) := by
      rw [skipQuoted_of_byteAt? (h.byteAt? hq), if_neg hc, if_pos rfl, hq]
    exact congrArg (Option.bind · (skipAttribute text depth)) hend
  · next hne =>
    exact congrArg (Option.bind · _) ((passes_skipQuoted text hq).char h ⟨hc, hne⟩)

/-- The induction follows the characters, and the byte scan is in a string exactly when that of the
characters is. -/
theorem skipAttributeIn_eq {depth : Nat} {quote : Option Char}
    (hquote : ∀ q ∈ quote, q.utf8Size = 1) (h : Reaches text i cs) :
    SkipsTo text (skipAttributeIn text depth quote) i
      (cs.drop (attributeLength depth quote cs)) := by
  fun_induction attributeLength depth quote cs generalizing i with
  | case1 depth quote => exact ⟨i, skipAttributeIn_of_le depth quote h.le, h⟩
  | case2 depth quote =>
    have hat := h.at_cons
    have hpast := Reaches.of_backslash hat
    refine ⟨i + 2, ?_, hpast⟩
    rw [skipAttributeIn_backslash depth hquote hat, skipAttributeIn_of_le depth quote hpast.le]
  | case3 depth quote c cs ih =>
    have hat := h.at_cons
    have hnext : At text (i + 1) (c :: cs) := hat.next
    refine .over ['\\', c] ?_ (ih hquote hnext.next.reaches)
    rw [skipAttributeIn_backslash depth hquote hat]
    exact skipAttributeIn_tail depth hquote hnext
  | case4 depth q c cs hlone hpair ih =>
    have hat := h.at_cons
    have hstep := skipAttributeIn_string depth (hquote q rfl) hat
      (ne_backslash_of_not_escape hlone hpair)
    refine .over [c] hstep (ih (fun q' hq' => hquote q' ?_) hat.next.reaches)
    split at hq'
    · cases hq'
    · exact hq'
  | case5 depth cs _ _ ih =>
    have hat := h.at_cons
    refine .over ['['] ?_ (ih hquote hat.next.reaches)
    exact (skipAttribute_of_byteAt? (hat.byteAt? rfl)).trans (if_pos rfl)
  | case6 depth hdepth cs _ _ _ =>
    have hat := h.at_cons
    refine ⟨i + 1, ?_, hat.next.reaches⟩
    rw [skipAttributeIn, skipAttribute_of_byteAt? (hat.byteAt? rfl), if_neg (by decide), if_pos rfl,
      if_pos (by omega)]
  | case7 depth hdepth cs _ _ _ ih =>
    have hat := h.at_cons
    refine .over [']'] ?_ (ih hquote hat.next.reaches)
    rw [skipAttributeIn, skipAttribute_of_byteAt? (hat.byteAt? rfl), if_neg (by decide),
      if_pos rfl, if_neg (by omega)]
    rfl
  -- a quote: the string after it is skipped before the attribute goes on
  | case8 depth c cs hlone hpair hopen hclose hstring ih =>
    have hat := h.at_cons
    have hc : c.utf8Size = 1 := by rcases hstring with rfl | rfl <;> rfl
    refine .over [c] ?_ (ih (fun q hq => Option.some.inj hq ▸ hc) (hat.succ hc).reaches)
    rw [skipAttributeIn, skipAttribute_of_byteAt? (hat.byteAt? hc), if_neg hopen, if_neg hclose,
      if_neg (ne_backslash_of_not_escape hlone hpair), if_pos hstring]
    rfl
  | case9 depth c cs hlone hpair hopen hclose hstring ih =>
    have hat := h.at_cons
    have hc : c ≠ '\\' := ne_backslash_of_not_escape hlone hpair
    have hstep := (passes_skipAttribute text depth).char hat ⟨hopen, hclose, hc, hstring⟩
    exact .over [c] hstep (ih hquote hat.next.reaches)

/-! ### Names -/

theorem readNameFrom_cons {c : Char} (hc : c ≠ '\\') (name : List Char) (i : Nat) (cs : List Char) :
    readNameFrom name i (c :: cs) =
      if isNameBoundary c then (name.reverse, i)
      else readNameFrom (c :: name) (i + c.utf8Size) cs := by
  conv_lhs => unfold readNameFrom
  rw [if_neg hc]

/-- The written form of a name is measured and its escapes are dropped in one walk. -/
theorem readNameFrom_eq (name : List Char) (i : Nat) (cs : List Char) :
    readNameFrom name i cs =
      (name.reverse ++ unescape (takeName cs).1, i + byteLen (takeName cs).1) := by
  -- `name` holds what was read so far, in reverse
  fun_induction takeName cs generalizing name i with
  | case1 => simp [readNameFrom, unescape]
  | case2 => simp [readNameFrom, unescape]; rfl
  | case3 c cs ih =>
    have hsize : Char.utf8Size '\\' = 1 := rfl
    have hstep : readNameFrom name i ('\\' :: c :: cs) =
        readNameFrom (c :: name) (i + 1 + c.utf8Size) cs := by
      rw [readNameFrom, if_pos rfl]
    rw [hstep, ih, unescape, List.reverse_cons,
      List.append_assoc, byteLen_cons, byteLen_cons, hsize]
    refine Prod.ext rfl ?_
    simp only
    omega
  | case4 c cs hlone hpair hboundary =>
    rw [readNameFrom_cons (ne_backslash_of_not_escape hlone hpair), if_pos hboundary]
    simp [unescape]
  | case5 c cs hlone hpair hboundary ih =>
    have hc := ne_backslash_of_not_escape hlone hpair
    rw [readNameFrom_cons hc, if_neg hboundary, ih, unescape_cons hc]
    simp [Nat.add_assoc]

theorem tokensFrom_of_le (h : byteLen text ≤ i) : tokensFrom text i = some [] := by
  rw [tokensFrom, if_neg (by omega)]
  rfl

/-- One step of the search for tokens. -/
theorem tokensFrom_of_byteAt? {b : Char} (h : byteAt? text i = some b) :
    tokensFrom text i =
      if b = '\\' then (drop? (i + 1) text).bind fun rest =>
        tokensFrom text (i + 1 + rest.head?.elim 0 Char.utf8Size)
      else if b = '[' then (skipAttribute text 0 i).bind fun j => jump? i j fun _ =>
        tokensFrom text j
      else if b = '\x27' ∨ b = '\x22' then
        (skipQuoted text b (i + 1)).bind fun j => jump? i j fun _ => tokensFrom text j
      else match NameKind.ofMarker? b with
        | some kind => (drop? (i + 1) text).bind fun rest =>
          let (name, rawLen) := readNameFrom [] 0 rest
          (tokensFrom text (i + 1 + rawLen)).bind fun later =>
            if name.isEmpty || (byteAt? text (i + 1)).any Char.isDigit ||
                name.contains Mask.dynamic then some later
            else some ({ offset := i, kind, name := String.ofList name, rawLen } :: later)
        | none => tokensFrom text (i + 1) := by
  rw [tokensFrom, if_pos (lt_of_byteAt? h), h]
  rfl

/-- Bytes at which no token, escape, attribute or string begins are passed over. -/
theorem passes_tokensFrom (text : List Char) :
    Passes text (fun b => b ≠ '\\' ∧ b ≠ '[' ∧ ¬(b = '\x27' ∨ b = '\x22') ∧
      NameKind.ofMarker? b = none) (tokensFrom text) where
  wide b hb := by
    refine ⟨ne_of_utf8Size hb rfl, ne_of_utf8Size hb rfl, ?_, ?_⟩
    · rintro (rfl | rfl)
      · exact hb rfl
      · exact hb rfl
    · rw [NameKind.ofMarker?, if_neg (ne_of_utf8Size hb rfl), if_neg (ne_of_utf8Size hb rfl)]
  step j b hbyte hb := by
    obtain ⟨hbackslash, hopen, hquote, hmarker⟩ := hb
    rw [tokensFrom_of_byteAt? hbyte, if_neg hbackslash, if_neg hopen, if_neg hquote, hmarker]

/-- Whether a raw name makes a token does not depend on the base. -/
theorem Token.map_shift_ofRaw? {offset : Nat} {kind : NameKind} {raw : List Char}
    (hoffset : offset = base + i) :
    (Token.ofRaw? offset kind raw).toList =
      if (unescape raw).isEmpty || raw.head?.any Char.isDigit ||
          (unescape raw).contains Mask.dynamic then []
      else [Token.shift base
        { offset := i, kind, name := String.ofList (unescape raw), rawLen := byteLen raw }] := by
  rw [Token.ofRaw?]
  split
  · rfl
  · rw [hoffset]
    rfl

theorem utf8Size_of_isDigit {c : Char} (h : c.isDigit = true) : c.utf8Size = 1 := by
  rw [utf8Size_eq_one_iff]
  have hle : c.val ≤ 57 := (Bool.and_eq_true_iff.mp h).2 |> of_decide_eq_true
  have hnat : c.toNat ≤ 57 := UInt32.le_iff_toNat_le.mp hle
  omega

/-- An empty name is none; any other starts with the byte after the marker. -/
theorem isEmpty_or_digit (h : At text i cs) :
    ((unescape (takeName cs).1).isEmpty || (byteAt? text i).any Char.isDigit) =
      ((unescape (takeName cs).1).isEmpty || (takeName cs).1.head?.any Char.isDigit) := by
  rw [h.any_byteAt? fun c => utf8Size_of_isDigit]
  have hsplit := takeName_append cs
  cases hraw : (takeName cs).1 with
  | nil => rfl
  | cons d ds =>
    rw [hraw, List.cons_append] at hsplit
    rw [← hsplit, List.head?_cons, List.head?_cons]

/-! One lemma for each kind of item that the scan over bytes passes over. -/

/-- An escape is skipped with the character behind it, however wide that is. -/
theorem tokensFrom_backslash (h : At text i ('\\' :: cs)) :
    ∃ j, tokensFrom text i = tokensFrom text j ∧ Reaches text j (cs.drop 1) := by
  refine ⟨i + 1 + cs.head?.elim 0 Char.utf8Size, ?_, ?_⟩
  · rw [tokensFrom_of_byteAt? (h.byteAt? rfl), if_pos rfl, (h.succ rfl).drop?, Option.bind_some]
  · cases cs with
    | nil => exact (h.succ rfl).reaches
    | cons d ds => exact (h.succ rfl).next.reaches

/-- An attribute is skipped whole. -/
theorem tokensFrom_attribute (h : At text i ('[' :: cs)) :
    ∃ j, tokensFrom text i = tokensFrom text j ∧
      Reaches text j (('[' :: cs).drop (attributeLength 0 none ('[' :: cs))) := by
  have hnone : ∀ q ∈ (none : Option Char), q.utf8Size = 1 := fun q hq => absurd hq (by simp)
  obtain ⟨j, hj, hreaches⟩ : ∃ j, skipAttribute text 0 i = some j ∧
      Reaches text j (('[' :: cs).drop (attributeLength 0 none ('[' :: cs))) :=
    skipAttributeIn_eq hnone h.reaches
  have hlt : i < j := by
    have hinside := hj
    rw [skipAttribute_of_byteAt? (h.byteAt? rfl), if_pos rfl] at hinside
    exact le_of_skipAttribute hinside
  refine ⟨j, ?_, hreaches⟩
  rw [tokensFrom_of_byteAt? (h.byteAt? rfl), if_neg (by decide), if_pos rfl, hj, Option.bind_some,
    jump?_of_lt hlt]

/-- A string is skipped whole. -/
theorem tokensFrom_quote (hquote : c = '\x27' ∨ c = '\x22') (h : At text i (c :: cs)) :
    ∃ j, tokensFrom text i = tokensFrom text j ∧ Reaches text j (cs.drop (quotedLength c cs)) := by
  have hc : c.utf8Size = 1 ∧ c ≠ '\\' ∧ c ≠ '[' := by rcases hquote with rfl | rfl <;> decide
  obtain ⟨j, hj, hreaches⟩ := skipQuoted_eq hc.1 (h.succ hc.1).reaches
  refine ⟨j, ?_, hreaches⟩
  rw [tokensFrom_of_byteAt? (h.byteAt? hc.1), if_neg hc.2.1, if_neg hc.2.2, if_pos hquote, hj,
    Option.bind_some, jump?_of_lt (le_of_skipQuoted hj)]

/-- A marker starts a name, and the scan goes on behind it. -/
theorem tokensFrom_marker {kind : NameKind} (hkind : NameKind.ofMarker? c = some kind)
    (h : At text i (c :: cs)) {later : List Token}
    (hlater : tokensFrom text (i + 1 + byteLen (takeName cs).1) = some later) :
    tokensFrom text i = some
      (if (unescape (takeName cs).1).isEmpty || (takeName cs).1.head?.any Char.isDigit ||
          (unescape (takeName cs).1).contains Mask.dynamic then later
        else { offset := i, kind, name := String.ofList (unescape (takeName cs).1),
               rawLen := byteLen (takeName cs).1 } :: later) := by
  have hc : c.utf8Size = 1 := NameKind.utf8Size_of_ofMarker? hkind
  have hother : c ≠ '\\' ∧ c ≠ '[' ∧ ¬(c = '\x27' ∨ c = '\x22') := by
    rw [← NameKind.marker_of_ofMarker? hkind]
    cases kind <;> decide
  rw [tokensFrom_of_byteAt? (h.byteAt? hc), if_neg hother.1, if_neg hother.2.1, if_neg hother.2.2,
    hkind]
  simp only
  rw [(h.succ hc).drop?, Option.bind_some, readNameFrom_eq]
  simp only [List.reverse_nil, List.nil_append, Nat.zero_add]
  -- the byte behind the marker is a digit only if the raw name begins with one
  rw [hlater, Option.bind_some, isEmpty_or_digit (h.succ hc)]
  split <;> rfl

/-! The two scans compared. -/

/-- `FindsAlike text base i cur`: from a place on, both scans find the same names. -/
def FindsAlike (text : List Char) (base i : Nat) (cur : Cursor) : Prop :=
  (tokensFrom text i).map (List.map (Token.shift base)) =
    some ((tokenRecogniser.scan cur).filterMap id)

/-- An item without a name is passed over. -/
theorem FindsAlike.of_item {cur : Cursor} {j n : Nat} (hne : cur.rest ≠ [])
    (hread : tokenRecogniser cur = some (none, n)) (hstep : tokensFrom text i = tokensFrom text j)
    (hlater : FindsAlike text base j (cur.advance n)) : FindsAlike text base i cur := by
  rw [FindsAlike, Recogniser.scan_of_some hne (tokenRecogniser_whole hread).1 hread, hstep]
  exact hlater

/-- A name is found by both scans, or by neither. -/
theorem FindsAlike.of_marker {offset : Nat} {before : List Char} {kind : NameKind}
    (hkind : NameKind.ofMarker? c = some kind) (h : At text i (c :: cs))
    (hoffset : offset = base + i)
    (hread : tokenRecogniser ⟨offset, before, c :: cs⟩ =
      some (Token.ofRaw? offset kind (takeName cs).1, 1 + (takeName cs).1.length))
    (hlater : FindsAlike text base (i + 1 + byteLen (takeName cs).1)
      ((⟨offset, before, c :: cs⟩ : Cursor).advance (1 + (takeName cs).1.length))) :
    FindsAlike text base i ⟨offset, before, c :: cs⟩ := by
  obtain ⟨later, hsome, hmap⟩ := Option.map_eq_some_iff.mp hlater
  have hfound : ∀ found : Option Token, ∀ more : List (Option Token),
      (found :: more).filterMap id = found.toList ++ more.filterMap id := by
    intro found more
    cases found <;> rfl
  rw [FindsAlike, Recogniser.scan_of_some (List.cons_ne_nil c cs) (by omega) hread,
    tokensFrom_marker hkind h hsome, hfound, Token.map_shift_ofRaw? hoffset, ← hmap]
  split <;> rfl

/-- The scan over bytes finds the names that the scan over characters finds. The cases are those of
the recogniser. -/
theorem tokensFrom_eq {cur : Cursor} (h : Tracks text base i cur) : FindsAlike text base i cur := by
  induction cur using Cursor.advance_induction generalizing i with
  | atEnd cur hend =>
    have hreaches := h.1
    rw [hend] at hreaches
    rw [FindsAlike, tokensFrom_of_le hreaches.le, Recogniser.scan_of_rest_nil hend]
    rfl
  | step cur hne ih =>
    obtain ⟨offset, before, rest⟩ := cur
    obtain ⟨c, cs, rfl⟩ := List.exists_cons_of_ne_nil hne
    have hat : At text i (c :: cs) := h.1.at_cons
    cases hread : tokenRecogniser ⟨offset, before, c :: cs⟩ with
    | none =>
      rw [FindsAlike, (passes_tokensFrom text).char hat (of_tokenRecogniser_eq_none hread),
        Recogniser.scan_of_none hne hread]
      exact ih 1 (by decide) (h.advance hat.next.reaches)
    | some item =>
      obtain ⟨found, n⟩ := item
      have hn : 0 < n := (tokenRecogniser_whole hread).1
      -- what is recognised is an escape, an attribute, a string or a marker
      rcases tokenRecogniser_eq_some hread with ⟨rfl, ⟨rfl, rfl⟩ | ⟨rfl, rfl⟩ | ⟨hquote, rfl⟩⟩ |
        ⟨kind, hkind, rfl, rfl⟩
      · obtain ⟨j, hstep, hreaches⟩ := tokensFrom_backslash hat
        exact .of_item hne hread hstep (ih _ hn (h.advance hreaches))
      · obtain ⟨j, hstep, hreaches⟩ := tokensFrom_attribute hat
        exact .of_item hne hread hstep (ih _ hn (h.advance hreaches))
      · obtain ⟨j, hstep, hreaches⟩ := tokensFrom_quote hquote hat
        refine .of_item hne hread hstep (ih _ hn (h.advance ?_))
        rw [Nat.add_comm]
        exact hreaches
      · have hafter : At text (i + 1 + byteLen (takeName cs).1) (takeName cs).2 := by
          refine At.append ?_
          rw [takeName_append]
          exact hat.succ (NameKind.utf8Size_of_ofMarker? hkind)
        have hdrop : (c :: cs).drop (1 + (takeName cs).1.length) = (takeName cs).2 := by
          rw [Nat.add_comm, List.drop_succ_cons, drop_takeName]
        refine .of_marker hkind hat (h.2 hne) hread (ih _ hn (h.advance ?_))
        rw [hdrop]
        exact hafter.reaches

/-- The tokens of a selector, found by bytes, are its tokens. -/
theorem tokens_eq (base : Nat) (text : List Char) :
    (tokens text).map (List.map (Token.shift base)) = some (StyleAudit.tokens ⟨base, text⟩) :=
  tokensFrom_eq (tracks_start base text)

end StyleAudit.Bytes
