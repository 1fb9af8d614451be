import StyleAudit.Script.Nesting

/-!
# Inside a markup tag

Whether a place of a text lies between the `<name` and the `>` of a tag. The tag is the nearest
one that opens before the place; quoted values and braced expressions in it may hold `>`.
-/

namespace StyleAudit.Markup

open Text

/-- The text between the nearest `<` that a letter follows and the place, given the text already
passed on the way back. -/
def tagText? (rest : List Char) (passed : List Char) : List Char → Option (List Char)
  | [] => none
  | c :: before =>
    if c = '<' ∧ (passed ++ rest).head?.any Char.isAlpha then some passed
    else tagText? rest (c :: passed) before

/-- Whether a tag is still open after `count` more characters of its text, the first `skip` of
which are passed over. -/
def staysOpen (skip : Nat) : (count : Nat) → List Char → Bool
  | 0, _ => true
  | _ + 1, [] => true
  | count + 1, c :: cs =>
    match skip with
    | skip + 1 => staysOpen skip count cs
    | 0 =>
      if c = '>' then false
      else if c = '\x27' ∨ c = '\x22' then
        staysOpen ((cs.takeWhile fun d => d != c).length + 1) count cs
      else if c = '{' then staysOpen ((Script.bracketed cs).length + 1) count cs
      else staysOpen 0 count cs

/-- Whether a place lies inside a tag. -/
def insideTag (cur : Cursor) : Bool :=
  match tagText? cur.rest [] cur.before with
  | none => false
  | some passed => staysOpen 0 passed.length (passed ++ cur.rest)

end StyleAudit.Markup
