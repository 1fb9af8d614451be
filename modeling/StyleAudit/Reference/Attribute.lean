import StyleAudit.Markup.Tag
import StyleAudit.Text.Fold
import StyleAudit.Reference.NameList

/-!
# Attributes and properties

`class="..."`, `className={...}`, `:class="..."`, `el.className = ...` and the same for ids. In a
tag the value is the attribute's value; elsewhere it is the expression to the right of the equals
sign.
-/

namespace StyleAudit

open Text

/-- An assignment to an attribute or property. -/
structure Assignment where
  /-- The place of the name. -/
  name : Cursor
  /-- The name has a binding mark in front, so its value is an expression. -/
  bound : Bool
  /-- The place of the value. -/
  value : Cursor
  deriving Repr

/-- What follows an equals sign with blanks around it, if one comes next; a plus sign may stand
before it where `plus` says so. -/
def afterEquals? (plus : Bool) (cs : List Char) : Option (List Char) :=
  let cs := cs.dropWhile isBlank
  let cs := if plus then (after? ['+'] cs).getD cs else cs
  (after? ['='] cs).map fun rest => rest.dropWhile isBlank

/-- Reads an assignment to one of `names` at a place, with an optional binding mark `:` or
`v-bind:`. -/
def assignmentAt? (names : List (List Char)) (plus : Bool) (cur : Cursor) : Option Assignment :=
  let mark := (afterFolded? "v-bind:".toList cur.rest).or (after? [':'] cur.rest)
  let name := match mark with
    | some rest => cur.seek rest
    | none => cur
  names.findSome? fun word => do
    let rest ← afterFolded? word name.rest
    let value ← afterEquals? plus rest
    return { name, bound := mark.isSome, value := name.seek value }

/-- Whether `c` may stand directly before an attribute. -/
def isAttributeSeparator (c : Char) : Bool :=
  !(isWord c || c == '-' || c == ':' || c == '$')

/-- Recognises an assignment at the start of the text or after a separator. -/
def assignmentRecogniser (names : List (List Char)) (plus : Bool) : Recogniser Assignment :=
  fun cur =>
    let atStart := if cur.before.isEmpty then assignmentAt? names plus cur else none
    let afterSeparator :=
      if cur.rest.head?.any isAttributeSeparator then assignmentAt? names plus (cur.advance 1)
      else none
    (atStart.or afterSeparator).map fun a => (a, cur.distance a.value.rest)

structure AttributeValue where
  slice : Slice
  /-- The value is an expression. -/
  bound : Bool
  deriving Repr, DecidableEq

/-- The value of an attribute in a tag: quoted, quoted with backslashes (markup inside a script
string), an expression in braces, or bare. -/
def tagValue? (cur : Cursor) : Option AttributeValue :=
  match cur.rest with
  | [] => none
  | c :: cs =>
    if c = '\\' then
      match cs with
      | quote :: cs =>
        if quote = '\x27' ∨ quote = '\x22' then
          some ⟨⟨cur.offset + 2, (breakOn ['\\', quote] cs).1⟩, false⟩
        else none
      | [] => none
    else if c = '\x27' ∨ c = '\x22' then
      some ⟨⟨cur.offset + 1, cs.takeWhile fun d => d != c⟩, false⟩
    else if c = '{' then some ⟨⟨cur.offset + 1, Script.bracketed cs⟩, true⟩
    else if c = '=' ∨ c = '\x60' ∨ c = '>' then none
    else some ⟨⟨cur.offset, cur.rest.takeWhile fun d => !(isBlank d || d == '>')⟩, false⟩

/-- The expression at the start of a script text: up to a semicolon, comma, line feed or closing
bracket outside all brackets and literals. The first `skip` characters are passed over. -/
def expression (skip : Nat) : List Char → List Char
  | [] => []
  | c :: cs =>
    match skip with
    | skip + 1 => c :: expression skip cs
    | 0 =>
      if c = ';' ∨ c = ',' ∨ c = '\n' ∨ isCloseBracket c then []
      else if isOpenBracket c then c :: expression ((Script.bracketed cs).length + 1) cs
      else if Mask.isQuote c then c :: expression ((Script.quotedText c cs).length + 1) cs
      else c :: expression 0 cs

/-- The value of an assignment. A comparison or an arrow assigns nothing. -/
def Assignment.value? (a : Assignment) : Option AttributeValue :=
  if Markup.insideTag a.name then tagValue? a.value
  else
    match a.value.rest with
    | [] => none
    | c :: _ =>
      if c = '=' ∨ c = '>' then none
      else some ⟨⟨a.value.offset, expression 0 a.value.rest⟩, true⟩

/-- The references in class attributes and properties. -/
def classAttributeReferences (s : Slice) : List Reference :=
  ((assignmentRecogniser ["class".toList, "classname".toList] true).findAll s).flatMap fun a =>
    match a.value? with
    | none => []
    | some value =>
      let names := if value.bound || a.bound then boundClassNames value.slice
        else classNames value.slice
      names.map (Reference.ofSlice .className .classAttribute)

/-- Whether a name stands in a tag or after the dot of a property; `const id = ..` is neither. -/
def namesElement (name : Cursor) : Bool :=
  Markup.insideTag name || (name.before.dropWhile isBlank).head? == some '.'

/-- The references in id attributes and properties. -/
def idAttributeReferences (s : Slice) : List Reference :=
  ((assignmentRecogniser ["id".toList] false).findAll s).flatMap fun a =>
    if namesElement a.name then
      match a.value? with
      | none => []
      | some value =>
        let values := if value.bound || a.bound then
            (Script.literals value.slice).map Script.Literal.body
          else [value.slice]
        (values.filterMap singleName?).map (Reference.ofSlice .idName .idAttribute)
    else []

end StyleAudit
