import StyleAudit.Bytes.Stylesheet
import StyleAudit.Reference.Attribute

/-!
# Scripts and tags by byte offsets

Literals and brackets of a script, the arguments of a call, whether a place lies inside a tag, and
the value of an attribute or property.
-/

namespace StyleAudit.Bytes

open Text

/-- A quoted literal and where its body stands. -/
structure Literal where
  quote : Char
  body : Range
  deriving Repr, DecidableEq

mutual

/-- The offset of the quote that closes a literal, from inside it. -/
def literalEnd (text : List Char) (quote : Char) (i : Nat) : Option Nat := do
  if i < byteLen text then
    let b ← byteAt? text i
    if b = '\\' then literalEnd text quote (i + 2)
    else if b = '$' ∧ quote = Script.templateQuote ∧ byteAt? text (i + 1) = some '{' then
      let close ← matchingClose text 0 (i + 1)
      jump? i (close + 1) fun _ => literalEnd text quote (close + 1)
    else if b = quote then return i
    else literalEnd text quote (i + 1)
  else return byteLen text
termination_by 3 * (byteLen text - i)

/-- The literal that opens at an offset. -/
def literalAt (text : List Char) (i : Nat) : Option (Option Literal) := do
  match byteAt? text i with
  | none => return none
  | some quote =>
    if Mask.isQuote quote then
      let stop ← literalEnd text quote (i + 1)
      return some ⟨quote, i + 1, stop⟩
    else return none
termination_by 3 * (byteLen text - i) + 1

/-- The offset of the bracket that closes the outermost one, with `depth` brackets open. -/
def matchingClose (text : List Char) (depth i : Nat) : Option Nat := do
  if i < byteLen text then
    let b ← byteAt? text i
    if isOpenBracket b then matchingClose text (depth + 1) (i + 1)
    else if isCloseBracket b then
      if depth - 1 = 0 then return i else matchingClose text (depth - 1) (i + 1)
    else if Mask.isQuote b then
      let literal ← literalAt text i
      let j := literal.elim i (·.body.stop) + 1
      jump? i j fun _ => matchingClose text depth j
    else matchingClose text depth (i + 1)
  else return byteLen text
termination_by 3 * (byteLen text - i) + 2

end

/-- The literals of a script text from an offset on. -/
def literalsFrom (text : List Char) (i : Nat) : Option (List Literal) := do
  if i < byteLen text then
    match ← literalAt text i with
    | some literal =>
      let later ← jump? i (literal.body.stop + 1) fun _ => literalsFrom text (literal.body.stop + 1)
      return literal :: later
    | none => literalsFrom text (i + 1)
  else return []
termination_by byteLen text - i

/-- The literals of a script text, in order. -/
def literals (text : List Char) : Option (List Literal) := literalsFrom text 0

/-- The offset of an argument without the blanks before it, if it is not blank. The arguments start
at offset `start`. -/
def argumentStart? (start : Nat) (branch : Slice) : Option Nat :=
  let trimmed := trimLeft isBlank branch.text
  if trimmed = [] then none
  else some (start + branch.offset + (byteLen branch.text - byteLen trimmed))

/-- The offsets of the arguments of the call with the given parenthesis. -/
def callArguments (text : List Char) (parenthesis : Nat) : Option (List Nat) := do
  let close ← matchingClose text 0 parenthesis
  let inner ← slice? text (parenthesis + 1) (max close (parenthesis + 1))
  let cut ← branches inner
  return cut.filterMap (argumentStart? (parenthesis + 1))

/-- Whether a tag is still open at offset `pos`, seen from offset `i` in it. -/
def staysOpen (text : List Char) (pos i : Nat) : Option Bool := do
  if i < pos then
    let b ← byteAt? text i
    if b = '>' then return false
    else if b = '\x27' ∨ b = '\x22' then
      let rest ← drop? (i + 1) text
      let j := (find? (· == b) rest).elim (byteLen text) fun p => i + p + 2
      jump? i j fun _ => staysOpen text pos j
    else if b = '{' then
      let close ← matchingClose text 0 i
      jump? i (close + 1) fun _ => staysOpen text pos (close + 1)
    else staysOpen text pos (i + 1)
  else return true
termination_by pos - i

def insideTag (text : List Char) (pos : Nat) : Option Bool := do
  let before ← slice? text 0 pos
  match (offsetsOf '<' 0 before).reverse.find? fun i =>
      (byteAt? text (i + 1)).any Char.isAlpha with
  | none => return false
  | some i => staysOpen text pos (i + 1)

/-- The end of the expression that starts at an offset. -/
def expressionEnd (text : List Char) (i : Nat) : Option Nat := do
  if i < byteLen text then
    let b ← byteAt? text i
    if b = ';' ∨ b = ',' ∨ b = '\n' ∨ isCloseBracket b then return i
    else if isOpenBracket b then
      let close ← matchingClose text 0 i
      jump? i (close + 1) fun _ => expressionEnd text (close + 1)
    else if Mask.isQuote b then
      let literal ← literalAt text i
      let j := literal.elim (byteLen text) (·.body.stop + 1)
      jump? i j fun _ => expressionEnd text j
    else expressionEnd text (i + 1)
  else return byteLen text
termination_by byteLen text - i

/-- The value of an attribute or property. -/
structure Value where
  range : Range
  /-- The value is an expression. -/
  bound : Bool
  deriving Repr, DecidableEq

def tagValue (text : List Char) (i : Nat) : Option (Option Value) := do
  match byteAt? text i with
  | none => return none
  | some b =>
    if b = '\\' then
      match byteAt? text (i + 1) with
      | none => return none
      | some quote =>
        if quote = '\x27' ∨ quote = '\x22' then
          let rest ← drop? (i + 2) text
          let stop := (findText? ['\\', quote] rest).elim (byteLen text) fun p => i + 2 + p
          return some ⟨⟨i + 2, stop⟩, false⟩
        else return none
    else if b = '\x27' ∨ b = '\x22' then
      let rest ← drop? (i + 1) text
      let stop := (find? (· == b) rest).elim (byteLen text) fun p => i + 1 + p
      return some ⟨⟨i + 1, stop⟩, false⟩
    else if b = '{' then
      let close ← matchingClose text 0 i
      return some ⟨⟨i + 1, close⟩, true⟩
    else if b = '=' ∨ b = '\x60' ∨ b = '>' then return none
    else
      let rest ← drop? i text
      let stop := (find? (fun c => isBlank c || c == '>') rest).elim (byteLen text) fun p => i + p
      return some ⟨⟨i, stop⟩, false⟩

/-- The value that is assigned at offset `i` to the attribute or property that is named at offset
`name`. -/
def attributeValue (text : List Char) (name i : Nat) : Option (Option Value) := do
  if ← insideTag text name then tagValue text i
  else
    match byteAt? text i with
    | none => return none
    | some b =>
      if b = '=' ∨ b = '>' then return none
      else
        let stop ← expressionEnd text i
        return some ⟨⟨i, stop⟩, true⟩

end StyleAudit.Bytes
