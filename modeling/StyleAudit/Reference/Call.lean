import StyleAudit.Selector.Token
import StyleAudit.Reference.NameList

/-!
# Calls that name classes and ids

`classList.add(..)` and its relatives, `querySelector(..)` and its relatives, and
`getElementById(..)`.
-/

namespace StyleAudit

open Text

/-- What follows one of `words`, if one comes next. The first that `next` accepts is taken. -/
def afterWord? (words : List String) (next : List Char → Option (List Char)) (cs : List Char) :
    Option (List Char) :=
  words.findSome? fun word => (after? word.toList cs).bind next

/-- A text from an open parenthesis on, if one comes next after blanks. -/
def atParenthesis? (cs : List Char) : Option (List Char) :=
  let rest := cs.dropWhile isBlank
  if rest.head? = some '(' then some rest else none

/-- Recognises a word that starts a call, as read by `callee`, and its parenthesis. The find is the
text from the parenthesis on. -/
def callRecogniser (callee : List Char → Option (List Char)) : Recogniser Slice := fun cur =>
  if cur.atWordStart then
    (callee cur.rest).map fun rest => ((cur.seek rest).toSlice, cur.distance rest + 1)
  else none

def callOf (functions : List String) : Recogniser Slice :=
  callRecogniser (afterWord? functions atParenthesis?)

/-- The methods of class lists that take names. -/
def classListMethods : List String := ["add", "remove", "toggle", "contains", "replace"]

/-- A call of a method that edits or reads the class list of an element. -/
def classListCall : Recogniser Slice :=
  callRecogniser <| afterWord? ["classList"] fun rest => do
    let rest ← after? ['.'] (rest.dropWhile isBlank)
    afterWord? classListMethods atParenthesis? (rest.dropWhile isBlank)

/-- The references in literal arguments of class list methods. -/
def classListReferences (s : Slice) : List Reference :=
  (classListCall.findAll s).flatMap fun call =>
    let bodies := ((Script.callArguments call).filterMap Script.literalAt?).map Script.Literal.body
    (bodies.filterMap singleName?).map (Reference.ofSlice .className .classList)

def firstLiteral? (call : Slice) : Option Script.Literal :=
  (Script.callArguments call).head?.bind Script.literalAt?

/-- The selector text of a literal. Placeholders of a template are not known. -/
def selectorText (literal : Script.Literal) : Slice :=
  if literal.quote = Script.templateQuote then
    ⟨literal.body.offset, Placeholder.maskAll literal.body.text⟩
  else literal.body

/-- The reference that a name in a selector text makes. -/
def Reference.ofToken (t : Token) : Reference :=
  { offset := t.offset + 1, len := t.rawLen, kind := t.kind, name := t.name,
    site := .querySelector }

/-- The functions that take a selector. Of two words at one place the longer comes first. -/
def selectorFunctions : List String := ["querySelectorAll", "querySelector", "closest", "matches"]

/-- The references in selectors that are passed to a search of the document. -/
def selectorCallReferences (s : Slice) : List Reference :=
  ((callOf selectorFunctions).findAll s).flatMap fun call =>
    match firstLiteral? call with
    | none => []
    | some literal => (tokens (selectorText literal)).map Reference.ofToken

/-- The references in calls that look an element up by id. -/
def idCallReferences (s : Slice) : List Reference :=
  ((callOf ["getElementById"]).findAll s).filterMap fun call => do
    let literal ← firstLiteral? call
    let name ← singleName? literal.body
    return .ofSlice .idName .elementById name

end StyleAudit
