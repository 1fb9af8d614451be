import StyleAudit.Text.Blank
import StyleAudit.Text.Cursor
import StyleAudit.Text.Fold

/-!
# Stylesheets of a page

The `<style>` elements of a page and the addresses of its stylesheet links. Names of tags match in
any case.
-/

namespace StyleAudit.Markup

open Text

/-- What follows `<name` and the attributes of a tag, after its `>`. The first part is the tag's
text after the name, with the `>`. -/
def openTag? (name : String) (cs : List Char) : Option (List Char × List Char) := do
  let rest ← afterFolded? ('<' :: name.toList) cs
  if rest.head?.any isWord then none
  else
    let attributes := rest.takeWhile fun c => c != '>'
    match rest.dropWhile fun c => c != '>' with
    | [] => none
    | _ :: after => some (attributes ++ ['>'], after)

/-- What follows the end tag of a style element, if one comes next. -/
def afterStyleEnd? (cs : List Char) : Option (List Char) := do
  let rest ← afterFolded? "</style".toList cs
  after? ['>'] (rest.dropWhile isBlank)

/-- Splits the text of a style element from what follows its end tag. An element that is not
closed runs to the end. -/
def styleBody : List Char → List Char × List Char
  | [] => ([], [])
  | c :: cs =>
    match afterStyleEnd? (c :: cs) with
    | some rest => ([], rest)
    | none => (c :: (styleBody cs).1, (styleBody cs).2)

/-- Recognises a style element; the find is its text. -/
def styleRecogniser : Recogniser Slice := fun cur => do
  let (_, inner) ← openTag? "style" cur.rest
  let (body, rest) := styleBody inner
  return (⟨(cur.seek inner).offset, body⟩, cur.distance rest)

/-- The text of each style element of a page, in order. -/
def styleBlocks (s : Slice) : List Slice := styleRecogniser.findAll s

/-- Recognises a link tag; the find is the tag. -/
def linkRecogniser : Recogniser Slice := fun cur => do
  let (_, rest) ← openTag? "link" cur.rest
  let length := cur.distance rest
  return (⟨cur.offset, cur.rest.take length⟩, length)

structure TagAttribute where
  name : List Char
  value : List Char
  deriving Repr, DecidableEq

/-- Whether `c` can stand in the name of an attribute, after the first character. -/
def isAttributeNamePart (c : Char) : Bool :=
  foldsToLetter c || c.isDigit || c == '_' || c == ':' || c == '-'

def isBareValuePart (c : Char) : Bool :=
  !(isBlank c || "\"'=<>`".toList.contains c)

/-- An attribute's value and what follows it: quoted, or bare and not empty. -/
def attributeValue? (cs : List Char) : Option (List Char × List Char) :=
  match cs with
  | [] => none
  | c :: inner =>
    if c = '\x27' ∨ c = '\x22' then
      match inner.dropWhile fun d => d != c with
      | [] => none
      | _ :: after => some (inner.takeWhile fun d => d != c, after)
    else if isBareValuePart c then some (cs.takeWhile isBareValuePart, cs.dropWhile isBareValuePart)
    else none

/-- Recognises an attribute with a value. -/
def attributeRecogniser : Recogniser TagAttribute := fun cur =>
  if cur.atWordStart && cur.rest.head?.any foldsToLetter then do
    let name := cur.rest.takeWhile isAttributeNamePart
    let rest := (cur.rest.dropWhile isAttributeNamePart).dropWhile isBlank
    let rest ← after? ['='] rest
    let (value, rest) ← attributeValue? (rest.dropWhile isBlank)
    return (⟨name, value⟩, cur.distance rest)
  else none

/-- The attributes of a tag that have a value, in order. -/
def tagAttributes (tag : Slice) : List TagAttribute := attributeRecogniser.findAll tag

/-- The value of the last attribute with a name, given in lower case. -/
def lastValue? (name : String) (attributes : List TagAttribute) : Option (List Char) :=
  (attributes.reverse.find? fun a => toAsciiLower a.name == name.toList).map TagAttribute.value

/-- The address of a stylesheet link: the tag says that it is one, and the address is not empty. -/
def stylesheetHref? (tag : Slice) : Option String := do
  let attributes := tagAttributes tag
  let rel ← lastValue? "rel" attributes
  let href ← lastValue? "href" attributes
  let address := trim isBlank href
  if (runs isBlank rel).any (eqIgnoreAsciiCase "stylesheet".toList) && !address.isEmpty then
    some (String.ofList address)
  else none

/-- The addresses of the stylesheets that a page links to, in order. -/
def stylesheetLinks (s : Slice) : List String :=
  (linkRecogniser.findAll s).filterMap stylesheetHref?

end StyleAudit.Markup
