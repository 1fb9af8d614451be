import StyleAudit.Bytes.Script
import StyleAudit.Reference.Resolve

/-!
# References by byte offsets

Placeholders, names in attribute values, and the families of references. Where a family starts from
a pattern, the places of the pattern are given as offsets.
-/

namespace StyleAudit

open Text

/-- The reference seen from a text that starts `base` bytes earlier. -/
def Reference.shift (base : Nat) (r : Reference) : Reference := { r with offset := base + r.offset }

namespace Bytes

/-! ### Placeholders -/

/-- The placeholders of a text from an offset on. -/
def placeholdersFrom (text : List Char) (i : Nat) : Option (List Range) := do
  if i < byteLen text then
    let rest ← drop? i text
    if (after? ['$', '{'] rest).isSome then
      let close ← matchingClose text 0 (i + 1)
      let stop := min (close + 1) (byteLen text)
      let later ← jump? i stop fun _ => placeholdersFrom text stop
      return ⟨i, stop⟩ :: later
    else
      match Placeholder.marks.find? fun mark => (after? mark.1 rest).isSome with
      | some mark =>
        let inner ← drop? 2 rest
        let stop := (findText? mark.2 inner).elim (byteLen text) fun p => i + 2 + p + byteLen mark.2
        let later ← jump? i stop fun _ => placeholdersFrom text stop
        return ⟨i, stop⟩ :: later
      | none =>
        let j := i + rest.head?.elim 1 Char.utf8Size
        jump? i j fun _ => placeholdersFrom text j
  else return []
termination_by byteLen text - i

/-- The placeholders of a text, in order. -/
def placeholders (text : List Char) : Option (List Range) := placeholdersFrom text 0

/-- Masks the characters from offset `i` on that stand in one of `spans`. -/
def maskSpansFrom (spans : List Range) (i : Nat) : List Char → List Char
  | [] => []
  | c :: cs =>
    let later := maskSpansFrom spans (i + c.utf8Size) cs
    if spans.any fun span => span.start ≤ i && i < span.stop then
      List.replicate c.utf8Size Mask.dynamic ++ later
    else c :: later

/-- A text with each byte of a placeholder replaced by U+0001. -/
def maskPlaceholders (text : List Char) : Option (List Char) := do
  let spans ← placeholders text
  return maskSpansFrom spans 0 text

/-! ### Names in attribute values -/

/-- The name in a range of a text, with padding stripped, if it is a single name. The offset of the
reference is seen from a text that starts `base` bytes earlier. -/
def singleName (text : List Char) (range : Range) (base : Nat) (kind : NameKind)
    (site : ReferenceSite) : Option (List Reference) := do
  let raw ← slice? text range.start range.stop
  let name := trim isNamePadding raw
  let spans ← placeholders name
  if name.isEmpty || name.any isBlank || !spans.isEmpty then return []
  else
    let lead := byteLen raw - byteLen (trimLeft isNamePadding raw)
    return [{ offset := base + range.start + lead, len := byteLen name, kind,
              name := String.ofList name, site }]

/-- The end of the word at an offset, and whether it touches one of `spans`. -/
def wordEnd (text : List Char) (spans : List Range) (dynamic : Bool) (i : Nat) :
    Option (Nat × Bool) := do
  if i < byteLen text then
    let b ← byteAt? text i
    if isAsciiBlank b then return (i, dynamic)
    else
      match spans.find? fun span => span.start == i with
      | some span => jump? i span.stop fun _ => wordEnd text spans true span.stop
      | none => wordEnd text spans dynamic (i + 1)
  else return (i, dynamic)
termination_by byteLen text - i

/-- The names that the words of a class value list, from an offset on. -/
def wordNamesFrom (text : List Char) (spans : List Range) (base i : Nat) :
    Option (List Reference) := do
  if i < byteLen text then
    let b ← byteAt? text i
    if isAsciiBlank b then wordNamesFrom text spans base (i + 1)
    else
      let (stop, dynamic) ← wordEnd text spans false i
      let here ← if dynamic then pure [] else
        singleName text ⟨i, stop⟩ base .className .classAttribute
      let later ← jump? i stop fun _ => wordNamesFrom text spans base stop
      return here ++ later
  else return []
termination_by byteLen text - i

/-- The names that a class value lists, also in the literals of its placeholders. A literal has to
be shorter than the value. -/
def classNames (text : List Char) (base : Nat) : Option (List Reference) := do
  let spans ← placeholders text
  let words ← wordNamesFrom text spans base 0
  let nested ← spans.mapM fun span => do
    let inner ← slice? text span.start span.stop
    let found ← literals inner
    let names ← found.mapM fun literal => do
      let start := span.start + literal.body.start
      let value ← slice? text start (span.start + literal.body.stop)
      jump? value.length text.length fun _ => classNames value (base + start)
    return names.flatten
  return words ++ nested.flatten
termination_by text.length

/-- The names that the literals of an expression list as class values. -/
def boundClassNames (text : List Char) (base : Nat) : Option (List Reference) := do
  let found ← literals text
  let names ← found.mapM fun literal => do
    let value ← slice? text literal.body.start literal.body.stop
    classNames value (base + literal.body.start)
  return names.flatten

/-! ### Families of references -/

/-- The references in class attributes and properties. -/
def classAttributeReferences (text : List Char) : Option (List Reference) := do
  let assignments := (assignmentRecogniser ["class".toList, "classname".toList] true).findAll
    (.ofText text)
  let found ← assignments.mapM fun a => do
    match ← attributeValue text a.name.offset a.value.offset with
    | none => return []
    | some value =>
      let body ← slice? text value.range.start value.range.stop
      if value.bound || a.bound then boundClassNames body value.range.start
      else classNames body value.range.start
  return found.flatten

/-- The references in id attributes and properties. -/
def idAttributeReferences (text : List Char) : Option (List Reference) := do
  let assignments := (assignmentRecogniser ["id".toList] false).findAll (.ofText text)
  let found ← assignments.mapM fun a => do
    let inTag ← insideTag text a.name.offset
    let before ← slice? text 0 a.name.offset
    if !inTag && (trimRight isBlank before).getLast? != some '.' then return []
    else
      match ← attributeValue text a.name.offset a.value.offset with
      | none => return []
      | some value =>
        let body ← slice? text value.range.start value.range.stop
        if value.bound || a.bound then
          let found ← literals body
          let names ← found.mapM fun literal =>
            singleName body literal.body value.range.start .idName .idAttribute
          return names.flatten
        else singleName text value.range 0 .idName .idAttribute
  return found.flatten

/-- The references in literal arguments of class list methods. -/
def classListReferences (text : List Char) : Option (List Reference) := do
  let found ← (classListCall.findAll (.ofText text)).mapM fun call => do
    let arguments ← callArguments text call.offset
    let names ← arguments.mapM fun i => do
      match ← literalAt text i with
      | none => return []
      | some literal => singleName text literal.body 0 .className .classList
    return names.flatten
  return found.flatten

/-- The literal at the argument with a given number, if there is one. -/
def literalArgument (text : List Char) (parenthesis n : Nat) : Option (Option Literal) := do
  match (← callArguments text parenthesis)[n]? with
  | none => return none
  | some i => literalAt text i

/-- The references in selectors that are passed to a search of the document. -/
def selectorCallReferences (text : List Char) : Option (List Reference) := do
  let found ← ((callOf selectorFunctions).findAll (.ofText text)).mapM fun call => do
    match ← literalArgument text call.offset 0 with
    | none => return []
    | some literal =>
      let content ← slice? text literal.body.start literal.body.stop
      let masked ← if literal.quote = Script.templateQuote then maskPlaceholders content
        else pure content
      (tokens masked).map (List.map fun t => Reference.ofToken (t.shift literal.body.start))
  return found.flatten

/-- The references in calls that look an element up by id. -/
def idCallReferences (text : List Char) : Option (List Reference) := do
  let found ← ((callOf ["getElementById"]).findAll (.ofText text)).mapM fun call => do
    match ← literalArgument text call.offset 0 with
    | none => return []
    | some literal => singleName text literal.body 0 .idName .elementById
  return found.flatten

/-- The markup that a script writes into a page. -/
def writtenMarkup (text : List Char) : Option (List Slice) := do
  let assigned ← (markupAssignment.findAll (.ofText text)).mapM fun value =>
    literalAt text value.offset
  let inserted ← ((callOf ["insertAdjacentHTML"]).findAll (.ofText text)).mapM fun call =>
    literalArgument text call.offset 1
  ((assigned ++ inserted).filterMap id).mapM fun literal => do
    let fragment ← slice? text literal.body.start literal.body.stop
    return ⟨literal.body.start, fragment⟩

/-- The references in markup that a script writes into a page. -/
def writtenMarkupReferences (text : List Char) : Option (List Reference) := do
  let found ← (← writtenMarkup text).mapM fun fragment => do
    let classes ← classAttributeReferences fragment.text
    let ids ← idAttributeReferences fragment.text
    return (classes ++ ids).map (Reference.shift fragment.offset)
  return found.flatten

/-- All references of a text, family by family. -/
def references (text : List Char) : Option (List Reference) := do
  let classAttributes ← classAttributeReferences text
  let idAttributes ← idAttributeReferences text
  let classLists ← classListReferences text
  let selectorCalls ← selectorCallReferences text
  let idCalls ← idCallReferences text
  let written ← writtenMarkupReferences text
  return classAttributes ++ idAttributes ++ classLists ++ selectorCalls ++ idCalls ++ written

def resolveText (text : List Char) (known : Names) (options : ReportingPolicy) :
    Option Resolution :=
  (references text).map (resolve known options)

end Bytes

end StyleAudit
