import StyleAudit.Reference.Attribute
import StyleAudit.Reference.Call

/-!
# All references of a text

Markup that a script writes into a page is scanned like a page of its own.
-/

namespace StyleAudit

open Text

/-- Recognises an assignment of markup to an element. The find is the text from the value on. -/
def markupAssignment : Recogniser Slice := fun cur =>
  if cur.atWordStart then
    (afterWord? ["innerHTML", "outerHTML"] (afterEquals? true) cur.rest).map fun rest =>
      ((cur.seek rest).toSlice, cur.distance rest)
  else none

/-- The literals with markup that a script writes into a page: assigned ones first, then those
inserted by a call, as its second argument. -/
def writtenMarkup (s : Slice) : List Slice :=
  let assigned := (markupAssignment.findAll s).filterMap Script.literalAt?
  let inserted := ((callOf ["insertAdjacentHTML"]).findAll s).filterMap fun call =>
    (Script.callArguments call)[1]?.bind Script.literalAt?
  (assigned ++ inserted).map Script.Literal.body

/-- The references in markup that a script writes into a page. -/
def writtenMarkupReferences (s : Slice) : List Reference :=
  (writtenMarkup s).flatMap fun fragment =>
    classAttributeReferences fragment ++ idAttributeReferences fragment

/-- All references of a text, family by family. -/
def references (s : Slice) : List Reference :=
  classAttributeReferences s ++ idAttributeReferences s ++ classListReferences s ++
    selectorCallReferences s ++
    idCallReferences s ++ writtenMarkupReferences s

end StyleAudit
