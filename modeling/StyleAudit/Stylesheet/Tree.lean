import StyleAudit.Selector.Token

/-!
# Stylesheets as trees

A stylesheet is a list of items: rules and at-rules, which have bodies of items, and at-statements
and declarations, which have none. The types carry what makes a tree well formed, so that every tree
has a printed text, and every printed text has the structure of its tree.
-/

namespace StyleAudit.Tree

open Text

/-- Whether `c` can stand in a name without an escape. -/
def isBare (c : Char) : Bool :=
  !(isNameBoundary c || isBlank c || c == '\\' || c == Mask.dynamic)

/-- A name that is written without escapes: every identifier, and more. -/
structure Name where
  text : List Char
  nonempty : text ≠ [] := by decide
  noDigit : text.head?.any Char.isDigit = false := by decide
  bare : text.all isBare = true := by decide

/-- Whether `c` can stand in the parameters of an at-rule and in the value of a declaration: it is
no brace, semicolon, quote, backslash or slash. -/
def isPlain (c : Char) : Bool := !"\x7b\x7d;'\"`\\/".toList.contains c

/-- The parameters of an at-rule, or the value of a declaration. -/
structure Phrase where
  text : List Char
  plain : text.all isPlain = true := by decide

/-- How one compound stands to the next. -/
inductive Combinator
  | descendant
  | child
  | next
  | sibling
  deriving Repr, DecidableEq

/-! ### Selectors -/

mutual

/-- Selectors in a row; there is at least one. -/
inductive SelectorList
  | one (selector : Complex)
  | more (selector : Complex) (rest : SelectorList)

inductive Complex
  | one (compound : Compound)
  | joined (compound : Compound) (combinator : Combinator) (rest : Complex)

/-- The name of an element, if any, and parts after it. -/
inductive Compound
  | element (name : Option Name)
  | part (compound : Compound) (part : Part)

/-- A class, an id, a pseudo-class, or the negation of a list of selectors. -/
inductive Part
  | marked (kind : NameKind) (name : Name)
  | pseudo (name : Name)
  | negation (selectors : SelectorList)

end

/-! ### Items -/

inductive Item
  | rule (selectors : SelectorList) (body : List Item)
  | atRule (name : Name) (params : Phrase) (body : List Item)
  | atStatement (name : Name) (params : Phrase)
  | declaration (property : Name) (value : Phrase)

/-! ### Printed text -/

def Combinator.text : Combinator → List Char
  | .descendant => [' ']
  | .child => [' ', '>', ' ']
  | .next => [' ', '+', ' ']
  | .sibling => [' ', '~', ' ']

mutual

def SelectorList.text : SelectorList → List Char
  | .one selector => selector.text
  | .more selector rest => selector.text ++ [',', ' '] ++ rest.text

def Complex.text : Complex → List Char
  | .one compound => compound.text
  | .joined compound combinator rest => compound.text ++ combinator.text ++ rest.text

def Compound.text : Compound → List Char
  | .element none => []
  | .element (some name) => name.text
  | .part compound part => compound.text ++ part.text

def Part.text : Part → List Char
  | .marked kind name => kind.marker :: name.text
  | .pseudo name => ':' :: name.text
  | .negation selectors => [':', 'n', 'o', 't', '('] ++ selectors.text ++ [')']

end

/-- An at-rule up to its body or its semicolon. -/
def atText (name : Name) (params : Phrase) : List Char := '@' :: name.text ++ ' ' :: params.text

mutual

def Item.text : Item → List Char
  | .rule selectors body => selectors.text ++ [' ', '{'] ++ itemsText body ++ ['}']
  | .atRule name params body => atText name params ++ [' ', '{'] ++ itemsText body ++ ['}']
  | .atStatement name params => atText name params ++ [';']
  | .declaration property value => property.text ++ [':', ' '] ++ value.text ++ [';']

/-- The printed text of a stylesheet. -/
def itemsText : List Item → List Char
  | [] => []
  | item :: items => item.text ++ itemsText items

end

/-! ### Declared names -/

mutual

def SelectorList.names : SelectorList → List (NameKind × String)
  | .one selector => selector.names
  | .more selector rest => selector.names ++ rest.names

def Complex.names : Complex → List (NameKind × String)
  | .one compound => compound.names
  | .joined compound _ rest => compound.names ++ rest.names

def Compound.names : Compound → List (NameKind × String)
  | .element _ => []
  | .part compound part => compound.names ++ part.names

def Part.names : Part → List (NameKind × String)
  | .marked kind name => [(kind, String.ofList name.text)]
  | .pseudo _ => []
  | .negation selectors => selectors.names

end

mutual

/-- The names in the selectors of an item and of the items in its body. -/
def Item.names : Item → List (NameKind × String)
  | .rule selectors body => selectors.names ++ itemsNames body
  | .atRule _ _ body => itemsNames body
  | .atStatement _ _ => []
  | .declaration _ _ => []

/-- The class and id names in all selectors of a stylesheet, in the order of the text. -/
def itemsNames : List Item → List (NameKind × String)
  | [] => []
  | item :: items => item.names ++ itemsNames items

end

end StyleAudit.Tree
