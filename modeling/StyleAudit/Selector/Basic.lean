import StyleAudit.Text.LineIndex

/-!
# Class and id names

The names that a stylesheet declares and a page refers to, the places where they stand, and sets
of names.
-/

namespace StyleAudit

inductive NameKind
  | className
  | idName
  deriving Repr, DecidableEq

namespace NameKind

/-- The character that marks a name of this kind in a selector. -/
def marker : NameKind → Char
  | .className => '.'
  | .idName => '#'

def ofMarker? (c : Char) : Option NameKind :=
  if c = '.' then some .className else if c = '#' then some .idName else none

/-- The word for the kind in messages. -/
def label : NameKind → String
  | .className => "class"
  | .idName => "id"

end NameKind

/-- A marked name in a selector text. -/
structure Token where
  /-- Offset of the marker. -/
  offset : Nat
  kind : NameKind
  /-- The name without its escapes. -/
  name : String
  /-- Byte length of the name as it is written. -/
  rawLen : Nat
  deriving Repr, DecidableEq

def Token.display (t : Token) : String :=
  t.kind.marker.toString ++ t.name

/-- A declared name, with the position of its marker. -/
structure Selector extends Token where
  position : Position
  deriving Repr, DecidableEq

def isIdentifierStart (c : Char) : Bool := c.isAlpha || c == '_'

def isIdentifierPart (c : Char) : Bool := c.isAlphanum || c == '_' || c == '-'

/-- Whether a name is a plain identifier: at most one hyphen, an ASCII letter or underscore, then
ASCII letters, digits, underscores and hyphens. -/
def isIdentifier (name : String) : Bool :=
  let body := match name.toList with
    | '-' :: cs => cs
    | cs => cs
  match body with
  | [] => false
  | c :: cs => isIdentifierStart c && cs.all isIdentifierPart

/-- A set of class names and a set of id names. -/
structure Names where
  classes : List String
  ids : List String
  deriving Repr, DecidableEq

namespace Names

def empty : Names := ⟨[], []⟩

/-- The names of one kind. -/
def ofKind (names : Names) : NameKind → List String
  | .className => names.classes
  | .idName => names.ids

def contains (names : Names) (kind : NameKind) (name : String) : Bool :=
  (names.ofKind kind).contains name

def insert (names : Names) (kind : NameKind) (name : String) : Names :=
  match kind with
  | .className => { names with classes := names.classes.insert name }
  | .idName => { names with ids := names.ids.insert name }

/-- `names` with the names of `tokens` added. -/
def addTokens (names : Names) (tokens : List Token) : Names :=
  tokens.foldl (fun acc t => acc.insert t.kind t.name) names

/-- `names` with the declared names of `selectors` added. -/
def addSelectors (names : Names) (selectors : List Selector) : Names :=
  names.addTokens (selectors.map Selector.toToken)

end Names

end StyleAudit
