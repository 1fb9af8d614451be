import StyleAudit.Glob.Basic

/-!
# What decides a glob

Most globs ask for one thing: a file name, an extension, how a path starts or ends. Only the
others have to be matched as regular expressions.
-/

namespace StyleAudit.Glob

def Token.isLiteral : Token → Bool
  | .literal _ => true
  | _ => false

def Token.isChar (c : Char) : Token → Bool
  | .literal d => d = c
  | _ => false

/-- The tokens after a leading `**/`. -/
def afterLeadingDirs : List Token → List Token
  | .leadingDirs :: ts => ts
  | ts => ts

/-- A glob for one file name in any directory. -/
def isBaseName (ts : List Token) : Bool :=
  match ts with
  | .leadingDirs :: t :: ts => (t :: ts).all fun t => t.isLiteral && !t.isChar '/'
  | _ => false

/-- A glob for one path. -/
def isWhole (ts : List Token) : Bool := !ts.isEmpty && ts.all Token.isLiteral

/-- A glob for one extension in any directory. -/
def isExtension (ts : List Token) : Bool :=
  match afterLeadingDirs ts with
  | .many :: .literal '.' :: ext =>
    ext.all fun t => t.isLiteral && !t.isChar '.' && !t.isChar '/'
  | _ => false

/-- A glob that only asks for the start of a path. -/
def isStart (ts : List Token) : Bool :=
  match ts.reverse with
  | .many :: lit => isWhole lit
  | .trailingDirs :: lit => lit.all Token.isLiteral
  | _ => false

/-- A glob that only asks for the end of a path. A separator alone is no end to look for. -/
def isEnding (ts : List Token) : Bool :=
  match afterLeadingDirs ts with
  | .many :: .literal '/' :: [] => false
  | .many :: lit => isWhole lit
  | lit => isWhole lit

/-- A glob that ends in an extension. -/
def hasExtension (ts : List Token) : Bool :=
  match ts.reverse.dropWhile fun t => t.isLiteral && !t.isChar '.' && !t.isChar '/' with
  | t :: _ => t.isChar '.'
  | [] => false

/-- What decides whether a path matches. -/
inductive Criterion
  /-- The name of the file. -/
  | baseName
  /-- The whole path. -/
  | whole
  /-- The extension of the file. -/
  | extension
  /-- The start of the path. -/
  | start
  /-- The end of the path. -/
  | ending
  /-- An expression, after the extension of the file. -/
  | extensionThenExpression
  /-- An expression. -/
  | expression
  deriving Repr, DecidableEq

/-- The simplest criterion of a glob. -/
def criterion (ts : List Token) : Criterion :=
  if isBaseName ts then .baseName
  else if isWhole ts then .whole
  else if isExtension ts then .extension
  else if isStart ts then .start
  else if isEnding ts then .ending
  else if hasExtension ts then .extensionThenExpression
  else .expression

/-- Whether the name of the file takes part in the decision. -/
def Criterion.isAboutName : Criterion → Bool
  | .baseName | .extension | .extensionThenExpression => true
  | .whole | .start | .ending | .expression => false

end StyleAudit.Glob
