import StyleAudit.Toml.Scalar

/-!
# TOML strings, blanks and comments

Each reader takes the rest of a document and gives what it read and what follows. A document that
breaks a rule has no reading.
-/

namespace StyleAudit.Toml

/-- Whether a character may stand in comments and strings: no control character but the tab. -/
def isPrintable (c : Char) : Bool := c = '\t' || (32 ≤ c.toNat && c.toNat ≠ 127)

/-- A blank inside a line. -/
def isSpace (c : Char) : Bool := c = ' ' || c = '\t'

def dropSpaces (cs : List Char) : List Char := cs.dropWhile isSpace

/-- What follows a line end. -/
def newline? : List Char → Option (List Char)
  | '\n' :: cs => some cs
  | '\r' :: '\n' :: cs => some cs
  | _ => none

/-- What follows the end of a line, after blanks and a comment. The document may end there. -/
def lineEnd? (cs : List Char) : Option (List Char) :=
  let cs := match dropSpaces cs with
    | '#' :: cs => cs.dropWhile isPrintable
    | cs => cs
  if cs.isEmpty then some [] else newline? cs

/-- What follows blanks, line ends and comments, when `inComment` tells whether a comment is
open. -/
def dropTrivia? : (inComment : Bool) → List Char → Option (List Char)
  | inComment, [] => if inComment then none else some []
  | _, '\n' :: cs => dropTrivia? false cs
  | _, '\r' :: '\n' :: cs => dropTrivia? false cs
  | _, '\r' :: _ => none
  | true, c :: cs => if isPrintable c then dropTrivia? true cs else none
  | false, c :: cs =>
    if isSpace c then dropTrivia? false cs
    else if c = '#' then dropTrivia? true cs
    else some (c :: cs)

/-- A character by its code in base sixteen. -/
def scalar? (code : List Char) : Option Char := do
  let n ← code.foldlM (fun n c => (digit? 16 c).map (n * 16 + ·)) 0
  if n < 0xd800 ∨ (0xdfff < n ∧ n < 0x110000) then some (Char.ofNat n) else none

/-- The character that a letter after a backslash stands for. -/
def escaped? : Char → Option Char
  | 'b' => some '\x08'
  | 't' => some '\t'
  | 'n' => some '\n'
  | 'f' => some '\x0c'
  | 'r' => some '\r'
  | '\x22' => some '\x22'
  | '\\' => some '\\'
  | _ => none

/-- Puts a character in front of what was read. -/
def prepend (c : Char) : Option (List Char × List Char) → Option (List Char × List Char) :=
  Option.map fun (text, rest) => (c :: text, rest)

/-- A string in double quotes, after the opening quote. -/
def basicString? : List Char → Option (List Char × List Char)
  | '\x22' :: cs => some ([], cs)
  | '\\' :: 'u' :: a :: b :: c :: d :: cs =>
    (scalar? [a, b, c, d]).bind fun x => prepend x (basicString? cs)
  | '\\' :: 'U' :: a :: b :: c :: d :: e :: f :: g :: h :: cs =>
    (scalar? [a, b, c, d, e, f, g, h]).bind fun x => prepend x (basicString? cs)
  | '\\' :: c :: cs => (escaped? c).bind fun x => prepend x (basicString? cs)
  | c :: cs => if isPrintable c then prepend c (basicString? cs) else none
  | [] => none

/-- A string in single quotes, after the opening quote. -/
def literalString? : List Char → Option (List Char × List Char)
  | '\x27' :: cs => some ([], cs)
  | c :: cs => if isPrintable c then prepend c (literalString? cs) else none
  | [] => none

/-- Whether only blanks stand between here and the end of the line. -/
def atLineEnd (cs : List Char) : Bool := (newline? (dropSpaces cs)).isSome

/-- A string in three double quotes, after the opening quotes. With `folding`, blanks and line
ends are skipped, as after a backslash at the end of a line. One or two quotes may stand right
before the closing ones. -/
def longBasicString? : (folding : Bool) → List Char → Option (List Char × List Char)
  | true, '\n' :: cs => longBasicString? true cs
  | true, '\r' :: '\n' :: cs => longBasicString? true cs
  | true, ' ' :: cs => longBasicString? true cs
  | true, '\t' :: cs => longBasicString? true cs
  | _, '\x22' :: '\x22' :: '\x22' :: '\x22' :: '\x22' :: cs => some (['\x22', '\x22'], cs)
  | _, '\x22' :: '\x22' :: '\x22' :: '\x22' :: cs => some (['\x22'], cs)
  | _, '\x22' :: '\x22' :: '\x22' :: cs => some ([], cs)
  | _, '\\' :: 'u' :: a :: b :: c :: d :: cs =>
    (scalar? [a, b, c, d]).bind fun x => prepend x (longBasicString? false cs)
  | _, '\\' :: 'U' :: a :: b :: c :: d :: e :: f :: g :: h :: cs =>
    (scalar? [a, b, c, d, e, f, g, h]).bind fun x => prepend x (longBasicString? false cs)
  | _, '\\' :: c :: cs =>
    if atLineEnd (c :: cs) then longBasicString? true (c :: cs)
    else (escaped? c).bind fun x => prepend x (longBasicString? false cs)
  | _, '\n' :: cs => prepend '\n' (longBasicString? false cs)
  | _, '\r' :: '\n' :: cs => prepend '\n' (longBasicString? false cs)
  | _, c :: cs => if isPrintable c then prepend c (longBasicString? false cs) else none
  | _, [] => none

/-- A string in three single quotes, after the opening quotes. -/
def longLiteralString? : List Char → Option (List Char × List Char)
  | '\x27' :: '\x27' :: '\x27' :: '\x27' :: '\x27' :: cs => some (['\x27', '\x27'], cs)
  | '\x27' :: '\x27' :: '\x27' :: '\x27' :: cs => some (['\x27'], cs)
  | '\x27' :: '\x27' :: '\x27' :: cs => some ([], cs)
  | '\n' :: cs => prepend '\n' (longLiteralString? cs)
  | '\r' :: '\n' :: cs => prepend '\n' (longLiteralString? cs)
  | c :: cs => if isPrintable c then prepend c (longLiteralString? cs) else none
  | [] => none

/-- The text without a line end at its start. -/
def dropNewline (cs : List Char) : List Char := (newline? cs).getD cs

/-- A string of any form, if one stands here. -/
def string? : List Char → Option (List Char × List Char)
  | '\x22' :: '\x22' :: '\x22' :: cs => longBasicString? false (dropNewline cs)
  | '\x27' :: '\x27' :: '\x27' :: cs => longLiteralString? (dropNewline cs)
  | '\x22' :: cs => basicString? cs
  | '\x27' :: cs => literalString? cs
  | _ => none

def isBareKeyChar (c : Char) : Bool := c.isAlphanum || c = '_' || c = '-'

/-- One part of a key: a word, or a string on one line. -/
def keyPart? : List Char → Option (String × List Char)
  | '\x22' :: cs => (basicString? cs).map fun (text, rest) => (String.ofList text, rest)
  | '\x27' :: cs => (literalString? cs).map fun (text, rest) => (String.ofList text, rest)
  | cs =>
    let word := cs.takeWhile isBareKeyChar
    if word.isEmpty then none else some (String.ofList word, cs.drop word.length)

end StyleAudit.Toml
