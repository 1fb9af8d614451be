import StyleAudit.Bytes.Basic
import StyleAudit.Stylesheet

/-!
# Stylesheets by byte offsets

Masking, names of a selector text, comma separated lists, preludes and bodies.
-/

namespace StyleAudit

open Text

/-- The token seen from a text that starts `base` bytes earlier. -/
def Token.shift (base : Nat) (t : Token) : Token := { t with offset := base + t.offset }

namespace Bytes

/-- What the scan is in the middle of, between two characters that are not read together. -/
inductive Lexing
  | code
  | blockComment
  | lineComment
  | quoted (quote : Char)
  | interpolation (depth : Nat)
  deriving Repr, DecidableEq

/-- Masks the rest of `text` from offset `i` on. The byte after a character may be looked at; where
two characters belong together, both are taken. -/
def maskFrom (text : List Char) (lexing : Lexing) (parens i : Nat) : List Char → List Char
  | [] => []
  | c :: cs =>
    let next := byteAt? text (i + 1)
    let j := i + c.utf8Size
    match lexing with
    | .code =>
      if c = '\\' then
        match cs with
        | [] => [c]
        | d :: ds => c :: d :: maskFrom text .code parens (j + d.utf8Size) ds
      else if c = '/' ∧ next = some '*' then
        match cs with
        | [] => [' ', ' ']
        | d :: ds => ' ' :: ' ' :: maskFrom text .blockComment parens (j + d.utf8Size) ds
      else if c = '/' ∧ next = some '/' ∧ parens = 0 then
        ' ' :: maskFrom text .lineComment parens j cs
      else if Mask.isQuote c then ' ' :: maskFrom text (.quoted c) parens j cs
      else if Mask.isInterpolationMark c ∧ next = some '{' then
        Mask.dynamic :: maskFrom text (.interpolation 0) parens j cs
      else if c = '(' then c :: maskFrom text .code (parens + 1) j cs
      else if c = ')' then c :: maskFrom text .code (parens - 1) j cs
      else c :: maskFrom text .code parens j cs
    | .blockComment =>
      if c = '*' ∧ next = some '/' then
        match cs with
        | [] => [' ', ' ']
        | d :: ds => ' ' :: ' ' :: maskFrom text .code parens (j + d.utf8Size) ds
      else if c = '\n' then c :: maskFrom text .blockComment parens j cs
      else List.replicate c.utf8Size ' ' ++ maskFrom text .blockComment parens j cs
    | .lineComment =>
      if c = '\n' then c :: maskFrom text .code parens j cs
      else List.replicate c.utf8Size ' ' ++ maskFrom text .lineComment parens j cs
    | .quoted quote =>
      if c = '\\' then
        match cs with
        | [] => [' ']
        | d :: ds => ' ' :: List.replicate d.utf8Size ' ' ++
            maskFrom text (.quoted quote) parens (j + d.utf8Size) ds
      else
        List.replicate c.utf8Size ' ' ++
          maskFrom text (if c = quote then .code else .quoted quote) parens j cs
    | .interpolation depth =>
      let later := if c = '{' then .interpolation (depth + 1)
        else if c = '}' then if depth ≤ 1 then .code else .interpolation (depth - 1)
        else .interpolation depth
      List.replicate c.utf8Size Mask.dynamic ++ maskFrom text later parens j cs

/-- A text with comments, strings and interpolations masked. -/
def mask (text : List Char) : List Char := maskFrom text .code 0 0 text

/-! ### Names of a selector text -/

/-- The offset after the closing quote, from inside a quoted string. A backslash is passed over
together with the byte after it. -/
def skipQuoted (text : List Char) (quote : Char) (i : Nat) : Option Nat := do
  if i < byteLen text then
    let b ← byteAt? text i
    if b = '\\' then skipQuoted text quote (i + 2)
    else if b = quote then return i + 1
    else skipQuoted text quote (i + 1)
  else return i
termination_by byteLen text - i

/-- The offset after an attribute selector, with `depth` brackets open. -/
def skipAttribute (text : List Char) (depth i : Nat) : Option Nat := do
  if i < byteLen text then
    let b ← byteAt? text i
    if b = '[' then skipAttribute text (depth + 1) (i + 1)
    else if b = ']' then
      if depth - 1 = 0 then return i + 1 else skipAttribute text (depth - 1) (i + 1)
    else if b = '\\' then skipAttribute text depth (i + 2)
    else if b = '\x27' ∨ b = '\x22' then
      let j ← skipQuoted text b (i + 1)
      jump? i j fun _ => skipAttribute text depth j
    else skipAttribute text depth (i + 1)
  else return i
termination_by byteLen text - i

/-- The name at the start of a text without its escapes, and its byte length with them. -/
def readNameFrom (name : List Char) (i : Nat) : List Char → List Char × Nat
  | [] => (name.reverse, i)
  | c :: cs =>
    if c = '\\' then
      match cs with
      | [] => (name.reverse, i + 1)
      | d :: ds => readNameFrom (d :: name) (i + 1 + d.utf8Size) ds
    else if isNameBoundary c then (name.reverse, i)
    else readNameFrom (c :: name) (i + c.utf8Size) cs

/-- The marked names of a selector text from an offset on. -/
def tokensFrom (text : List Char) (i : Nat) : Option (List Token) := do
  if i < byteLen text then
    let b ← byteAt? text i
    if b = '\\' then
      let rest ← drop? (i + 1) text
      tokensFrom text (i + 1 + rest.head?.elim 0 Char.utf8Size)
    else if b = '[' then
      let j ← skipAttribute text 0 i
      jump? i j fun _ => tokensFrom text j
    else if b = '\x27' ∨ b = '\x22' then
      let j ← skipQuoted text b (i + 1)
      jump? i j fun _ => tokensFrom text j
    else
      match NameKind.ofMarker? b with
      | some kind =>
        let rest ← drop? (i + 1) text
        let (name, rawLen) := readNameFrom [] 0 rest
        let later ← tokensFrom text (i + 1 + rawLen)
        if name.isEmpty || (byteAt? text (i + 1)).any Char.isDigit ||
            name.contains Mask.dynamic then
          return later
        else return { offset := i, kind, name := String.ofList name, rawLen } :: later
      | none => tokensFrom text (i + 1)
  else return []
termination_by byteLen text - i

/-- The marked names of a selector text. -/
def tokens (text : List Char) : Option (List Token) := tokensFrom text 0

/-! ### Lists, preludes and bodies -/

/-- Cuts `text` at commas, along the bytes of the masked text from offset `i` on, with `depth`
brackets open and a branch that started at `start`. -/
def branchesFrom (text : List Char) (depth start i : Nat) : List Char → Option (List Slice)
  | [] => do
    let branch ← drop? start text
    return [⟨start, branch⟩]
  | b :: bs =>
    if isOpenBracket b then branchesFrom text (depth + 1) start (i + 1) bs
    else if isCloseBracket b then branchesFrom text (depth - 1) start (i + 1) bs
    else if b = ',' ∧ depth = 0 then do
      let branch ← slice? text start i
      let later ← branchesFrom text depth (i + 1) (i + 1) bs
      return ⟨start, branch⟩ :: later
    else branchesFrom text depth start (i + 1) bs

/-- The parts of a text between its commas of code outside all brackets. -/
def branches (text : List Char) : Option (List Slice) :=
  branchesFrom text 0 0 0 (encode (mask text))

/-- The preludes of a masked text, along its bytes from offset `i` on, with a stretch that started
at `start`. -/
def preludesFrom (masked : List Char) (start i : Nat) : List Char → Option (List Slice)
  | [] => return []
  | b :: bs =>
    if b = '{' then do
      let raw ← slice? masked start i
      let later ← preludesFrom masked (i + 1) (i + 1) bs
      let trimmed := trimLeft isBlank raw
      if trimmed ≠ [] ∧ trimmed.head? ≠ some '@' then
        return ⟨start + (byteLen raw - byteLen trimmed), trimRight isBlank trimmed⟩ :: later
      else return later
    else if b = '}' ∨ b = ';' then preludesFrom masked (i + 1) (i + 1) bs
    else preludesFrom masked start (i + 1) bs

/-- The names that a prelude declares. -/
def preludeTokens (prelude : Slice) : Option (List Token) := do
  let cut ← branches prelude.text
  let found ← cut.mapM fun branch =>
    (tokens branch.text).map (List.map (Token.shift (prelude.offset + branch.offset)))
  return found.flatten

/-- The declarations of a stylesheet that starts at `base` in the text which `index` describes. -/
def selectorsAt (css : List Char) (base : Nat) (index : LineIndex) : Option (List Selector) := do
  let masked := mask css
  let preludes ← preludesFrom masked 0 0 (encode masked)
  let found ← preludes.mapM fun prelude => preludeTokens (prelude.shift base)
  return found.flatten.map (Stylesheet.locate index)

/-- The declarations of a stylesheet. -/
def selectors (css : List Char) : Option (List Selector) := selectorsAt css 0 (.ofText css)

/-- The outermost bodies, along the bytes of a masked text from offset `i` on, with `depth` braces
open and a body that started at `start`. -/
def bodiesFrom (depth start i : Nat) : List Char → List Range
  | [] => if depth > 0 then [⟨start, i⟩] else []
  | b :: bs =>
    if b = '{' then bodiesFrom (depth + 1) (if depth = 0 then i + 1 else start) (i + 1) bs
    else if b = '}' ∧ depth > 0 then
      let later := bodiesFrom (depth - 1) start (i + 1) bs
      if depth - 1 = 0 then ⟨start, i⟩ :: later else later
    else bodiesFrom depth start (i + 1) bs

/-- The names that the bodies of a stylesheet refer to. -/
def bodyTokens (css : List Char) : Option (List Token) := do
  let masked := mask css
  let found ← (bodiesFrom 0 0 0 (encode masked)).mapM fun range => do
    let body ← slice? masked range.start range.stop
    (tokens body).map (List.map (Token.shift range.start))
  return found.flatten

/-- The set of names that the bodies of a stylesheet refer to. -/
def namesInBodies (css : List Char) : Option Names :=
  (bodyTokens css).map Names.empty.addTokens

end Bytes

end StyleAudit
