import StyleAudit.Toml.Table
import StyleAudit.Toml.Text

/-!
# TOML documents

A document is read line by line into statements, which then build up its tables. Values are kept
as far as settings can use them: numbers with a fraction, dates and tables are read and checked,
and then count as `Value.other`.
-/

namespace StyleAudit.Toml

open Settings (Value)

/-- A reader of a part of a document. -/
abbrev Reader (α : Type) := List Char → Option (α × List Char)

/-- How deep values may be nested, and how many parts a key may have. -/
def depthLimit : Nat := 79

/-- The parts of a key after the first. -/
def moreKeyParts (cs : List Char) : Option (List String × List Char) :=
  match dropSpaces cs with
  | '.' :: rest =>
    match keyPart? (dropSpaces rest) with
    | none => none
    | some (part, rest) =>
      if rest.length < cs.length then
        (moreKeyParts rest).map fun (parts, rest) => (part :: parts, rest)
      else none
  | rest => some ([], rest)
termination_by cs.length

/-- A key with its parts, and the blanks around it. -/
def key? (cs : List Char) : Option ((String × List String) × List Char) := do
  let (first, rest) ← keyPart? (dropSpaces cs)
  let (more, rest) ← moreKeyParts rest
  if more.length < depthLimit then some ((first, more), rest) else none

/-- A key without its last part, and that part. -/
def splitLast (first : String) : (more : List String) → List String × String
  | [] => ([], first)
  | next :: more => (first :: (splitLast next more).1, (splitLast next more).2)

/-- Whether a character ends a scalar. -/
def endsScalar (c : Char) : Bool :=
  isSpace c || ['\n', '\r', '#', ',', ']', '\x7d'].contains c

/-- A number, a truth value or a date. A time of day may stand one blank after its date. -/
def scalarValue? : Reader Value := fun cs =>
  let (word, rest) := cs.span (!endsScalar ·)
  if word = "true".toList then some (.bool true, rest)
  else if word = "false".toList then some (.bool false, rest)
  else match integer? word with
    | some n => some (.integer n, rest)
    | none =>
      if isPlainDate word then
        match rest with
        | ' ' :: more =>
          let (time, rest') := more.span (!endsScalar ·)
          if isTime true time then some (.other, rest') else some (.other, rest)
        | _ => some (.other, rest)
      else if isFloat word || isDate word || isTime false word then some (.other, rest)
      else none

/-- The elements of an array and its closing bracket. A comma may follow the last element. -/
def elements? (element : Reader Value) (cs : List Char) : Option (List Value × List Char) :=
  match dropTrivia? false cs with
  | none => none
  | some (']' :: rest) => some ([], rest)
  | some start =>
    match element start with
    | none => none
    | some (value, rest) =>
      match dropTrivia? false rest with
      | some (']' :: rest) => some ([value], rest)
      | some (',' :: rest) =>
        if rest.length < cs.length then
          (elements? element rest).map fun (values, rest) => (value :: values, rest)
        else none
      | _ => none
termination_by cs.length

/-- The key and value of a pair. -/
def pair? (element : Reader Value) : Reader ((String × List String) × Value) := fun cs => do
  let (key, rest) ← key? cs
  let (value, rest) ← element (dropSpaces (← skip? '=' rest))
  return ((key, value), rest)

/-- The pairs of an inline table and its closing brace, on one line. Each pair is put into
`fields`. -/
def pairs? (element : Reader Value) (fields : Fields) (cs : List Char) :
    Option (Fields × List Char) :=
  match pair? element cs with
  | none => none
  | some (((first, more), value), rest) =>
    let (path, last) := splitLast first more
    match insert path last value fields, dropSpaces rest with
    | some fields, '\x7d' :: rest => some (fields, rest)
    | some fields, ',' :: rest =>
      if rest.length < cs.length then pairs? element fields rest else none
    | _, _ => none
termination_by cs.length

def plainValue? : Reader Value
  | cs@('\x22' :: _) | cs@('\x27' :: _) =>
    (string? cs).map fun (text, rest) => (.text (String.ofList text), rest)
  | cs => scalarValue? cs

/-- A value in which arrays and inline tables are nested at most `depth` levels deep. -/
def value? : (depth : Nat) → Reader Value
  | 0, cs => plainValue? cs
  | depth + 1, cs =>
    match cs with
    | '[' :: rest => (elements? (value? depth) rest).map fun (values, rest) => (.list values, rest)
    | '\x7b' :: rest =>
      match dropSpaces rest with
      | '\x7d' :: rest => some (.other, rest)
      | rest => (pairs? (value? depth) [] rest).map fun (_, rest) => (.other, rest)
    | cs => plainValue? cs

/-- A line of a document that says something. -/
inductive Statement
  | set (first : String) (more : List String) (value : Value)
  | table (first : String) (more : List String)
  | element (first : String) (more : List String)

/-- A statement with the end of its line. -/
def statement? : Reader Statement := fun cs => do
  match cs with
  | '[' :: '[' :: rest =>
    let ((first, more), rest) ← key? rest
    let rest ← lineEnd? (← skip? ']' (← skip? ']' rest))
    return (.element first more, rest)
  | '[' :: rest =>
    let ((first, more), rest) ← key? rest
    let rest ← lineEnd? (← skip? ']' rest)
    return (.table first more, rest)
  | cs =>
    let (((first, more), value), rest) ← pair? (value? depthLimit) cs
    return (.set first more value, ← lineEnd? rest)

def statements? (cs : List Char) : Option (List Statement) :=
  match dropSpaces cs with
  | [] => some []
  | c :: rest =>
    if c = '#' || c = '\n' || c = '\r' then
      match lineEnd? (c :: rest) with
      | none => none
      | some rest => if rest.length < cs.length then statements? rest else none
    else match statement? (c :: rest) with
      | none => none
      | some (statement, rest) =>
        if rest.length < cs.length then (statements? rest).map (statement :: ·) else none
termination_by cs.length

/-- The tables of a document under construction. -/
structure Builder where
  fields : Fields
  /-- The path of the table that is open, if a header was read. -/
  current : Option (String × List String)

def Builder.add (b : Builder) : Statement → Option Builder
  | .table first more =>
    (descend openTable first more b.fields).map fun fields => ⟨fields, some (first, more)⟩
  | .element first more =>
    (descend openElement first more b.fields).map fun fields => ⟨fields, some (first, more)⟩
  | .set first more value =>
    let (path, last) := splitLast first more
    let fields := match b.current with
      | none => insert path last value b.fields
      | some (header, rest) => descend (insertInto path last value) header rest b.fields
    fields.map fun fields => { b with fields }

/-- The value of a key for settings. -/
def Node.value : Node → Value
  | .leaf value => value
  | _ => .other

/-- The top-level keys of a document and their values, if it is one. -/
def parse? (text : String) : Option (List (String × Value)) := do
  let cs := match text.toList with
    | '\uFEFF' :: cs => cs
    | cs => cs
  let built ← (← statements? cs).foldlM Builder.add ⟨[], none⟩
  return built.fields.map fun (key, node) => (key, node.value)

end StyleAudit.Toml
