import StyleAudit.Diagnostic
import StyleAudit.Path
import StyleAudit.Text.LineIndex

/-!
# Reports

Diagnostics located by file, line and column, as lines of text and as an indented JSON document.
-/

namespace StyleAudit

/-- The name under which diagnostics are reported. -/
def Diagnostic.source : String := "cssxref"

/-- A diagnostic with its file and its place, lines and columns counted from 1. -/
structure Report.Entry where
  path : String
  line : Nat
  col : Nat
  code : String
  message : String
  unnecessary : Bool
  deriving Repr, DecidableEq

namespace Report

/-- Locates the diagnostics of a file with the given text. An offset outside the text counts as
the start of the file. -/
def entries (path : Path) (text : List Char) (diagnostics : List Diagnostic) :
    List Report.Entry :=
  let index := LineIndex.ofText text
  diagnostics.map fun d =>
    let pos := (index.position? d.offset).getD ⟨0, 0⟩
    { path := path.text, line := pos.line + 1, col := pos.col + 1, code := d.kind.code,
      message := d.message, unnecessary := d.unnecessary }

/-- One line per entry. -/
def plain (entries : List Report.Entry) : String :=
  String.join (entries.map fun e =>
    s!"{e.path}:{e.line}:{e.col}: {Diagnostic.severity}: {e.message}\n")

/-- The closing line of a plain report. -/
def footer (issues filesChecked : Nat) : String :=
  if issues = 0 then s!"No issues found in {filesChecked} file(s).\n"
  else s!"{issues} issue(s) in {filesChecked} file(s) checked.\n"

def hexDigit (n : Nat) : Char := if n < 10 then Char.ofNat (48 + n) else Char.ofNat (87 + n)

/-- A character inside a JSON string. -/
def escapeChar (c : Char) : List Char :=
  if c = '\x22' then ['\\', '\x22']
  else if c = '\\' then ['\\', '\\']
  else if c = '\n' then ['\\', 'n']
  else if c = '\r' then ['\\', 'r']
  else if c = '\t' then ['\\', 't']
  else if c = '\x08' then ['\\', 'b']
  else if c = '\x0c' then ['\\', 'f']
  else if c.toNat < 32 then
    ['\\', 'u', '0', '0', hexDigit (c.toNat / 16), hexDigit (c.toNat % 16)]
  else [c]

def quoted (s : String) : String :=
  String.ofList (['\x22'] ++ s.toList.flatMap escapeChar ++ ['\x22'])

/-- An entry as a JSON object at the depth of a list of issues, fields in the order of their
names. -/
def entryObject (e : Report.Entry) : String :=
  "    \x7b\n" ++ String.intercalate ",\n" [
    "      \"code\": " ++ quoted e.code,
    "      \"col\": " ++ toString e.col,
    "      \"line\": " ++ toString e.line,
    "      \"message\": " ++ quoted e.message,
    "      \"path\": " ++ quoted e.path,
    "      \"severity\": " ++ quoted Diagnostic.severity,
    "      \"unnecessary\": " ++ (if e.unnecessary then "true" else "false")] ++ "\n    \x7d"

def issueArray : List Report.Entry → String
  | [] => "[]"
  | entries => "[\n" ++ String.intercalate ",\n" (entries.map entryObject) ++ "\n  ]"

def json (entries : List Report.Entry) (filesChecked : Nat) : String :=
  "\x7b\n" ++ String.intercalate ",\n" [
    "  \"files_checked\": " ++ toString filesChecked,
    "  \"issues\": " ++ issueArray entries,
    "  \"source\": " ++ quoted Diagnostic.source] ++ "\n\x7d\n"

end Report

end StyleAudit
