/-!
# Globs

A glob is a sequence of tokens that a path is matched against as a whole. Globs are read
character by character and matched byte by byte, so a class or `?` stands for one byte of the
UTF-8 form of a path.
-/

namespace StyleAudit.Glob

/-- A part of a glob. -/
inductive Token
  | literal (c : Char)
  /-- `?` -/
  | any
  /-- `*`, which also crosses separators. -/
  | many
  /-- `**/` at the start: nothing, or everything up to some separator. -/
  | leadingDirs
  /-- `/**` at the end: everything below a directory. -/
  | trailingDirs
  /-- `/**/` in between: one separator, or two with anything between them. -/
  | innerDirs
  /-- `[...]`, by ranges of characters. -/
  | oneOf (negated : Bool) (ranges : List (Char × Char))
  /-- `{a,b}` -/
  | alternates (branches : List (List Token))
  deriving Repr

/-- Why a text is not a glob. -/
inductive Fault
  | unclosedClass
  | invalidRange (first last : Char)
  | unopenedAlternates
  | unclosedAlternates
  | danglingEscape
  deriving Repr, DecidableEq

def Fault.message : Fault → String
  | unclosedClass => "unclosed character class; missing ']'"
  | invalidRange first last => s!"invalid range; '{first}' > '{last}'"
  | unopenedAlternates =>
    "unopened alternate group; missing '\x7b' (maybe escape '\x7d' with '[\x7d]'?)"
  | unclosedAlternates =>
    "unclosed alternate group; missing '\x7d' (maybe escape '\x7b' with '[\x7b]'?)"
  | danglingEscape => "dangling '\\'"

end StyleAudit.Glob
