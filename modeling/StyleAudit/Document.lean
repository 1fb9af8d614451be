import StyleAudit.Path

/-!
# Documents

A document is a text under analysis, with the key under which its selectors are kept, the version
of its text and, if it is stored, its place on disk.
-/

namespace StyleAudit

/-- How the text of a document is read. -/
inductive DocumentKind
  /-- Markup with embedded styles, links and attributes. -/
  | markup
  /-- A stylesheet. -/
  | style
  /-- Script source with calls and embedded markup. -/
  | script
  deriving Repr, DecidableEq

def DocumentKind.label : DocumentKind → String
  | .markup => "markup"
  | .style => "style"
  | .script => "script"

/-- The kind with a given name. -/
def DocumentKind.ofLabel? (label : String) : Option DocumentKind :=
  [.markup, .style, .script].find? fun kind => kind.label == label

/-- A text under analysis. -/
structure Document where
  key : String
  version : Int
  text : String
  kind : DocumentKind
  path : Option Path := none
  deriving Repr, DecidableEq

/-- The directory of a stored document. -/
def Document.dir (d : Document) : Option Path := d.path.bind Path.parent?

end StyleAudit
