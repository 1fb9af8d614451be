import StyleAudit.Text.Utf8

/-!
# Paths

A path is kept as it is written, in bytes, since reports and cache keys show its spelling. What a
path means is read off its components: separators may be repeated, and `.` counts only at the
start. Most paths are texts, but not all: a name may be any bytes without a separator. Nothing here
looks at a disk.
-/

namespace StyleAudit

open Text

/-- How a name or a path is written: bytes that need not be a text. -/
abbrev Spelling := List UInt8

/-- A path with `/` as separator. -/
structure Path where
  raw : Spelling
  deriving Repr, DecidableEq

namespace Path

def separator : UInt8 := 47

def dot : UInt8 := 46

/-- The path that a text spells. -/
def ofText (text : String) : Path := ⟨utf8 text.toList⟩

/-- What is shown of a path. Different paths may be shown alike, if one of them is no text. -/
def text (p : Path) : String := String.ofList (shown p.raw)

/-- A path that is a text is shown as it is. -/
theorem text_ofText (text : String) : (ofText text).text = text := by
  rw [Path.text, ofText, shown_utf8, String.ofList_toList]

/-- A step of a path. -/
inductive Component
  | root
  /-- A leading `.` -/
  | here
  | parent
  | name (spelling : Spelling)
  deriving Repr, DecidableEq

namespace Component

/-- The component that a part between separators stands for. -/
def ofPart (part : Spelling) : Component :=
  if part = [dot] then .here
  else if part = [dot, dot] then .parent
  else .name part

def rank : Component → Nat
  | root => 0
  | here => 1
  | parent => 2
  | name _ => 3

def spelling : Component → Spelling
  | name spelling => spelling
  | _ => []

/-- The order of components: the root first, names last and by their bytes. -/
def lt (a b : Component) : Bool :=
  a.rank < b.rank || (a.rank = b.rank && a.spelling < b.spelling)

end Component

/-- The maximal parts of `bytes` without a separator, each with its place when `n` bytes stand
before them. -/
def partsFrom (n : Nat) : (bytes : Spelling) → List (Nat × Spelling)
  | [] => []
  | b :: bytes =>
    if b = separator then partsFrom (n + 1) bytes
    else match partsFrom (n + 1) bytes with
      | (m, part) :: more =>
        if m = n + 1 then (n, b :: part) :: more else (n, [b]) :: (m, part) :: more
      | [] => [(n, [b])]

/-- The parts that are components, with their places. A `.` is one only at the very start. -/
def parts (p : Path) : List (Nat × Spelling) :=
  (partsFrom 0 p.raw).filter fun (start, part) => start = 0 || part ≠ [dot]

def isAbsolute (p : Path) : Bool := p.raw.head? = some separator

def components (p : Path) : List Component :=
  (if p.isAbsolute then [.root] else []) ++ p.parts.map fun (_, part) => .ofPart part

/-- The first `n` bytes of the spelling. -/
def take (n : Nat) (p : Path) : Path := ⟨p.raw.take n⟩

/-- The spelling of a path whose components are those of `parts`, without what follows them. -/
def upTo (p : Path) (parts : List (Nat × Spelling)) : Path :=
  match parts.getLast? with
  | some (start, part) => p.take (start + part.length)
  | none => ⟨if p.isAbsolute then [separator] else []⟩

/-- `rel` seen from `base`. An absolute `rel` stands for itself. -/
def join (base rel : Path) : Path :=
  if rel.isAbsolute then rel
  else if base.raw.isEmpty || base.raw.getLast? = some separator then ⟨base.raw ++ rel.raw⟩
  else ⟨base.raw ++ separator :: rel.raw⟩

/-- `name` in the directory `base`. -/
def child (base : Path) (name : Spelling) : Path := base.join ⟨name⟩

/-- The path without its last component. The root and the empty path have no parent. -/
def parent? (p : Path) : Option Path :=
  if p.parts.isEmpty then none else some (p.upTo p.parts.dropLast)

/-- The parent, its parent, and so on. -/
def ancestors (p : Path) : List Path :=
  (List.range p.parts.length).reverse.map fun k => p.upTo (p.parts.take k)

/-- The last component, when it is a name. -/
def fileName? (p : Path) : Option Spelling :=
  match p.parts.getLast? with
  | some (_, part) =>
    match Component.ofPart part with
    | .name spelling => some spelling
    | _ => none
  | none => none

/-- What follows the last dot of a file name, unless that dot is its first byte. -/
def extensionOf? (name : Spelling) : Option Spelling :=
  match name.reverse.span (· ≠ dot) with
  | (_, []) | (_, [_]) => none
  | (ext, _) => some ext.reverse

/-- The extension of the file name, without the dot. -/
def extension? (p : Path) : Option Spelling := p.fileName?.bind extensionOf?

/-- Whether the components of `base` are the first components of `p`. -/
def startsWith (p base : Path) : Bool := base.components.isPrefixOf p.components

/-- What remains of `p` after the components of `base`. -/
def relativeTo? (p base : Path) : Option Path :=
  if p.startsWith base then
    let rest := p.parts.drop base.parts.length
    if base.components.isEmpty then some (p.upTo p.parts)
    else match rest.head? with
      | some (start, _) => some ⟨(p.upTo rest).raw.drop start⟩
      | none => some ⟨[]⟩
  else none

/-- Drops `.` and lets each `..` undo the name before it, if there is one. -/
def foldComponents : List Component → (stack : List Spelling) → List Spelling
  | [], stack => stack.reverse
  | .name spelling :: more, stack => foldComponents more (spelling :: stack)
  | .parent :: more, stack => foldComponents more stack.tail
  | _ :: more, stack => foldComponents more stack

/-- The path without `.` and `..`, by its spelling alone. -/
def normalize (p : Path) : Path :=
  let names := foldComponents p.components []
  ⟨(if p.isAbsolute then [separator] else []) ++ [separator].intercalate names⟩

/-- The order of lists of components, first difference first. -/
def componentsLe : List Component → List Component → Bool
  | [], _ => true
  | _ :: _, [] => false
  | a :: as, b :: bs => a.lt b || (a = b && componentsLe as bs)

/-- The order of paths: by components, not by bytes. -/
def le (p q : Path) : Bool := componentsLe p.components q.components

end Path

end StyleAudit
