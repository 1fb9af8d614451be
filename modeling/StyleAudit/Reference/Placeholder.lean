import StyleAudit.Script.Nesting

/-!
# Placeholders of templates

A placeholder (`${..}`, `{{..}}`, `{%..%}`, `<%..%>`, `<?..?>`) stands for text that a template
fills in. One that is not closed runs to the end of the text.
-/

namespace StyleAudit.Placeholder

open Text

/-- The opening and closing marks of the placeholders that do not nest. -/
def marks : List (List Char × List Char) :=
  [(['{', '{'], ['}', '}']), (['{', '%'], ['%', '}']), (['<', '%'], ['%', '>']),
    (['<', '?'], ['?', '>'])]

/-- Number of characters of the placeholder at the start of a text. -/
def length? (cs : List Char) : Option Nat :=
  match after? ['$', '{'] cs with
  | some inner => some (min cs.length ((Script.bracketed inner).length + 3))
  | none =>
    marks.findSome? fun (opening, closing) => do
      let inner ← after? opening cs
      return min cs.length ((breakOn closing inner).1.length + 4)

def recogniser : Recogniser Slice := fun cur => do
  let n ← length? cur.rest
  return (⟨cur.offset, cur.rest.take n⟩, n)

/-- The placeholders of a text, in order. -/
def all (s : Slice) : List Slice := recogniser.findAll s

theorem length_le_of_mem_all {s span : Slice} (h : span ∈ all s) :
    span.text.length ≤ s.text.length := by
  obtain ⟨cur, taken, hr, hin, _⟩ := Recogniser.mem_findAll h
  have hle := hin.length_rest_le
  simp only [recogniser, bind, Option.bind_eq_some_iff, pure, Option.some.injEq,
    Prod.mk.injEq] at hr
  obtain ⟨n, _, hspan, _⟩ := hr
  subst hspan
  simp only [List.length_take]
  omega

/-- Each character of a text, and whether it belongs to a placeholder; the first `inside` of them
do. -/
def paintFrom : (inside : Nat) → List Char → List (Char × Bool)
  | _, [] => []
  | inside + 1, c :: cs => (c, true) :: paintFrom inside cs
  | 0, c :: cs =>
    match length? (c :: cs) with
    | some n => (c, true) :: paintFrom (n - 1) cs
    | none => (c, false) :: paintFrom 0 cs

/-- Each character of a text, and whether it belongs to a placeholder. -/
def paint (cs : List Char) : List (Char × Bool) := paintFrom 0 cs

/-- A text with each byte of a placeholder replaced by U+0001. -/
def maskAll (cs : List Char) : List Char :=
  (paint cs).flatMap fun (c, inside) =>
    if inside then List.replicate c.utf8Size Mask.dynamic else [c]

end StyleAudit.Placeholder
