import Mathlib.Data.List.Basic
import StyleAudit.Proofs.FileNames

/-!
# The parts of a path

A path is kept as it is written, and what it means is read off the parts between its separators.
Paths are put together by writing one after another, so the parts of the whole have to be those of
the pieces.

* **`Path.partsFrom_separator`**: a separator divides the parts, wherever it stands. Hence the parts
  of a directory and of what is written after it (**`Path.partsFrom_directory`**).
* **`Path.raw_join`** and **`Path.raw_descend`** are the spellings of a path seen from another one
  and of a path that leads down by names; **`Path.parts_descend`** are the parts of the latter.
* **`Path.components_descend`**, **`Path.relativeTo?_descend`** and **`Path.fileName?_descend`**
  follow: such a path has the components of where it starts and then the names, and the names are
  what is left of it when it is seen from there.
-/

namespace StyleAudit.Path

/-! ### Separators -/

/-- Parts stand in the spelling, are not empty and hold no separator. -/
theorem of_mem_partsFrom {n : Nat} {cs : Spelling} {part : Nat × Spelling}
    (h : part ∈ partsFrom n cs) : n ≤ part.1 ∧ part.2 ≠ [] ∧ separator ∉ part.2 := by
  induction cs generalizing n part with
  | nil => cases h
  | cons c cs ih =>
    rw [partsFrom] at h
    split at h
    · exact ⟨Nat.le_of_succ_le (ih h).1, (ih h).2⟩
    · next hc =>
      have hsingle : separator ∉ [c] := by simpa using Ne.symm hc
      cases hparts : partsFrom (n + 1) cs with
      | nil =>
        rw [hparts] at h
        rw [List.mem_singleton.mp h]
        exact ⟨Nat.le_refl n, List.cons_ne_nil c [], hsingle⟩
      | cons first more =>
        -- the parts of the rest, seen from one place earlier
        have hlater : ∀ later ∈ first :: more, n ≤ later.1 ∧ later.2 ≠ [] ∧
            separator ∉ later.2 := by
          intro later hmem
          have hbounds := @ih (n + 1) later (hparts ▸ hmem)
          exact ⟨Nat.le_of_succ_le hbounds.1, hbounds.2⟩
        rw [hparts] at h
        simp only at h
        split at h
        · rcases List.mem_cons.mp h with rfl | h
          · have hfirst := (hlater first List.mem_cons_self).2.2
            exact ⟨Nat.le_refl n, List.cons_ne_nil c _, by simp [Ne.symm hc, hfirst]⟩
          · exact hlater part (List.mem_cons_of_mem _ h)
        · rcases List.mem_cons.mp h with rfl | h
          · exact ⟨Nat.le_refl n, List.cons_ne_nil c [], hsingle⟩
          · exact hlater part h

/-- A separator stands between parts. -/
theorem partsFrom_separator (n : Nat) (xs ys : Spelling) :
    partsFrom n (xs ++ separator :: ys) = partsFrom n xs ++ partsFrom (n + xs.length + 1) ys := by
  induction xs generalizing n with
  | nil => simp [partsFrom]
  | cons c xs ih =>
    have hplace : n + 1 + xs.length + 1 = n + (c :: xs).length + 1 := by
      rw [List.length_cons]
      omega
    rw [List.cons_append, partsFrom, partsFrom, ih, hplace]
    split
    · rfl
    · cases partsFrom (n + 1) xs with
      | cons first more =>
        simp only [List.cons_append]
        split <;> rfl
      | nil =>
        -- the parts of `ys` come after the separator, so `c` is not written to the first of them
        cases hys : partsFrom (n + (c :: xs).length + 1) ys with
        | nil => rfl
        | cons first more =>
          have hlater := (of_mem_partsFrom (hys ▸ List.mem_cons_self : first ∈ _)).1
          have hne : first.1 ≠ n + 1 := by
            rw [List.length_cons] at hlater
            omega
          simp only [List.nil_append, if_neg hne, List.singleton_append]

/-- The parts of what is written after a directory. -/
theorem partsFrom_directory {n : Nat} {dir : Spelling} (h : EndsDirectory dir) (cs : Spelling) :
    partsFrom n (dir ++ cs) = partsFrom n dir ++ partsFrom (n + dir.length) cs := by
  rcases h with rfl | h
  · rfl
  · obtain ⟨front, rfl⟩ := List.getLast?_eq_some_iff.mp h
    have hempty : ∀ m, partsFrom m [] = [] := fun _ => rfl
    rw [List.append_assoc, List.singleton_append, partsFrom_separator, partsFrom_separator, hempty,
      List.append_nil, List.length_append, List.length_singleton, Nat.add_assoc]

/-- A spelling that starts with no separator starts with a part. -/
theorem head?_partsFrom (n : Nat) {cs : Spelling} {c : UInt8} (h : cs.head? = some c)
    (hc : c ≠ separator) : ∃ part, (partsFrom n cs).head? = some (n, part) := by
  obtain ⟨rest, rfl⟩ := List.head?_eq_some_iff.mp h
  rw [partsFrom, if_neg hc]
  split
  · split
    · exact ⟨_, rfl⟩
    · exact ⟨_, rfl⟩
  · exact ⟨_, rfl⟩

/-- A spelling that ends with no separator ends with a part. -/
theorem getLast?_partsFrom (n : Nat) {cs : Spelling} (hne : cs ≠ [])
    (h : cs.getLast? ≠ some separator) :
    ∃ start part, (partsFrom n cs).getLast? = some (start, part) ∧
      start + part.length = n + cs.length := by
  obtain ⟨dir, part, rfl, hdir, hsep⟩ := exists_lastPart cs
  have hpart : part ≠ [] := by
    rintro rfl
    rw [List.append_nil] at hne h
    exact h (hdir.resolve_left hne)
  obtain ⟨front, hfront⟩ := @partsFrom_append n dir part hdir hpart hsep
  refine ⟨n + dir.length, part, ?_, ?_⟩
  · rw [hfront, List.getLast?_concat]
  · rw [List.length_append, Nat.add_assoc]

/-! ### Parts without their places -/

/-- The parts between the separators of a spelling. -/
def spelledParts (cs : Spelling) : List Spelling := (partsFrom 0 cs).map (·.2)

/-- Counting places from further on moves them. -/
theorem partsFrom_add (n m : Nat) (cs : Spelling) :
    partsFrom (n + m) cs = (partsFrom m cs).map fun part => (n + part.1, part.2) := by
  induction cs generalizing m with
  | nil => rfl
  | cons c cs ih =>
    rw [partsFrom, partsFrom, Nat.add_assoc, ih]
    split
    · rfl
    · cases partsFrom (m + 1) cs with
      | nil => rfl
      | cons first more =>
        have hplace : n + first.1 = n + (m + 1) ↔ first.1 = m + 1 := by omega
        simp only [List.map_cons, hplace]
        split <;> simp

/-- Where a spelling starts makes no difference to its parts. -/
theorem map_snd_partsFrom (n : Nat) (cs : Spelling) :
    (partsFrom n cs).map (·.2) = spelledParts cs := by
  have hshift := partsFrom_add n 0 cs
  rw [Nat.add_zero] at hshift
  rw [hshift, List.map_map]
  rfl

theorem spelledParts_separator (xs ys : Spelling) :
    spelledParts (xs ++ separator :: ys) = spelledParts xs ++ spelledParts ys := by
  rw [spelledParts, partsFrom_separator, List.map_append, map_snd_partsFrom, map_snd_partsFrom]

/-- The end of a directory divides the parts. -/
theorem spelledParts_directory {dir : Spelling} (h : EndsDirectory dir) (cs : Spelling) :
    spelledParts (dir ++ cs) = spelledParts dir ++ spelledParts cs := by
  rw [spelledParts, partsFrom_directory h, List.map_append, map_snd_partsFrom, map_snd_partsFrom]

/-- No part is empty or holds a separator. -/
theorem of_mem_spelledParts {cs part : Spelling} (h : part ∈ spelledParts cs) :
    part ≠ [] ∧ separator ∉ part := by
  obtain ⟨_, hmem, rfl⟩ := List.mem_map.mp h
  exact (of_mem_partsFrom hmem).2

theorem spelledParts_of_not_mem {part : Spelling} (hne : part ≠ []) (hsep : separator ∉ part) :
    spelledParts part = [part] := by
  rw [spelledParts, partsFrom_of_not_mem hne hsep]
  rfl

/-! ### Names -/

/-- `IsName part`: a file or a directory can be called so. -/
def IsName (part : Spelling) : Prop :=
  part ≠ [] ∧ separator ∉ part ∧ part ≠ [dot] ∧ part ≠ [dot, dot]

instance (part : Spelling) : Decidable (IsName part) := inferInstanceAs (Decidable (_ ∧ _))

theorem IsName.ofPart_eq {part : Spelling} (h : IsName part) :
    Component.ofPart part = .name part := by
  rw [Component.ofPart, if_neg h.2.2.1, if_neg h.2.2.2]

theorem IsName.getLast?_ne {part : Spelling} (h : IsName part) : part.getLast? ≠ some separator :=
  fun hlast => h.2.1 (List.mem_of_getLast? hlast)

/-- Some names, with separators between them. -/
def joined (names : List Spelling) : Spelling := [separator].intercalate names

theorem joined_singleton (name : Spelling) : joined [name] = name := by
  simp [joined, List.intercalate]

/-- Names are joined by one separator each. -/
theorem joined_cons {names : List Spelling} (h : names ≠ []) (name : Spelling) :
    joined (name :: names) = name ++ separator :: joined names := by
  obtain ⟨second, more, rfl⟩ := List.exists_cons_of_ne_nil h
  rw [joined, joined, List.intercalate_cons_cons, List.append_assoc, List.singleton_append]

section Names

variable {names : List Spelling} (hnames : ∀ name ∈ names, IsName name)

include hnames

/-- Names that are joined are read back as the parts. -/
theorem spelledParts_joined : spelledParts (joined names) = names := by
  induction names with
  | nil => rfl
  | cons name names ih =>
    have hname := hnames name List.mem_cons_self
    by_cases hne : names = []
    · subst hne
      rw [joined_singleton, spelledParts_of_not_mem hname.1 hname.2.1]
    · rw [joined_cons hne, spelledParts_separator, spelledParts_of_not_mem hname.1 hname.2.1,
        ih fun other h => hnames other (List.mem_cons_of_mem name h)]
      rfl

theorem joined_ne_nil (hne : names ≠ []) : joined names ≠ [] := by
  intro h
  have hparts := spelledParts_joined hnames
  rw [h] at hparts
  exact hne hparts.symm

/-- Joined names do not begin with a separator. -/
theorem head?_joined : (joined names).head? ≠ some separator := by
  cases names with
  | nil => exact fun h => nomatch h
  | cons name names =>
    have hname := hnames name List.mem_cons_self
    obtain ⟨c, cs, hcs⟩ := List.exists_cons_of_ne_nil hname.1
    have hc : c ≠ separator := fun hc => hname.2.1 (by rw [hcs, hc]; exact List.mem_cons_self)
    by_cases hne : names = []
    · subst hne
      rw [joined_singleton, hcs]
      simpa using hc
    · rw [joined_cons hne, hcs]
      simpa using hc

/-- Joined names do not end with a separator. -/
theorem getLast?_joined : (joined names).getLast? ≠ some separator := by
  induction names with
  | nil => exact fun h => nomatch h
  | cons name names ih =>
    have hmore : ∀ other ∈ names, IsName other := fun other h =>
      hnames other (List.mem_cons_of_mem name h)
    by_cases hne : names = []
    · subst hne
      rw [joined_singleton]
      exact (hnames name List.mem_cons_self).getLast?_ne
    · obtain ⟨c, hc⟩ := Option.ne_none_iff_exists'.mp
        (mt List.getLast?_eq_none_iff.mp (joined_ne_nil hmore hne))
      have hlast := ih hmore
      rw [hc] at hlast
      rw [joined_cons hne, List.getLast?_append, List.getLast?_cons, hc]
      exact hlast

end Names

/-! ### Paths that are put together -/

/-- The spelling of a directory, up to where its content is written. -/
def slashed (base : Path) : Spelling :=
  if base.raw.isEmpty || base.raw.getLast? = some separator then base.raw
  else base.raw ++ [separator]

/-- With the separator added, the path ends a directory. -/
theorem endsDirectory_slashed (base : Path) : EndsDirectory base.slashed := by
  unfold slashed
  split
  · next h =>
    rcases Bool.or_eq_true_iff.mp h with h | h
    · left
      exact List.isEmpty_iff.mp h
    · exact Or.inr (of_decide_eq_true h)
  · exact Or.inr List.getLast?_concat

/-- Adding the separator changes no part. -/
theorem partsFrom_slashed (n : Nat) (base : Path) :
    partsFrom n base.slashed = partsFrom n base.raw := by
  unfold slashed
  split
  · rfl
  · rw [partsFrom_separator]
    exact List.append_nil _

theorem spelledParts_slashed (base : Path) :
    spelledParts base.slashed = spelledParts base.raw := by
  rw [spelledParts, partsFrom_slashed]
  rfl

theorem head?_slashed {base : Path} (h : base.raw ≠ []) :
    base.slashed.head? = base.raw.head? := by
  unfold slashed
  split
  · rfl
  · exact List.head?_append_of_ne_nil _ h

/-- A relative path is written behind the base and a separator. -/
theorem raw_join (base : Path) {rel : Path} (h : rel.isAbsolute = false) :
    (base.join rel).raw = base.slashed ++ rel.raw := by
  unfold join slashed
  rw [if_neg (by simp [h])]
  split
  · rfl
  · exact (List.append_assoc base.raw [separator] rel.raw).symm

theorem spelledParts_join (base : Path) {rel : Path} (h : rel.isAbsolute = false) :
    spelledParts (base.join rel).raw =
      spelledParts base.raw ++ spelledParts rel.raw := by
  rw [raw_join base h, spelledParts_directory (endsDirectory_slashed base),
    spelledParts_slashed]

/-- A relative path below an absolute one is absolute. -/
theorem isAbsolute_join {base rel : Path} (hbase : base.isAbsolute = true)
    (hrel : rel.isAbsolute = false) : (base.join rel).isAbsolute = true := by
  have hne : base.raw ≠ [] := by
    rintro hraw
    rw [isAbsolute, hraw] at hbase
    exact absurd hbase (by decide)
  have hhead : base.raw.head? = some separator := of_decide_eq_true hbase
  rw [← head?_slashed hne] at hhead
  rw [isAbsolute, raw_join base hrel, List.head?_append, hhead]
  rfl

/-- Only the empty path has no component. -/
theorem components_isEmpty {p : Path} (h : p.raw ≠ []) : p.components.isEmpty = false := by
  obtain ⟨c, hc⟩ : ∃ c, p.raw.head? = some c :=
    Option.ne_none_iff_exists'.mp fun hnone =>
      h (List.head?_eq_none_iff.mp hnone)
  rw [List.isEmpty_eq_false_iff]
  unfold components
  by_cases hsep : c = separator
  · have habsolute : p.isAbsolute = true := decide_eq_true (hsep ▸ hc)
    rw [if_pos habsolute]
    exact List.cons_ne_nil _ _
  · obtain ⟨part, hpart⟩ := head?_partsFrom 0 hc hsep
    obtain ⟨more, hmore⟩ := List.head?_eq_some_iff.mp hpart
    rw [parts, hmore]
    simp

/-! ### Ways down -/

/-- The path that leads from `root` down by `names`. -/
def descend (root : Path) (names : List Spelling) : Path := names.foldl child root

theorem isAbsolute_of_isName {name : Spelling} (h : IsName name) :
    (⟨name⟩ : Path).isAbsolute = false := by
  refine decide_eq_false fun hhead => h.2.1 ?_
  exact List.mem_of_head? hhead

theorem raw_child (root : Path) {name : Spelling} (h : IsName name) :
    (root.child name).raw = root.slashed ++ name :=
  raw_join root (isAbsolute_of_isName h)

/-- Going down to a child writes its name and a separator. -/
theorem slashed_child (root : Path) {name : Spelling} (h : IsName name) :
    (root.child name).slashed = root.slashed ++ name ++ [separator] := by
  have hlast : (root.child name).raw.getLast? ≠ some separator := by
    rw [raw_child root h, List.getLast?_append]
    obtain ⟨c, hc⟩ := Option.ne_none_iff_exists'.mp (mt List.getLast?_eq_none_iff.mp h.1)
    have hne := h.getLast?_ne
    rw [hc] at hne ⊢
    exact hne
  have hne : (root.child name).raw ≠ [] := by
    intro hraw
    have hlist := raw_child root h
    rw [hraw] at hlist
    exact h.1 (List.append_eq_nil_iff.mp hlist.symm).2
  rw [slashed, if_neg (by simp [hlast, hne]), raw_child root h]

section Descend

variable {names : List Spelling} (hnames : ∀ name ∈ names, IsName name) (root : Path)

include hnames

/-- Going down along names writes them joined, behind the root. -/
theorem raw_descend (hne : names ≠ []) :
    (root.descend names).raw = root.slashed ++ joined names := by
  induction names generalizing root with
  | nil => exact absurd rfl hne
  | cons name names ih =>
    have hname := hnames name List.mem_cons_self
    have hmore : ∀ other ∈ names, IsName other := fun other h =>
      hnames other (List.mem_cons_of_mem name h)
    by_cases hnil : names = []
    · subst hnil
      rw [joined_singleton]
      exact raw_child root hname
    · show ((root.child name).descend names).raw = _
      rw [ih hmore _ hnil, slashed_child root hname, joined_cons hnil]
      simp only [List.append_assoc, List.singleton_append]

/-- The parts of a path below a root are those of the root, then the names. -/
theorem spelledParts_descend :
    spelledParts (root.descend names).raw =
      spelledParts root.raw ++ names := by
  by_cases hne : names = []
  · subst hne
    exact (List.append_nil _).symm
  · rw [raw_descend hnames root hne, spelledParts_directory (endsDirectory_slashed root),
      spelledParts_slashed, spelledParts_joined hnames]

variable {root} (hne : names ≠ [])

include hne

/-- The last name of a way down. -/
theorem fileName?_descend : (root.descend names).fileName? = names.getLast? := by
  obtain ⟨front, last, rfl⟩ := List.eq_nil_or_concat names |>.resolve_left hne
  have hlast := hnames last (by simp)
  have hfront : ∀ name ∈ front, IsName name := fun name h => hnames name (by simp [h])
  have hraw : (root.descend (front.concat last)).raw =
      (root.descend front).slashed ++ last := by
    rw [descend, List.concat_eq_append, List.foldl_append]
    exact raw_child _ hlast
  obtain ⟨before, hbefore⟩ := @partsFrom_append 0 (root.descend front).slashed last
    (endsDirectory_slashed _) hlast.1 hlast.2.1
  have hparts : (root.descend (front.concat last)).parts.getLast? =
      some (0 + (root.descend front).slashed.length, last) := by
    rw [parts, hraw, hbefore, List.filter_append]
    simp [hlast.2.2.1]
  rw [fileName?, hparts]
  simp [hlast.ofPart_eq]

variable (hroot : root.raw ≠ [])

include hroot

/-- Going down along names stays absolute, or relative. -/
theorem isAbsolute_descend : (root.descend names).isAbsolute = root.isAbsolute := by
  obtain ⟨c, hc⟩ : ∃ c, root.slashed.head? = some c := by
    rw [head?_slashed hroot]
    refine Option.ne_none_iff_exists'.mp fun hnone => hroot ?_
    exact List.head?_eq_none_iff.mp hnone
  rw [isAbsolute, isAbsolute, raw_descend hnames root hne, List.head?_append,
    ← head?_slashed hroot, hc, Option.some_or]

/-- The parts of a way down come after those of where it starts. -/
theorem parts_descend : (root.descend names).parts =
    root.parts ++ partsFrom root.slashed.length (joined names) := by
  have hpos : 0 < root.slashed.length := by
    refine List.length_pos_iff.mpr fun hnil => hroot ?_
    have hhead := head?_slashed hroot
    rw [hnil] at hhead
    exact List.head?_eq_none_iff.mp hhead.symm
  -- none of the names is `.`, so none is left out
  have hkept : ∀ part ∈ partsFrom root.slashed.length (joined names),
      (decide (part.1 = 0) || decide (part.2 ≠ [dot])) = true := by
    rintro ⟨m, part⟩ hmem
    have hpart : part ∈ spelledParts (joined names) := by
      rw [← map_snd_partsFrom root.slashed.length]
      exact List.mem_map_of_mem hmem
    rw [spelledParts_joined hnames] at hpart
    simp [(hnames part hpart).2.2.1]
  rw [parts, raw_descend hnames root hne, partsFrom_directory (endsDirectory_slashed root),
    List.filter_append, partsFrom_slashed, Nat.zero_add, List.filter_eq_self.mpr hkept]
  rfl

/-- The components of a path below a root are those of the root, then the names. -/
theorem components_descend :
    (root.descend names).components = root.components ++ names.map .name := by
  have hnamed : (partsFrom root.slashed.length (joined names)).map
      (fun part => Component.ofPart part.2) =
      names.map .name := by
    have hparts := map_snd_partsFrom root.slashed.length (joined names)
    rw [spelledParts_joined hnames] at hparts
    have hcomponents := congrArg (List.map Component.ofPart) hparts
    rw [List.map_map] at hcomponents
    refine hcomponents.trans (List.map_congr_left fun name hname => ?_)
    exact (hnames name hname).ofPart_eq
  unfold components
  rw [isAbsolute_descend hnames hne hroot, parts_descend hnames hne hroot, List.map_append,
    List.append_assoc]
  congr 2

/-- What is left of a way down, seen from where it starts. -/
theorem relativeTo?_descend :
    (root.descend names).relativeTo? root = some ⟨joined names⟩ := by
  have hprefix : (root.descend names).startsWith root = true := by
    rw [startsWith, components_descend hnames hne hroot, List.isPrefixOf_iff_prefix]
    exact List.prefix_append _ _
  have hrest : (root.descend names).parts.drop root.parts.length =
      partsFrom root.slashed.length (joined names) := by
    rw [parts_descend hnames hne hroot, List.drop_left]
  obtain ⟨c, hc⟩ := Option.ne_none_iff_exists'.mp
    (mt List.head?_eq_none_iff.mp (joined_ne_nil hnames hne))
  obtain ⟨part, hpart⟩ := head?_partsFrom root.slashed.length hc fun h =>
    head?_joined hnames (h ▸ hc)
  -- the last name ends the path, so nothing is cut off behind it
  have hall : (root.descend names).upTo (partsFrom root.slashed.length (joined names)) =
      root.descend names := by
    obtain ⟨start, last, hlast, hstop⟩ := getLast?_partsFrom root.slashed.length
      (joined_ne_nil hnames hne) (getLast?_joined hnames)
    rw [upTo, hlast]
    simp only [hstop, take, raw_descend hnames root hne, ← List.length_append, List.take_length]
    rw [← raw_descend hnames root hne]
  unfold relativeTo?
  simp only [if_pos hprefix, hrest, components_isEmpty hroot, Bool.false_eq_true, if_false, hpart,
    hall]
  rw [raw_descend hnames root hne, List.drop_left]

end Descend

end StyleAudit.Path
