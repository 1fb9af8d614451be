import Mathlib.Data.List.Basic

/-!
# Sorting keeps the order of equals

Reports, files and entries are sorted by orders that do not tell all elements apart. A merge sort
leaves elements of equal rank in the order in which they came, so its result is determined: it is
the only sorted list in which the elements of each rank stand as they did (**`eq_of_sorted`**).
Hence sorting and selecting may be exchanged (**`filter_mergeSort`**).
-/

namespace StyleAudit.Sorting

variable {α : Type} {le : α → α → Bool}

/-- Whether an order does not tell `a` and `b` apart. -/
def sameRank (le : α → α → Bool) (a b : α) : Bool := le a b && le b a

/-- Selected elements that are in order already stay as they are. -/
theorem filter_mergeSort_of_pairwise
    (htrans : ∀ a b c, le a b = true → le b c = true → le a c = true)
    (htotal : ∀ a b, (le a b || le b a) = true) {l : List α} {p : α → Bool}
    (h : (l.filter p).Pairwise fun a b => le a b = true) :
    (l.mergeSort le).filter p = l.filter p := by
  have hkept : (l.filter p).Sublist (l.mergeSort le) :=
    List.sublist_mergeSort htrans htotal h List.filter_sublist
  have hsub := hkept.filter p
  rw [List.filter_filter] at hsub
  simp only [Bool.and_self] at hsub
  have hperm := (List.mergeSort_perm l le).filter p
  exact (hsub.eq_of_length hperm.length_eq.symm).symm

/-- A sorted list is determined by its elements of each rank, in order. -/
theorem eq_of_sorted (hrefl : ∀ a, le a a = true) {xs ys : List α}
    (hxs : xs.Pairwise fun a b => le a b = true) (hys : ys.Pairwise fun a b => le a b = true)
    (h : ∀ c, xs.filter (sameRank le c) = ys.filter (sameRank le c)) : xs = ys := by
  have hself : ∀ a, sameRank le a a = true := fun a => by simp [sameRank, hrefl a]
  induction xs generalizing ys with
  | nil =>
    cases ys with
    | nil => rfl
    | cons y ys =>
      -- `y` would be the only element of its rank
      have hy := h y
      rw [List.filter_cons, if_pos (hself y)] at hy
      exact absurd hy (by simp)
  | cons x xs ih =>
    cases ys with
    | nil =>
      have hx := h x
      rw [List.filter_cons, if_pos (hself x)] at hx
      exact absurd hx (by simp)
    | cons y ys =>
      have hmem : ∀ a, a ∈ x :: xs ↔ a ∈ y :: ys := by
        intro a
        have hrank : a ∈ (x :: xs).filter (sameRank le a) ↔
            a ∈ (y :: ys).filter (sameRank le a) := by
          rw [h a]
        simpa only [List.mem_filter, hself a, and_true] using hrank
      -- each of the two heads is among the elements of the other list
      have hxy : le x y = true := by
        rcases List.mem_cons.mp ((hmem y).mpr List.mem_cons_self) with rfl | hy
        · exact hrefl y
        · exact List.rel_of_pairwise_cons hxs hy
      have hyx : le y x = true := by
        rcases List.mem_cons.mp ((hmem x).mp List.mem_cons_self) with rfl | hx
        · exact hrefl x
        · exact List.rel_of_pairwise_cons hys hx
      -- so both heads have one rank, and each comes first among the elements of it
      obtain rfl : x = y := by
        have hheads := h x
        have hsame : sameRank le x y = true := by simp [sameRank, hxy, hyx]
        rw [List.filter_cons, if_pos (hself x), List.filter_cons, if_pos hsame] at hheads
        exact (List.cons.inj hheads).1
      refine congrArg (x :: ·) (ih hxs.of_cons hys.of_cons fun c => ?_)
      have htails := h c
      rw [List.filter_cons, List.filter_cons] at htails
      split at htails
      · exact (List.cons.inj htails).2
      · exact htails

/-- Sorting and selecting may be exchanged. -/
theorem filter_mergeSort (htrans : ∀ a b c, le a b = true → le b c = true → le a c = true)
    (htotal : ∀ a b, (le a b || le b a) = true) (l : List α) (p : α → Bool) :
    (l.mergeSort le).filter p = (l.filter p).mergeSort le := by
  have hrefl : ∀ a, le a a = true := fun a => by simpa using htotal a a
  -- elements of one rank are in order, whichever way they stand
  have hranks : ∀ (l : List α) (c : α), (l.mergeSort le).filter (sameRank le c) =
      l.filter (sameRank le c) := by
    intro l c
    refine filter_mergeSort_of_pairwise htrans htotal ?_
    refine List.pairwise_iff_forall_sublist.mpr fun {a b} hsub => ?_
    have ha := (List.mem_filter.mp (hsub.subset List.mem_cons_self)).2
    have hb := (List.mem_filter.mp (hsub.subset (List.mem_cons_of_mem _ List.mem_cons_self))).2
    exact htrans a c b (Bool.and_eq_true_iff.mp ha).2 (Bool.and_eq_true_iff.mp hb).1
  refine eq_of_sorted hrefl ?_ ?_ fun c => ?_
  · exact (List.pairwise_mergeSort htrans htotal l).sublist List.filter_sublist
  · exact List.pairwise_mergeSort htrans htotal (l.filter p)
  · have hswap : ∀ l : List α, (l.filter p).filter (sameRank le c) =
        (l.filter (sameRank le c)).filter p := by
      intro l
      rw [List.filter_filter, List.filter_filter]
      exact List.filter_congr fun a _ => Bool.and_comm _ _
    rw [hswap, hranks, hranks, hswap]

/-- Two selections are the same list after sorting if they select the same elements. -/
theorem mergeSort_filter_eq_iff {l : List α} {p q : α → Bool} :
    (l.filter p).mergeSort le = (l.filter q).mergeSort le ↔
      ∀ a ∈ l, (p a = true ↔ q a = true) := by
  constructor
  · intro h a ha
    have hmem : a ∈ (l.filter p).mergeSort le ↔ a ∈ (l.filter q).mergeSort le := by rw [h]
    simpa only [List.mem_mergeSort, List.mem_filter, ha, true_and] using hmem
  · intro h
    rw [List.filter_congr fun a ha => Bool.eq_iff_iff.mpr (h a ha)]

end StyleAudit.Sorting
