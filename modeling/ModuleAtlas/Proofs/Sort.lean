/-
Sorts that keep apart what compares equal.

A sort moves nothing about that all compares equal (`filter_mergeSort`). So
of two things that tie the one that came first stays first, and an order in
which a list was before decides all ties
(`pairwise_mergeSort_of_pairwise`).
-/
import Mathlib.Data.List.Pairwise

namespace ModuleAtlas

variable {α : Type} {le : α → α → Bool} {xs : List α} {x y : α}

/-- A sort does not move things about that all compare equal. -/
theorem filter_mergeSort {p : α → Bool}
    (trans : ∀ a b c, le a b = true → le b c = true → le a c = true)
    (total : ∀ a b, (le a b || le b a) = true)
    (hp : ∀ a b, p a = true → p b = true → le a b = true) :
    (xs.mergeSort le).filter p = xs.filter p := by
  have hsorted : (xs.filter p).Pairwise fun a b => le a b = true :=
    List.pairwise_of_forall_mem_list fun a ha b hb =>
      hp a b (List.mem_filter.1 ha).2 (List.mem_filter.1 hb).2
  have hkept : ((xs.filter p).filter p).Sublist ((xs.mergeSort le).filter p) :=
    (List.sublist_mergeSort trans total hsorted List.filter_sublist).filter p
  have hlength : ((xs.mergeSort le).filter p).length = (xs.filter p).length :=
    ((List.mergeSort_perm xs le).filter p).length_eq
  rw [List.filter_filter, funext fun a => Bool.and_self (p a)] at hkept
  exact (hkept.eq_of_length hlength.symm).symm

/-- What a sort finds equal it leaves in the order that it was in. -/
theorem sublist_of_tie
    (trans : ∀ a b c, le a b = true → le b c = true → le a c = true)
    (total : ∀ a b, (le a b || le b a) = true)
    (hxy : [x, y].Sublist (xs.mergeSort le)) (hyx : le y x = true) :
    [x, y].Sublist xs := by
  have hle : le x y = true :=
    List.pairwise_iff_forall_sublist.1 (List.pairwise_mergeSort trans total xs) hxy
  have hrefl : le x x = true := trans x y x hle hyx
  -- all that compares equal to `x`
  let tie := fun z => le x z && le z x
  have hties : ∀ a b, tie a = true → tie b = true → le a b = true := by
    intro a b ha hb
    exact trans a x b (Bool.and_eq_true_iff.1 ha).2 (Bool.and_eq_true_iff.1 hb).1
  have hpair : [x, y].filter tie = [x, y] := by
    simp [tie, hle, hyx, hrefl]
  have hkept := hxy.filter tie
  rw [hpair, filter_mergeSort trans total hties] at hkept
  exact hkept.trans List.filter_sublist

/-- Where a list was in some order, its sort is in that order among what
ties. -/
theorem pairwise_mergeSort_of_pairwise {r : α → α → Prop}
    (trans : ∀ a b c, le a b = true → le b c = true → le a c = true)
    (total : ∀ a b, (le a b || le b a) = true) (h : xs.Pairwise r) :
    (xs.mergeSort le).Pairwise fun x y => le x y = true ∧ (le y x = true → r x y) := by
  rw [List.pairwise_iff_forall_sublist]
  intro x y hxy
  refine ⟨?_, fun hyx => ?_⟩
  · exact List.pairwise_iff_forall_sublist.1 (List.pairwise_mergeSort trans total xs) hxy
  · exact List.pairwise_iff_forall_sublist.1 h (sublist_of_tie trans total hxy hyx)

end ModuleAtlas
