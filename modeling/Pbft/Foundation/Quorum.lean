import Mathlib.Data.Finset.Card
import Mathlib.Data.Finset.Image
import Mathlib.Order.Bounds.Defs

/-! # Counting voters

Two sets of voters that are large compared with the number of all voters have a member in
common outside any small set, which is all that agreement by voting rests on.
-/
namespace Pbft.Quorum
set_option autoImplicit false

universe u

variable {α : Type u} [DecidableEq α]

theorem card_add_card_le {A B : Finset α} {n : Nat} (hUnion : (A ∪ B).card ≤ n) :
    A.card + B.card ≤ n + (A ∩ B).card := by
  have hCount := Finset.card_union_add_card_inter A B
  omega

theorem exists_common {A B F : Finset α} {n : Nat} (hUnion : (A ∪ B).card ≤ n)
    (hLarge : n + F.card < A.card + B.card) : ∃ x ∈ A, x ∈ B ∧ x ∉ F := by
  have hCount := card_add_card_le hUnion
  obtain ⟨x, hx, hxF⟩ := Finset.exists_mem_notMem_of_card_lt_card (show F.card < (A ∩ B).card by omega)
  rw [Finset.mem_inter] at hx
  exact ⟨x, hx.1, hx.2, hxF⟩

/-- The second set takes voters outside the first as long as there are any. -/
theorem exists_inter_card_eq {U : Finset α} {q : Nat} (hq : q ≤ U.card) :
    ∃ A ⊆ U, ∃ B ⊆ U, A.card = q ∧ B.card = q ∧ (A ∩ B).card = 2 * q - U.card := by
  obtain ⟨A, hAU, hA⟩ := Finset.exists_subset_card_eq hq
  have hRest : (U \ A).card + q = U.card := by
    rw [← hA]
    exact Finset.card_sdiff_add_card_eq_card hAU
  rcases Nat.le_total q (U \ A).card with hFew | hMany
  · obtain ⟨B, hBRest, hB⟩ := Finset.exists_subset_card_eq hFew
    refine ⟨A, hAU, B, hBRest.trans Finset.sdiff_subset, hA, hB, ?_⟩
    have hDisjoint : Disjoint A B := Finset.disjoint_sdiff.mono_right hBRest
    rw [Finset.disjoint_iff_inter_eq_empty.mp hDisjoint, Finset.card_empty]
    omega
  · obtain ⟨B, hRestB, hBU, hB⟩ := Finset.exists_subsuperset_card_eq Finset.sdiff_subset hMany hq
    refine ⟨A, hAU, B, hBU, hA, hB, ?_⟩
    have hAll : A ∪ B = U := by
      apply Finset.Subset.antisymm (Finset.union_subset hAU hBU)
      calc
        U = A ∪ U \ A := (Finset.union_sdiff_of_subset hAU).symm
        _ ⊆ A ∪ B := Finset.union_subset_union_right hRestB
    have hCount := Finset.card_union_add_card_inter A B
    rw [hAll] at hCount
    omega

/-- What two sets of at least q voters out of U have in common at the least. -/
theorem isLeast_card_inter {U : Finset α} {q : Nat} (hq : q ≤ U.card) :
    IsLeast {c | ∃ A ⊆ U, ∃ B ⊆ U, q ≤ A.card ∧ q ≤ B.card ∧ (A ∩ B).card = c} (2 * q - U.card) := by
  constructor
  · obtain ⟨A, hA, B, hB, hCardA, hCardB, hInter⟩ := exists_inter_card_eq hq
    exact ⟨A, hA, B, hB, hCardA.ge, hCardB.ge, hInter⟩
  · rintro c ⟨A, hA, B, hB, hCardA, hCardB, rfl⟩
    have hCount := card_add_card_le (Finset.card_le_card (Finset.union_subset hA hB))
    omega

theorem card_le_filter_add (A F : Finset α) : A.card ≤ (A.filter (· ∉ F)).card + F.card := by
  calc
    A.card ≤ (A.filter (· ∉ F) ∪ F).card := by
      refine Finset.card_le_card fun x hx => ?_
      rw [Finset.mem_union, Finset.mem_filter]
      by_cases hxF : x ∈ F
      · exact .inr hxF
      · exact .inl ⟨hx, hxF⟩
    _ ≤ (A.filter (· ∉ F)).card + F.card := Finset.card_union_le _ _

end Pbft.Quorum
