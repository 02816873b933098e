import Mathlib.Algebra.Group.Nat.Defs

/-! # Fixed-width numbers as natural numbers

The library has conversions for the ring operations and the order. These are the remaining
ones that a counter or a maximum needs, so that arithmetic is always settled on naturals.
-/
namespace Pbft.Word
set_option autoImplicit false

theorem toNat_max (a b : UInt64) : (max a b).toNat = max a.toNat b.toNat := by
  change (if a ≤ b then b else a).toNat = _
  split <;> rename_i h <;> rw [UInt64.le_iff_toNat_le] at h <;> omega

theorem lt_or_eq_or_lt (a b : UInt64) : a < b ∨ a = b ∨ b < a := by
  rw [UInt64.lt_iff_toNat_lt, UInt64.lt_iff_toNat_lt, ← UInt64.toNat_inj]
  omega

theorem toNat_succ {a b : UInt64} (h : a < b) : (a + 1).toNat = a.toNat + 1 := by
  have hlt := UInt64.lt_iff_toNat_lt.mp h
  have hb := b.toNat_lt
  rw [UInt64.toNat_add, UInt64.toNat_one, Nat.mod_eq_of_lt (by omega)]

theorem toNat_succ_cases (a : UInt64) :
    (a + 1).toNat = a.toNat + 1 ∨ (a.toNat = 2 ^ 64 - 1 ∧ (a + 1).toNat = 0) := by
  have ha := a.toNat_lt
  rw [UInt64.toNat_add, UInt64.toNat_one]
  omega

theorem toNat_add_le (a b : UInt64) : (a + b).toNat ≤ a.toNat + b.toNat := by
  rw [UInt64.toNat_add]
  exact Nat.mod_le _ _

theorem le_foldl_max {α : Type} (f : α → UInt64) (l : List α) (start : UInt64) :
    start ≤ l.foldl (fun acc x => max acc (f x)) start ∧
      ∀ x ∈ l, f x ≤ l.foldl (fun acc x => max acc (f x)) start := by
  induction l generalizing start with
  | nil => exact ⟨UInt64.le_refl _, fun _ h => nomatch h⟩
  | cons a l ih =>
    obtain ⟨hStart, hRest⟩ := ih (max start (f a))
    rw [UInt64.le_iff_toNat_le, toNat_max] at hStart
    refine ⟨UInt64.le_iff_toNat_le.mpr ?_, fun x hx => ?_⟩
    · exact Nat.le_trans (Nat.le_max_left _ _) hStart
    · rcases List.mem_cons.mp hx with rfl | hx
      · exact UInt64.le_iff_toNat_le.mpr (Nat.le_trans (Nat.le_max_right _ _) hStart)
      · exact hRest x hx

theorem foldl_max_lt_iff {α : Type} (f : α → UInt64) (l : List α) (start n : UInt64) :
    l.foldl (fun acc x => max acc (f x)) start < n ↔ start < n ∧ ∀ x ∈ l, f x < n := by
  induction l generalizing start with
  | nil => simp
  | cons a l ih =>
    rw [List.foldl_cons, ih, List.forall_mem_cons]
    simp only [UInt64.lt_iff_toNat_lt, toNat_max, Nat.max_lt, and_assoc]

/-- Only the numbers below 2^32 come back from the cut to 32 bits. -/
theorem lowWord_eq_iff {a : UInt64} : a.toUInt32.toUInt64 = a ↔ a.toNat < 2 ^ 32 := by
  rw [← UInt64.toNat_inj, UInt32.toNat_toUInt64, UInt64.toNat_toUInt32]
  constructor
  · intro hEq
    rw [← hEq]
    exact Nat.mod_lt _ (by decide)
  · exact Nat.mod_eq_of_lt

theorem toNat_third (a : UInt32) : 3 * (a / 3).toNat < 2 ^ 32 := by
  have ha := a.toNat_lt
  rw [UInt32.toNat_div]
  simp only [UInt32.reduceToNat]
  omega

end Pbft.Word
