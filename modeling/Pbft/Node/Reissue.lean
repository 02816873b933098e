import Pbft.Node.Guards
import Pbft.Node.OSet

/-! # The O set number by number

The loop that fills the O set counts in 64-bit arithmetic. It ends unless a reported number is the
largest there is, and what it leaves behind is one pre-prepare for each number of a range.
-/
namespace Pbft
set_option autoImplicit false

variable {σ : Type} {cfg : Config σ}

theorem reissue_seqNum (cfg : Config σ) (nextView : UInt64) (V : List ViewChangeMsg) (n : UInt64) :
    (reissue cfg nextView V n).seqNum = n := by
  unfold reissue
  dsimp only
  split <;> rfl

theorem reissue_view (cfg : Config σ) (nextView : UInt64) (V : List ViewChangeMsg) (n : UInt64) :
    (reissue cfg nextView V n).view = nextView.toUInt32 := by
  unfold reissue
  dsimp only
  split <;> rfl

theorem minS_lt_iff {V : List ViewChangeMsg} {n : UInt64} :
    minS V < n ↔ 0 < n ∧ ∀ vc ∈ V, vc.lastStableCheckpoint < n :=
  Word.foldl_max_lt_iff _ V 0 n

theorem maxS_lt_iff {start : UInt64} {V : List ViewChangeMsg} {n : UInt64} :
    maxS start V < n ↔ start < n ∧ ∀ pr ∈ proofs V, pr.seqNum < n := by
  have hAll := Word.foldl_max_lt_iff (fun pr : PrepareProof => pr.seqNum) (proofs V) start n
  rwa [proofs, List.foldl_flatMap] at hAll

theorem le_maxS_iff {start : UInt64} {V : List ViewChangeMsg} {n : UInt64} :
    n ≤ maxS start V ↔ n ≤ start ∨ ∃ pr ∈ proofs V, n ≤ pr.seqNum := by
  rw [← UInt64.not_lt, maxS_lt_iff, not_and_or, UInt64.not_lt]
  simp

/-- Starting from another number only matters if it is above everything reported. -/
theorem toNat_maxS (start : UInt64) (V : List ViewChangeMsg) :
    (maxS start V).toNat = max start.toNat (maxS 0 V).toNat := by
  apply Nat.le_antisymm
  · rcases le_maxS_iff.mp (UInt64.le_refl (maxS start V)) with hStart | ⟨pr, hpr, hle⟩
    · rw [UInt64.le_iff_toNat_le] at hStart
      omega
    · have hMax := UInt64.le_trans hle (le_maxS hpr 0)
      rw [UInt64.le_iff_toNat_le] at hMax
      omega
  · have hStart : start ≤ maxS start V := le_maxS_iff.mpr (.inl (UInt64.le_refl _))
    have hMax : maxS 0 V ≤ maxS start V := by
      rcases le_maxS_iff.mp (UInt64.le_refl (maxS 0 V)) with hZero | hProof
      · exact UInt64.le_trans hZero (UInt64.le_iff_toNat_le.mpr (Nat.zero_le _))
      · exact le_maxS_iff.mpr (.inr hProof)
    rw [UInt64.le_iff_toNat_le] at hStart hMax
    omega

/-- No report of V has the largest 64-bit number in it. -/
def Bounded (V : List ViewChangeMsg) : Prop :=
  ∀ vc ∈ V, vc.lastStableCheckpoint.toNat < 2 ^ 64 - 1 ∧
    ∀ pr ∈ vc.preparedProofs, pr.seqNum.toNat < 2 ^ 64 - 1

instance (V : List ViewChangeMsg) : Decidable (Bounded V) := inferInstanceAs (Decidable (∀ _ ∈ _, _))

theorem bounded_iff {V : List ViewChangeMsg} :
    Bounded V ↔ (minS V).toNat < 2 ^ 64 - 1 ∧ (maxS 0 V).toNat < 2 ^ 64 - 1 := by
  have hMin := minS_lt_iff (V := V) (n := 0xFFFFFFFFFFFFFFFF)
  have hMax : maxS 0 V < 0xFFFFFFFFFFFFFFFF ↔ _ := maxS_lt_iff
  simp only [UInt64.lt_iff_toNat_lt, UInt64.reduceToNat] at hMin hMax
  constructor
  · intro h
    refine ⟨hMin.mpr ⟨by decide, fun vc hvc => (h vc hvc).1⟩, hMax.mpr ⟨by decide, fun pr hpr => ?_⟩⟩
    obtain ⟨vc, hvc, hpr⟩ := List.mem_flatMap.mp hpr
    exact (h vc hvc).2 pr hpr
  · rintro ⟨hLow, hHigh⟩ vc hvc
    refine ⟨(hMin.mp hLow).2 vc hvc, fun pr hpr => ?_⟩
    exact (hMax.mp hHigh).2 pr (List.mem_flatMap.mpr ⟨vc, hvc, hpr⟩)

/-- The loop does not end if every value of n passes its test. -/
theorem reissueLoop_last {nextView last n : UInt64} {V : List ViewChangeMsg} {fuel : Nat}
    {O : List PrePrepareMsg} (h : reissueLoop cfg nextView V last fuel n = some O) :
    last.toNat < 2 ^ 64 - 1 := by
  induction fuel generalizing n O with
  | zero => cases h
  | succ fuel ih =>
    rw [reissueLoop] at h
    split at h
    · obtain ⟨O', hRest, -⟩ := Option.map_eq_some_iff.mp h
      exact ih hRest
    · rename_i hn
      rw [UInt64.not_le, UInt64.lt_iff_toNat_lt] at hn
      have := n.toNat_lt
      omega

theorem reissueLoop_eq {nextView last n : UInt64} {V : List ViewChangeMsg} {fuel : Nat}
    (hLast : last.toNat < 2 ^ 64 - 1) (hFuel : last.toNat + 1 - n.toNat < fuel) :
    reissueLoop cfg nextView V last fuel n = some ((List.range' n.toNat (last.toNat + 1 - n.toNat)).map
      fun k => reissue cfg nextView V (UInt64.ofNat k)) := by
  induction fuel generalizing n with
  | zero => omega
  | succ fuel ih =>
    rw [reissueLoop]
    split
    · rename_i hn
      rw [UInt64.le_iff_toNat_le] at hn
      have hSucc : (n + 1).toNat = n.toNat + 1 := by
        rcases Word.toNat_succ_cases n with hSucc | ⟨hMax, -⟩
        · exact hSucc
        · omega
      have hLength : last.toNat + 1 - n.toNat = last.toNat + 1 - (n + 1).toNat + 1 := by omega
      rw [ih (by omega), hLength, List.range'_succ, List.map_cons, UInt64.ofNat_toNat, hSucc]
      rfl
    · rename_i hn
      rw [UInt64.not_le, UInt64.lt_iff_toNat_lt] at hn
      rw [Nat.sub_eq_zero_of_le (by omega)]
      rfl

theorem oSet_eq {nextView : UInt64} {V : List ViewChangeMsg} (hLast : (maxS 0 V).toNat < 2 ^ 64 - 1) :
    oSet cfg nextView V = some ((List.range' (minS V + 1).toNat ((maxS 0 V).toNat + 1 -
      (minS V + 1).toNat)).map fun k => reissue cfg nextView V (UInt64.ofNat k)) :=
  reissueLoop_eq hLast (by omega)

theorem oSet_of_bounded {nextView : UInt64} {V : List ViewChangeMsg} (h : Bounded V) :
    oSet cfg nextView V = some ((List.range' ((minS V).toNat + 1) ((maxS 0 V).toNat - (minS V).toNat)).map
      fun k => reissue cfg nextView V (UInt64.ofNat k)) := by
  obtain ⟨hMin, hMax⟩ := bounded_iff.mp h
  have hSucc : (minS V + 1).toNat = (minS V).toNat + 1 := by
    rcases Word.toNat_succ_cases (minS V) with hSucc | ⟨hLargest, -⟩
    · exact hSucc
    · omega
  rw [oSet_eq hMax, hSucc, Nat.add_sub_add_right]

theorem mem_oSet {nextView : UInt64} {V : List ViewChangeMsg} {O : List PrePrepareMsg}
    (h : oSet cfg nextView V = some O) (pp : PrePrepareMsg) :
    pp ∈ O ↔ ∃ n, minS V + 1 ≤ n ∧ n ≤ maxS 0 V ∧ pp = reissue cfg nextView V n := by
  have hLast := reissueLoop_last h
  rw [oSet_eq hLast, Option.some.injEq] at h
  subst h
  rw [List.mem_map]
  constructor
  · rintro ⟨k, hk, rfl⟩
    rw [List.mem_range'_1] at hk
    have hBound : k < 2 ^ 64 := by omega
    have hNat : (UInt64.ofNat k).toNat = k := UInt64.toNat_ofNat_of_lt' hBound
    refine ⟨UInt64.ofNat k, ?_, ?_, rfl⟩
    · rw [UInt64.le_iff_toNat_le, hNat]
      exact hk.1
    · rw [UInt64.le_iff_toNat_le, hNat]
      omega
  · rintro ⟨n, hLow, hHigh, rfl⟩
    rw [UInt64.le_iff_toNat_le] at hLow hHigh
    refine ⟨n.toNat, ?_, by rw [UInt64.ofNat_toNat]⟩
    rw [List.mem_range'_1]
    omega

theorem oSet_numbers {nextView : UInt64} {V : List ViewChangeMsg} {O : List PrePrepareMsg}
    (h : oSet cfg nextView V = some O) (hStable : (minS V).toNat < 2 ^ 64 - 1) :
    O.map (fun pp => pp.seqNum.toNat) =
      List.range' ((minS V).toNat + 1) ((maxS 0 V).toNat - (minS V).toNat) := by
  have hLast := reissueLoop_last h
  rw [oSet_of_bounded (bounded_iff.mpr ⟨hStable, hLast⟩), Option.some.injEq] at h
  subst h
  rw [List.map_map]
  refine (List.map_congr_left fun k hk => ?_).trans (List.map_id _)
  rw [List.mem_range'_1] at hk
  have hBound : k < 2 ^ 64 := by omega
  simp only [Function.comp, reissue_seqNum, id]
  exact UInt64.toNat_ofNat_of_lt' hBound

end Pbft
