import Pbft.Node.Reissue
import Pbft.Node.Run

/-! # How often the loop over the O set is passed

The bounds of the loop come from the reports of other replicas and nobody looks at them. In 64-bit
arithmetic the step from min_s to the first number can wrap, and so can the step after the last
one; then the loop starts at zero or never ends.
-/
namespace Pbft
set_option autoImplicit false

variable {σ : Type} {cfg : Config σ}

/-- A loop over n that counts up to last, the test first, ends after so many passes. -/
inductive Passes (last : UInt64) : UInt64 → Nat → Prop
  | stop {n : UInt64} (hTest : ¬n ≤ last) : Passes last n 0
  | pass {n : UInt64} {count : Nat} (hTest : n ≤ last) (hRest : Passes last (n + 1) count) :
      Passes last n (count + 1)

theorem passes_iff_reissueLoop {nextView last n : UInt64} {V : List ViewChangeMsg} {count : Nat} :
    Passes last n count ↔
      ∃ fuel O, reissueLoop cfg nextView V last fuel n = some O ∧ O.length = count := by
  constructor
  · intro h
    induction h with
    | @stop n hTest =>
      refine ⟨1, [], ?_, rfl⟩
      rw [reissueLoop, if_neg hTest]
    | @pass n count hTest _ ih =>
      obtain ⟨fuel, O, hO, hLength⟩ := ih
      refine ⟨fuel + 1, reissue cfg nextView V n :: O, ?_, congrArg (· + 1) hLength⟩
      rw [reissueLoop, if_pos hTest, hO]
      rfl
  · rintro ⟨fuel, O, hO, rfl⟩
    induction fuel generalizing n O with
    | zero => cases hO
    | succ fuel ih =>
      rw [reissueLoop] at hO
      split at hO
      · rename_i hTest
        obtain ⟨O', hRest, rfl⟩ := Option.map_eq_some_iff.mp hO
        exact .pass hTest (ih O' hRest)
      · rename_i hTest
        cases hO
        exact .stop hTest

/-- The loop ends unless its last number is the largest there is. -/
theorem passes_iff {last n : UInt64} {count : Nat} :
    Passes last n count ↔ last.toNat < 2 ^ 64 - 1 ∧ count = last.toNat + 1 - n.toNat := by
  constructor
  · intro h
    induction h with
    | @stop n hTest =>
      rw [UInt64.le_iff_toNat_le] at hTest
      have := n.toNat_lt
      omega
    | @pass n count hTest _ ih =>
      rw [UInt64.le_iff_toNat_le] at hTest
      obtain ⟨hLast, hCount⟩ := ih
      have hSucc := Word.toNat_succ_cases n
      omega
  · rintro ⟨hLast, rfl⟩
    induction hCount : last.toNat + 1 - n.toNat generalizing n with
    | zero =>
      apply Passes.stop
      rw [UInt64.le_iff_toNat_le]
      omega
    | succ count ih =>
      have hSucc := Word.toNat_succ_cases n
      apply Passes.pass
      · rw [UInt64.le_iff_toNat_le]
        omega
      · apply ih
        omega

theorem passes_reports_iff (V : List ViewChangeMsg) :
    Passes (maxS 0 V) (minS V + 1) ((maxS 0 V).toNat - (minS V).toNat) ↔ Bounded V := by
  rw [passes_iff, bounded_iff]
  have hFirst := (minS V + 1).toNat_lt
  have hSucc := Word.toNat_succ_cases (minS V)
  omega

theorem passes_oSet {nextView : UInt64} {V : List ViewChangeMsg} {O : List PrePrepareMsg}
    (hO : oSet cfg nextView V = some O) : Passes (maxS 0 V) (minS V + 1) O.length :=
  passes_iff_reissueLoop.mpr ⟨_, O, hO, rfl⟩

namespace Node

theorem onViewchange_returns_iff {m : ViewChangeMsg} {s : Node σ} (hCompletes : Completes cfg s m) :
    (∃ s', s.onViewchange cfg m = some s') ↔
      ∃ count, Passes (maxS 0 (s.reports m)) (minS (s.reports m) + 1) count := by
  rw [onViewchange_eq hCompletes.1 hCompletes.2.1, if_pos hCompletes.2.2]
  constructor
  · rintro ⟨s', hCall⟩
    obtain ⟨O, hO, -⟩ := Option.map_eq_some_iff.mp hCall
    exact ⟨O.length, passes_oSet hO⟩
  · rintro ⟨count, hPasses⟩
    have hO : oSet cfg m.nextView (s.reports m) = some _ := oSet_eq (passes_iff.mp hPasses).1
    exact ⟨_, Option.map_eq_some_iff.mpr ⟨_, hO, rfl⟩⟩

/-- The handler that completes a quorum returns if its loop ends, and the loop is passed once for each
number above min_s up to max_s exactly if no report has the largest number in it. -/
theorem oSet_passes_iff {m : ViewChangeMsg} {s : Node σ} (hCompletes : Completes cfg s m) :
    ((∃ s', s.onViewchange cfg m = some s') ↔
      ∃ count, Passes (maxS 0 (s.reports m)) (minS (s.reports m) + 1) count) ∧
    (Passes (maxS 0 (s.reports m)) (minS (s.reports m) + 1)
      ((maxS 0 (s.reports m)).toNat - (minS (s.reports m)).toNat) ↔ Bounded (s.reports m)) :=
  ⟨onViewchange_returns_iff hCompletes, passes_reports_iff _⟩

/-- A VIEW-CHANGE for view 4 whose sender has prepared k. -/
def proofFor (k : UInt64) : ViewChangeMsg := ⟨4, 0, 3, [], [⟨2, k, 7⟩]⟩

/-- The third VIEW-CHANGE for view 4 makes replica 0 go through the numbers 1 to 5. -/
theorem oSet_passes_iff_five : ∃ s s' : Node (List String),
    Reach (Config.sample 4 200 100) false Anything s ∧
    s.onViewchange (Config.sample 4 200 100) (proofFor 5) = some s' ∧
    Passes (maxS 0 (s.reports (proofFor 5))) (minS (s.reports (proofFor 5)) + 1) 5 := by
  obtain ⟨s, hs, hCompletes, hBounded, hMin, hMax⟩ := Machine.exists_reach
    (machine (Config.sample 4 200 100) false) Anything
    [.recv (.viewChange ⟨4, 0, 1, [], []⟩) 1, .recv (.viewChange ⟨4, 0, 2, [], []⟩) 2]
    (fun s => Completes (Config.sample 4 200 100) s (proofFor 5) ∧
      Bounded (s.reports (proofFor 5)) ∧ minS (s.reports (proofFor 5)) = 0 ∧
      maxS 0 (s.reports (proofFor 5)) = 5) (by decide +kernel)
  obtain ⟨hReturns, hPasses⟩ := oSet_passes_iff hCompletes
  have hFive := hPasses.mpr hBounded
  obtain ⟨s', hCall⟩ := hReturns.mpr ⟨_, hFive⟩
  refine ⟨s, s', hs, hCall, ?_⟩
  rw [hMin, hMax] at hFive ⊢
  exact hFive

/-- A proof for the largest number: the loop never ends, and the handler does not return. -/
theorem oSet_passes_forever : ∃ s : Node (List String),
    Reach (Config.sample 4 200 100) false Anything s ∧
    Completes (Config.sample 4 200 100) s (proofFor 0xFFFFFFFFFFFFFFFF) ∧
    (¬∃ count, Passes (maxS 0 (s.reports (proofFor 0xFFFFFFFFFFFFFFFF)))
      (minS (s.reports (proofFor 0xFFFFFFFFFFFFFFFF)) + 1) count) ∧
    s.handle (Config.sample 4 200 100)
      (.recv (.viewChange (proofFor 0xFFFFFFFFFFFFFFFF)) 3) = none := by
  obtain ⟨s, hs, hCompletes, hMax⟩ := Machine.exists_reach (machine (Config.sample 4 200 100) false) Anything
    [.recv (.viewChange ⟨4, 0, 1, [], []⟩) 1, .recv (.viewChange ⟨4, 0, 2, [], []⟩) 2]
    (fun s => Completes (Config.sample 4 200 100) s (proofFor 0xFFFFFFFFFFFFFFFF) ∧
      maxS 0 (s.reports (proofFor 0xFFFFFFFFFFFFFFFF)) = 0xFFFFFFFFFFFFFFFF) (by decide +kernel)
  have hForever : ¬∃ count, Passes (maxS 0 (s.reports (proofFor 0xFFFFFFFFFFFFFFFF)))
      (minS (s.reports (proofFor 0xFFFFFFFFFFFFFFFF)) + 1) count := by
    rintro ⟨count, hPasses⟩
    rw [hMax, passes_iff] at hPasses
    exact absurd hPasses.1 (by decide)
  refine ⟨s, hs, hCompletes, hForever, ?_⟩
  have hNever := mt (onViewchange_returns_iff hCompletes).mp hForever
  exact Option.eq_none_iff_forall_ne_some.mpr fun s' hCall => hNever ⟨s', hCall⟩

end Node
end Pbft
