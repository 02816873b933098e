import Pbft.Cluster.Checkpoints
import Pbft.Node.Settled

/-! # What garbage collection takes away

The low watermark follows the votes of others, and everything up to it is dropped from the log whether
or not this replica has executed it. What it has not executed by then others have, as many as have
voted for the checkpoint.
-/
namespace Pbft
set_option autoImplicit false

open Node

variable {σ : Type} {cfg : Config σ}

namespace Node

theorem mem_reqlog_step {s₀ s s' : Node σ} {i : Input} {k : UInt64}
    (hi : ∀ m conn, i ≠ .recv (.checkpoint m) conn) (hk : k ∈ s.reqlog) (hStep : Step cfg s₀ i s s') :
    k ∈ s'.reqlog := by
  cases hStep with
  | propose | accept | votePrepare | markPrepared | touch | voteCommit | markCommitted =>
    exact Std.ExtTreeMap.mem_insert.mpr (.inr hk)
  | execute =>
    rw [executeEntry_eq]
    exact hk
  | voteCheckpoint h | stabilize h => exact absurd h (hi _ _)
  | beginViewChange =>
    rw [beginViewChange_eq]
    exact hk
  | _ => exact hk

/-- Only a checkpoint that becomes stable takes entries out of the log. -/
theorem stabilizes_of_erased {s s' : Node σ} {i : Input} {k : UInt64} (hCall : s.handle cfg i = some s')
    (hk : k ∈ s.reqlog) (hErased : k ∉ s'.reqlog) : ∃ m conn, i = .recv (.checkpoint m) conn ∧
      Stabilizes cfg s m ∧ s'.h = m.seqNum ∧ k ≤ m.seqNum ∧ s'.lastExec = s.lastExec := by
  rcases eq_checkpoint_or i with ⟨m, conn, rfl⟩ | hi
  · cases hCall
    refine ⟨m, conn, rfl, ?_⟩
    rcases onCheckpoint_cases cfg m s with ⟨-, hEq⟩ | ⟨hLow, hEq | ⟨cp, rfl, hUnstable, hQuorum, hEq⟩⟩
    · rw [hEq] at hErased
      exact absurd hk hErased
    · rw [hEq] at hErased
      exact absurd hk hErased
    · rw [hEq] at hErased ⊢
      refine ⟨⟨hLow, hUnstable, hQuorum⟩, rfl, ?_, rfl⟩
      by_contra hAbove
      obtain ⟨e, he⟩ := TreeMap.mem_iff_exists.mp hk
      refine hErased (TreeMap.mem_iff_exists.mpr ⟨e, (TreeMap.lookup_filter _ _ _).mpr ⟨he, ?_⟩⟩)
      simp [advanceWatermarks, hAbove]
  · exact absurd (handle_invariant (I := fun t => k ∈ t.reqlog) (fun _ _ => mem_reqlog_step hi) hk hCall) hErased

end Node

namespace Cluster
variable {C : Cluster σ} {G : World σ}

/-- When a committed entry is dropped, 2f + 1 replicas have executed its number. The replica itself has,
unless it still waits for the commits of an earlier one. -/
theorem erased_executed (hFaulty : C.faulty = ∅) (hs : C.Reach C.Identified G) {r : UInt32} {i : Input}
    (hOk : C.Identified G r i) {s' : Node σ} (hCall : (G r).handle (C.cfg r) i = some s') {k : UInt64}
    (hStage : ((G r).entry k).stage = .committed) (hErased : k ∉ s'.reqlog) :
    (∃ A : Finset UInt32, 2 * C.base.f.toNat + 1 ≤ A.card ∧
      ∀ p ∈ A, p < C.base.n ∧ k ≤ (Function.update G r s' p).lastExec) ∧
    (k ≤ s'.lastExec ∨
      (s'.lastExec + 1 < k ∧ ((G r).entry (s'.lastExec + 1)).stage ≠ .committed)) := by
  have hNone : ∀ p, p ∉ C.faulty := by simp [hFaulty]
  obtain ⟨m, conn, rfl, -, hLow, hBelow, hLast⟩ :=
    stabilizes_of_erased hCall (mem_of_stage (by simp [hStage])) hErased
  have hs' : C.Reach C.Identified (Function.update G r s') :=
    .step (a := (r, .recv (.checkpoint m) conn)) hs hOk (by simp [machine, hCall])
  constructor
  · have hSent := (hOk.2 m.replicaId rfl).2.2 (hNone _)
    have hPos := ((serviceInv_reach (hs.anything m.replicaId)).2.checkpoints m hSent).pos
    obtain ⟨A, hQuorum, hIds, hVotes⟩ := exists_stable_quorum (r := r) hs' hOk.1
      (by rwa [Function.update_self, hLow])
    rw [Function.update_self, hLow] at hVotes
    refine ⟨A, C.base.quorum_eq ▸ hQuorum, fun p hp => ⟨hIds p hp, ?_⟩⟩
    exact UInt64.le_trans hBelow (hVotes p hp (hNone p)).2.reached
  · have hNext := (settled_reach (hs.anything r)).next
    rw [hLast]
    by_cases hDone : k ≤ (G r).lastExec
    · exact .inl hDone
    · refine .inr ⟨?_, hNext⟩
      have hNe : k ≠ (G r).lastExec + 1 := by
        rintro rfl
        exact hNext hStage
      rw [UInt64.not_le] at hDone
      have hSucc := Word.toNat_succ hDone
      rw [UInt64.lt_iff_toNat_lt] at hDone ⊢
      have hNat : k.toNat ≠ ((G r).lastExec + 1).toNat := fun h => hNe (UInt64.toNat_inj.mp h)
      omega

/-- Four replicas that make a checkpoint after every second request. -/
def pairs : Cluster (List String) := { sample 4 ∅ with base := Config.sample 4 200 2 }

/-- The pre-prepare of the first primary for the request at number k. -/
def numbered (k : UInt64) : PrePrepareMsg :=
  ⟨0, k, pairs.base.getHash ⟨"INC", k, 9⟩, ⟨"INC", k, 9⟩⟩

/-- Replicas 0, 1 and 2 execute the request at number k. Replica 3 prepares it. -/
def turn (k : UInt64) : List (UInt32 × Input) :=
  let prepare (p r : UInt32) := deliver (.prepare ⟨0, k, (numbered k).reqDigest, p⟩) p r
  let commit (p r : UInt32) := deliver (.commit ⟨0, k, (numbered k).reqDigest, p⟩) p r
  [(0, .recv (.request ⟨"INC", k, 9⟩) 9)] ++ ordering (numbered k) 0 [1, 2] ++
    [prepare 1 0, commit 0 1, commit 0 2, commit 1 0, commit 2 0, deliver (.handshake ⟨0⟩) 0 3,
      deliver (.prePrepare (numbered k)) 0 3, prepare 1 3]

/-- Replica 3 has committed number 2 but has not heard enough commits for number 1. -/
def behind : List (UInt32 × Input) :=
  let commit (p : UInt32) := deliver (.commit ⟨0, 2, (numbered 2).reqDigest, p⟩) p 3
  turn 1 ++ turn 2 ++ [commit 0, commit 1, deliver (.checkpoint ⟨2, 5, 0⟩) 0 3,
    deliver (.checkpoint ⟨2, 5, 1⟩) 1 3]

theorem erased_executed_two : ∃ (G : World (List String)) (s' : Node (List String)), pairs.Reach pairs.Network G ∧
    ((G 3).entry 2).stage = .committed ∧ 2 ∉ s'.reqlog ∧
    ∃ A : Finset UInt32, 3 ≤ A.card ∧ ∀ p ∈ A, p < 4 ∧ 2 ≤ (Function.update G 3 s' p).lastExec := by
  let vote : Input := .recv (.checkpoint ⟨2, 5, 2⟩) 2
  obtain ⟨G, hs, hOk, hStage, hGone⟩ := Machine.exists_reach pairs.machine
    (fun G a => pairs.Network G a.1 a.2) behind (fun G => pairs.Network G 3 vote ∧
      ((G 3).entry 2).stage = .committed ∧ ((G 3).handle (pairs.cfg 3) vote).any (fun s' => 2 ∉ s'.reqlog))
    (by decide +kernel)
  obtain ⟨s', hCall, hErased⟩ := (Option.any_eq_true _ _).mp hGone
  have hIdentified : pairs.Reach pairs.Identified G := hs.mono fun _ _ _ h => ⟨h.correct, h.id⟩
  have hAll := erased_executed rfl hIdentified ⟨hOk.correct, hOk.id⟩ hCall hStage (of_decide_eq_true hErased)
  exact ⟨G, s', hs, hStage, of_decide_eq_true hErased, hAll.1⟩

/-- The third vote for the checkpoint at number 2 takes the committed entry away from replica 3, which
has executed nothing yet. -/
theorem erased_unexecuted : ∃ (G : World (List String)) (s' : Node (List String)), pairs.Reach pairs.Network G ∧
    pairs.Network G 3 (.recv (.checkpoint ⟨2, 5, 2⟩) 2) ∧
    (G 3).handle (pairs.cfg 3) (.recv (.checkpoint ⟨2, 5, 2⟩) 2) = some s' ∧
    ((G 3).entry 2).stage = .committed ∧ 2 ∉ s'.reqlog ∧ s'.lastExec = 0 ∧ ¬2 ≤ s'.lastExec := by
  obtain ⟨G, hs, hOk, hStage, hGone⟩ := Machine.exists_reach pairs.machine
    (fun G a => pairs.Network G a.1 a.2) behind
    (fun G => pairs.Network G 3 (.recv (.checkpoint ⟨2, 5, 2⟩) 2) ∧ ((G 3).entry 2).stage = .committed ∧
      ((G 3).handle (pairs.cfg 3) (.recv (.checkpoint ⟨2, 5, 2⟩) 2)).any
        (fun s' => 2 ∉ s'.reqlog ∧ s'.lastExec = 0 ∧ ¬2 ≤ s'.lastExec))
    (by decide +kernel)
  obtain ⟨s', hCall, hErased⟩ := (Option.any_eq_true _ _).mp hGone
  exact ⟨G, s', hs, hOk, hCall, hStage, of_decide_eq_true hErased⟩

end Cluster
end Pbft
