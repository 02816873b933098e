import Pbft.Node.CheckpointStore

/-! # The proof of the stable checkpoint

A VIEW-CHANGE names the low watermark of its sender and carries the votes for the checkpoint there.
The loop over the votes may meet digests with few votes first, but it does not stop before it has
met one with a quorum, and there is one for as long as the watermark is the one of the store. The
watermark that is named has lost its upper half.
-/
namespace Pbft
set_option autoImplicit false

variable {σ : Type} {cfg : Config σ}

/-- The first element at which a search stops is among those it has visited. -/
theorem exists_mem_take_of_stop {α : Type} (p : α → Bool) {l : List α} (h : ∃ x ∈ l, p x = false) :
    ∃ x ∈ l.take ((l.takeWhile p).length + 1), p x = false := by
  induction l with
  | nil =>
    obtain ⟨x, hx, -⟩ := h
    cases hx
  | cons a l ih =>
    cases ha : p a with
    | false => exact ⟨a, by simp [ha], ha⟩
    | true =>
      obtain ⟨x, hx, hStop⟩ := h
      have hLater : x ∈ l := by
        rcases List.mem_cons.mp hx with rfl | hx
        · rw [ha] at hStop
          cases hStop
        · exact hx
      obtain ⟨y, hy, hyStop⟩ := ih ⟨x, hLater, hStop⟩
      refine ⟨y, ?_, hyStop⟩
      rw [List.takeWhile_cons_of_pos ha, List.length_cons, List.take_succ_cons]
      exact List.mem_cons_of_mem _ hy

namespace Node

theorem mem_ascending {ids : Finset UInt32} {r : UInt32} (hr : r ∈ ids) : r ∈ ascending ids := by
  unfold ascending
  refine List.mem_map.mpr ⟨r.toNat, ?_, UInt32.ofNat_toNat⟩
  rw [Finset.mem_sort]
  exact Finset.mem_image_of_mem _ hr

/-- What a VIEW-CHANGE should show about its sender s. -/
structure Proves (cfg : Config σ) (s : Node σ) (vc : ViewChangeMsg) : Prop where
  checkpoint : vc.lastStableCheckpoint = s.h
  votes : 0 < s.h → ∃ (digest : Digest) (Q : Finset UInt32), 2 * cfg.f.toNat + 1 ≤ Q.card ∧
    ∀ r ∈ Q, CheckpointMsg.mk s.h digest r ∈ vc.checkpointProof

theorem checkpointProof_quorum {s : Node σ} (w : StoreInv cfg s) (hPos : 0 < s.h)
    (hNarrow : s.h.toUInt32.toUInt64 = s.h) : ∃ (digest : Digest) (Q : Finset UInt32),
      2 * cfg.f.toNat + 1 ≤ Q.card ∧ ∀ r ∈ Q, CheckpointMsg.mk s.h digest r ∈ s.checkpointProof cfg := by
  obtain ⟨cp, hcp, -, hQuorum⟩ := w.proof hPos
  have hStable : ∃ voters, cp.votes[s.lastStableDigest]? = some voters := by
    apply TreeMap.mem_iff_exists.mp
    by_contra hNone
    rw [Std.ExtTreeMap.getD_eq_fallback hNone, cfg.quorum_eq] at hQuorum
    cases hQuorum
  obtain ⟨voters, hVoters⟩ := hStable
  rw [TreeMap.getD_of_lookup hVoters] at hQuorum
  -- the order of the visits is not known, only that the stable digest is visited if nothing stops before
  have hVisited : (s.lastStableDigest, voters) ∈ cfg.visit cp.votes :=
    (cfg.visit_perm _).mem_iff.mpr (Std.ExtTreeMap.mem_toList_iff_getElem?_eq_some.mpr hVoters)
  obtain ⟨d, hd, hEnough⟩ := exists_mem_take_of_stop (fun d : Digest × Finset UInt32 =>
    decide (d.2.card < cfg.quorum)) ⟨_, hVisited, decide_eq_false (Nat.not_lt.mpr hQuorum)⟩
  refine ⟨d.1, d.2, ?_, fun r hr => ?_⟩
  · rw [← cfg.quorum_eq]
    exact Nat.not_lt.mp (of_decide_eq_false hEnough)
  · unfold checkpointProof
    dsimp only
    rw [hNarrow, hcp]
    dsimp only
    exact List.mem_flatMap.mpr ⟨d, hd, List.mem_map.mpr ⟨r, mem_ascending hr, rfl⟩⟩

/-- The VIEW-CHANGE that a replica broadcasts shows its stable checkpoint with a quorum of votes exactly
if the number of the checkpoint fits into 32 bits. -/
theorem viewChange_proves_iff {t : Bool} {s : Node σ} (hs : Reach cfg t Anything s) :
    ∃ vc, (s.beginViewChange cfg).sent = s.sent ++ [.viewChange vc] ∧
      (Proves cfg s vc ↔ s.h.toNat < 2 ^ 32) := by
  refine ⟨s.viewChangeMsg cfg, by rw [beginViewChange_eq], ?_⟩
  constructor
  · intro hProves
    exact Word.lowWord_eq_iff.mp hProves.checkpoint
  · intro hNarrow
    have hEq := Word.lowWord_eq_iff.mpr hNarrow
    exact ⟨hEq, fun hPos => checkpointProof_quorum (storeInv_reach hs) hPos hEq⟩

/-- Replica 1 has forwarded a request, so its timer is running, and the checkpoint at k is stable. -/
def stableAt (k : UInt64) : List Input :=
  .recv (.request ⟨"A", 1, 9⟩) 9 :: [0, 2, 3].map fun r => .recv (.checkpoint ⟨k, 7, r⟩) r.toNat

theorem viewChange_proves_iff_hundred : ∃ s : Node (List String), ∃ vc,
    Reach { Config.sample 4 200 100 with id := 1 } false Anything s ∧ s.timerRunning = true ∧ s.h = 100 ∧
    (s.beginViewChange { Config.sample 4 200 100 with id := 1 }).sent = s.sent ++ [.viewChange vc] ∧
    Proves { Config.sample 4 200 100 with id := 1 } s vc := by
  obtain ⟨s, hs, hTimer, hLow⟩ := Machine.exists_reach
    (machine { Config.sample 4 200 100 with id := 1 } false) Anything (stableAt 100)
    (fun s => s.timerRunning = true ∧ s.h = 100) (by decide +kernel)
  obtain ⟨vc, hSent, hIff⟩ := viewChange_proves_iff hs
  exact ⟨s, vc, hs, hTimer, hLow, hSent, hIff.mpr (hLow ▸ by decide)⟩

/-- The watermark is 2^32, and the VIEW-CHANGE names checkpoint 0 without any vote. -/
theorem viewChange_proves_nothing : ∃ s s' : Node (List String), ∃ vc,
    Reach { Config.sample 4 200 100 with id := 1 } false Anything s ∧ s.timerRunning = true ∧
    s.h = 0x100000000 ∧ s.handle { Config.sample 4 200 100 with id := 1 } .timeout = some s' ∧
    s'.sent = s.sent ++ [.viewChange vc] ∧ vc.lastStableCheckpoint = 0 ∧ vc.checkpointProof = [] ∧
    ¬Proves { Config.sample 4 200 100 with id := 1 } s vc := by
  let cfg := { Config.sample 4 200 100 with id := 1 }
  obtain ⟨s, s', hs, hCall, hTimer, hLow, hSent, hZero, hEmpty⟩ := exists_call cfg false Anything
    (stableAt 0x100000000) .timeout (fun s s' => s.timerRunning = true ∧ s.h = 0x100000000 ∧
      s'.sent = s.sent ++ [.viewChange (s.viewChangeMsg cfg)] ∧
      (s.viewChangeMsg cfg).lastStableCheckpoint = 0 ∧ (s.viewChangeMsg cfg).checkpointProof = [])
    (by decide +kernel)
  refine ⟨s, s', _, hs, hTimer, hLow, hCall, hSent, hZero, hEmpty, fun hProves => ?_⟩
  have hEq := hProves.checkpoint
  rw [hZero, hLow] at hEq
  cases hEq

end Node
end Pbft
