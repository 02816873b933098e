import Pbft.Cluster.Votes
import Pbft.Node.CheckpointStore
import Pbft.Node.Execution

/-! # Agreement on checkpoints

A correct replica broadcasts one checkpoint per multiple of the interval, at the moment it has
executed that many requests, so its vote is a function of its executed history. Nothing here
depends on connections, views or the contents of requests.
-/
namespace Pbft
set_option autoImplicit false

open Node

variable {σ : Type}

namespace Cluster
variable {C : Cluster σ} {S : Traffic} {r : UInt32}

def CheckpointsBacked (C : Cluster σ) (T : Traffic)
    (checkpoints : Std.ExtTreeMap UInt64 CheckpointVotes) : Prop :=
  ∀ k cp d, checkpoints[k]? = some cp → ∀ p ∈ cp.votes.getD d ∅,
    p < C.base.n ∧ (p ∉ C.faulty → T p (.checkpoint ⟨k, d, p⟩))

theorem CheckpointsBacked.vote {T : Traffic} {store : Std.ExtTreeMap UInt64 CheckpointVotes}
    (h : C.CheckpointsBacked T store) {k : UInt64} {d : Digest} {p : UInt32} (hId : p < C.base.n)
    (hVote : p ∉ C.faulty → T p (.checkpoint ⟨k, d, p⟩)) :
    C.CheckpointsBacked T (store.insert k ((store.getD k {}).addVote d p)) := by
  have hBefore : ∀ d, ∀ q ∈ (store.getD k {}).votes.getD d ∅,
      q < C.base.n ∧ (q ∉ C.faulty → T q (.checkpoint ⟨k, d, q⟩)) := by
    intro d q hq
    cases hOld : store[k]? with
    | none => simp [Std.ExtTreeMap.getD_eq_getD_getElem?, hOld] at hq
    | some old => exact h k old d hOld q (by rwa [TreeMap.getD_of_lookup hOld] at hq)
  intro a cp d' ha q hq
  rw [TreeMap.lookup_insert] at ha
  split at ha
  · rename_i hka
    subst hka
    rw [← Option.some.inj ha, CheckpointVotes.addVote_getD] at hq
    split at hq
    · rename_i hd
      subst hd
      rcases Finset.mem_insert.mp hq with rfl | hq
      · exact ⟨hId, hVote⟩
      · exact hBefore d q hq
    · exact hBefore d' q hq
  · exact h a cp d' ha q hq

theorem CheckpointsBacked.mono {T T' : Traffic} {store : Std.ExtTreeMap UInt64 CheckpointVotes}
    (hT : ∀ p m, T p m → T' p m) (h : C.CheckpointsBacked T store) : C.CheckpointsBacked T' store :=
  fun k cp d hk p hp => ⟨(h k cp d hk p hp).1, fun hCorrect => hT _ _ ((h k cp d hk p hp).2 hCorrect)⟩

theorem CheckpointsBacked.advance {T : Traffic} {store : Std.ExtTreeMap UInt64 CheckpointVotes}
    (h : C.CheckpointsBacked T store) {k : UInt64} {cp : CheckpointVotes} (hk : store[k]? = some cp)
    (keep : UInt64 → CheckpointVotes → Bool) :
    C.CheckpointsBacked T ((store.insert k { cp with stable := true }).filter keep) := by
  intro a v d ha p hp
  have hIn := ((TreeMap.lookup_filter keep a v).mp ha).1
  rw [TreeMap.lookup_insert] at hIn
  split at hIn
  · rename_i hka
    subst hka
    exact h k cp d hk p (by rwa [← Option.some.inj hIn] at hp)
  · exact h a v d hIn p hp

theorem checkpointsBacked_step {s₀ s s' : Node σ} {i : Input} (hr : C.Correct r)
    (hTrue : C.IdTrue S r i) (w : C.CheckpointsBacked (Heard S r s) s.checkpoints)
    (hStep : Step (C.cfg r) s₀ i s s') : C.CheckpointsBacked (Heard S r s') s'.checkpoints := by
  have hHeard : ∀ m ∈ s.sent, m ∈ s'.sent := fun _ hm => sent_step hm hStep
  have w' : C.CheckpointsBacked (Heard S r s') s.checkpoints := w.mono fun _ _ => .mono hHeard
  cases hStep with
  | execute hEntry =>
    rw [executeEntry_eq] at w' ⊢
    by_cases hDue : s.checkpointDue (C.cfg r)
    · simp only [if_pos hDue] at w' ⊢
      exact w'.vote hr.1 fun _ => .inr ⟨rfl, List.mem_append_right _ (List.mem_singleton.mpr rfl)⟩
    · simpa only [if_neg hDue] using w'
  | @voteCheckpoint _ m conn hi =>
    subst hi
    obtain ⟨hId, -, hSent⟩ := hTrue m.replicaId rfl
    exact w'.vote hId fun hCorrect => .inl (hSent hCorrect)
  | stabilize _ _ hVotes => exact w'.advance hVotes _
  | beginViewChange =>
    rw [beginViewChange_eq] at w' ⊢
    exact w'
  | _ => exact w'

variable {G : World σ}

/-- Identities of voters are all that checkpoints rely on. -/
abbrev Identified (C : Cluster σ) (G : World σ) (r : UInt32) (i : Input) : Prop :=
  C.Correct r ∧ C.IdTrue G.sent r i

theorem checkpointsBacked_of_reach (hs : C.Reach C.Identified G) (hr : C.Correct r) :
    C.CheckpointsBacked G.sent (G r).checkpoints := by
  have hNode := hs.node (fun r _ i => C.IdTrue G.sent r i) (fun _ _ _ h hSent => h.2.mono hSent) r
  have hBacked := Node.Reach.invariant
    (I := fun s => C.CheckpointsBacked (Heard G.sent r s) s.checkpoints)
    (fun k cp d hk => by simp [Node.init] at hk)
    (fun _ _ _ hTrue _ _ w => checkpointsBacked_step hr hTrue w) hNode
  exact hBacked.mono fun _ _ => heard_sent

theorem exists_stable_quorum (hs : C.Reach C.Identified G) (hr : C.Correct r) (hPos : 0 < (G r).h) :
    ∃ A : Finset UInt32, C.base.quorum ≤ A.card ∧ (∀ p ∈ A, p < C.base.n) ∧
      ∀ p ∈ A, p ∉ C.faulty →
        Msg.checkpoint ⟨(G r).h, (G r).lastStableDigest, p⟩ ∈ (G p).sent ∧
        Attests (C.cfg p) (G p) ⟨(G r).h, (G r).lastStableDigest, p⟩ := by
  obtain ⟨cp, hcp, -, hQuorum⟩ := (storeInv_reach (hs.anything r)).proof hPos
  have hBacked := checkpointsBacked_of_reach hs hr (G r).h cp (G r).lastStableDigest hcp
  refine ⟨_, hQuorum, fun p hp => (hBacked p hp).1, fun p hp hCorrect => ?_⟩
  have hSent := (hBacked p hp).2 hCorrect
  exact ⟨hSent, (serviceInv_reach (hs.anything p)).2.checkpoints _ hSent⟩

theorem exists_attesting (hFaulty : C.faulty.card ≤ C.base.f.toNat) (hs : C.Reach C.Identified G)
    (hr : C.Correct r) (hPos : 0 < (G r).h) :
    ∃ A : Finset UInt32, C.base.f.toNat + 1 ≤ A.card ∧ ∀ p ∈ A, C.Correct p ∧
      Msg.checkpoint ⟨(G r).h, (G r).lastStableDigest, p⟩ ∈ (G p).sent ∧
      Attests (C.cfg p) (G p) ⟨(G r).h, (G r).lastStableDigest, p⟩ := by
  obtain ⟨A, hQuorum, hIds, hVotes⟩ := exists_stable_quorum hs hr hPos
  have hCount := Quorum.card_le_filter_add A C.faulty
  rw [Config.quorum_eq] at hQuorum
  refine ⟨A.filter (· ∉ C.faulty), by omega, fun p hp => ?_⟩
  obtain ⟨hp, hCorrect⟩ := Finset.mem_filter.mp hp
  exact ⟨⟨hIds p hp, hCorrect⟩, hVotes p hp hCorrect⟩

/-- A stable checkpoint of a correct replica is one that enough correct replicas have reached and
described, and there is one description per sequence number. -/
theorem checkpoint_agreement (hC : C.Resilient) (hs : C.Reach C.Identified G) :
    (∀ r, C.Correct r → 0 < (G r).h → C.base.K.toNat ∣ (G r).h.toNat ∧
      ∃ A : Finset UInt32, C.base.f.toNat + 1 ≤ A.card ∧ ∀ p ∈ A, C.Correct p ∧
        (G r).h ≤ (G p).lastExec ∧
        Msg.checkpoint ⟨(G r).h, (G r).lastStableDigest, p⟩ ∈ (G p).sent ∧
        (G r).lastStableDigest = C.base.service.getCheckpointDigest
          (stateAfter C.base ((G p).executed.take (G r).h.toNat))) ∧
    ∀ p q, C.Correct p → C.Correct q → 0 < (G p).h → (G p).h = (G q).h →
      (G p).lastStableDigest = (G q).lastStableDigest := by
  constructor
  · intro r hr hPos
    obtain ⟨A, hCard, hA⟩ := exists_attesting hC.faulty hs hr hPos
    obtain ⟨p, hp⟩ : A.Nonempty := Finset.card_pos.mp (by omega)
    refine ⟨(hA p hp).2.2.multiple, A, hCard, fun p hp => ?_⟩
    obtain ⟨hCorrect, hSent, hAttests⟩ := hA p hp
    exact ⟨hCorrect, hAttests.reached, hSent, hAttests.digest⟩
  · intro p q hp hq hPos hSame
    obtain ⟨A, hQuorum, hIds, hVotes⟩ := exists_stable_quorum hs hp hPos
    obtain ⟨A', hQuorum', hIds', hVotes'⟩ := exists_stable_quorum hs hq (hSame ▸ hPos)
    obtain ⟨r, hr, hr', hCorrect⟩ := hC.exists_common hIds hIds' hQuorum hQuorum'
    have hDigest := (hVotes r hr hCorrect.2).2.digest
    have hDigest' := (hVotes' r hr' hCorrect.2).2.digest
    rw [← hSame] at hDigest'
    exact hDigest.trans hDigest'.symm

theorem checkpoint_agreement_sample :
    let C := { sample 4 {0} with base := Config.sample 4 200 1 }
    ∃ G, C.Reach C.Identified G ∧ (G 1).h = 1 ∧ (G 2).h = 1 ∧
      (G 1).lastStableDigest = (G 2).lastStableDigest := by
  intro C
  let vote (p r : UInt32) := deliver (.checkpoint ⟨1, 3, p⟩) p r
  obtain ⟨G, hs, hp, hq⟩ := Machine.exists_reach C.machine (fun G a => C.Identified G a.1 a.2)
    (ordering ⟨0, 1, 7, ⟨"INC", 1, 9⟩⟩ 0 [1, 2, 3] ++ [vote 2 1, vote 3 1, vote 1 2, vote 3 2])
    (fun G => (G 1).h = 1 ∧ (G 2).h = 1) (by decide +kernel)
  have hC : C.Resilient := ⟨by decide, by decide⟩
  have hPos : 0 < (G 1).h := hp ▸ by decide
  exact ⟨G, hs, hp, hq, (checkpoint_agreement hC hs).2 1 2 (by decide) (by decide) hPos
    (hp.trans hq.symm)⟩

end Cluster
end Pbft
