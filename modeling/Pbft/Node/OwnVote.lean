import Pbft.Node.Ballot

/-! # The own vote for a checkpoint

Votes of other replicas are counted as they arrive. A replica adds its own vote when it reaches the
checkpoint itself, and does not count then: a quorum that its own vote completes goes unnoticed until
another vote for the same checkpoint arrives.
-/
namespace Pbft
set_option autoImplicit false

variable {σ : Type} {cfg : Config σ}

def Msg.checkpoint? : Msg → Option CheckpointMsg
  | .checkpoint m => some m
  | _ => none

namespace Node

/-- Wherever a digest has a quorum, the checkpoint is stable and the window has moved there. -/
def Noticed (cfg : Config σ) (s : Node σ) : Prop :=
  ∀ k digest, s.h ≤ k → 2 * cfg.f.toNat + 1 ≤ (s.voters (.checkpoint k digest)).card →
    (s.checkpoints.getD k {}).stable = true ∧ k ≤ s.h

/-- The checkpoints of its own that a replica announces in a call. -/
def ownCheckpoints (cfg : Config σ) (s : Node σ) (i : Input) : List CheckpointMsg :=
  match s.handle cfg i with
  | some s' => (s'.sent.drop s.sent.length).filterMap Msg.checkpoint?
  | none => []

/-- What the code does not see to: a checkpoint that the call announces has not got as many votes
before that the replica's own completes a quorum, unless it is stable already. -/
def Incomplete (cfg : Config σ) (s : Node σ) (i : Input) : Prop :=
  ∀ m ∈ ownCheckpoints cfg s i, (s.checkpoints.getD m.seqNum {}).stable = true ∨
    (insert cfg.id (s.voters (.checkpoint m.seqNum m.stateDigest))).card < 2 * cfg.f.toNat + 1

/-- From s to t the messages l are sent, and only the votes announced in them are cast. -/
structure CastIn (cfg : Config σ) (s t : Node σ) (l : List Msg) : Prop where
  sent : t.sent = s.sent ++ l
  low : t.h = s.h
  own : ∀ m, Msg.checkpoint m ∈ l → m.replicaId = cfg.id
  stable : ∀ k, (t.checkpoints.getD k {}).stable = (s.checkpoints.getD k {}).stable
  votes : ∀ k digest, t.voters (.checkpoint k digest) =
    if Msg.checkpoint ⟨k, digest, cfg.id⟩ ∈ l then insert cfg.id (s.voters (.checkpoint k digest))
    else s.voters (.checkpoint k digest)

section
variable {s t t' : Node σ} {l : List Msg}

theorem castIn_refl (s : Node σ) : CastIn cfg s s [] where
  sent := (List.append_nil _).symm
  low := rfl
  own m hm := by cases hm
  stable _ := rfl
  votes k digest := by rw [if_neg List.not_mem_nil]

theorem CastIn.congr (w : CastIn cfg s t l) (hSent : t'.sent = t.sent) (hLow : t'.h = t.h)
    (hVotes : t'.checkpoints = t.checkpoints) : CastIn cfg s t' l where
  sent := hSent.trans w.sent
  low := hLow.trans w.low
  own := w.own
  stable k := by rw [hVotes, w.stable]
  votes k digest := by rw [voters, hVotes, ← voters, w.votes]

theorem CastIn.send {m : Msg} (w : CastIn cfg s t l) (hSent : t'.sent = t.sent ++ [m]) (hLow : t'.h = t.h)
    (hVotes : t'.checkpoints = t.checkpoints) (hm : m.checkpoint? = none) : CastIn cfg s t' (l ++ [m]) := by
  have hNew : ∀ c, Msg.checkpoint c ∈ l ++ [m] ↔ Msg.checkpoint c ∈ l := by
    intro c
    rw [List.mem_append, List.mem_singleton]
    constructor
    · rintro (hOld | rfl)
      · exact hOld
      · cases hm
    · exact .inl
  refine ⟨?_, hLow.trans w.low, fun c hc => w.own c ((hNew c).mp hc), fun k => ?_, fun k digest => ?_⟩
  · rw [hSent, w.sent, List.append_assoc]
  · rw [hVotes, w.stable]
  · simp only [hNew]
    rw [voters, hVotes, ← voters, w.votes]

theorem CastIn.vote {k : UInt64} {digest : Digest} (w : CastIn cfg s t l)
    (hSent : t'.sent = t.sent ++ [.checkpoint ⟨k, digest, cfg.id⟩]) (hLow : t'.h = t.h)
    (hVotes : t'.checkpoints = t.checkpoints.insert k ((t.checkpoints.getD k {}).addVote digest cfg.id)) :
    CastIn cfg s t' (l ++ [.checkpoint ⟨k, digest, cfg.id⟩]) := by
  refine ⟨?_, hLow.trans w.low, fun c hc => ?_, fun a => ?_, fun a d => ?_⟩
  · rw [hSent, w.sent, List.append_assoc]
  · rcases List.mem_append.mp hc with hOld | hNew
    · exact w.own c hOld
    · cases List.mem_singleton.mp hNew
      rfl
  · rw [hVotes, TreeMap.getD_insert]
    split
    · rename_i hka
      rw [← w.stable a, ← hka]
      rfl
    · exact w.stable a
  · have hOld := w.votes a d
    rw [voters, hVotes, TreeMap.getD_insert]
    split
    · rename_i hka
      subst hka
      rw [CheckpointVotes.addVote_getD]
      split
      · rename_i hd
        subst hd
        rw [if_pos (List.mem_append_right _ (List.mem_singleton.mpr rfl)), ← voters, hOld]
        split
        · exact Finset.insert_idem _ _
        · rfl
      · rename_i hd
        have hOther : d ≠ digest := fun h => hd h.symm
        rw [← voters, hOld]
        simp [hOther]
    · rename_i hka
      have hOther : a ≠ k := fun h => hka h.symm
      rw [← voters, hOld]
      simp [hOther]

end

theorem castIn_step {s₀ s t t' : Node σ} {i : Input} {l : List Msg}
    (hi : ∀ m conn, i ≠ .recv (.checkpoint m) conn) (w : CastIn cfg s t l) (hStep : Step cfg s₀ i t t') :
    ∃ l, CastIn cfg s t' l := by
  cases hStep with
  | propose | accept | markPrepared | installView => exact ⟨_, w.send rfl rfl rfl rfl⟩
  | execute =>
    rw [executeEntry_eq]
    by_cases hDue : t.checkpointDue cfg
    · exact ⟨_, w.vote (if_pos hDue) rfl (if_pos hDue)⟩
    · exact ⟨_, w.congr (if_neg hDue) rfl (if_neg hDue)⟩
  | voteCheckpoint h | stabilize h => exact absurd h (hi _ _)
  | beginViewChange =>
    rw [beginViewChange_eq]
    exact ⟨_, w.send rfl rfl rfl rfl⟩
  | handshake | timer | resend | forward | votePrepare | touch | voteCommit | markCommitted
  | storeViewChange | enterView | recompute => exact ⟨_, w.congr rfl rfl rfl⟩

theorem castIn_handle {s s' : Node σ} {i : Input} (hi : ∀ m conn, i ≠ .recv (.checkpoint m) conn)
    (hCall : s.handle cfg i = some s') : ∃ l, CastIn cfg s s' l :=
  handle_invariant (I := fun t => ∃ l, CastIn cfg s t l)
    (fun _ _ ⟨_, w⟩ hStep => castIn_step hi w hStep) ⟨[], castIn_refl s⟩ hCall

theorem CastIn.ownCheckpoints {s s' : Node σ} {i : Input} {l : List Msg} (w : CastIn cfg s s' l)
    (hCall : s.handle cfg i = some s') : ownCheckpoints cfg s i = l.filterMap Msg.checkpoint? := by
  unfold Node.ownCheckpoints
  rw [hCall]
  dsimp only
  rw [w.sent, List.drop_left]

theorem mem_filterMap_checkpoint {l : List Msg} {m : CheckpointMsg} :
    m ∈ l.filterMap Msg.checkpoint? ↔ Msg.checkpoint m ∈ l := by
  rw [List.mem_filterMap]
  constructor
  · rintro ⟨x, hx, hm⟩
    cases x with
    | checkpoint c =>
      cases hm
      exact hx
    | handshake | request | prePrepare | prepare | commit | viewChange | newView => cases hm
  · exact fun hm => ⟨_, hm, rfl⟩

/-- Everything in the store is at or above the watermark, and what is stable is at the watermark. -/
theorem StoreInv.le_of_voted {s : Node σ} (w : StoreInv cfg s) {k : UInt64} {digest : Digest} {r : UInt32}
    (hr : r ∈ s.voters (.checkpoint k digest)) : s.h ≤ k := by
  cases hVotes : s.checkpoints[k]? with
  | some cp => exact w.low k cp hVotes
  | none => simp [voters, Std.ExtTreeMap.getD_eq_getD_getElem?, hVotes] at hr

theorem StoreInv.eq_of_stable {s : Node σ} (w : StoreInv cfg s) {k : UInt64}
    (hStable : (s.checkpoints.getD k {}).stable = true) : k = s.h := by
  cases hVotes : s.checkpoints[k]? with
  | some cp =>
    rw [TreeMap.getD_of_lookup hVotes] at hStable
    exact w.stable k cp hVotes hStable
  | none =>
    rw [Std.ExtTreeMap.getD_eq_getD_getElem?, hVotes] at hStable
    cases hStable

theorem noticed_cast_iff {s s' : Node σ} {i : Input} {l : List Msg} (w : CastIn cfg s s' l)
    (hCall : s.handle cfg i = some s') (hStore : StoreInv cfg s) (hStore' : StoreInv cfg s')
    (h : Noticed cfg s) : Noticed cfg s' ↔ Incomplete cfg s i := by
  unfold Incomplete
  rw [w.ownCheckpoints hCall]
  constructor
  · intro hNoticed m hm
    have hMem := mem_filterMap_checkpoint.mp hm
    have hOwn : m = ⟨m.seqNum, m.stateDigest, cfg.id⟩ := by rw [← w.own m hMem]
    have hVotes := w.votes m.seqNum m.stateDigest
    rw [← hOwn, if_pos hMem] at hVotes
    by_contra hNot
    rw [not_or, Nat.not_lt, ← hVotes, ← w.stable] at hNot
    have hVoted : cfg.id ∈ s'.voters (.checkpoint m.seqNum m.stateDigest) := by
      rw [hVotes]
      exact Finset.mem_insert_self _ _
    exact hNot.1 (hNoticed _ _ (hStore'.le_of_voted hVoted) hNot.2).1
  · intro hIncomplete k digest hk hQuorum
    rw [w.low] at hk ⊢
    rw [w.stable]
    rw [w.votes] at hQuorum
    split at hQuorum
    · rename_i hMem
      rcases hIncomplete _ (mem_filterMap_checkpoint.mpr hMem) with hOld | hFew
      · exact ⟨hOld, UInt64.le_of_eq (hStore.eq_of_stable hOld)⟩
      · exact absurd hQuorum (Nat.not_le.mpr hFew)
    · exact h k digest hk hQuorum

theorem onCheckpoint_eq {m : CheckpointMsg} {s : Node σ} (hLow : s.h ≤ m.seqNum) :
    s.onCheckpoint cfg m = if Stabilizes cfg s m then
        (s.voteCheckpoint m.seqNum m.stateDigest m.replicaId).stabilize cfg m
          ((s.checkpoints.getD m.seqNum {}).addVote m.stateDigest m.replicaId)
      else s.voteCheckpoint m.seqNum m.stateDigest m.replicaId := by
  have hVotes : (s.voteCheckpoint m.seqNum m.stateDigest m.replicaId).checkpoints.getD m.seqNum {} =
      (s.checkpoints.getD m.seqNum {}).addVote m.stateDigest m.replicaId := by
    simp [voteCheckpoint]
  unfold onCheckpoint Stabilizes
  rw [if_neg (UInt64.not_lt.mpr hLow)]
  dsimp only
  rw [hVotes]
  simp [hLow]

theorem voters_voteCheckpoint (k a : UInt64) (digest d : Digest) (r : UInt32) (s : Node σ) :
    (s.voteCheckpoint k digest r).voters (.checkpoint a d) =
      if k = a ∧ digest = d then insert r (s.voters (.checkpoint k digest)) else s.voters (.checkpoint a d) := by
  rw [voters, voteCheckpoint, TreeMap.getD_insert]
  by_cases hka : k = a
  · subst hka
    rw [if_pos rfl, CheckpointVotes.addVote_getD]
    by_cases hd : digest = d
    · subst hd
      rw [if_pos rfl, if_pos ⟨rfl, rfl⟩]
      rfl
    · rw [if_neg hd, if_neg fun h => hd h.2]
      rfl
  · rw [if_neg hka, if_neg fun h => hka h.1]
    rfl

theorem noticed_stabilize {m : CheckpointMsg} {s : Node σ} (hLow : s.h ≤ m.seqNum) (h : Noticed cfg s) :
    Noticed cfg ((s.voteCheckpoint m.seqNum m.stateDigest m.replicaId).stabilize cfg m
      ((s.checkpoints.getD m.seqNum {}).addVote m.stateDigest m.replicaId)) := by
  intro k digest hk hQuorum
  have hk : m.seqNum ≤ k := hk
  by_cases hKey : k = m.seqNum
  · rw [hKey, TreeMap.getD_of_lookup (lookup_stabilize m _ _)]
    exact ⟨rfl, UInt64.le_refl _⟩
  · -- above the new watermark there was no quorum before
    have hGains : Gains (fun _ _ => False) (s.voteCheckpoint m.seqNum m.stateDigest m.replicaId)
        ((s.voteCheckpoint m.seqNum m.stateDigest m.replicaId).stabilize cfg m _) :=
      Gains.stabilize Std.ExtTreeMap.getElem?_insert_self
    have hSubset : ((s.voteCheckpoint m.seqNum m.stateDigest m.replicaId).stabilize cfg m
        ((s.checkpoints.getD m.seqNum {}).addVote m.stateDigest m.replicaId)).voters (.checkpoint k digest) ⊆
          s.voters (.checkpoint k digest) := by
      intro r hr
      have hOld := (hGains _ r hr).resolve_right id
      rwa [voters_voteCheckpoint, if_neg fun hSame => hKey hSame.1.symm] at hOld
    have hAbove := (h k digest (UInt64.le_trans hLow hk) (hQuorum.trans (Finset.card_le_card hSubset))).2
    exact absurd (UInt64.le_antisymm (UInt64.le_trans hAbove hLow) hk) hKey

theorem noticed_onCheckpoint {m : CheckpointMsg} {s : Node σ} (hStore : StoreInv cfg s) (h : Noticed cfg s) :
    Noticed cfg (s.onCheckpoint cfg m) := by
  by_cases hLow : s.h ≤ m.seqNum
  · rw [onCheckpoint_eq hLow]
    split
    · exact noticed_stabilize hLow h
    · rename_i hNot
      intro k digest hk hQuorum
      have hFlag : ((s.voteCheckpoint m.seqNum m.stateDigest m.replicaId).checkpoints.getD k {}).stable =
          (s.checkpoints.getD k {}).stable := by
        rw [voteCheckpoint, TreeMap.getD_insert]
        split
        · rename_i hKey
          rw [hKey]
          rfl
        · rfl
      rw [hFlag]
      rw [voters_voteCheckpoint] at hQuorum
      split at hQuorum
      · rename_i hSame
        obtain ⟨rfl, rfl⟩ := hSame
        have hStable : (s.checkpoints.getD m.seqNum {}).stable = true := by
          by_contra hUnstable
          refine hNot ⟨hLow, Bool.eq_false_iff.mpr hUnstable, ?_⟩
          rw [cfg.quorum_eq, CheckpointVotes.addVote_getD, if_pos rfl]
          exact hQuorum
        exact ⟨hStable, UInt64.le_of_eq (hStore.eq_of_stable hStable)⟩
      · exact h k digest hk hQuorum
  · have hSame : s.onCheckpoint cfg m = s := if_pos (UInt64.not_le.mp hLow)
    rwa [hSame]

theorem ownCheckpoints_checkpoint (m : CheckpointMsg) (conn : Conn) (s : Node σ) :
    ownCheckpoints cfg s (.recv (.checkpoint m) conn) = [] := by
  have hSent : (s.onCheckpoint cfg m).sent = s.sent := by
    rcases onCheckpoint_cases cfg m s with ⟨-, hEq⟩ | ⟨-, hEq | ⟨cp, -, -, -, hEq⟩⟩ <;> rw [hEq] <;> rfl
  unfold ownCheckpoints
  dsimp only [handle]
  rw [hSent, List.drop_length]
  rfl

theorem noticed_handle_iff {s s' : Node σ} {i : Input} (hStore : StoreInv cfg s) (hStore' : StoreInv cfg s')
    (h : Noticed cfg s) (hCall : s.handle cfg i = some s') : Noticed cfg s' ↔ Incomplete cfg s i := by
  rcases eq_checkpoint_or i with ⟨m, conn, rfl⟩ | hi
  · cases hCall
    have hNone : Incomplete cfg s (.recv (.checkpoint m) conn) := by
      unfold Incomplete
      rw [ownCheckpoints_checkpoint]
      exact List.forall_mem_nil _
    exact iff_of_true (noticed_onCheckpoint hStore h) hNone
  · obtain ⟨l, w⟩ := castIn_handle hi hCall
    exact noticed_cast_iff w hCall hStore hStore' h

theorem noticed_init (t : Bool) : Noticed cfg (Node.init cfg t) := by
  intro k digest _ hQuorum
  simp [Node.init, voters] at hQuorum

/-- In a run no quorum for a checkpoint ever goes unnoticed exactly if the replica's own vote never
completes one. -/
theorem checkpoints_noticed_iff {t : Bool} {s : Node σ} {trace : List (Node σ × Input)}
    (hs : Machine.Reach (machine cfg t).record (fun x => Anything x.1) (s, trace)) :
    ((∀ c ∈ trace, Noticed cfg c.1) ∧ Noticed cfg s) ↔ ∀ c ∈ trace, Incomplete cfg c.1 c.2 := by
  refine Machine.Reach.record_iff (noticed_init t) (fun s i s' hs _ hNoticed hCall => ?_) hs
  have hs' : Reach cfg t Anything s' := .step hs trivial hCall
  exact noticed_handle_iff (storeInv_reach hs) (storeInv_reach hs') hNoticed hCall

/-- Replica 1 of four makes its checkpoint at number 1 when the votes of replicas voters for it have come. -/
def ownCheckpoint (voters : List UInt32) : List Input :=
  [.recv (.handshake ⟨0⟩) 0, .recv (.prePrepare ⟨0, 1, 7, {}⟩) 0, .recv (.prepare ⟨0, 1, 7, 2⟩) 2,
    .recv (.commit ⟨0, 1, 7, 2⟩) 2] ++ (voters.map fun r => .recv (.checkpoint ⟨1, 3, r⟩) r.toNat) ++
    [.recv (.commit ⟨0, 1, 7, 3⟩) 3]

instance (s : Node σ) (i : Input) : Decidable (Incomplete cfg s i) := List.decidableBAll _ _

theorem checkpoints_noticed_iff_one : ∃ x : Node (List String) × List (Node (List String) × Input),
    Machine.Reach (machine { Config.sample 4 200 1 with id := 1 } false).record (fun x => Anything x.1) x ∧
    x.1.voters (.checkpoint 1 3) = {1, 2} ∧ Noticed { Config.sample 4 200 1 with id := 1 } x.1 := by
  obtain ⟨x, hx, hVoters, hAll⟩ := Machine.exists_reach
    (machine { Config.sample 4 200 1 with id := 1 } false).record (fun x => Anything x.1) (ownCheckpoint [2])
    (fun x => x.1.voters (.checkpoint 1 3) = {1, 2} ∧
      ∀ c ∈ x.2, Incomplete { Config.sample 4 200 1 with id := 1 } c.1 c.2) (by decide +kernel)
  exact ⟨x, hx, hVoters, ((checkpoints_noticed_iff hx).mpr hAll).2⟩

/-- The votes of replicas 2 and 3 were there before its own: the quorum is complete, and neither is the
checkpoint stable nor has the window moved. -/
theorem checkpoints_unnoticed : ∃ s : Node (List String),
    Reach { Config.sample 4 200 1 with id := 1 } false Anything s ∧
    s.voters (.checkpoint 1 3) = {1, 2, 3} ∧ (s.checkpoints.getD 1 {}).stable = false ∧ s.h = 0 ∧
    ¬Noticed { Config.sample 4 200 1 with id := 1 } s := by
  obtain ⟨s, hs, hVoters, hUnstable, hLow⟩ := Machine.exists_reach
    (machine { Config.sample 4 200 1 with id := 1 } false) Anything (ownCheckpoint [2, 3])
    (fun s => s.voters (.checkpoint 1 3) = {1, 2, 3} ∧ (s.checkpoints.getD 1 {}).stable = false ∧ s.h = 0)
    (by decide +kernel)
  refine ⟨s, hs, hVoters, hUnstable, hLow, fun hNoticed => ?_⟩
  have hDone := (hNoticed 1 3 (by simp [hLow]) (by rw [hVoters]; decide)).1
  rw [hUnstable] at hDone
  cases hDone

end Node
end Pbft
