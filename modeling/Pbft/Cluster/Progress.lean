import Pbft.Cluster.Contiguous
import Pbft.Cluster.Quiescence
import Pbft.Foundation.Schedule
import Pbft.Node.Weight

/-! # The normal case makes progress

As long as no new request comes in, only so many deliveries can change any replica. With a network that
brings every message to everyone again and again, the cluster therefore comes to rest, and at rest it has
executed what it could.
-/
namespace Pbft
set_option autoImplicit false

open Node

variable {σ : Type}

/-- The messages that replicas send to each other. -/
def Msg.relayed : Msg → Bool
  | .handshake _ => false
  | .request _ => false
  | _ => true

namespace Node
variable {cfg : Config σ}

theorem relayed_of_append {sent : List Msg} {m : Msg} (h : ∀ a ∈ sent, a.relayed = true) (hm : m.relayed = true) :
    ∀ a ∈ sent ++ [m], a.relayed = true := by
  intro a ha
  rcases List.mem_append.mp ha with ha | ha
  · exact h a ha
  · exact List.mem_singleton.mp ha ▸ hm

theorem relayed_step {s₀ s s' : Node σ} {i : Input} (h : ∀ m ∈ s.sent, m.relayed = true)
    (hStep : Step cfg s₀ i s s') : ∀ m ∈ s'.sent, m.relayed = true := by
  cases hStep with
  | propose | accept | markPrepared | installView => exact relayed_of_append h rfl
  | execute =>
    rw [executeEntry_eq]
    dsimp only
    split
    · exact relayed_of_append h rfl
    · exact h
  | beginViewChange =>
    rw [beginViewChange_eq]
    exact relayed_of_append h rfl
  | _ => exact h

/-- A vote names the replica that has broadcast it. -/
theorem signed_step {s₀ s s' : Node σ} {i : Input} (h : ∀ m ∈ s.sent, ∀ q ∈ m.replicaId?, q = cfg.id)
    (hStep : Step cfg s₀ i s s') : ∀ m ∈ s'.sent, ∀ q ∈ m.replicaId?, q = cfg.id := by
  have hAppend : ∀ a : Msg, (∀ q ∈ a.replicaId?, q = cfg.id) →
      ∀ m ∈ s.sent ++ [a], ∀ q ∈ m.replicaId?, q = cfg.id := by
    intro a ha m hm
    rcases List.mem_append.mp hm with hm | hm
    · exact h m hm
    · exact List.mem_singleton.mp hm ▸ ha
  cases hStep with
  | propose | installView => exact hAppend _ nofun
  | accept | markPrepared => exact hAppend _ fun q hq => (Option.some.inj hq).symm
  | execute =>
    rw [executeEntry_eq]
    dsimp only
    split
    · exact hAppend _ fun q hq => (Option.some.inj hq).symm
    · exact h
  | beginViewChange =>
    rw [beginViewChange_eq]
    exact hAppend _ fun q hq => (Option.some.inj hq).symm
  | _ => exact h

theorem sent_prefix_step {s₀ s s' : Node σ} {i : Input} (hStep : Step cfg s₀ i s s') : s.sent <+: s'.sent := by
  cases hStep with
  | propose | accept | markPrepared | installView => exact List.prefix_append _ _
  | execute =>
    rw [executeEntry_eq]
    dsimp only
    split
    · exact List.prefix_append _ _
    · exact List.prefix_rfl
  | beginViewChange =>
    rw [beginViewChange_eq]
    exact List.prefix_append _ _
  | _ => exact List.prefix_rfl

end Node

namespace Cluster
variable {C : Cluster σ} {G : World σ} {link : UInt32 → UInt32 → Conn}

/-- A message from another replica is delivered. -/
def Relays (C : Cluster σ) (G : World σ) (r : UInt32) (i : Input) : Prop :=
  C.Untimed G r i ∧ ∀ m conn, i = .recv m conn → m.relayed = true

theorem voters_lt (hs : C.Reach C.Untimed G) (r : UInt32) : ∀ b, ∀ p ∈ (G r).voters b, p < C.base.n := by
  refine hs.pointwise_call (J := fun _ s => ∀ b, ∀ p ∈ s.voters b, p < C.base.n) (fun r b p hp => ?_)
    (fun G r i s' _ hOk hJ hCall b p hp => ?_) r
  · cases b <;> simp [Node.init, voters, entry] at hp
  · rcases gains_handle hCall b p hp with hOld | rfl | ⟨m, conn, rfl, hVote⟩
    · exact hJ r b p hOld
    · exact hOk.1.correct.1
    · have hId : m.replicaId? = some p := by
        unfold Msg.vote? at hVote
        split at hVote
        · cases hVote
          rfl
        · cases hVote
          rfl
        · cases hVote
          rfl
        · cases hVote
          rfl
        · cases hVote
      exact (hOk.1.id p hId).1

theorem card_voters_le (hs : C.Reach C.Untimed G) (r : UInt32) (b : Ballot) :
    ((G r).voters b).card ≤ C.base.n.toNat := by
  rw [← Config.card_replicas]
  exact Finset.card_le_card fun p hp => Config.mem_replicas.mpr (voters_lt hs r b p hp)

/-- The digest of the service after the first k of the proposals. -/
def digestAfter (C : Cluster σ) (P : List PrePrepareMsg) (k : UInt64) : Digest :=
  C.base.service.getCheckpointDigest (((P.map (·.req.operation)).take k.toNat).foldl
    (fun s op => (C.base.service.execute s op).1) C.base.service.initial)

theorem checkpoint_of_sent (hFaulty : C.faulty = ∅) (hs : C.Reach C.Untimed G) {p : UInt32} {m : CheckpointMsg}
    (hm : Msg.checkpoint m ∈ (G p).sent) : m.stateDigest = C.digestAfter (G 0).proposals m.seqNum ∧
      0 < m.seqNum ∧ m.seqNum.toNat ≤ (G 0).proposals.length := by
  have w := normalInv_of_reach hFaulty hs
  obtain ⟨hLog, hService⟩ := serviceInv_reach (hs.anything p)
  obtain ⟨-, hPos, hReached, hDigest⟩ := hService.checkpoints m hm
  refine ⟨?_, hPos, (w.follows p).sent _ hm⟩
  have hOps := operations_eq_take hLog (w.follows p)
  unfold Node.operations at hOps
  rw [UInt64.le_iff_toNat_le] at hReached
  rw [hDigest, stateAfter_eq_foldl, List.map_take, hOps, List.take_take, Nat.min_eq_left hReached]
  rfl

/-- How far replica r has come with the proposals P. -/
def replicaWeight (C : Cluster σ) (P : List PrePrepareMsg) (s : Node σ) : Nat :=
  Node.weight C.base.n.toNat (C.digestAfter P) P.length s

section
variable (hFaulty : C.faulty = ∅) (hs : C.Reach C.Untimed G) {r : UInt32}
include hs

theorem relay_prepare {m : PrepareMsg} (hm : m.seqNum.toNat ≤ (G 0).proposals.length) (conn : Conn) :
    Alike ((G r).onPrepare (C.cfg r) m conn) (G r) ∨
      C.replicaWeight (G 0).proposals (G r) < C.replicaWeight (G 0).proposals ((G r).onPrepare (C.cfg r) m conn) := by
  rcases onPrepare_cases (C.cfg r) m conn (G r) with hSame | ⟨hFrom, hCurrent, hDigest⟩
  · rw [hSame]
    exact .inl (.refl _)
  · have hAdvances : Advances (G r) ((G r).onPrepare (C.cfg r) m conn) :=
      advances_handle (i := .recv (.prepare m) conn) (Option.some_ne_none _) (windowInv_reach (hs.anything r)) rfl
    exact alike_or_weight_lt hAdvances (reqlog_onPrepare hFrom hCurrent hDigest)
      (ReqLogEntry.weight_prepare _ _ _) (inWindow_iff.mp hCurrent.2.2).1 hm

theorem relay_commit {m : CommitMsg} (hm : m.seqNum.toNat ≤ (G 0).proposals.length) :
    Alike ((G r).onCommit (C.cfg r) m) (G r) ∨
      C.replicaWeight (G 0).proposals (G r) < C.replicaWeight (G 0).proposals ((G r).onCommit (C.cfg r) m) := by
  rcases onCommit_cases (C.cfg r) m (G r) with hSame | hCurrent
  · rw [hSame]
    exact .inl (.refl _)
  · have hAdvances : Advances (G r) ((G r).onCommit (C.cfg r) m) :=
      advances_handle (i := .recv (.commit m) 0) (Option.some_ne_none _) (windowInv_reach (hs.anything r)) rfl
    have hLow := (inWindow_iff.mp hCurrent.2.2).1
    by_cases hDigest : ((G r).entry m.seqNum).digest = m.reqDigest
    · exact alike_or_weight_lt hAdvances (reqlog_onCommit hCurrent hDigest) (ReqLogEntry.weight_commit _ _ _) hLow hm
    · -- a commit that does not match may still create an empty entry
      refine alike_or_weight_lt hAdvances ?_ (.inl rfl) hLow hm
      rw [onCommit_of_current hCurrent, if_pos hDigest]
      rfl

include hFaulty

theorem relay_prePrepare {m : PrePrepareMsg} (hm : m ∈ (G 0).proposals) (conn : Conn) :
    Alike ((G r).onPreprepare (C.cfg r) m conn) (G r) ∨
      C.replicaWeight (G 0).proposals (G r) <
        C.replicaWeight (G 0).proposals ((G r).onPreprepare (C.cfg r) m conn) := by
  rcases onPreprepareImpl_cases (C.cfg r) m conn false (G r) with hSame | hGuard
  · rw [onPreprepare, hSame]
    exact .inl (.refl _)
  · have w := normalInv_of_reach hFaulty hs
    obtain ⟨hWindow, hLog⟩ := logInv_reach (hs.anything r)
    have hAdvances : Advances (G r) ((G r).onPreprepare (C.cfg r) m conn) :=
      advances_handle (i := .recv (.prePrepare m) conn) (Option.some_ne_none _) hWindow rfl
    refine alike_or_weight_lt hAdvances (reqlog_onPreprepareImpl hGuard) ?_
      (inWindow_iff.mp hGuard.current.2.2).1 (w.leads.numbered.index hm).2.2
    have hQuorum := (settled_reach (hs.anything r)).quorum m.seqNum
    refine ReqLogEntry.weight_logged (hLog.entries m.seqNum) hQuorum fun hPre => ?_
    obtain ⟨pp, hpp, -, hSeq, hCopies⟩ := exists_proposal hFaulty hs hPre
    exact w.leads.numbered.unique hpp hm hSeq ▸ hCopies

/-- A delivery leaves the replica as it was or takes it further. -/
theorem relay_cases {i : Input} (hOk : C.Relays G r i) {s' : Node σ} (hCall : (G r).handle (C.cfg r) i = some s') :
    Alike s' (G r) ∨ C.replicaWeight (G 0).proposals (G r) < C.replicaWeight (G 0).proposals s' := by
  have hIn := ordinary_of_untimed hFaulty (normalInv_of_reach hFaulty hs) hOk.1
  cases i with
  | timeout => exact absurd rfl hIn.noTimeout
  | recv m conn =>
    have hWithin := hIn.within m conn rfl
    have hRelayed := hOk.2 m conn rfl
    cases m with
    | handshake m | request m => cases hRelayed
    | viewChange m | newView m => exact hWithin.elim
    | prePrepare m =>
      cases hCall
      exact relay_prePrepare hFaulty hs hWithin conn
    | prepare m =>
      cases hCall
      exact relay_prepare hs hWithin conn
    | commit m =>
      cases hCall
      exact relay_commit hs hWithin
    | checkpoint m =>
      cases hCall
      rcases hOk.1.1.exists_sender hFaulty with ⟨_, h⟩ | ⟨_, h⟩ | ⟨p, hSent⟩
      · cases h
      · cases h
      · obtain ⟨hDigest, hPos, hLe⟩ := checkpoint_of_sent hFaulty hs hSent
        exact alike_or_weight_lt_checkpoint (storeInv_reach (hs.anything r)) (card_voters_le hs r) hDigest hPos hLe

end

theorem relay_proposals {r : UInt32} {i : Input} (hOk : C.Relays G r i) {s' : Node σ}
    (hCall : (G r).handle (C.cfg r) i = some s') : s'.proposals = (G r).proposals := by
  refine handle_invariant (I := fun s => s.proposals = (G r).proposals) (fun s t hSame hStep => ?_) rfl hCall
  rcases proposals_step hStep with hEq | ⟨m, hm, -⟩
  · exact hEq.trans hSame
  · unfold request? at hm
    split at hm
    · cases hOk.2 _ _ rfl
    · cases hm

theorem relay_conn {r : UInt32} {i : Input} (hOk : C.Relays G r i) {s' : Node σ}
    (hCall : (G r).handle (C.cfg r) i = some s') : s'.connToPeer = (G r).connToPeer := by
  refine handle_invariant (I := fun s => s.connToPeer = (G r).connToPeer) (fun s t hSame hStep => ?_) rfl hCall
  cases hStep with
  | handshake hi => cases hOk.2 _ _ hi
  | execute =>
    rw [executeEntry_eq]
    exact hSame
  | beginViewChange => rw [beginViewChange_eq]
  | _ => exact hSame

def clusterWeight (C : Cluster σ) (P : List PrePrepareMsg) (G : World σ) : Nat :=
  ∑ r ∈ C.base.replicas, C.replicaWeight P (G r)

/-- The most that N proposals can take. -/
def weightBound (C : Cluster σ) (N : Nat) : Nat :=
  C.base.n.toNat * (2 * N + (N + 1) * (5 * C.base.n.toNat + 8))

def AllAlike (G' G : World σ) : Prop := ∀ r, Alike (G' r) (G r)

abbrev RelaySchedule (C : Cluster σ) := Machine.Schedule C.machine fun G a => C.Relays G a.1 a.2

theorem relay_invariant {T : C.RelaySchedule} (hs : C.Reach C.Untimed (T.state 0)) (i : Nat) :
    C.Reach C.Untimed (T.state i) ∧ (T.state i 0).proposals = (T.state 0 0).proposals := by
  refine T.invariant (I := fun G => C.Reach C.Untimed G ∧ (G 0).proposals = (T.state 0 0).proposals) ⟨hs, rfl⟩
    (fun G a G' hG hOk hn => ⟨.step hG.1 hOk.1 hn, ?_⟩) i
  obtain ⟨s', hCall, rfl⟩ := next_eq hn
  by_cases hr : a.1 = 0
  · rw [← hr, Function.update_self, relay_proposals hOk hCall, hr]
    exact hG.2
  · rw [Function.update_of_ne (Ne.symm hr)]
    exact hG.2

theorem relay_potential (hFaulty : C.faulty = ∅) (P : List PrePrepareMsg) :
    Machine.Schedule.Potential (fun G a => C.Relays G a.1 a.2) C.machine
      (fun G => C.Reach C.Untimed G ∧ (G 0).proposals = P) AllAlike
      (C.clusterWeight P) (C.weightBound P.length) where
  refl G r := .refl _
  trans G G' G'' h h' r := (h r).trans (h' r)
  keeps G G' h := Finset.sum_congr rfl fun r _ => weight_congr (h r)
  le G hG := by
    obtain ⟨hs, rfl⟩ := hG
    have hSum := Finset.sum_le_card_nsmul C.base.replicas (fun r => C.replicaWeight (G 0).proposals (G r)) _
        fun r _ => by
      have hFollows := (normalInv_of_reach hFaulty hs).follows r
      exact weight_le (card_voters_le hs r) hFollows.low hFollows.last
    rwa [Config.card_replicas, Nat.nsmul_eq_mul] at hSum
  step G a G' hG hOk hn := by
    obtain ⟨hs, rfl⟩ := hG
    obtain ⟨s', hCall, rfl⟩ := next_eq hn
    rcases relay_cases hFaulty hs hOk hCall with hAlike | hMore
    · left
      intro r
      by_cases hr : r = a.1
      · rw [hr, Function.update_self]
        exact hAlike
      · rw [Function.update_of_ne hr]
        exact .refl _
    · right
      refine Finset.sum_lt_sum (fun r _ => ?_) ⟨a.1, Config.mem_replicas.mpr hOk.1.1.correct.1, ?_⟩
      · by_cases hr : r = a.1
        · rw [hr, Function.update_self]
          exact Nat.le_of_lt hMore
        · rw [Function.update_of_ne hr]
      · rwa [Function.update_self]

/-- Whatever a replica has sent is delivered to every other one again and again. -/
def Fair (link : UInt32 → UInt32 → Conn) (T : C.RelaySchedule) : Prop :=
  ∀ i r p, r < C.base.n → p < C.base.n → p ≠ r → ∀ m ∈ (T.state i p).sent,
    ∃ j, i ≤ j ∧ T.action j = some (r, .recv m (link r p))

theorem relay_linked {T : C.RelaySchedule} (hLinked : C.Linked link (T.state 0)) (i : Nat) :
    C.Linked link (T.state i) := by
  refine T.invariant (I := C.Linked link) hLinked (fun G a G' hG hOk hn r p hr hp hNe => ?_) i
  obtain ⟨s', hCall, rfl⟩ := next_eq hn
  by_cases hra : r = a.1
  · subst hra
    rw [Function.update_self, relay_conn hOk hCall]
    exact hG _ p hr hp hNe
  · rw [Function.update_of_ne hra]
    exact hG r p hr hp hNe

theorem seqNum_relay (hFaulty : C.faulty = ∅) {T : C.RelaySchedule} (hs : C.Reach C.Untimed (T.state 0)) (i : Nat) :
    (T.state i 0).seqNum = (T.state 0 0).seqNum := by
  obtain ⟨hReach, hSame⟩ := relay_invariant hs i
  rw [← UInt64.toNat_inj, (normalInv_of_reach hFaulty hReach).leads.count, hSame,
    (normalInv_of_reach hFaulty hs).leads.count]

theorem atRest_of_fair (hFaulty : C.faulty = ∅) {T : C.RelaySchedule} (hs : C.Reach C.Untimed (T.state 0))
    (hSize : 4 ≤ C.base.n) (hLinked : C.Linked link (T.state 0))
    (hRoom : (T.state 0 0).seqNum.toNat + C.base.L.toNat < 2 ^ 64) (hFair : Fair link T) :
    ∃ m, AtRest C link (T.state m) ∧ ∀ i, m ≤ i → ∀ r, Alike (T.state i r) (T.state m r) := by
  obtain ⟨m, hm⟩ := (relay_potential hFaulty (T.state 0 0).proposals).settles (relay_invariant hs)
  refine ⟨m, ⟨hFaulty, (relay_invariant hs m).1, hSize, relay_linked hLinked m, ?_, ?_⟩, hm⟩
  · rwa [seqNum_relay hFaulty hs m]
  · intro r p hr hp hNe a ha
    obtain ⟨j, hj, hAction⟩ := hFair m r p hr hp hNe a ha
    -- the delivery at time j has changed nothing, like all from time m on
    refine ⟨T.state j r, hm j hj r, fun t' hCall => ?_⟩
    obtain ⟨s', hNow, hNext⟩ := next_eq (T.next hAction).2
    have hAfter := hm (j + 1) (Nat.le_succ_of_le hj) r
    rw [hNext, Function.update_self] at hAfter
    cases hCall.symm.trans hNow
    exact (hAfter.trans (hm j hj r).symm).toSame

theorem relayed_of_sent (hs : C.Reach C.Untimed G) {p : UInt32} {m : Msg} (hm : m ∈ (G p).sent) :
    m.relayed = true :=
  Node.Reach.invariant (I := fun s => ∀ m ∈ s.sent, m.relayed = true) (fun m h => by simp [Node.init] at h)
    (fun _ _ _ _ _ _ => relayed_step) (hs.anything p) m hm

theorem signed_of_sent (hs : C.Reach C.Untimed G) {p q : UInt32} {m : Msg} (hm : m ∈ (G p).sent)
    (hq : m.replicaId? = some q) : q = p :=
  Node.Reach.invariant (I := fun s => ∀ m ∈ s.sent, ∀ q ∈ m.replicaId?, q = (C.cfg p).id)
    (fun m h => by simp [Node.init] at h) (fun _ _ _ _ _ _ => signed_step) (hs.anything p) m hm q hq

theorem relays_of_sent (hs : C.Reach C.Untimed G) (hNone : ∀ r, r ∉ C.faulty) (hLinked : C.Linked link G)
    {r p : UInt32} (hr : r < C.base.n) (hp : p < C.base.n) (hNe : p ≠ r) {m : Msg} (hm : m ∈ (G p).sent) :
    C.Relays G r (.recv m (link r p)) := by
  have hPeer := connToPeer_true (fun _ _ _ hOk => hOk.1) hs r (link r p) p (hLinked r p hr hp hNe)
  have hSender : C.MayHaveSent G.sent r p m := ⟨hp, hNe, fun _ => hm⟩
  have hRelayed := relayed_of_sent hs hm
  refine ⟨⟨⟨⟨hr, hNone r⟩, fun q hq => ?_, ?_⟩, nofun⟩, ?_⟩
  · rw [signed_of_sent hs hm hq]
    exact hSender
  · cases m with
    | handshake m | request m => cases hRelayed
    | prePrepare m | newView m => exact ⟨p, hPeer, hSender⟩
    | prepare m | commit m | checkpoint m | viewChange m => trivial
  · rintro m' conn ⟨⟩
    exact hRelayed

/-- No handler of the normal case fails to return. -/
theorem exists_next_of_sent (hFaulty : C.faulty = ∅) (hs : C.Reach C.Untimed G) (r : UInt32) {p : UInt32} {m : Msg}
    (hm : m ∈ (G p).sent) (conn : Conn) : ∃ G', C.machine.next G (r, .recv m conn) = some G' := by
  have hWithin := ((normalInv_of_reach hFaulty hs).follows p).sent m hm
  cases m with
  | viewChange m | newView m => exact hWithin.elim
  | handshake m | request m | prePrepare m | prepare m | commit m | checkpoint m => exact ⟨_, rfl⟩

theorem sent_prefix_relay (T : C.RelaySchedule) {i j : Nat} (hij : i ≤ j) (p : UInt32) :
    (T.state i p).sent <+: (T.state j p).sent := by
  induction j, hij using Nat.le_induction with
  | base => exact List.prefix_rfl
  | succ j _ ih =>
    rcases T.step j with ⟨-, hSame⟩ | ⟨a, -, -, hn⟩
    · rwa [hSame]
    · obtain ⟨s', hCall, hEq⟩ := next_eq hn
      rw [hEq]
      by_cases hp : p = a.1
      · subst hp
        rw [Function.update_self]
        exact handle_invariant (I := fun s => (T.state i a.1).sent <+: s.sent)
          (fun _ _ h hStep => h.trans (sent_prefix_step hStep)) ih hCall
      · rwa [Function.update_of_ne hp]

/-- From every state of the normal case in which the replicas know each other there is a fair schedule. -/
theorem exists_fair_schedule (hFaulty : C.faulty = ∅) (hs : C.Reach C.Untimed G) (hLinked : C.Linked link G) :
    ∃ T : C.RelaySchedule, T.state 0 = G ∧ Fair link T := by
  -- an offer is a sender, a receiver and a position in the history of the sender
  let offer (G : World σ) (c : Nat × Nat × Nat) : Option (UInt32 × Input) :=
    ((G (UInt32.ofNat c.1)).sent[c.2.2]?).map fun m =>
      (UInt32.ofNat c.2.1, .recv m (link (UInt32.ofNat c.2.1) (UInt32.ofNat c.1)))
  obtain ⟨T, rfl, hTurns⟩ := Machine.Schedule.exists_fair C.machine (fun G a => C.Relays G a.1 a.2) offer G
  refine ⟨T, rfl, fun i r p hr hp hNe m hm => ?_⟩
  obtain ⟨k, hk⟩ := List.mem_iff_getElem?.mp hm
  obtain ⟨j, hij, hTurn⟩ := hTurns (p.toNat, r.toNat, k) i
  obtain ⟨hReach, -⟩ := relay_invariant hs j
  have hSent : (T.state j p).sent[k]? = some m := by
    obtain ⟨rest, hRest⟩ := sent_prefix_relay T hij p
    rw [← hRest, List.getElem?_append_left (List.getElem?_eq_some_iff.mp hk).1, hk]
  have hMem := List.mem_of_getElem? hSent
  obtain ⟨G', hNext⟩ := exists_next_of_sent hFaulty hReach r hMem (link r p)
  refine ⟨j, hij, hTurn _ G' ?_ ?_ hNext⟩
  · unfold offer
    dsimp only
    rw [UInt32.ofNat_toNat, UInt32.ofNat_toNat, hSent]
    rfl
  · exact relays_of_sent hReach (by simp [hFaulty]) (relay_linked hLinked j) hr hp hNe hMem

/-- The handshakes of four replicas and one request, which the primary has given number 1. -/
theorem exists_assigned : ∃ G, (sample 4 ∅).Reach (sample 4 ∅).Untimed G ∧
    (sample 4 ∅).Linked (fun _ p => p.toNat) G ∧ (G 0).seqNum = 1 ∧
    (G 0).proposals.map (·.req.operation) = ["INC"] := by
  obtain ⟨G, hs, hSeq, hOps, hLinks⟩ := Machine.exists_reach (sample 4 ∅).machine
    (fun G a => (sample 4 ∅).Untimed G a.1 a.2)
    (([0, 1, 2, 3].flatMap fun p => toOthers p (.handshake ⟨p⟩)) ++ [(0, .recv (.request ⟨"INC", 1, 9⟩) 9)])
    (fun G => (G 0).seqNum = 1 ∧ (G 0).proposals.map (·.req.operation) = ["INC"] ∧ allPairs (hasLink G) = true)
    (by decide +kernel)
  exact ⟨G, hs, fun r p hr hp hNe => of_decide_eq_true (of_allPairs hLinks hr hp hNe), hSeq, hOps⟩

/-- The delivery at time i changes a replica. -/
def Effective (T : C.RelaySchedule) (i : Nat) : Prop := ∃ r, ¬Same (T.state (i + 1) r) (T.state i r)

/-- With a fair network a cluster without faults executes, in their order, all the requests that have
numbers: from some time on every replica has, except for those that a checkpoint has overtaken. -/
theorem fair_executes (hFaulty : C.faulty = ∅) (T : C.RelaySchedule) (hs : C.Reach C.Untimed (T.state 0))
    (hSize : 4 ≤ C.base.n) (hLinked : C.Linked link (T.state 0))
    (hRoom : (T.state 0 0).seqNum.toNat + C.base.L.toNat < 2 ^ 64) (hFair : Fair link T) :
    ∃ m, ∀ i, m ≤ i → ∀ r < C.base.n,
      (T.state i r).operations = (T.state 0 0).proposals.map (·.req.operation) ∨
      ((T.state i r).lastExec < (T.state i r).h ∧
        (r ≠ 0 → (T.state i r).lastExec + 1 < (T.state i r).h)) := by
  obtain ⟨m, hRest, hm⟩ := atRest_of_fair hFaulty hs hSize hLinked hRoom hFair
  refine ⟨m, fun i hi r hr => ?_⟩
  have hAlike := hm i hi r
  rw [hAlike.lastExec, hAlike.low]
  rcases hRest.lastExec_or hr with hDone | hBehind
  · left
    obtain ⟨hReach, hSame⟩ := relay_invariant hs i
    have hCount := (normalInv_of_reach hFaulty hReach).leads.count
    have hLast : (T.state i r).lastExec = (T.state i 0).seqNum := by
      rw [hAlike.lastExec, hDone, seqNum_relay hFaulty hs m, seqNum_relay hFaulty hs i]
    rw [operations_eq_take (logInv_reach (hReach.anything r)).2 ((normalInv_of_reach hFaulty hReach).follows r),
      hLast, hCount, hSame]
    exact List.take_of_length_le (by simp)
  · exact .inr hBehind

theorem fair_executes_one : ∃ T : (sample 4 ∅).RelaySchedule, Fair (fun _ p => p.toNat) T ∧
    (T.state 0 0).seqNum = 1 ∧ ∃ m, ∀ i, m ≤ i → ∀ r < 4, (T.state i r).operations = ["INC"] ∨
      ((T.state i r).lastExec < (T.state i r).h ∧ (r ≠ 0 → (T.state i r).lastExec + 1 < (T.state i r).h)) := by
  obtain ⟨G, hs, hLinked, hSeq, hOps⟩ := exists_assigned
  obtain ⟨T, rfl, hFair⟩ := exists_fair_schedule rfl hs hLinked
  have hRoom : (T.state 0 0).seqNum.toNat + (sample 4 ∅).base.L.toNat < 2 ^ 64 := by
    rw [hSeq]
    decide
  have hAll := fair_executes rfl T hs (by decide) hLinked hRoom hFair
  rw [hOps] at hAll
  exact ⟨T, hFair, hSeq, hAll⟩

end Cluster
end Pbft
