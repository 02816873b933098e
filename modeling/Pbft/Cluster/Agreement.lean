import Pbft.Cluster.Votes
import Pbft.Node.Body
import Pbft.Node.Execution

/-! # Agreement

Two quorums of commit votes for one sequence number share a correct replica, and that replica
has committed to one digest. What follows depends on how long a replica is known to keep a
digest: while the entry is above its low watermark, always; for ever, if nothing fills the
entry at the watermark again. Agreement on operations needs in addition that operations go
with digests, which the handlers leave to their callers.
-/
namespace Pbft
set_option autoImplicit false

open Node

variable {σ : Type}

namespace Cluster
variable {C : Cluster σ} {ok : World σ → UInt32 → Input → Prop} {G : World σ}

section
variable (hGuard : ∀ G r i, ok G r i → Guarded (C.cfg r) (G r) i)

include hGuard

theorem replicaInv_of_reach (hs : C.Reach ok G) (r : UInt32) : ReplicaInv (C.cfg r) (G r) :=
  replicaInv_reach (fun _ _ h => h)
    (hs.node (fun r s i => Guarded (C.cfg r) s i) (fun G' r i h _ => hGuard G' r i h) r)

theorem votes_of_reach (hId : ∀ G r i, ok G r i → C.IdTrue G.sent r i) (hs : C.Reach ok G)
    {r : UInt32} (hr : C.Correct r) : C.VoteInv G.sent (fun _ _ => True) r (G r) := by
  have hS : C.CommitsNonzero G.sent := fun p _ m hm => (replicaInv_of_reach hGuard hs p).digest.nonzero m hm
  have hNode := hs.node (fun r s i => Guarded (C.cfg r) s i ∧ C.IdTrue G.sent r i)
    (fun G' r i h hSent => ⟨hGuard G' r i h, (hId G' r i h).mono hSent⟩) r
  have hBoth : ReplicaInv (C.cfg r) (G r) ∧ C.VoteInv G.sent (fun _ _ => True) r (G r) := by
    refine Node.Reach.invariant
      (I := fun s => ReplicaInv (C.cfg r) s ∧ C.VoteInv G.sent (fun _ _ => True) r s)
      ⟨⟨windowInv_init _, logInv_init _, digestInv_init _⟩, voteInv_init _⟩ ?_ hNode
    intro s₀ i _ hOk s s' h hStep
    exact ⟨replicaInv_step hOk.1 h.1 hStep,
      voteInv_step hr hS hOk.2 (fun _ => trivial) (fun _ _ => trivial) h.1 h.2 hStep⟩
  exact hBoth.2

end

theorem exists_common_commit (hC : C.Resilient) {P Q : UInt32 → Prop} {p q : UInt32} {k : UInt64}
    {e e' : ReqLogEntry} (he : C.Backed (Heard G.sent p (G p)) P k e)
    (he' : C.Backed (Heard G.sent q (G q)) Q k e') (hQuorum : C.base.quorum ≤ e.commits.card)
    (hQuorum' : C.base.quorum ≤ e'.commits.card) :
    ∃ r v v', C.Correct r ∧ Msg.commit ⟨v, k, e.digest, r⟩ ∈ (G r).sent ∧
      Msg.commit ⟨v', k, e'.digest, r⟩ ∈ (G r).sent := by
  obtain ⟨r, hr, hr', hCorrect⟩ := hC.exists_common (fun p hp => (he p hp).1) (fun p hp => (he' p hp).1)
    hQuorum hQuorum'
  obtain ⟨-, v, -, hv⟩ := (he r hr).2 hCorrect.2
  obtain ⟨-, v', -, hv'⟩ := (he' r hr').2 hCorrect.2
  exact ⟨r, v, v', hCorrect, heard_sent hv, heard_sent hv'⟩

def NonzeroDigests (i : Input) : Prop := ∀ m ∈ prePrepares i, m.reqDigest ≠ 0

instance (i : Input) : Decidable (NonzeroDigests i) := inferInstanceAs (Decidable (∀ _ ∈ _, _))

/-- Entries committed in whatever views agree on their digest while they are live everywhere. -/
theorem committed_digests_agree (hC : C.Resilient) (hHash : ∀ m, C.base.getHash m ≠ 0)
    (hs : C.Reach (fun G r i => C.Network G r i ∧ NonzeroDigests i) G) {k : UInt64}
    (hLive : ∀ r, C.Correct r → (G r).h < k) {p q : UInt32} (hp : C.Correct p) (hq : C.Correct q)
    (hpStage : ((G p).entry k).stage = .committed) (hqStage : ((G q).entry k).stage = .committed) :
    ((G p).entry k).digest = ((G q).entry k).digest := by
  have hGuard : ∀ (G : World σ) r i, C.Network G r i ∧ NonzeroDigests i → Guarded (C.cfg r) (G r) i :=
    fun G r i h => ⟨⟨fun m hm _ => h.2 m hm, fun m _ _ => hHash m⟩, h.1.peer⟩
  have hReplica := replicaInv_of_reach hGuard hs
  have hVotes : ∀ r, C.Correct r → C.VoteInv G.sent (fun _ _ => True) r (G r) :=
    fun r => votes_of_reach hGuard (fun _ _ _ h => h.1.id) hs
  obtain ⟨r, v, v', hr, hpVote, hqVote⟩ := exists_common_commit hC
    ((hVotes p hp).entries k) ((hVotes q hq).entries k)
    (((hReplica p).log.entries k).committed hpStage) (((hReplica q).log.entries k).committed hqStage)
  have hDigest := (hReplica r).digest
  have hpDigest := hDigest.live _ hpVote (hLive r hr)
  have hqDigest := hDigest.live _ hqVote (hLive r hr)
  exact hpDigest.symm.trans hqDigest

/-- A faulty primary gets one request committed at two replicas. -/
theorem committed_digests_agree_sample : ∃ G,
    (sample 4 {0}).Reach (fun G r i => (sample 4 {0}).Network G r i ∧ NonzeroDigests i) G ∧
    ((G 1).entry 1).stage = .committed ∧ ((G 2).entry 1).stage = .committed ∧
    ((G 1).entry 1).digest = ((G 2).entry 1).digest := by
  obtain ⟨G, hs, hp, hq, hLow⟩ := Machine.exists_reach (sample 4 {0}).machine
    (fun G a => (sample 4 {0}).Network G a.1 a.2 ∧ NonzeroDigests a.2)
    (ordering ⟨0, 1, 7, ⟨"INC", 1, 9⟩⟩ 0 [1, 2, 3])
    (fun G => ((G 1).entry 1).stage = .committed ∧ ((G 2).entry 1).stage = .committed ∧
      (G 1).h = 0 ∧ (G 2).h = 0 ∧ (G 3).h = 0) (by decide +kernel)
  refine ⟨G, hs, hp, hq, committed_digests_agree (sample_resilient (by decide) (by decide))
    (Config.sample_getHash 4 200 100) hs (fun r hr => ?_) (by decide) (by decide) hp hq⟩
  rcases sample_correct hr with rfl | rfl | rfl
  · simp [hLow.1]
  · simp [hLow.2.1]
  · simp [hLow.2.2]

theorem pledgeInv_of_reach (hGuard : ∀ G r i, ok G r i → Guarded (C.cfg r) (G r) i)
    (hUnfilled : ∀ G r i, ok G r i → Unfilled (C.cfg r) (G r) i) (hs : C.Reach ok G) (r : UInt32) :
    PledgeInv (G r) := by
  have hNode := hs.node (fun r s i => Guarded (C.cfg r) s i ∧ Unfilled (C.cfg r) s i)
    (fun G' r i h _ => ⟨hGuard G' r i h, hUnfilled G' r i h⟩) r
  have hBoth : ReplicaInv (C.cfg r) (G r) ∧ PledgeInv (G r) := by
    refine Node.Reach.invariant (I := fun s => ReplicaInv (C.cfg r) s ∧ PledgeInv s)
      ⟨⟨windowInv_init _, logInv_init _, digestInv_init _⟩, pledgeInv_init (C.cfg r) _⟩ ?_ hNode
    intro s₀ i _ hOk s s' h hStep
    exact ⟨replicaInv_step hOk.1 h.1 hStep, pledgeInv_step hOk.2 h.1 h.2 hStep⟩
  exact hBoth.2

section
variable {β : UInt64 → Digest → String} (hGuard : ∀ G r i, ok G r i → Guarded (C.cfg r) (G r) i)
variable (hFits : ∀ G r i, ok G r i → Fits β (C.cfg r) (G r) i)

include hGuard hFits

theorem bodyInv_of_reach (hs : C.Reach ok G) (r : UInt32) : BodyInv β (G r) := by
  have hNode := hs.node (fun r s i => Guarded (C.cfg r) s i ∧ Fits β (C.cfg r) s i)
    (fun G' r i h _ => ⟨hGuard G' r i h, hFits G' r i h⟩) r
  have hBoth : ReplicaInv (C.cfg r) (G r) ∧ BodyInv β (G r) := by
    refine Node.Reach.invariant (I := fun s => ReplicaInv (C.cfg r) s ∧ BodyInv β s)
      ⟨⟨windowInv_init _, logInv_init _, digestInv_init _⟩, bodyInv_init (C.cfg r) _⟩ ?_ hNode
    intro s₀ i _ hOk s s' h hStep
    exact ⟨replicaInv_step hOk.1 h.1 hStep, bodyInv_step hOk.2 h.1 h.2 hStep⟩
  exact hBoth.2

theorem executed_agree (hC : C.Resilient) (hId : ∀ G r i, ok G r i → C.IdTrue G.sent r i)
    (hs : C.Reach ok G) {p q : UInt32} (hp : C.Correct p) (hq : C.Correct q) {x y : Execution}
    (hx : x ∈ (G p).executed) (hy : y ∈ (G q).executed) (hKey : x.key = y.key) :
    x.entry.req.operation = y.entry.req.operation := by
  have hxLog := (replicaInv_of_reach hGuard hs p).log
  have hyLog := (replicaInv_of_reach hGuard hs q).log
  have hxOk := hxLog.executed x hx
  have hyOk := hyLog.executed y hy
  obtain ⟨r, v, v', -, hxVote, hyVote⟩ := exists_common_commit hC
    ((votes_of_reach hGuard hId hs hp).executed x hx)
    (hKey ▸ (votes_of_reach hGuard hId hs hq).executed y hy)
    (hxOk.2.committed hxOk.1) (hyOk.2.committed hyOk.1)
  have hPledge := pledgeInv_of_reach hGuard (fun G r i h => (hFits G r i h).unfilled) hs r
  have hDigest : x.entry.digest = y.entry.digest :=
    hPledge.unique _ hxVote _ hyVote x.key _ _ rfl rfl (hxLog.key_ne_zero hx)
  rw [(bodyInv_of_reach hGuard hFits hs p).executed x hx,
    (bodyInv_of_reach hGuard hFits hs q).executed y hy, hKey, hDigest]

theorem operations_prefix (hC : C.Resilient) (hId : ∀ G r i, ok G r i → C.IdTrue G.sent r i)
    (hs : C.Reach ok G) {p q : UInt32} (hp : C.Correct p) (hq : C.Correct q) :
    (G p).operations <+: (G q).operations ∨ (G q).operations <+: (G p).operations := by
  have hSame : ∀ (j : Nat) a b, (G p).operations[j]? = some a → (G q).operations[j]? = some b → a = b := by
    intro j a b ha hb
    obtain ⟨x, hx, rfl⟩ := Option.map_eq_some_iff.mp (List.getElem?_map ▸ ha)
    obtain ⟨y, hy, rfl⟩ := Option.map_eq_some_iff.mp (List.getElem?_map ▸ hb)
    refine executed_agree hGuard hFits hC hId hs hp hq (List.mem_of_getElem? hx)
      (List.mem_of_getElem? hy) (UInt64.toNat_inj.mp ?_)
    rw [(replicaInv_of_reach hGuard hs p).log.key_at hx, (replicaInv_of_reach hGuard hs q).log.key_at hy]
  rcases Nat.le_total (G p).operations.length (G q).operations.length with hLe | hLe
  · refine .inl (List.prefix_iff_getElem?.mpr fun j hj => ?_)
    have hq := List.getElem?_eq_getElem (hj.trans_le hLe)
    rw [hq, hSame j _ _ (List.getElem?_eq_getElem hj) hq]
  · refine .inr (List.prefix_iff_getElem?.mpr fun j hj => ?_)
    have hp := List.getElem?_eq_getElem (hj.trans_le hLe)
    rw [hp, hSame j _ _ hp (List.getElem?_eq_getElem hj)]

end

def SingleView : Input → Prop
  | .recv (.viewChange _) _ | .recv (.newView _) _ | .timeout => False
  | _ => True

instance : (i : Input) → Decidable (SingleView i)
  | .recv (.viewChange _) _ | .recv (.newView _) _ | .timeout => .isFalse id
  | .recv (.handshake _) _ | .recv (.request _) _ | .recv (.prePrepare _) _ | .recv (.prepare _) _
  | .recv (.commit _) _ | .recv (.checkpoint _) _ => .isTrue trivial

/-- Inside one view and with faulty replicas: as long as every logged pre-prepare carries the
operation that belongs to its digest, no digest is zero and the entry at the watermark is left
alone, correct replicas execute the same operations in the same order. -/
theorem single_view_agreement (β : UInt64 → Digest → String) (hC : C.Resilient)
    (hs : C.Reach (fun G r i => C.Network G r i ∧ SingleView i ∧ Fits β (C.cfg r) (G r) i ∧
      Nonzero (C.cfg r) (G r) i) G) {p q : UInt32} (hp : C.Correct p) (hq : C.Correct q) :
    (∀ x ∈ (G p).executed, ∀ y ∈ (G q).executed, x.key = y.key →
      x.entry.req.operation = y.entry.req.operation) ∧
    ((G p).operations <+: (G q).operations ∨ (G q).operations <+: (G p).operations) := by
  have hGuard : ∀ (G : World σ) r i, C.Network G r i ∧ SingleView i ∧ Fits β (C.cfg r) (G r) i ∧
      Nonzero (C.cfg r) (G r) i → Guarded (C.cfg r) (G r) i :=
    fun G r i h => ⟨h.2.2.2, h.1.peer⟩
  exact ⟨fun x hx y hy => executed_agree hGuard (fun _ _ _ h => h.2.2.1) hC (fun _ _ _ h => h.1.id) hs hp hq hx hy,
    operations_prefix hGuard (fun _ _ _ h => h.2.2.1) hC (fun _ _ _ h => h.1.id) hs hp hq⟩

theorem single_view_agreement_sample : ∃ G : World (List String), (G 1).operations = ["INC"] ∧
    ((G 1).operations <+: (G 2).operations ∨ (G 2).operations <+: (G 1).operations) := by
  obtain ⟨G, hs, hOps⟩ := Machine.exists_reach (sample 4 {0}).machine
    (fun G a => (sample 4 {0}).Network G a.1 a.2 ∧ SingleView a.2 ∧
      Fits (fun _ _ => "INC") ((sample 4 {0}).cfg a.1) (G a.1) a.2 ∧
      Nonzero ((sample 4 {0}).cfg a.1) (G a.1) a.2)
    (ordering ⟨0, 1, 7, ⟨"INC", 1, 9⟩⟩ 0 [1, 2, 3]) (fun G => (G 1).operations = ["INC"])
    (by decide +kernel)
  exact ⟨G, hOps, (single_view_agreement (fun _ _ => "INC")
    (sample_resilient (by decide) (by decide)) hs (by decide) (by decide)).2⟩

/-- A faulty primary sends one digest with two operations: the code does not compare the digest
with the request, all correct replicas vote for the digest, and two of them execute different
operations. -/
theorem single_view_disagreement : ¬∀ C : Cluster (List String), C.Resilient →
    ∀ G, C.Reach (fun G r i => C.Network G r i ∧ SingleView i) G →
    ∀ p q, C.Correct p → C.Correct q → ∀ x ∈ (G p).executed, ∀ y ∈ (G q).executed, x.key = y.key →
      x.entry.req.operation = y.entry.req.operation := by
  intro hClaim
  let pp (op : String) : PrePrepareMsg := ⟨0, 1, 7, ⟨op, 1, 9⟩⟩
  obtain ⟨G, hs, hp, hq⟩ := Machine.exists_reach (sample 4 {0}).machine
    (fun G a => (sample 4 {0}).Network G a.1 a.2 ∧ SingleView a.2)
    (deliver (.handshake ⟨0⟩) 0 2 :: deliver (.prePrepare (pp "DEC")) 0 2 ::
      (ordering (pp "INC") 0 [1, 2, 3]).filter fun a => a != deliver (.prePrepare (pp "INC")) 0 2)
    (fun G => (G 1).executed.map (fun x => (x.key, x.entry.req.operation)) = [(1, "INC")] ∧
      (G 2).executed.map (fun x => (x.key, x.entry.req.operation)) = [(1, "DEC")]) (by decide +kernel)
  obtain ⟨x, hx, hxOp⟩ := List.mem_map.mp (hp ▸ List.mem_singleton.mpr rfl)
  obtain ⟨y, hy, hyOp⟩ := List.mem_map.mp (hq ▸ List.mem_singleton.mpr rfl)
  have hSame := hClaim (sample 4 {0}) (sample_resilient (by decide) (by decide)) G hs 1 2
    (by decide) (by decide) x hx y hy
  simp_all

end Cluster
end Pbft
