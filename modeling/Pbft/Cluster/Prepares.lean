import Pbft.Cluster.Votes
import Pbft.Node.OSet
import Pbft.Node.Pledge

/-! # Where prepare votes come from

A prepare that arrives before its pre-prepare is counted without a record of its digest. Where
that is harmless, because the voters turn out to be pledged to the digest that is logged later,
every proof in a P set rests on as many replicas as its stage asks for.
-/
namespace Pbft.Cluster
set_option autoImplicit false

open Node

variable {σ : Type}

def Pledged (T : Traffic) (p : UInt32) (k : UInt64) (digest : Digest) : Prop :=
  ∃ m, T p m ∧ m.pledge? = some (k, digest)

instance (G : World σ) (p : UInt32) (k : UInt64) (digest : Digest) :
    Decidable (Pledged G.sent p k digest) :=
  inferInstanceAs (Decidable (∃ m ∈ (G p).sent, m.pledge? = some (k, digest)))

theorem Pledged.mono {T T' : Traffic} (hT : ∀ p m, T p m → T' p m) {p : UInt32} {k : UInt64}
    {digest : Digest} (h : Pledged T p k digest) : Pledged T' p k digest := by
  obtain ⟨m, hm, hPledge⟩ := h
  exact ⟨m, hT p m hm, hPledge⟩

/-- What the code does not see to: the replicas that an entry counts before it has a pre-prepare
are pledged to the digest that the call logs. -/
structure Matching (cfg : Config σ) (S : Traffic) (s₀ : Node σ) (i : Input) : Prop where
  accepted : ∀ m ∈ prePrepares i, Accepts cfg s₀ i m →
    ∀ p ∈ (s₀.entry m.seqNum).prepares, Pledged S p m.seqNum m.reqDigest
  proposed : ∀ m ∈ request? i, Proposes cfg s₀ m →
    ∀ p ∈ (s₀.entry (s₀.seqNum + 1)).prepares, Pledged S p (s₀.seqNum + 1) (cfg.getHash m)

instance (G : World σ) (A : Finset UInt32) (k : UInt64) (digest : Digest) :
    Decidable (∀ p ∈ A, Pledged G.sent p k digest) :=
  Finset.decidableDforallFinset

instance (cfg : Config σ) (G : World σ) (s₀ : Node σ) (i : Input) : Decidable (Matching cfg G.sent s₀ i) :=
  decidable_of_iff (_ ∧ _) ⟨fun h => ⟨h.1, h.2⟩, fun h => ⟨h.accepted, h.proposed⟩⟩

theorem Matching.mono {cfg : Config σ} {S S' : Traffic} (hS : ∀ p m, S p m → S' p m) {s₀ : Node σ}
    {i : Input} (h : Matching cfg S s₀ i) : Matching cfg S' s₀ i where
  accepted m hm hAccepts p hp := (h.accepted m hm hAccepts p hp).mono hS
  proposed m hm hProposes p hp := (h.proposed m hm hProposes p hp).mono hS

def Seconded (C : Cluster σ) (T : Traffic) (k : UInt64) (e : ReqLogEntry) : Prop :=
  ∀ p ∈ e.prepares, p < C.base.n ∧ (e.hasPreprepare = true → Pledged T p k e.digest)

structure Grounded (C : Cluster σ) (T : Traffic) (pr : PrepareProof) (Q : Finset UInt32) : Prop where
  card : C.base.prepareQuorum ≤ Q.card
  pos : 0 < Q.card
  lt : ∀ p ∈ Q, p < C.base.n
  pledged : ∀ p ∈ Q, Pledged T p pr.seqNum pr.digest

structure PrepareInv (C : Cluster σ) (S : Traffic) (r : UInt32) (s : Node σ) : Prop where
  entries : ∀ k, C.Seconded (Heard S r s) k (s.entry k)
  proofs : ∀ vc, Msg.viewChange vc ∈ s.sent → ∀ pr ∈ vc.preparedProofs,
    ∃ Q, C.Grounded (Heard S r s) pr Q

variable {C : Cluster σ} {S : Traffic} {r : UInt32}

theorem Seconded.mono {T T' : Traffic} {k : UInt64} {e : ReqLogEntry} (hT : ∀ p m, T p m → T' p m)
    (h : C.Seconded T k e) : C.Seconded T' k e :=
  fun p hp => ⟨(h p hp).1, fun hPre => ((h p hp).2 hPre).mono hT⟩

theorem Grounded.mono {T T' : Traffic} {pr : PrepareProof} {Q : Finset UInt32}
    (hT : ∀ p m, T p m → T' p m) (h : C.Grounded T pr Q) : C.Grounded T' pr Q :=
  ⟨h.card, h.pos, h.lt, fun p hp => (h.pledged p hp).mono hT⟩

theorem Seconded.log {T : Traffic} {k : UInt64} {e e' : ReqLogEntry} (h : C.Seconded T k e)
    (hPrepares : e'.prepares = insert r e.prepares) (hr : r < C.base.n) (hOwn : Pledged T r k e'.digest)
    (hOld : ∀ p ∈ e.prepares, Pledged T p k e'.digest) : C.Seconded T k e' := by
  intro p hp
  rw [hPrepares] at hp
  rcases Finset.mem_insert.mp hp with rfl | hp
  · exact ⟨hr, fun _ => hOwn⟩
  · exact ⟨(h p hp).1, fun _ => hOld p hp⟩

theorem prepareInv_init (t : Bool) : C.PrepareInv S r (Node.init (C.cfg r) t) where
  entries k p hp := by simp [Node.init, entry] at hp
  proofs vc h := by simp [Node.init] at h

section
variable {s t : Node σ}

theorem PrepareInv.write {k : UInt64} {e : ReqLogEntry} (w : C.PrepareInv S r s)
    (hLog : t.reqlog = s.reqlog.insert k e) (hHeard : ∀ m ∈ s.sent, m ∈ t.sent)
    (hSent : ∀ vc, Msg.viewChange vc ∈ t.sent → Msg.viewChange vc ∈ s.sent)
    (he : C.Seconded (Heard S r t) k (s.entry k) → C.Seconded (Heard S r t) k e) :
    C.PrepareInv S r t := by
  have hT : ∀ p m, Heard S r s p m → Heard S r t p m := fun _ _ => .mono hHeard
  constructor
  · intro a
    rw [entry_of_insert hLog]
    split
    · rename_i hka
      exact hka ▸ he ((w.entries k).mono hT)
    · exact (w.entries a).mono hT
  · intro vc h pr hpr
    obtain ⟨Q, hQ⟩ := w.proofs vc (hSent vc h) pr hpr
    exact ⟨Q, hQ.mono hT⟩

theorem PrepareInv.congr (w : C.PrepareInv S r s) (hLog : t.reqlog = s.reqlog)
    (hHeard : ∀ m ∈ s.sent, m ∈ t.sent)
    (hSent : ∀ vc, Msg.viewChange vc ∈ t.sent → Msg.viewChange vc ∈ s.sent) : C.PrepareInv S r t := by
  have hT : ∀ p m, Heard S r s p m → Heard S r t p m := fun _ _ => .mono hHeard
  constructor
  · intro a
    rw [entry_congr hLog]
    exact (w.entries a).mono hT
  · intro vc h pr hpr
    obtain ⟨Q, hQ⟩ := w.proofs vc (hSent vc h) pr hpr
    exact ⟨Q, hQ.mono hT⟩

theorem grounded_of_prepared {k : UInt64} {e : ReqLogEntry} (hReplica : ReplicaInv (C.cfg r) s)
    (w : C.PrepareInv S r s) (hLookup : s.reqlog[k]? = some e) (hStage : e.stage = .prepared) :
    C.Grounded (Heard S r s) ⟨e.view, e.seq, e.digest⟩ e.prepares := by
  have hEntry := entry_of_lookup hLookup
  have hOk := hEntry ▸ hReplica.log.entries k
  have hSeconded := hEntry ▸ w.entries k
  have hPre := hOk.hasPreprepare (by simp [hStage])
  refine ⟨(hOk.prepared (.inl hStage)).1, Finset.card_pos.mpr ⟨r, hOk.prepare hPre⟩,
    fun p hp => (hSeconded p hp).1, fun p hp => ?_⟩
  dsimp only
  rw [hOk.seq hPre]
  exact (hSeconded p hp).2 hPre

theorem prepareInv_beginViewChange (hReplica : ReplicaInv (C.cfg r) s) (w : C.PrepareInv S r s) :
    C.PrepareInv S r (s.beginViewChange (C.cfg r)) := by
  have hT : ∀ p m, Heard S r s p m → Heard S r (s.beginViewChange (C.cfg r)) p m := by
    rw [beginViewChange_eq]
    exact fun _ _ => .mono fun _ => List.mem_append_left _
  rw [beginViewChange_eq] at hT ⊢
  constructor
  · intro k
    exact (w.entries k).mono hT
  · intro vc h pr hpr
    rcases List.mem_append.mp h with h | h
    · obtain ⟨Q, hQ⟩ := w.proofs vc h pr hpr
      exact ⟨Q, hQ.mono hT⟩
    · cases List.mem_singleton.mp h
      obtain ⟨k, e, hLookup, hStage, rfl⟩ := mem_preparedProofs.mp hpr
      exact ⟨e.prepares, (grounded_of_prepared hReplica w hLookup hStage).mono hT⟩

end

theorem prepareInv_step {s₀ s s' : Node σ} {i : Input} (hr : r < C.base.n) (hNone : ∀ p, p ∉ C.faulty)
    (hMatching : Matching (C.cfg r) S s₀ i) (hTrue : C.IdTrue S r i) (hReplica : ReplicaInv (C.cfg r) s)
    (w : C.PrepareInv S r s) (hStep : Step (C.cfg r) s₀ i s s') : C.PrepareInv S r s' := by
  have hHeard : ∀ m ∈ s.sent, m ∈ s'.sent := fun _ hm => sent_step hm hStep
  cases hStep with
  | propose hi hProposes =>
    refine w.write rfl hHeard (fun _ h => sent_of_append h (by simp)) fun hOld => hOld.log rfl hr ?_ ?_
    · exact ⟨_, .inr ⟨rfl, List.mem_append_right _ (List.mem_singleton.mpr rfl)⟩, rfl⟩
    · exact fun p hp => (hMatching.proposed _ (by simp [hi, request?]) hProposes p hp).mono fun _ _ => .inl
  | accept _ _ _ hDigest _ hAccepts hEarly =>
    refine w.write rfl hHeard (fun _ h => sent_of_append h (by simp)) fun hOld => hOld.log rfl hr ?_ ?_
    · exact ⟨_, .inr ⟨rfl, List.mem_append_right _ (List.mem_singleton.mpr rfl)⟩, rfl⟩
    · intro p hp
      cases hPre : (s.entry _).hasPreprepare with
      | true => exact hDigest hPre ▸ (hOld p hp).2 hPre
      | false =>
        rw [hEarly hPre] at hp
        exact (hMatching.accepted _ hAccepts.1 hAccepts p hp).mono fun _ _ => .inl
  | @votePrepare _ m conn hi _ _ hDigest =>
    subst hi
    obtain ⟨hId, -, hSent⟩ := hTrue m.replicaId rfl
    refine w.write rfl hHeard (fun _ => id) fun hOld p hp => ?_
    rcases Finset.mem_insert.mp hp with rfl | hp
    · exact ⟨hId, fun hPre => ⟨_, .inl (hSent (hNone _)), by rw [Msg.pledge?, hDigest hPre]⟩⟩
    · exact hOld p hp
  | markPrepared => exact w.write rfl hHeard (fun _ h => sent_of_append h (by simp)) id
  | touch | voteCommit | markCommitted => exact w.write rfl hHeard (fun _ => id) id
  | execute =>
    rw [executeEntry_eq] at hHeard ⊢
    refine w.congr rfl hHeard fun vc h => ?_
    exact (sent_or_of_due (P := fun m => m ≠ .viewChange vc) (by simp) _ h).resolve_right fun h => h rfl
  | stabilize =>
    refine ⟨fun k => ?_, w.proofs⟩
    rw [entry_of_stabilize]
    split
    · exact fun p hp => absurd hp (Finset.notMem_empty p)
    · exact w.entries k
  | beginViewChange => exact prepareInv_beginViewChange hReplica w
  | installView => exact w.congr rfl hHeard fun _ h => sent_of_append h (by simp)
  | _ => exact w.congr rfl hHeard fun _ => id

end Pbft.Cluster
