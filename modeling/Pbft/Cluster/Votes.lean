import Pbft.Cluster
import Pbft.Node.Digest

/-! # Where commit votes come from

Every vote of a correct replica that an entry holds was broadcast for the digest of that entry.
The votes may come from different views; which views they can come from is a parameter here,
past, that a client of this module instantiates.
-/
namespace Pbft.Cluster
set_option autoImplicit false

open Node

variable {σ : Type}

def Heard (S : Traffic) (id : UInt32) (s : Node σ) : Traffic :=
  fun p m => S p m ∨ (p = id ∧ m ∈ s.sent)

theorem heard_sent {G : World σ} {r p : UInt32} {m : Msg} (h : Heard G.sent r (G r) p m) : G.sent p m := by
  rcases h with h | ⟨rfl, h⟩
  · exact h
  · exact h

/-- The commit votes of an entry: nobody votes who is not a replica, and the vote of a correct
replica was broadcast for this very digest. -/
def Backed (C : Cluster σ) (T : Traffic) (past : UInt32 → Prop) (k : UInt64) (e : ReqLogEntry) : Prop :=
  ∀ p ∈ e.commits, p < C.base.n ∧ (p ∉ C.faulty → e.hasPreprepare = true ∧
    ∃ v, past v ∧ T p (.commit ⟨v, k, e.digest, p⟩))

structure VoteInv (C : Cluster σ) (S : Traffic) (past : UInt32 → UInt32 → Prop) (r : UInt32)
    (s : Node σ) : Prop where
  entries : ∀ k, C.Backed (Heard S r s) (past s.view) k (s.entry k)
  committed : ∀ c ∈ s.committed, C.base.quorum ≤ c.entry.commits.card ∧
    C.Backed (Heard S r s) (past c.view) c.key c.entry
  executed : ∀ x ∈ s.executed, C.Backed (Heard S r s) (fun _ => True) x.key x.entry

variable {C : Cluster σ} {S : Traffic} {past : UInt32 → UInt32 → Prop} {r : UInt32}

theorem Backed.mono {T T' : Traffic} {P P' : UInt32 → Prop} {k : UInt64} {e : ReqLogEntry}
    (hT : ∀ p m, T p m → T' p m) (hP : ∀ v, P v → P' v) (h : C.Backed T P k e) :
    C.Backed T' P' k e := by
  intro p hp
  refine ⟨(h p hp).1, fun hCorrect => ?_⟩
  obtain ⟨hPre, v, hv, hSent⟩ := (h p hp).2 hCorrect
  exact ⟨hPre, v, hP v hv, hT p _ hSent⟩

theorem Backed.log {T : Traffic} {P : UInt32 → Prop} {k : UInt64} {e e' : ReqLogEntry}
    (h : C.Backed T P k e) (hCommits : e'.commits = e.commits) (hPre : e'.hasPreprepare = true)
    (hDigest : e.hasPreprepare = true → e'.digest = e.digest) : C.Backed T P k e' := by
  intro p hp
  rw [hCommits] at hp
  refine ⟨(h p hp).1, fun hCorrect => ⟨hPre, ?_⟩⟩
  obtain ⟨hOld, v, hv, hSent⟩ := (h p hp).2 hCorrect
  rw [hDigest hOld]
  exact ⟨v, hv, hSent⟩

theorem Backed.insert {T : Traffic} {P : UInt32 → Prop} {k : UInt64} {e e' : ReqLogEntry}
    (h : C.Backed T P k e) {p : UInt32} (hCommits : e'.commits = insert p e.commits)
    (hPre : e'.hasPreprepare = e.hasPreprepare) (hDigest : e'.digest = e.digest)
    (hId : p < C.base.n) (hVote : p ∉ C.faulty → e.hasPreprepare = true ∧
      ∃ v, P v ∧ T p (.commit ⟨v, k, e.digest, p⟩)) : C.Backed T P k e' := by
  intro q hq
  rw [hCommits] at hq
  rw [hPre, hDigest]
  rcases Finset.mem_insert.mp hq with rfl | hq
  · exact ⟨hId, hVote⟩
  · exact h q hq

section
variable {s t : Node σ}

theorem Heard.mono (h : ∀ m ∈ s.sent, m ∈ t.sent) {p : UInt32} {m : Msg} (hm : Heard S r s p m) :
    Heard S r t p m :=
  hm.imp_right fun hOwn => ⟨hOwn.1, h m hOwn.2⟩

theorem VoteInv.write {k : UInt64} {e : ReqLogEntry} (w : C.VoteInv S past r s)
    (hLog : t.reqlog = s.reqlog.insert k e) (hHeard : ∀ m ∈ s.sent, m ∈ t.sent)
    (hView : t.view = s.view) (hCommitted : t.committed = s.committed)
    (hExecuted : t.executed = s.executed) (he : C.Backed (Heard S r t) (past s.view) k (s.entry k) →
      C.Backed (Heard S r t) (past s.view) k e) : C.VoteInv S past r t := by
  have hT : ∀ p m, Heard S r s p m → Heard S r t p m := fun _ _ => .mono hHeard
  constructor
  · intro a
    rw [entry_of_insert hLog, hView]
    split
    · rename_i hka
      exact hka ▸ he ((w.entries k).mono hT fun _ => id)
    · exact (w.entries a).mono hT fun _ => id
  · intro c hc
    rw [hCommitted] at hc
    exact ⟨(w.committed c hc).1, (w.committed c hc).2.mono hT fun _ => id⟩
  · intro x hx
    rw [hExecuted] at hx
    exact (w.executed x hx).mono hT fun _ => id

theorem VoteInv.congr (w : C.VoteInv S past r s) (hLog : t.reqlog = s.reqlog)
    (hHeard : ∀ m ∈ s.sent, m ∈ t.sent) (hView : ∀ v, past s.view v → past t.view v)
    (hCommitted : t.committed = s.committed) (hExecuted : t.executed = s.executed) :
    C.VoteInv S past r t := by
  have hT : ∀ p m, Heard S r s p m → Heard S r t p m := fun _ _ => .mono hHeard
  constructor
  · intro a
    rw [entry_congr hLog]
    exact (w.entries a).mono hT hView
  · intro c hc
    rw [hCommitted] at hc
    exact ⟨(w.committed c hc).1, (w.committed c hc).2.mono hT fun _ => id⟩
  · intro x hx
    rw [hExecuted] at hx
    exact (w.executed x hx).mono hT fun _ => id

end

theorem voteInv_init (t : Bool) : C.VoteInv S past r (Node.init (C.cfg r) t) where
  entries k p hp := by simp [Node.init, entry] at hp
  committed c hc := by simp [Node.init] at hc
  executed x hx := by simp [Node.init] at hx

def CommitsNonzero (C : Cluster σ) (S : Traffic) : Prop :=
  ∀ p, C.Correct p → ∀ m, S p (.commit m) → m.reqDigest ≠ 0

theorem voteInv_voteCommit {s : Node σ} {i : Input} {m : CommitMsg} {conn : Conn}
    (hS : C.CommitsNonzero S) (hTrue : C.IdTrue S r i) (hRefl : ∀ v, past v v)
    (hReplica : ReplicaInv (C.cfg r) s) (w : C.VoteInv S past r s) (hi : i = .recv (.commit m) conn)
    (hCurrent : Current s m.view m.seqNum) (hDigest : (s.entry m.seqNum).digest = m.reqDigest) :
    C.VoteInv S past r (s.setEntry m.seqNum { s.entry m.seqNum with
      commits := insert m.replicaId (s.entry m.seqNum).commits }) := by
  subst hi
  obtain ⟨hId, -, hSent⟩ := hTrue m.replicaId rfl
  refine w.write rfl (fun _ h => h) rfl rfl rfl fun hOld => hOld.insert rfl rfl rfl hId fun hCorrect => ?_
  have hVote := hSent hCorrect
  have hPre := (hReplica.digest.digest m.seqNum).mpr (hDigest ▸ hS _ ⟨hId, hCorrect⟩ m hVote)
  refine ⟨hPre, m.view, hCurrent.2.1 ▸ hRefl _, .inl ?_⟩
  rw [hDigest]
  exact hVote

theorem voteInv_markPrepared {s : Node σ} {k : UInt64} (hr : C.Correct r) (hRefl : ∀ v, past v v)
    (hReplica : ReplicaInv (C.cfg r) s) (w : C.VoteInv S past r s)
    (hPre : (s.entry k).hasPreprepare = true) : C.VoteInv S past r (s.markPrepared (C.cfg r) k) := by
  refine w.write rfl (fun _ => List.mem_append_left _) rfl rfl rfl fun hOld =>
    hOld.insert rfl rfl rfl hr.1 fun _ => ⟨hPre, s.view, hRefl _, .inr ⟨rfl, ?_⟩⟩
  have hSeq := (hReplica.log.entries k).seq hPre
  simp [markPrepared, hSeq, cfg]

theorem voteInv_markCommitted {s : Node σ} {k : UInt64} (w : C.VoteInv S past r s)
    (hQuorum : C.base.quorum ≤ (s.entry k).commits.card) :
    C.VoteInv S past r (s.markCommitted k) := by
  have hWrite : C.VoteInv S past r (s.setEntry k { s.entry k with stage := .committed }) :=
    w.write rfl (fun _ h => h) rfl rfl rfl id
  refine ⟨hWrite.entries, fun c hc => ?_, hWrite.executed⟩
  rcases List.mem_append.mp hc with hOld | hNew
  · exact w.committed c hOld
  · rw [List.mem_singleton.mp hNew]
    exact ⟨hQuorum, w.entries k⟩

theorem voteInv_execute {s : Node σ} {e : ReqLogEntry} (w : C.VoteInv S past r s)
    (hEntry : s.reqlog[s.lastExec + 1]? = some e)
    (hHeard : ∀ m ∈ s.sent, m ∈ (s.executeEntry (C.cfg r) e).sent) :
    C.VoteInv S past r (s.executeEntry (C.cfg r) e) := by
  have hBacked := entry_of_lookup hEntry ▸ w.entries (s.lastExec + 1)
  rw [executeEntry_eq] at hHeard ⊢
  constructor
  · intro k
    exact (w.entries k).mono (fun _ _ => .mono hHeard) fun _ => id
  · intro c hc
    exact ⟨(w.committed c hc).1, (w.committed c hc).2.mono (fun _ _ => .mono hHeard) fun _ => id⟩
  · intro x hx
    rcases List.mem_append.mp hx with hOld | hNew
    · exact (w.executed x hOld).mono (fun _ _ => .mono hHeard) fun _ => id
    · rw [List.mem_singleton.mp hNew]
      exact hBacked.mono (fun _ _ => .mono hHeard) fun _ _ => trivial

theorem voteInv_step {s₀ s s' : Node σ} {i : Input} (hr : C.Correct r) (hS : C.CommitsNonzero S)
    (hTrue : C.IdTrue S r i) (hRefl : ∀ v, past v v) (hView : ∀ v, past s.view v → past s'.view v)
    (hReplica : ReplicaInv (C.cfg r) s) (w : C.VoteInv S past r s)
    (hStep : Step (C.cfg r) s₀ i s s') : C.VoteInv S past r s' := by
  have hHeard : ∀ m ∈ s.sent, m ∈ s'.sent := fun _ hm => sent_step hm hStep
  cases hStep with
  | propose _ hProposes =>
    refine w.write rfl hHeard rfl rfl rfl fun hOld => hOld.log rfl rfl fun hPre => ?_
    rw [propose_fresh hReplica.digest.top hProposes] at hPre
    cases hPre
  | accept _ _ _ hDigest =>
    exact w.write rfl hHeard rfl rfl rfl fun hOld => hOld.log rfl rfl fun hPre => (hDigest hPre).symm
  | votePrepare | touch => exact w.write rfl hHeard rfl rfl rfl id
  | markPrepared _ hPre => exact voteInv_markPrepared hr hRefl hReplica w hPre
  | voteCommit hi hCurrent hDigest => exact voteInv_voteCommit hS hTrue hRefl hReplica w hi hCurrent hDigest
  | markCommitted _ hQuorum => exact voteInv_markCommitted w hQuorum
  | execute hEntry => exact voteInv_execute w hEntry hHeard
  | stabilize =>
    refine ⟨fun k => ?_, w.committed, w.executed⟩
    rw [entry_of_stabilize]
    split
    · exact fun p hp => absurd hp (Finset.notMem_empty p)
    · exact w.entries k
  | beginViewChange =>
    rw [beginViewChange_eq] at hHeard hView ⊢
    exact w.congr rfl hHeard hView rfl rfl
  | _ => exact w.congr rfl hHeard hView rfl rfl

end Pbft.Cluster
