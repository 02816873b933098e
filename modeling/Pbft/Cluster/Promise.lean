import Pbft.Cluster.Votes
import Pbft.Node.Promise

/-! # What a VIEW-CHANGE promises

A replica that announces a view change should not vote in an older view any more, and what it
has voted for should be in the announcement. Every change that a careful call can make keeps
both promises.
-/
namespace Pbft.Cluster
set_option autoImplicit false

open Node

variable {σ : Type} {C : Cluster σ} {S : Traffic} {r : UInt32}

theorem Network.narrow (hFaulty : C.faulty = ∅) {r : UInt32} {i : Input} {G' : World σ}
    (hSent : ∀ p m, G'.sent p m → m.Narrow) (h : C.Network G' r i) :
    NarrowInput (C.cfg r) (G' r) i where
  viewChange m hi := by
    rcases hi with ⟨conn, rfl⟩ | ⟨-, rfl⟩
    · rcases h.exists_sender hFaulty with ⟨_, h⟩ | ⟨_, h⟩ | ⟨p, h⟩
      · cases h
      · cases h
      · exact hSent p _ h
    · exact narrow_toUInt64 _
  newView m conn hi := by
    subst hi
    rcases h.exists_sender hFaulty with ⟨_, h⟩ | ⟨_, h⟩ | ⟨p, h⟩
    · cases h
    · cases h
    · exact hSent p _ h

structure Announced (cfg : Config σ) (T : Traffic) (nextView : UInt64) (p : UInt32) (m : ViewChangeMsg) :
    Prop where
  id : p = m.replicaId
  lt : p < cfg.n
  view : m.nextView = nextView
  sent : T p (.viewChange m)

theorem Announced.mono {cfg : Config σ} {T T' : Traffic} (hT : ∀ p m, T p m → T' p m)
    {nextView : UInt64} {p : UInt32} {m : ViewChangeMsg} (h : Announced cfg T nextView p m) :
    Announced cfg T' nextView p m :=
  ⟨h.id, h.lt, h.view, hT _ _ h.sent⟩

/-- A NEW-VIEW that rests on the announcements of a quorum. -/
def Founded (cfg : Config σ) (T : Traffic) (nv : NewViewMsg) : Prop :=
  ∃ vcs : Std.ExtTreeMap UInt32 ViewChangeMsg, nv.viewChanges = vcs.toList.map Prod.snd ∧
    cfg.quorum ≤ vcs.size ∧
    (∀ p m, vcs[p]? = some m → Announced cfg T nv.nextView p m) ∧
    oSet cfg nv.nextView nv.viewChanges = some nv.prePrepares ∧ Visible cfg nv.viewChanges

def Covers (vc : ViewChangeMsg) (c : CommitMsg) : Prop :=
  c.seqNum ≤ vc.lastStableCheckpoint ∨
    ∃ pr ∈ vc.preparedProofs, pr.seqNum = c.seqNum ∧ pr.digest = c.reqDigest

structure PromiseInv (C : Cluster σ) (S : Traffic) (r : UInt32) (s : Node σ) : Prop where
  ahead : ∀ vc, Msg.viewChange vc ∈ s.sent → vc.nextView.toNat ≤ s.view.toNat + 1
  settled : s.viewChanging = false → ∀ vc, Msg.viewChange vc ∈ s.sent →
    vc.nextView.toNat ≤ s.view.toNat
  voted : ∀ c, Msg.commit c ∈ s.sent → s.h < c.seqNum → r ∈ (s.entry c.seqNum).commits
  covered : ∀ c vc, Msg.commit c ∈ s.sent → Msg.viewChange vc ∈ s.sent →
    c.view.toNat < vc.nextView.toNat → Covers vc c
  store : ∀ view p m, s.Stored view p m → Announced (C.cfg r) (Heard S r s) view.toUInt64 p m
  founded : ∀ nv, Msg.newView nv ∈ s.sent → Founded (C.cfg r) (Heard S r s) nv

theorem promiseInv_init (t : Bool) : C.PromiseInv S r (Node.init (C.cfg r) t) where
  ahead vc h := by simp [Node.init] at h
  settled _ vc h := by simp [Node.init] at h
  voted c h := by simp [Node.init] at h
  covered c vc h := by simp [Node.init] at h
  store view p m h := by simp [Node.init, Stored] at h
  founded nv h := by simp [Node.init] at h

theorem Founded.mono {cfg : Config σ} {T T' : Traffic} (hT : ∀ p m, T p m → T' p m) {nv : NewViewMsg}
    (h : Founded cfg T nv) : Founded cfg T' nv := by
  obtain ⟨vcs, hV, hQuorum, hFrom, hO, hVisible⟩ := h
  exact ⟨vcs, hV, hQuorum, fun p m hm => (hFrom p m hm).mono hT, hO, hVisible⟩

/-- Messages that promise nothing and that no promise is about. -/
def Quiet : Msg → Prop
  | .commit _ | .viewChange _ | .newView _ => False
  | _ => True

section
variable {s t : Node σ}

theorem PromiseInv.congr (w : C.PromiseInv S r s) (hAhead : Ahead t) (hLow : t.h = s.h)
    (hStore : t.viewChangeStore = s.viewChangeStore)
    (hCommits : ∀ k, (s.entry k).commits ⊆ (t.entry k).commits)
    (hHeard : ∀ m ∈ s.sent, m ∈ t.sent) (hSent : ∀ m ∈ t.sent, m ∈ s.sent ∨ Quiet m) :
    C.PromiseInv S r t := by
  have hOld : ∀ m ∈ t.sent, ¬Quiet m → m ∈ s.sent := fun m hm hLoud => (hSent m hm).resolve_right hLoud
  refine ⟨hAhead.ahead, hAhead.settled, ?_, ?_, ?_, ?_⟩
  · intro c hc hLive
    exact hCommits _ (w.voted c (hOld _ hc nofun) (hLow ▸ hLive))
  · intro c vc hc h
    exact w.covered c vc (hOld _ hc nofun) (hOld _ h nofun)
  · intro view p m h
    unfold Stored at h
    rw [hStore] at h
    exact (w.store view p m h).mono fun _ _ => .mono hHeard
  · intro nv h
    exact (w.founded nv (hOld _ h nofun)).mono fun _ _ => .mono hHeard

theorem commits_of_insert {k : UInt64} {e : ReqLogEntry} (hLog : t.reqlog = s.reqlog.insert k e)
    (he : (s.entry k).commits ⊆ e.commits) (a : UInt64) :
    (s.entry a).commits ⊆ (t.entry a).commits := by
  rw [entry_of_insert hLog]
  split
  · rename_i hka
    exact hka ▸ he
  · exact Finset.Subset.rfl

theorem promiseInv_markPrepared {k : UInt64} (hReplica : ReplicaInv (C.cfg r) s)
    (w : C.PromiseInv S r s) (hPre : (s.entry k).hasPreprepare = true) (hChanging : s.viewChanging = false)
    (hAhead : Ahead (s.markPrepared (C.cfg r) k)) : C.PromiseInv S r (s.markPrepared (C.cfg r) k) := by
  have hHeard : ∀ m ∈ s.sent, m ∈ (s.markPrepared (C.cfg r) k).sent := fun _ => List.mem_append_left _
  have hSeq := (hReplica.log.entries k).seq hPre
  have hCommits : ∀ a, (s.entry a).commits ⊆ ((s.markPrepared (C.cfg r) k).entry a).commits :=
    commits_of_insert rfl (Finset.subset_insert _ _)
  refine ⟨hAhead.ahead, hAhead.settled, ?_, ?_, ?_, ?_⟩
  · intro c hc hLive
    rcases List.mem_append.mp hc with hc | hc
    · exact hCommits _ (w.voted c hc hLive)
    · cases List.mem_singleton.mp hc
      dsimp only
      rw [hSeq, entry_of_insert rfl, if_pos rfl]
      exact Finset.mem_insert_self _ _
  · intro c vc hc h hLater
    have hOld := sent_of_append h nofun
    rcases List.mem_append.mp hc with hc | hc
    · exact w.covered c vc hc hOld hLater
    · -- a vote is cast only between view changes, so no announcement is about a later view
      cases List.mem_singleton.mp hc
      exact absurd hLater (Nat.not_lt.mpr (w.settled hChanging vc hOld))
  · intro view p m h
    exact (w.store view p m h).mono fun _ _ => .mono hHeard
  · intro nv h
    exact (w.founded nv (sent_of_append h nofun)).mono fun _ _ => .mono hHeard

theorem promiseInv_stabilize {m : CheckpointMsg} {cp : CheckpointVotes} (w : C.PromiseInv S r s)
    (hLow : s.h ≤ m.seqNum) : C.PromiseInv S r (s.stabilize (C.cfg r) m cp) := by
  refine ⟨w.ahead, w.settled, fun c hc hLive => ?_, w.covered, w.store, w.founded⟩
  have hAbove : m.seqNum < c.seqNum := hLive
  rw [entry_of_stabilize, if_neg (UInt64.not_le.mpr hAbove)]
  exact w.voted c hc (UInt64.lt_of_le_of_lt hLow hAbove)

theorem viewChangeMsg_covers (hReplica : ReplicaInv (C.cfg r) s) (w : C.PromiseInv S r s)
    (hCareful : Careful (C.cfg r) s .timeout) {c : CommitMsg} (hc : Msg.commit c ∈ s.sent) :
    Covers (s.viewChangeMsg (C.cfg r)) c := by
  by_cases hLive : s.h < c.seqNum
  · have hDigest := hReplica.digest.live c hc hLive
    have hPre := (hReplica.digest.digest c.seqNum).mpr (hDigest ▸ hReplica.digest.nonzero c hc)
    obtain ⟨e, he⟩ := TreeMap.mem_iff_exists.mp (mem_of_hasPreprepare hPre)
    have hEntry := entry_of_lookup he
    have hVoted := w.voted c hc hLive
    have hSeq := (hReplica.log.entries c.seqNum).seq hPre
    rw [hEntry] at hDigest hVoted hSeq
    have hStage := hCareful.prepared rfl (c.seqNum, e)
      (Std.ExtTreeMap.mem_toList_iff_getElem?_eq_some.mpr he) hLive hVoted
    exact .inr ⟨_, mem_preparedProofs.mpr ⟨c.seqNum, e, he, hStage, rfl⟩, hSeq, hDigest⟩
  · left
    show c.seqNum ≤ s.h.toUInt32.toUInt64
    rw [Word.lowWord_eq_iff.mpr (hCareful.stable rfl)]
    exact UInt64.not_lt.mp hLive

theorem promiseInv_beginViewChange (hReplica : ReplicaInv (C.cfg r) s) (w : C.PromiseInv S r s)
    (hCareful : Careful (C.cfg r) s .timeout) (hAhead : Ahead (s.beginViewChange (C.cfg r))) :
    C.PromiseInv S r (s.beginViewChange (C.cfg r)) := by
  have hHeard : ∀ m ∈ s.sent, m ∈ s.sent ++ [Msg.viewChange (s.viewChangeMsg (C.cfg r))] :=
    fun _ => List.mem_append_left _
  rw [beginViewChange_eq] at hAhead ⊢
  refine ⟨hAhead.ahead, hAhead.settled, ?_, ?_, ?_, ?_⟩
  · intro c hc
    exact w.voted c (sent_of_append hc nofun)
  · intro c vc hc h hLater
    have hOld := sent_of_append hc nofun
    rcases List.mem_append.mp h with h | h
    · exact w.covered c vc hOld h hLater
    · cases List.mem_singleton.mp h
      exact viewChangeMsg_covers hReplica w hCareful hOld
  · intro view p m h
    exact (w.store view p m h).mono fun _ _ => .mono hHeard
  · intro nv h
    exact (w.founded nv (sent_of_append h nofun)).mono fun _ _ => .mono hHeard

theorem promiseInv_storeViewChange {s₀ : Node σ} {i : Input} {m : ViewChangeMsg} (hr : r < C.base.n)
    (hNarrow : m.nextView.toNat < 2 ^ 32) (w : C.PromiseInv S r s) (hi : Offers (C.cfg r) s₀ i m)
    (hReceived : ∀ conn, i = .recv (.viewChange m) conn →
      m.replicaId < C.base.n ∧ S m.replicaId (.viewChange m))
    (hSent : i = .timeout → Msg.viewChange m ∈ s.sent) : C.PromiseInv S r (s.storeViewChange m) := by
  refine ⟨w.ahead, w.settled, w.voted, w.covered, fun view p m' h => ?_, w.founded⟩
  rcases stored_storeViewChange h with ⟨rfl, hView, rfl⟩ | h
  · have hNext : m'.nextView = view.toUInt64 := by
      rw [hView, Word.lowWord_eq_iff.mpr hNarrow]
    rcases hi with ⟨conn, hi⟩ | ⟨hi, hOwn⟩
    · exact ⟨rfl, (hReceived conn hi).1, hNext, .inl (hReceived conn hi).2⟩
    · have hId : m'.replicaId = r := congrArg ViewChangeMsg.replicaId hOwn
      exact ⟨rfl, hId ▸ hr, hNext, .inr ⟨hId, hSent hi⟩⟩
  · exact w.store view p m' h

theorem promiseInv_installView {s₀ : Node σ} {i : Input} {m : ViewChangeMsg}
    {vcs : Std.ExtTreeMap UInt32 ViewChangeMsg} {O : List PrePrepareMsg}
    (hNarrow : m.nextView.toNat < 2 ^ 32) (hCareful : Careful (C.cfg r) s₀ i)
    (w : C.PromiseInv S r s) (hi : Offers (C.cfg r) s₀ i m) (hCompletes : Completes (C.cfg r) s₀ m)
    (hWith : vcs = s₀.storedWith m) (hStored : s.viewChangeStore[m.nextView.toUInt32]? = some vcs)
    (hQuorum : C.base.quorum ≤ vcs.size)
    (hO : oSet (C.cfg r) m.nextView (vcs.toList.map Prod.snd) = some O)
    (hAhead : Ahead (s.installView m.nextView (vcs.toList.map Prod.snd) O)) :
    C.PromiseInv S r (s.installView m.nextView (vcs.toList.map Prod.snd) O) := by
  have hBack : m.nextView.toUInt32.toUInt64 = m.nextView := Word.lowWord_eq_iff.mpr hNarrow
  have hHeard : ∀ a ∈ s.sent, a ∈ (s.installView m.nextView (vcs.toList.map Prod.snd) O).sent :=
    fun _ => List.mem_append_left _
  refine ⟨hAhead.ahead, hAhead.settled, ?_, ?_, ?_, ?_⟩
  · intro c hc
    exact w.voted c (sent_of_append hc nofun)
  · intro c vc hc h
    exact w.covered c vc (sent_of_append hc nofun) (sent_of_append h nofun)
  · intro view p a h
    exact (w.store view p a h).mono fun _ _ => .mono hHeard
  · intro nv h
    rcases List.mem_append.mp h with h | h
    · exact (w.founded nv h).mono fun _ _ => .mono hHeard
    · cases List.mem_singleton.mp h
      refine ⟨vcs, rfl, hQuorum, fun p a ha => ?_, ?_, ?_⟩
      · exact (w.store _ p a ⟨vcs, hStored, ha⟩).mono fun _ _ => .mono hHeard
      · dsimp only
        rwa [hBack]
      · rw [hWith]
        exact hCareful.visible m (mem_offered?_of_offers hi) hCompletes

end

theorem forward_of_careful {cfg : Config σ} {s₀ : Node σ} {i : Input} (hNarrow : NarrowInput cfg s₀ i)
    (hCareful : Careful cfg s₀ i) : Forward cfg s₀ i := by
  intro v hv
  have hLe := le_of_mem_installs? hv
  rw [UInt32.le_iff_toNat_le, UInt32.lt_iff_toNat_lt]
  rcases mem_installs? hv with ⟨m, conn, hi, hAccepts, rfl⟩ | ⟨m, hi, hCompletes, rfl⟩
  · have hLater := hAccepts.2.1
    rw [not_or, UInt64.not_le, UInt64.lt_iff_toNat_lt, UInt32.toNat_toUInt64] at hLater
    rw [toNat_toUInt32 (hNarrow.newView m conn hi)]
    exact ⟨hLe, fun _ => hLater.2⟩
  · rw [toNat_toUInt32 (hNarrow.viewChange m hi)]
    refine ⟨hLe, fun hChanging => Nat.lt_of_le_of_ne hLe fun hEq => ?_⟩
    refine hCareful.late m (mem_offered?_of_offers hi) hCompletes hChanging ?_
    rw [← UInt64.toNat_inj, UInt32.toNat_toUInt64, hEq]

theorem promiseInv_step {s₀ s s' : Node σ} {i : Input} (hr : r < C.base.n) (hNone : ∀ p, p ∉ C.faulty)
    (hNarrow : NarrowInput (C.cfg r) s₀ i) (hCareful : Careful (C.cfg r) s₀ i) (hTrue : C.IdTrue S r i)
    (hReplica : ReplicaInv (C.cfg r) s) (w : C.PromiseInv S r s) (hStep : Step (C.cfg r) s₀ i s s') :
    C.PromiseInv S r s' := by
  have hAhead := ahead_step (forward_of_careful hNarrow hCareful) ⟨w.ahead, w.settled⟩ hStep
  have hHeard : ∀ m ∈ s.sent, m ∈ s'.sent := fun _ hm => sent_step hm hStep
  have hKeep : ∀ k, (s.entry k).commits ⊆ (s.entry k).commits := fun _ => Finset.Subset.rfl
  cases hStep with
  | propose | accept =>
    exact w.congr hAhead rfl rfl (commits_of_insert rfl (hKeep _)) hHeard (sent_or_of_append trivial)
  | votePrepare | touch | markCommitted =>
    exact w.congr hAhead rfl rfl (commits_of_insert rfl (hKeep _)) hHeard fun _ => .inl
  | voteCommit =>
    exact w.congr hAhead rfl rfl (commits_of_insert rfl (Finset.subset_insert _ _)) hHeard fun _ => .inl
  | markPrepared _ hPre _ hChanging => exact promiseInv_markPrepared hReplica w hPre hChanging hAhead
  | execute =>
    rw [executeEntry_eq] at hAhead hHeard ⊢
    exact w.congr hAhead rfl rfl hKeep hHeard (sent_or_of_due trivial)
  | stabilize _ hLow => exact promiseInv_stabilize w hLow
  | beginViewChange hi => exact promiseInv_beginViewChange hReplica w (hi ▸ hCareful) hAhead
  | @storeViewChange _ m hi hSent =>
    refine promiseInv_storeViewChange hr (hNarrow.viewChange m hi) w hi (fun conn hRecv => ?_) hSent
    rw [hRecv] at hTrue
    obtain ⟨hId, -, hFrom⟩ := hTrue m.replicaId rfl
    exact ⟨hId, hFrom (hNone _)⟩
  | @installView _ m vcs O hi hView hSame hMine hWith hStored hQuorum hO =>
    exact promiseInv_installView (hNarrow.viewChange m hi) hCareful w hi
      ⟨hSame.1 ▸ hView, hMine, hWith ▸ hQuorum⟩ hWith hStored hQuorum hO hAhead
  | enterView => exact ⟨hAhead.ahead, hAhead.settled, w.voted, w.covered, w.store, w.founded⟩
  | _ => exact w.congr hAhead rfl rfl hKeep hHeard fun _ => .inl

end Pbft.Cluster
