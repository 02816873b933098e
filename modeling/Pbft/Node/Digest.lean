import Pbft.Node.LogEntry
import Pbft.Node.Sequence

/-! # The digest of a live entry never changes

A replica that has broadcast a commit keeps the digest it committed to for as long as the
entry is above the low watermark, whatever views it goes through. The write that the primary
makes without looking at the entry is harmless, because its sequence number is fresh.
-/
namespace Pbft.Node
set_option autoImplicit false

variable {σ : Type} {cfg : Config σ}

/-- No logged digest can be mistaken for that of a fresh entry. -/
structure Nonzero (cfg : Config σ) (s₀ : Node σ) (i : Input) : Prop where
  accepted : ∀ m ∈ prePrepares i, Accepts cfg s₀ i m → m.reqDigest ≠ 0
  proposed : ∀ m ∈ request? i, Proposes cfg s₀ m → cfg.getHash m ≠ 0

instance (s₀ : Node σ) (i : Input) : Decidable (Nonzero cfg s₀ i) :=
  decidable_of_iff (_ ∧ _) ⟨fun h => ⟨h.1, h.2⟩, fun h => ⟨h.accepted, h.proposed⟩⟩

/-- No connection leads back to the replica itself. -/
structure Guarded (cfg : Config σ) (s₀ : Node σ) (i : Input) : Prop extends Nonzero cfg s₀ i where
  peer : ∀ m conn, i = .recv (.handshake m) conn → m.id ≠ cfg.id

structure DigestInv (cfg : Config σ) (s : Node σ) : Prop where
  peer : ∀ conn : Conn, s.connToPeer[conn]? ≠ some cfg.id
  top : s.view % cfg.n = cfg.id → ∀ k, (s.entry k).hasPreprepare = true → k ≤ s.seqNum
  digest : ∀ k, (s.entry k).hasPreprepare = true ↔ (s.entry k).digest ≠ 0
  author : ∀ m, Msg.commit m ∈ s.sent → m.replicaId = cfg.id
  nonzero : ∀ m, Msg.commit m ∈ s.sent → m.reqDigest ≠ 0
  live : ∀ m, Msg.commit m ∈ s.sent → s.h < m.seqNum → (s.entry m.seqNum).digest = m.reqDigest

theorem digestInv_init (t : Bool) : DigestInv cfg (Node.init cfg t) where
  peer conn := by simp [Node.init]
  top _ k hk := by simp [Node.init, entry] at hk
  digest k := by simp [Node.init, entry]
  author m hm := by simp [Node.init] at hm
  nonzero m hm := by simp [Node.init] at hm
  live m hm := by simp [Node.init] at hm

theorem DigestInv.write {s t : Node σ} {k : UInt64} {e : ReqLogEntry} (w : DigestInv cfg s)
    (hPeer : Unaliased cfg t) (hTop : Topped cfg t) (hLog : t.reqlog = s.reqlog.insert k e)
    (hLow : t.h = s.h) (hDigest : e.hasPreprepare = true ↔ e.digest ≠ 0)
    (hKeep : (s.entry k).hasPreprepare = true → e.digest = (s.entry k).digest)
    (hSent : ∀ m, Msg.commit m ∈ t.sent → Msg.commit m ∈ s.sent ∨
      (m.seqNum = k ∧ m.reqDigest = e.digest ∧ m.replicaId = cfg.id ∧ e.digest ≠ 0)) :
    DigestInv cfg t where
  peer := hPeer
  top := hTop
  digest a := by
    rw [entry_of_insert hLog]
    split
    · exact hDigest
    · exact w.digest a
  author m hm := by
    rcases hSent m hm with hOld | hNew
    · exact w.author m hOld
    · exact hNew.2.2.1
  nonzero m hm := by
    rcases hSent m hm with hOld | hNew
    · exact w.nonzero m hOld
    · exact hNew.2.1 ▸ hNew.2.2.2
  live m hm hLive := by
    rw [entry_of_insert hLog]
    rw [hLow] at hLive
    rcases hSent m hm with hOld | hNew
    · have hEntry := w.live m hOld hLive
      split
      · rename_i hka
        subst hka
        have hPre := (w.digest m.seqNum).mpr (hEntry ▸ w.nonzero m hOld)
        rw [hKeep hPre, hEntry]
      · exact hEntry
    · rw [if_pos hNew.1.symm, hNew.2.1]

theorem DigestInv.congr {s t : Node σ} (w : DigestInv cfg s) (hPeer : Unaliased cfg t)
    (hTop : Topped cfg t) (hLog : t.reqlog = s.reqlog) (hLow : t.h = s.h)
    (hSent : ∀ m, Msg.commit m ∈ t.sent → Msg.commit m ∈ s.sent) : DigestInv cfg t := by
  have hEntry := entry_congr hLog
  constructor
  · exact hPeer
  · exact hTop
  · intro k
    exact hEntry k ▸ w.digest k
  · intro m hm
    exact w.author m (hSent m hm)
  · intro m hm
    exact w.nonzero m (hSent m hm)
  · intro m hm hLive
    rw [hEntry]
    exact w.live m (hSent m hm) (hLow ▸ hLive)

theorem digestInv_stabilize {s : Node σ} (w : DigestInv cfg s) (m : CheckpointMsg)
    (cp : CheckpointVotes) (hLow : s.h ≤ m.seqNum) (hTop : Topped cfg (s.stabilize cfg m cp)) :
    DigestInv cfg (s.stabilize cfg m cp) where
  peer := w.peer
  top := hTop
  digest k := by
    rw [entry_of_stabilize]
    split
    · simp
    · exact w.digest k
  author := w.author
  nonzero := w.nonzero
  live c hc hLive := by
    have hAbove : m.seqNum < c.seqNum := hLive
    rw [entry_of_stabilize, if_neg (UInt64.not_le.mpr hAbove)]
    exact w.live c hc (UInt64.lt_of_le_of_lt hLow hAbove)

theorem digestInv_markPrepared {s : Node σ} {k : UInt64} (hLog : LogInv cfg s) (w : DigestInv cfg s)
    (hPre : (s.entry k).hasPreprepare = true) (hTop : Topped cfg (s.markPrepared cfg k)) :
    DigestInv cfg (s.markPrepared cfg k) := by
  refine w.write w.peer hTop rfl rfl (w.digest _) (fun _ => rfl) fun c hc => ?_
  rcases List.mem_append.mp hc with hOld | hNew
  · exact .inl hOld
  · cases List.mem_singleton.mp hNew
    exact .inr ⟨(hLog.entries k).seq hPre, rfl, rfl, (w.digest k).mp hPre⟩

theorem digestInv_step {s₀ s s' : Node σ} {i : Input} (hGuard : Guarded cfg s₀ i)
    (hLog : LogInv cfg s) (w : DigestInv cfg s) (hStep : Step cfg s₀ i s s') : DigestInv cfg s' := by
  have hPeer := unaliased_step w.peer hGuard.peer hStep
  have hTop := topped_step w.peer w.top hStep
  cases hStep with
  | propose hi hProposes =>
    have hHash := hGuard.proposed _ (by simp [hi, request?]) hProposes
    refine w.write hPeer hTop rfl rfl ⟨fun _ => hHash, fun _ => rfl⟩ (fun hPre => ?_)
      fun c hc => .inl (sent_of_append hc (by simp))
    rw [propose_fresh w.top hProposes] at hPre
    cases hPre
  | accept _ _ _ hDigest _ hAccepts =>
    have hNonzero := hGuard.accepted _ hAccepts.1 hAccepts
    exact w.write hPeer hTop rfl rfl ⟨fun _ => hNonzero, fun _ => rfl⟩ (fun hPre => (hDigest hPre).symm)
      fun c hc => .inl (sent_of_append hc (by simp))
  | votePrepare | touch | voteCommit | markCommitted =>
    exact w.write hPeer hTop rfl rfl (w.digest _) (fun _ => rfl) fun _ => .inl
  | markPrepared _ hPre => exact digestInv_markPrepared hLog w hPre hTop
  | execute =>
    rw [executeEntry_eq] at hPeer hTop ⊢
    refine w.congr hPeer hTop rfl rfl fun c hc => ?_
    dsimp only at hc
    split at hc
    · exact sent_of_append hc (by simp)
    · exact hc
  | stabilize _ hLow => exact digestInv_stabilize w _ _ hLow hTop
  | beginViewChange =>
    rw [beginViewChange_eq] at hPeer hTop ⊢
    exact w.congr hPeer hTop rfl rfl fun c hc => sent_of_append hc (by simp)
  | installView => exact w.congr hPeer hTop rfl rfl fun c hc => sent_of_append hc (by simp)
  | handshake => exact ⟨hPeer, hTop, w.digest, w.author, w.nonzero, w.live⟩
  | enterView | recompute | timer | resend | forward | voteCheckpoint | storeViewChange =>
    exact w.congr hPeer hTop rfl rfl fun _ => id

structure ReplicaInv (cfg : Config σ) (s : Node σ) : Prop where
  window : WindowInv cfg s
  log : LogInv cfg s
  digest : DigestInv cfg s

theorem replicaInv_step {s₀ s s' : Node σ} {i : Input} (hGuard : Guarded cfg s₀ i)
    (w : ReplicaInv cfg s) (hStep : Step cfg s₀ i s s') : ReplicaInv cfg s' where
  window := windowInv_step w.window hStep
  log := logInv_step w.window w.log hStep
  digest := digestInv_step hGuard w.log w.digest hStep

theorem replicaInv_reach {t : Bool} {ok : Node σ → Input → Prop} {s : Node σ}
    (hOk : ∀ s₀ i, ok s₀ i → Guarded cfg s₀ i) (hs : Reach cfg t ok s) : ReplicaInv cfg s :=
  Reach.invariant ⟨windowInv_init t, logInv_init t, digestInv_init t⟩
    (fun _ _ _ h _ _ => replicaInv_step (hOk _ _ h)) hs

end Pbft.Node
