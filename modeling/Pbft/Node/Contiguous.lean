import Pbft.Node.Proposals
import Pbft.Node.Views
import Pbft.Node.Voted

/-! # The counter of a primary in its view

A request moves the counter on by one, and a vote brings nothing into the log that has not been
issued. All other calls leave the counter where it is, the stabilisation of a checkpoint included
unless the checkpoint is above it.
-/
namespace Pbft.Node
set_option autoImplicit false

variable {σ : Type} {cfg : Config σ}

theorem Continues.push {s t : Node σ} {v : UInt32} {nv : NewViewMsg} {k : UInt64} (h : Continues s v nv)
    (hSent : ∀ m ∈ s.sent, m ∈ t.sent) (hIssued : t.issued v = s.issued v ++ [k])
    (hk : k.toNat = (minS nv.viewChanges).toNat + (s.issued v).length + 1) : Continues t v nv := by
  refine ⟨hSent _ h.1, h.2.1, ?_⟩
  have hLast : (minS nv.viewChanges).toNat + 1 + 1 * (s.issued v).length = k.toNat := by omega
  rw [hIssued, List.map_append, List.length_append, List.length_singleton, List.range'_concat, ← h.2.2, hLast]
  rfl

theorem Capped.insert {s t : Node σ} {k : UInt64} {e : ReqLogEntry} (w : Capped s)
    (hLog : t.reqlog = s.reqlog.insert k e) (hLast : t.lastExec = s.lastExec) (hLow : t.h = s.h)
    (hSeq : s.seqNum ≤ t.seqNum) (hk : k ≤ t.seqNum) : Capped t where
  last := by
    rw [hLast]
    exact UInt64.le_trans w.last hSeq
  low := by
    rw [hLow]
    exact UInt64.le_trans w.low hSeq
  keys a ha := by
    rw [hLog, TreeMap.mem_insert] at ha
    rcases ha with rfl | ha
    · exact hk
    · exact UInt64.le_trans (w.keys a ha) hSeq

theorem proposalInv_propose {m : RequestMsg} {s : Node σ} (w : ProposalInv cfg s)
    (hProposes : Proposes cfg s m) : ProposalInv cfg (s.propose cfg m) := by
  let pp : PrePrepareMsg := ⟨s.view, s.seqNum + 1, cfg.getHash m, m⟩
  have hSent : ∀ a ∈ s.sent, a ∈ (s.propose cfg m).sent := fun _ => List.mem_append_left _
  have hIssued : ∀ v, (s.propose cfg m).issued v =
      s.issued v ++ if s.view = v then [s.seqNum + 1] else [] := fun v => issued_append (m := .prePrepare pp) rfl v
  have hSucc := Word.toNat_succ hProposes.high
  refine w.extend hSent (UInt32.le_refl _) (fun v hv => ?_) (fun hLater => ?_) fun h => ?_
  · have hNot : s.view ≠ v := Ne.symm hv
    rw [hIssued, if_neg hNot, List.append_nil]
  · obtain ⟨nv, hNv, hCount⟩ := w.counter ⟨hProposes.changing, hLater, hProposes.primary⟩
    have hNow := hIssued s.view
    rw [if_pos rfl] at hNow
    refine ⟨nv, hNv.push hSent hNow (by omega), ?_⟩
    change (s.seqNum + 1).toNat = (minS nv.viewChanges).toNat + ((s.propose cfg m).issued s.view).length
    rw [hNow, List.length_append, List.length_singleton]
    omega
  · have hCapped := w.capped ⟨hProposes.changing, h.later, hProposes.primary⟩
    refine hCapped.insert rfl rfl rfl ?_ (UInt64.le_refl _)
    show s.seqNum ≤ s.seqNum + 1
    rw [UInt64.le_iff_toNat_le]
    omega

/-- The handlers of PREPARE and COMMIT leave the counter alone, and the log grows by the number that
is voted on at most. -/
theorem slot_step {s₀ s s' : Node σ} {m : Msg} {conn : Conn} {v : UInt32} {k : UInt64}
    (hm : m.slot? = some (v, k)) (hStep : Step cfg s₀ (.recv m conn) s s') :
    s'.view = s.view ∧ s'.viewChanging = s.viewChanging ∧ s'.seqNum = s.seqNum ∧
      (k ≤ s.seqNum → Capped s → Capped s') := by
  have hInsert : ∀ {a : UInt64} {e : ReqLogEntry} {t : Node σ}, t.reqlog = s.reqlog.insert a e →
      t.lastExec = s.lastExec → t.h = s.h → t.seqNum = s.seqNum → a ≤ s.seqNum → Capped s → Capped t := by
    intro a e t hLog hLast hLow hSeq ha w
    exact w.insert hLog hLast hLow (hSeq ▸ UInt64.le_refl _) (hSeq ▸ ha)
  cases hStep with
  | timer => exact ⟨rfl, rfl, rfl, fun _ w => ⟨w.last, w.low, w.keys⟩⟩
  | votePrepare hi | touch hi | voteCommit hi =>
    cases hi
    cases hm
    exact ⟨rfl, rfl, rfl, hInsert rfl rfl rfl rfl⟩
  | markPrepared hStage | markCommitted hStage =>
    refine ⟨rfl, rfl, rfl, fun _ w => hInsert rfl rfl rfl rfl ?_ w⟩
    exact w.keys _ (mem_of_stage (by simp [hStage]))
  | execute hEntry =>
    rw [executeEntry_eq]
    refine ⟨rfl, rfl, rfl, fun _ w => ⟨?_, w.low, w.keys⟩⟩
    exact w.keys _ (TreeMap.mem_iff_exists.mpr ⟨_, hEntry⟩)
  | handshake hi | resend hi | forward hi | propose hi | voteCheckpoint hi | stabilize hi | enterView hi
  | recompute hi =>
    cases hi
    cases hm
  | accept hi =>
    rcases hi with hi | ⟨nv, hi, -⟩
    · cases hi
      cases hm
    · cases hi
      cases hm
  | beginViewChange hi => cases hi
  | storeViewChange hi | installView hi =>
    rcases hi with ⟨conn, hi⟩ | ⟨hi, -⟩
    · cases hi
      cases hm
    · cases hi

theorem slot_handle {s s' : Node σ} {m : Msg} {conn : Conn} {v : UInt32} {k : UInt64}
    (hm : m.slot? = some (v, k)) (hCall : s.handle cfg (.recv m conn) = some s') :
    s'.view = s.view ∧ s'.viewChanging = s.viewChanging ∧ s'.seqNum = s.seqNum ∧
      (k ≤ s.seqNum → Capped s → Capped s') := by
  refine handle_invariant (I := fun t => t.view = s.view ∧ t.viewChanging = s.viewChanging ∧
    t.seqNum = s.seqNum ∧ (k ≤ s.seqNum → Capped s → Capped t)) (fun t t' ht hStep => ?_)
    ⟨rfl, rfl, rfl, fun _ w => w⟩ hCall
  obtain ⟨hView, hChanging, hSeq, hCapped⟩ := slot_step hm hStep
  refine ⟨hView.trans ht.1, hChanging.trans ht.2.1, hSeq.trans ht.2.2.1, fun hk w => ?_⟩
  exact hCapped (ht.2.2.1 ▸ hk) (ht.2.2.2 hk w)

theorem proposalInv_onRequest {m : RequestMsg} {s : Node σ} (w : ProposalInv cfg s) :
    ProposalInv cfg (s.onRequest cfg m) := by
  rcases onRequest_cases cfg m s with ⟨hProposes, hEq⟩ | ⟨-, _, _, _, hEq⟩
  · rw [hEq]
    exact proposalInv_propose w hProposes
  · rw [hEq]
    exact w.keep (fun _ h => h) rfl rfl id fun _ => ⟨rfl, fun c => ⟨c.last, c.low, c.keys⟩⟩

/-- A primary has no connection to itself, so that it accepts nothing in its own view. -/
theorem proposalInv_onPreprepare {m : PrePrepareMsg} {conn : Conn} {s : Node σ}
    (hUnaliased : Unaliased cfg s) (w : ProposalInv cfg s) : ProposalInv cfg (s.onPreprepare cfg m conn) := by
  have hCall : s.handle cfg (.recv (.prePrepare m) conn) = some (s.onPreprepare cfg m conn) := rfl
  have hIssued := issued_handle rfl (fun m' h => by rcases h with ⟨_, h⟩ | ⟨h, -⟩ <;> cases h) hCall
  have hFrame : Frame s (s.onPreprepare cfg m conn) := onPreprepareImpl_frame m conn false s
  refine w.keep (fun _ => sent_handle hCall) hIssued hFrame.view (hFrame.changing ▸ id) fun h => ?_
  rcases onPreprepareImpl_cases cfg m conn false s with hSame | hGuard
  · unfold onPreprepare
    rw [hSame]
    exact ⟨rfl, id⟩
  · rcases hGuard.sender with hSelf | hFrom
    · cases hSelf
    · rw [comesFromPrimary, ← h.primary, beq_iff_eq] at hFrom
      exact absurd hFrom (hUnaliased conn)

theorem proposalInv_onNewview {m : NewViewMsg} {conn : Conn} {s : Node σ} (hUnaliased : Unaliased cfg s)
    (hNarrow : m.nextView.toNat < 2 ^ 32) (w : ProposalInv cfg s) : ProposalInv cfg (s.onNewview cfg m conn) := by
  have hCall : s.handle cfg (.recv (.newView m) conn) = some (s.onNewview cfg m conn) := rfl
  by_cases hAccepts : s.acceptsNewview cfg m conn
  · have hIssued := issued_handle rfl (fun m' h => by rcases h with ⟨_, h⟩ | ⟨h, -⟩ <;> cases h) hCall
    have hView := view_onNewview hAccepts
    refine w.congr (fun _ => sent_handle hCall) hIssued ?_ fun h => ?_
    · have hLater := hAccepts.2.1
      rw [not_or, UInt64.not_le, UInt64.lt_iff_toNat_lt, UInt32.toNat_toUInt64] at hLater
      rw [hView, UInt32.le_iff_toNat_le, toNat_toUInt32 hNarrow]
      exact hLater.2.le
    · have hFrom := hAccepts.1
      rw [comesFromPrimary, ← hView, ← h.primary, beq_iff_eq] at hFrom
      exact absurd hFrom (hUnaliased conn)
  · have hIgnored : s.onNewview cfg m conn = s := if_pos hAccepts
    rwa [hIgnored]

theorem capped_stabilize {m : CheckpointMsg} {cp : CheckpointVotes} {s : Node σ}
    (hAccounted : s.Accounted s.seqNum) (hLow : s.h ≤ m.seqNum) (hBelow : m.seqNum ≤ s.seqNum) (w : Capped s) :
    (s.stabilize cfg m cp).seqNum = s.seqNum ∧ Capped (s.stabilize cfg m cp) := by
  have hRaised : (s.raised cfg m cp).Accounted s.seqNum := hAccounted.mono (UInt64.le_refl _) hLow id
  have hSeq : (s.stabilize cfg m cp).seqNum = s.seqNum := by
    refine UInt64.le_antisymm ?_ hRaised.le_recompute
    rw [stabilize_seqNum, UInt64.le_iff_toNat_le]
    refine recomputeHighestSequence_le (UInt64.le_iff_toNat_le.mp w.last) (UInt64.le_iff_toNat_le.mp hBelow) ?_
    exact fun k hk => UInt64.le_iff_toNat_le.mp (w.keys k hk)
  refine ⟨hSeq, ?_, ?_, fun k hk => ?_⟩
  · rw [hSeq]
    exact w.last
  · rw [hSeq]
    exact hBelow
  · rw [hSeq]
    obtain ⟨e, he⟩ := TreeMap.mem_iff_exists.mp hk
    exact w.keys k (TreeMap.mem_iff_exists.mpr ⟨e, ((TreeMap.lookup_filter _ _ _).mp he).1⟩)

theorem proposalInv_onCheckpoint {m : CheckpointMsg} {s : Node σ} (hAccounted : s.Accounted s.seqNum)
    (hStable : Stabilizes cfg s m → Presides cfg s → m.seqNum ≤ s.seqNum) (w : ProposalInv cfg s) :
    ProposalInv cfg (s.onCheckpoint cfg m) := by
  rcases onCheckpoint_cases cfg m s with ⟨-, hEq⟩ | ⟨hLow, hEq | ⟨cp, hcp, hUnstable, hQuorum, hEq⟩⟩
  · rwa [hEq]
  · rw [hEq]
    exact w.keep (fun _ h => h) rfl rfl id fun _ => ⟨rfl, fun c => ⟨c.last, c.low, c.keys⟩⟩
  · rw [hEq]
    have hStabilizes : Stabilizes cfg s m := by
      subst hcp
      exact ⟨hLow, hUnstable, hQuorum⟩
    refine w.keep (fun _ h => h) rfl rfl id fun h => ?_
    let t := (s.voteCheckpoint m.seqNum m.stateDigest m.replicaId).stabilize cfg m cp
    have hNext : Capped s → t.seqNum = s.seqNum ∧ Capped t := fun c =>
      capped_stabilize hAccounted hLow (hStable hStabilizes h) ⟨c.last, c.low, c.keys⟩
    exact ⟨(hNext (w.capped h)).1, fun c => (hNext c).2⟩

end Pbft.Node
