import Pbft.Node.Cascade
import Pbft.Node.CheckpointStore
import Pbft.Node.NewView
import Pbft.Node.Sequence

/-! # Delivering a message twice

A repeated pre-prepare sets an entry that is prepared, committed or executed back to the stage it
had at the beginning and goes through the whole cascade once more; a repeated VIEW-CHANGE installs
its view again. The state still ends up as it was, since everything the second delivery adds to a
set is there already and the execution loop finds nothing to do.
-/
namespace Pbft
set_option autoImplicit false

variable {σ : Type} {cfg : Config σ}

namespace Node

theorem inWindow_congr {s t : Node σ} (hLow : t.h = s.h) (hHigh : t.H = s.H) {k : UInt64} :
    t.inWindow k ↔ s.inWindow k := by
  unfold inWindow
  rw [hLow, hHigh]

theorem Current.frame {s t : Node σ} {view : UInt32} {k : UInt64} (h : Current s view k) (hFrame : Frame s t) :
    Current t view k :=
  ⟨hFrame.changing.trans h.1, h.2.1.trans hFrame.view.symm, (inWindow_congr hFrame.low hFrame.high).mpr h.2.2⟩

theorem comesFromPrimary_frame {s t : Node σ} (hFrame : Frame s t) (conn : Conn) :
    t.comesFromPrimary cfg conn t.view = s.comesFromPrimary cfg conn s.view := by
  unfold comesFromPrimary
  rw [hFrame.conn, hFrame.view]

theorem onPreprepare_again {m : PrePrepareMsg} {conn : Conn} {s s' : Node σ}
    (hCall : s.onPreprepare cfg m conn = s') (hLog : LogInv cfg s') (hSettled : Settled cfg s') :
    Same (s'.onPreprepare cfg m conn) s' := by
  rcases onPreprepareImpl_cases cfg m conn false s with hIgnored | hGuard
  · cases hIgnored.symm.trans hCall
    rw [hCall]
    exact .refl s
  · have hFrame : Frame s s' := hCall ▸ onPreprepareImpl_frame m conn false s
    rw [onPreprepare, onPreprepareImpl_of_guard hGuard] at hCall
    obtain ⟨stage, commits, hEntry, hTested⟩ := tryPrepare_entry cfg m.seqNum
      (s.startTimerIfNotRunning.acceptPreprepare cfg m)
    rw [hCall] at hEntry
    rw [entry_of_insert (reqlog_accept cfg m s), if_pos rfl] at hEntry hTested
    have hAgain : Guard cfg m conn false s' := by
      refine ⟨.inr ?_, hGuard.current.frame hFrame, fun _ => by rw [hEntry, logged]⟩
      rw [comesFromPrimary_frame hFrame]
      simpa using hGuard.sender
    rw [onPreprepare, onPreprepareImpl_of_guard hAgain]
    refine Complete.again ⟨hLog, hSettled, ?_⟩ ?_ ?_ ?_
    · rwa [hEntry]
    · rw [hEntry, logged]
    · rw [startTimerIfNotRunning_eq]
      exact ⟨rfl, rfl, rfl, rfl, rfl, rfl, rfl, rfl, rfl, rfl, rfl, rfl⟩
    · rw [reqlog_accept, hEntry]
      simp only [logged, Finset.insert_idem]

theorem mem_of_vote {s : Node σ} {k : UInt64} {r : UInt32} (votes : ReqLogEntry → Finset UInt32)
    (hNone : votes {} = ∅) (h : r ∈ votes (s.entry k)) : k ∈ s.reqlog := by
  refine mem_of_entry fun hEmpty => ?_
  rw [hEmpty, hNone] at h
  cases h

theorem onPrepare_again {m : PrepareMsg} {conn : Conn} {s s' : Node σ}
    (hCall : s.onPrepare cfg m conn = s') (hLog : LogInv cfg s') (hSettled : Settled cfg s') :
    Same (s'.onPrepare cfg m conn) s' := by
  rcases onPrepare_cases cfg m conn s with hIgnored | ⟨hFrom, hCurrent, hDigest⟩
  · cases hIgnored.symm.trans hCall
    rw [hCall]
    exact .refl s
  · let voted := s.setEntry m.seqNum { s.entry m.seqNum with
      prepares := insert m.replicaId (s.entry m.seqNum).prepares }
    rw [onPrepare_of_current hFrom hCurrent hDigest] at hCall
    have hFrame : Frame voted s' := hCall ▸ tryPrepare_frame m.seqNum voted
    have hBefore : Current voted m.view m.seqNum := hCurrent
    obtain ⟨stage, commits, hEntry, hTested⟩ := tryPrepare_entry cfg m.seqNum voted
    rw [hCall] at hEntry
    rw [entry_setEntry] at hEntry hTested
    have hVoted : m.replicaId ∈ (s'.entry m.seqNum).prepares := by
      rw [hEntry]
      exact Finset.mem_insert_self _ _
    have hSet : { s'.entry m.seqNum with prepares := insert m.replicaId (s'.entry m.seqNum).prepares } =
        s'.entry m.seqNum := by
      rw [hEntry]
      simp only [Finset.insert_idem]
    have hSame := setEntry_self (.refl s') (mem_of_vote (·.prepares) rfl hVoted)
    have hComplete : Complete cfg m.seqNum s' := ⟨hLog, hSettled, by rwa [hEntry]⟩
    rw [onPrepare_of_current ((comesFromPrimary_frame hFrame conn).trans hFrom) (hBefore.frame hFrame)
      (by rw [hEntry]; exact hDigest), hSet]
    rwa [hComplete.tryPrepare hSame]

theorem onCommit_again {m : CommitMsg} {s s' : Node σ} (hCall : s.onCommit cfg m = s')
    (hSettled : Settled cfg s') : Same (s'.onCommit cfg m) s' := by
  rcases onCommit_cases cfg m s with hIgnored | hCurrent
  · cases hIgnored.symm.trans hCall
    rw [hCall]
    exact .refl s
  rw [onCommit_of_current hCurrent] at hCall
  split at hCall
  · rename_i hDigest
    subst hCall
    have hAfter : Current (s.setEntry m.seqNum (s.entry m.seqNum)) m.view m.seqNum := hCurrent
    rw [onCommit_of_current hAfter, entry_setEntry, if_pos hDigest]
    have hSame := setEntry_self (.refl (s.setEntry m.seqNum (s.entry m.seqNum)))
      (Std.ExtTreeMap.mem_insert_self : m.seqNum ∈ s.reqlog.insert m.seqNum (s.entry m.seqNum))
    rwa [entry_setEntry] at hSame
  · rename_i hDigest
    let voted := s.setEntry m.seqNum { s.entry m.seqNum with
      commits := insert m.replicaId (s.entry m.seqNum).commits }
    have hFrame : Frame voted s' := hCall ▸ tryCommit_frame m.seqNum voted
    have hBefore : Current voted m.view m.seqNum := hCurrent
    obtain ⟨stage, hEntry⟩ := tryCommit_entry cfg m.seqNum voted
    rw [hCall, entry_setEntry] at hEntry
    have hVoted : m.replicaId ∈ (s'.entry m.seqNum).commits := by
      rw [hEntry]
      exact Finset.mem_insert_self _ _
    have hSet : { s'.entry m.seqNum with commits := insert m.replicaId (s'.entry m.seqNum).commits } =
        s'.entry m.seqNum := by
      rw [hEntry]
      simp only [Finset.insert_idem]
    have hSame := setEntry_self (.refl s') (mem_of_vote (·.commits) rfl hVoted)
    rw [onCommit_of_current (hBefore.frame hFrame), if_neg (by rw [hEntry]; exact hDigest), hSet]
    rwa [hSettled.tryCommit hSame]

theorem alreadyInProgress_propose (m : RequestMsg) (s : Node σ) :
    (s.propose cfg m).alreadyInProgress m = true := by
  unfold alreadyInProgress
  rw [List.any_eq_true]
  refine ⟨(s.seqNum + 1, (s.propose cfg m).entry (s.seqNum + 1)), ?_, ?_⟩
  · rw [Std.ExtTreeMap.mem_toList_iff_getElem?_eq_some, entry_of_insert rfl, if_pos rfl]
    exact Std.ExtTreeMap.getElem?_insert_self
  · rw [entry_of_insert rfl, if_pos rfl]
    simp

theorem onRequest_again (m : RequestMsg) (s : Node σ) :
    Same ((s.onRequest cfg m).onRequest cfg m) (s.onRequest cfg m) := by
  have hNever : ¬Proposes cfg (s.onRequest cfg m) m := by
    rcases onRequest_cases cfg m s with ⟨-, hCall⟩ | ⟨hNot, _, _, _, hCall⟩ <;> rw [hCall] <;> intro h
    · cases h.isNew.symm.trans (alreadyInProgress_propose m s)
    · exact hNot ⟨h.noReply, h.changing, h.primary, h.low, h.high, h.isNew⟩
  rcases onRequest_cases cfg m (s.onRequest cfg m) with ⟨h, -⟩ | ⟨-, _, _, _, hCall⟩
  · exact absurd h hNever
  · rw [hCall]
    exact ⟨rfl, rfl, rfl, rfl, rfl, rfl, rfl, rfl, rfl, rfl, rfl, rfl⟩

/-- The votes of a checkpoint with one more of them, which was there before. -/
theorem voteCheckpoint_again {k : UInt64} {digest : Digest} {r : UInt32} {s : Node σ} {cp : CheckpointVotes}
    (hVotes : s.checkpoints[k]? = some cp) (hVoted : r ∈ cp.votes.getD digest ∅) :
    s.voteCheckpoint k digest r = s := by
  unfold voteCheckpoint
  dsimp only
  rw [TreeMap.getD_of_lookup hVotes, CheckpointVotes.addVote_of_mem hVoted, TreeMap.insert_of_lookup hVotes]

theorem onCheckpoint_of_voted {m : CheckpointMsg} {s : Node σ} {cp : CheckpointVotes}
    (hLow : ¬m.seqNum < s.h) (hVotes : s.checkpoints[m.seqNum]? = some cp)
    (hVoted : m.replicaId ∈ cp.votes.getD m.stateDigest ∅)
    (hDone : ¬(!cp.stable && decide ((cp.votes.getD m.stateDigest ∅).card ≥ cfg.quorum)) = true) :
    s.onCheckpoint cfg m = s := by
  unfold onCheckpoint
  rw [if_neg hLow, voteCheckpoint_again hVotes hVoted]
  dsimp only
  rw [TreeMap.getD_of_lookup hVotes, if_neg hDone]

theorem onCheckpoint_again {m : CheckpointMsg} {s s' : Node σ} (hCall : s.onCheckpoint cfg m = s') :
    s'.onCheckpoint cfg m = s' := by
  by_cases hOld : m.seqNum < s.h
  · have hIgnored : s.onCheckpoint cfg m = s := if_pos hOld
    cases hIgnored.symm.trans hCall
    exact hIgnored
  · let cp := (s.checkpoints.getD m.seqNum {}).addVote m.stateDigest m.replicaId
    have hVotes : (s.voteCheckpoint m.seqNum m.stateDigest m.replicaId).checkpoints[m.seqNum]? = some cp :=
      Std.ExtTreeMap.getElem?_insert_self
    have hVoted : m.replicaId ∈ cp.votes.getD m.stateDigest ∅ := by
      rw [CheckpointVotes.addVote_getD, if_pos rfl]
      exact Finset.mem_insert_self _ _
    unfold onCheckpoint at hCall
    rw [if_neg hOld] at hCall
    dsimp only at hCall
    rw [TreeMap.getD_of_lookup hVotes] at hCall
    split at hCall <;> subst hCall
    · -- the checkpoint is stable now, and its number is the watermark
      exact onCheckpoint_of_voted (UInt64.lt_irrefl m.seqNum) (lookup_stabilize m cp _) hVoted (by simp)
    · rename_i hFew
      exact onCheckpoint_of_voted hOld hVotes hVoted hFew

theorem storeViewChange_again {m : ViewChangeMsg} {s t : Node σ}
    (hStore : t.viewChangeStore = (s.storeViewChange m).viewChangeStore) :
    t.storedWith m = s.storedWith m ∧ (t.storeViewChange m).viewChangeStore = t.viewChangeStore := by
  have hStored : t.viewChangeStore[m.nextView.toUInt32]? = some (s.storedWith m) := by
    rw [hStore]
    exact Std.ExtTreeMap.getElem?_insert_self
  have hWith : t.storedWith m = s.storedWith m := by
    rw [storedWith, TreeMap.getD_of_lookup hStored, storedWith, TreeMap.insert_insert]
  refine ⟨hWith, ?_⟩
  unfold storeViewChange
  dsimp only
  rw [hWith, TreeMap.insert_of_lookup hStored]

theorem toUInt32_toUInt64_le (v : UInt64) : v.toUInt32.toUInt64 ≤ v := by
  rw [UInt64.le_iff_toNat_le, UInt32.toNat_toUInt64, UInt64.toNat_toUInt32]
  exact Nat.mod_le _ _

/-- A second delivery finds the messages that the first one has left. -/
theorem onViewchange_stored {m : ViewChangeMsg} {s t : Node σ}
    (hStore : t.viewChangeStore = (s.storeViewChange m).viewChangeStore) (hView : t.view.toUInt64 ≤ m.nextView)
    (hMine : m.nextView % cfg.n.toUInt64 = cfg.id.toUInt64) : t.onViewchange cfg m =
      if (s.storedWith m).size ≥ cfg.quorum then
        (oSet cfg m.nextView ((s.storedWith m).toList.map Prod.snd)).map fun O =>
          ((t.storeViewChange m).installView m.nextView ((s.storedWith m).toList.map Prod.snd) O).manageTimer
      else some (t.storeViewChange m) := by
  rw [onViewchange_eq hView hMine, (storeViewChange_again hStore).1]

/-- To install the view again recomputes the counter from the same log. -/
theorem onViewchange_installed {m : ViewChangeMsg} {s t : Node σ} {O : List PrePrepareMsg}
    (hView : t.view = m.nextView.toUInt32) (hIdle : t.viewChanging = false)
    (hSeq : t.seqNum = t.recomputeHighestSequence)
    (hStore : t.viewChangeStore = (s.storeViewChange m).viewChangeStore)
    (hMine : m.nextView % cfg.n.toUInt64 = cfg.id.toUInt64) (hQuorum : cfg.quorum ≤ (s.storedWith m).size)
    (hO : oSet cfg m.nextView ((s.storedWith m).toList.map Prod.snd) = some O) :
    ∃ s'', t.onViewchange cfg m = some s'' ∧ Same s'' t := by
  rw [onViewchange_stored hStore (hView ▸ toUInt32_toUInt64_le m.nextView) hMine, if_pos hQuorum, hO]
  refine ⟨_, rfl, ?_⟩
  dsimp only
  rw [manageTimer_eq]
  exact { Same.refl t with
    view := hView.symm
    viewChanging := hIdle.symm
    seqNum := hSeq.symm
    viewChangeStore := (storeViewChange_again hStore).2 }

theorem onViewchange_again {m : ViewChangeMsg} {s s' : Node σ} (hCall : s.onViewchange cfg m = some s') :
    ∃ s'', s'.onViewchange cfg m = some s'' ∧ Same s'' s' := by
  rcases onViewchange_cases hCall with rfl | ⟨rfl, hFew, hView, hMine⟩ | ⟨⟨-, hMine, hQuorum⟩, O, hO, rfl⟩
  · exact ⟨s', hCall, .refl s'⟩
  · have hAgain : (s.storeViewChange m).onViewchange cfg m = _ := onViewchange_stored rfl hView hMine
    rw [if_neg (Nat.not_le.mpr hFew)] at hAgain
    exact ⟨_, hAgain, { Same.refl _ with viewChangeStore := (storeViewChange_again rfl).2 }⟩
  · rw [manageTimer_eq]
    exact onViewchange_installed rfl rfl rfl rfl hMine hQuorum hO

theorem onNewview_again (m : NewViewMsg) (conn : Conn) (s : Node σ) :
    (s.onNewview cfg m conn).onNewview cfg m conn = s.onNewview cfg m conn := by
  by_cases hAccepts : s.acceptsNewview cfg m conn
  · have hIdle : (s.onNewview cfg m conn).viewChanging = false := by
      unfold onNewview
      rw [if_neg (not_not.mpr hAccepts), manageTimer_eq]
      exact (prePrepares_frame m.prePrepares conn (s.enterView m)).changing
    rw [onNewview, if_pos fun h => h.2.1 (.inl hIdle)]
  · have hIgnored : s.onNewview cfg m conn = s := if_pos hAccepts
    rw [hIgnored, hIgnored]

/-- Delivering a message a second time right after the first changes nothing but the histories and
the timer. -/
theorem redelivery_idempotent {t : Bool} {s s' : Node σ} (hs : Reach cfg t Anything s) {m : Msg} {conn : Conn}
    (hCall : s.handle cfg (.recv m conn) = some s') :
    ∃ s'', s'.handle cfg (.recv m conn) = some s'' ∧ Same s'' s' := by
  have hs' : Reach cfg t Anything s' := .step hs trivial hCall
  have hLog := (logInv_reach hs').2
  have hSettled := settled_reach hs'
  cases m with
  | handshake m =>
    cases hCall
    exact ⟨_, rfl, ⟨rfl, rfl, rfl, rfl, rfl, rfl, rfl, rfl, rfl, rfl, rfl, rfl⟩⟩
  | request m =>
    cases hCall
    exact ⟨_, rfl, onRequest_again m s⟩
  | prePrepare m => exact ⟨_, rfl, onPreprepare_again (Option.some.inj hCall) hLog hSettled⟩
  | prepare m => exact ⟨_, rfl, onPrepare_again (Option.some.inj hCall) hLog hSettled⟩
  | commit m => exact ⟨_, rfl, onCommit_again (Option.some.inj hCall) hSettled⟩
  | checkpoint m =>
    refine ⟨_, rfl, ?_⟩
    rw [onCheckpoint_again (Option.some.inj hCall)]
    exact .refl s'
  | viewChange m => exact onViewchange_again hCall
  | newView m =>
    cases hCall
    refine ⟨_, rfl, ?_⟩
    rw [onNewview_again]
    exact .refl _

/-- The pre-prepare of an executed request once more: the entry goes through all stages again. -/
theorem redelivery_idempotent_executed : ∃ s s' s'' : Node (List String),
    Reach { Config.sample 4 200 100 with id := 1 } false Anything s ∧ s.lastExec = 1 ∧
    s.handle { Config.sample 4 200 100 with id := 1 } (.recv (.prePrepare ⟨0, 1, 7, ⟨"A", 1, 9⟩⟩) 0) = some s' ∧
    s'.sent.length = s.sent.length + 2 ∧
    s'.handle { Config.sample 4 200 100 with id := 1 } (.recv (.prePrepare ⟨0, 1, 7, ⟨"A", 1, 9⟩⟩) 0) = some s'' ∧
    Same s'' s' := by
  obtain ⟨s, s', hs, hCall, hExec, hSent⟩ := exists_call { Config.sample 4 200 100 with id := 1 } false Anything
    [.recv (.handshake ⟨0⟩) 0, .recv (.prePrepare ⟨0, 1, 7, ⟨"A", 1, 9⟩⟩) 0, .recv (.prepare ⟨0, 1, 7, 2⟩) 2,
      .recv (.commit ⟨0, 1, 7, 2⟩) 2, .recv (.commit ⟨0, 1, 7, 3⟩) 3]
    (.recv (.prePrepare ⟨0, 1, 7, ⟨"A", 1, 9⟩⟩) 0)
    (fun s s' => s.lastExec = 1 ∧ s'.sent.length = s.sent.length + 2) (by decide +kernel)
  obtain ⟨s'', hAgain, hSame⟩ := redelivery_idempotent hs hCall
  exact ⟨s, s', s'', hs, hExec, hCall, hSent, hAgain, hSame⟩

end Node
end Pbft
