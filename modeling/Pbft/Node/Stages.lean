import Pbft.Node.Settled

/-! # What the quorum tests make of an entry

Both tests read and write one entry of the log, and what follows them writes none. So the log after
a test is the log before it with that entry advanced as far as its votes allow.
-/
namespace Pbft
set_option autoImplicit false

variable {σ : Type} {cfg : Config σ}

namespace ReqLogEntry

def tryCommit (cfg : Config σ) (e : ReqLogEntry) : ReqLogEntry :=
  if e.stage = .prepared ∧ e.commits.card ≥ cfg.quorum then { e with stage := .committed } else e

def tryPrepare (cfg : Config σ) (e : ReqLogEntry) : ReqLogEntry :=
  if e.stage = .prePrepared ∧ e.hasPreprepare ∧ e.prepares.card ≥ cfg.prepareQuorum then
    tryCommit cfg { e with stage := .prepared, commits := insert cfg.id e.commits }
  else e

/-- The tests write the stage and the commits. -/
theorem tryCommit_cases (cfg : Config σ) (e : ReqLogEntry) :
    e.tryCommit cfg = e ∨ (e.stage = .prepared ∧ cfg.quorum ≤ e.commits.card ∧
      e.tryCommit cfg = { e with stage := .committed }) := by
  unfold tryCommit
  split
  · rename_i hReady
    exact .inr ⟨hReady.1, hReady.2, rfl⟩
  · exact .inl rfl

/-- The condition of the first test. -/
def Ready (cfg : Config σ) (e : ReqLogEntry) : Prop :=
  e.stage = .prePrepared ∧ e.hasPreprepare = true ∧ cfg.prepareQuorum ≤ e.prepares.card

instance (cfg : Config σ) (e : ReqLogEntry) : Decidable (Ready cfg e) := inferInstanceAs (Decidable (_ ∧ _ ∧ _))

theorem tryPrepare_of_ready {e : ReqLogEntry} (h : Ready cfg e) :
    e.tryPrepare cfg = tryCommit cfg { e with stage := .prepared, commits := insert cfg.id e.commits } :=
  if_pos h

theorem tryPrepare_of_not_ready {e : ReqLogEntry} (h : ¬Ready cfg e) : e.tryPrepare cfg = e := if_neg h

theorem tryPrepare_cases (cfg : Config σ) (e : ReqLogEntry) : (¬Ready cfg e ∧ e.tryPrepare cfg = e) ∨
    (Ready cfg e ∧ ∃ stage, (stage = .prepared ∨ stage = .committed) ∧
      e.tryPrepare cfg = { e with stage := stage, commits := insert cfg.id e.commits }) := by
  by_cases hReady : Ready cfg e
  · refine .inr ⟨hReady, ?_⟩
    rw [tryPrepare_of_ready hReady]
    rcases tryCommit_cases cfg { e with stage := .prepared, commits := insert cfg.id e.commits } with
      hSame | ⟨-, -, hEq⟩
    · exact ⟨.prepared, .inl rfl, hSame⟩
    · exact ⟨.committed, .inr rfl, hEq⟩
  · exact .inl ⟨hReady, tryPrepare_of_not_ready hReady⟩

theorem hasPreprepare_tryPrepare (cfg : Config σ) (e : ReqLogEntry) :
    (e.tryPrepare cfg).hasPreprepare = e.hasPreprepare := by
  rcases tryPrepare_cases cfg e with ⟨-, hSame⟩ | ⟨-, stage, -, hEq⟩
  · rw [hSame]
  · rw [hEq]

theorem view_tryPrepare (cfg : Config σ) (e : ReqLogEntry) : (e.tryPrepare cfg).view = e.view := by
  rcases tryPrepare_cases cfg e with ⟨-, hSame⟩ | ⟨-, stage, -, hEq⟩
  · rw [hSame]
  · rw [hEq]

theorem digest_tryPrepare (cfg : Config σ) (e : ReqLogEntry) : (e.tryPrepare cfg).digest = e.digest := by
  rcases tryPrepare_cases cfg e with ⟨-, hSame⟩ | ⟨-, stage, -, hEq⟩
  · rw [hSame]
  · rw [hEq]

/-- A prepare may be counted before the tests or after them. -/
theorem tryPrepare_prepare (cfg : Config σ) (e : ReqLogEntry) (r : UInt32) :
    tryPrepare cfg { e.tryPrepare cfg with prepares := insert r (e.tryPrepare cfg).prepares } =
      tryPrepare cfg { e with prepares := insert r e.prepares } := by
  by_cases hReady : Ready cfg e
  · have hMore : e.prepares.card ≤ (insert r e.prepares).card := Finset.card_le_card (Finset.subset_insert _ _)
    have hAgain : Ready cfg { e with prepares := insert r e.prepares } :=
      ⟨hReady.1, hReady.2.1, hReady.2.2.trans hMore⟩
    rw [tryPrepare_of_ready hReady, tryPrepare_of_ready hAgain]
    unfold tryCommit
    by_cases hQuorum : (insert cfg.id e.commits).card ≥ cfg.quorum
    · simp [hQuorum, tryPrepare]
    · simp [hQuorum, tryPrepare]
  · rw [tryPrepare_of_not_ready hReady]

/-- So may a commit. -/
theorem tryPrepare_commit {e : ReqLogEntry} (r : UInt32) (hStage : e.stage = .prePrepared) :
    tryCommit cfg { e.tryPrepare cfg with commits := insert r (e.tryPrepare cfg).commits } =
      tryPrepare cfg { e with commits := insert r e.commits } := by
  by_cases hReady : Ready cfg e
  · have hComm : insert cfg.id (insert r e.commits) = insert r (insert cfg.id e.commits) :=
      Finset.insert_comm _ _ _
    have hMore : (insert cfg.id e.commits).card ≤ (insert r (insert cfg.id e.commits)).card :=
      Finset.card_le_card (Finset.subset_insert _ _)
    have hAgain : Ready cfg { e with commits := insert r e.commits } := hReady
    rw [tryPrepare_of_ready hReady, tryPrepare_of_ready hAgain]
    unfold tryCommit
    by_cases hQuorum : (insert cfg.id e.commits).card ≥ cfg.quorum
    · have hStill : (insert r (insert cfg.id e.commits)).card ≥ cfg.quorum := hQuorum.trans hMore
      simp [hQuorum, hStill, hComm]
    · simp [hQuorum, hComm]
  · have hNot : ¬Ready cfg { e with commits := insert r e.commits } := hReady
    rw [tryPrepare_of_not_ready hReady, tryPrepare_of_not_ready hNot]
    simp [tryCommit, hStage]

end ReqLogEntry

namespace Node

theorem entry_tryCommit (k : UInt64) (s : Node σ) :
    (s.tryCommit cfg k).entry k = (s.entry k).tryCommit cfg := by
  unfold tryCommit ReqLogEntry.tryCommit
  dsimp only
  split
  · rw [tryExecute, entry, executeLoop_reqlog, ← entry, entry_of_insert rfl, if_pos rfl]
  · rfl

theorem entry_tryPrepare (k : UInt64) (s : Node σ) :
    (s.tryPrepare cfg k).entry k = (s.entry k).tryPrepare cfg := by
  unfold tryPrepare ReqLogEntry.tryPrepare
  dsimp only
  split
  · rw [entry_tryCommit, entry_of_insert rfl, if_pos rfl]
  · rfl

theorem reqlog_tryCommit {k : UInt64} {s : Node σ} (hk : k ∈ s.reqlog) :
    (s.tryCommit cfg k).reqlog = s.reqlog.insert k ((s.entry k).tryCommit cfg) := by
  unfold tryCommit ReqLogEntry.tryCommit
  dsimp only
  split
  · rw [tryExecute, executeLoop_reqlog]
    rfl
  · obtain ⟨e, he⟩ := TreeMap.mem_iff_exists.mp hk
    rw [entry_of_lookup he]
    exact (TreeMap.insert_of_lookup he).symm

theorem reqlog_tryPrepare {k : UInt64} {s : Node σ} (hk : k ∈ s.reqlog) :
    (s.tryPrepare cfg k).reqlog = s.reqlog.insert k ((s.entry k).tryPrepare cfg) := by
  unfold tryPrepare ReqLogEntry.tryPrepare
  dsimp only
  split
  · have hMarked : k ∈ (s.markPrepared cfg k).reqlog := by simp [markPrepared]
    rw [reqlog_tryCommit hMarked, entry_of_insert rfl, if_pos rfl]
    exact TreeMap.insert_insert k _ _
  · obtain ⟨e, he⟩ := TreeMap.mem_iff_exists.mp hk
    rw [entry_of_lookup he]
    exact (TreeMap.insert_of_lookup he).symm

/-- An entry is written and tested at once. -/
theorem reqlog_setEntry_tryPrepare {k : UInt64} {e : ReqLogEntry} {s t : Node σ}
    (hLog : t.reqlog = s.reqlog.insert k e) :
    (t.tryPrepare cfg k).reqlog = s.reqlog.insert k (e.tryPrepare cfg) := by
  have hk : k ∈ t.reqlog := by simp [hLog]
  rw [reqlog_tryPrepare hk, entry_of_insert hLog, if_pos rfl, hLog, TreeMap.insert_insert]

theorem reqlog_setEntry_tryCommit {k : UInt64} {e : ReqLogEntry} {s t : Node σ}
    (hLog : t.reqlog = s.reqlog.insert k e) :
    (t.tryCommit cfg k).reqlog = s.reqlog.insert k (e.tryCommit cfg) := by
  have hk : k ∈ t.reqlog := by simp [hLog]
  rw [reqlog_tryCommit hk, entry_of_insert hLog, if_pos rfl, hLog, TreeMap.insert_insert]

theorem executeLoop_prepared (fuel : Nat) (s : Node σ) : (executeLoop cfg fuel s).prepared = s.prepared := by
  apply executeLoop_invariant (I := fun t => t.prepared = s.prepared) _ fuel rfl
  intro e t _ _ hSame
  rw [executeEntry_eq]
  exact hSame

theorem tryCommit_prepared (k : UInt64) (s : Node σ) : (s.tryCommit cfg k).prepared = s.prepared := by
  unfold tryCommit
  dsimp only
  split
  · exact executeLoop_prepared _ _
  · rfl

theorem onCommit_prepared (m : CommitMsg) (s : Node σ) : (s.onCommit cfg m).prepared = s.prepared := by
  rcases onCommit_cases cfg m s with hSame | hCurrent
  · rw [hSame]
  · rw [onCommit_of_current hCurrent]
    split
    · rfl
    · exact tryCommit_prepared _ _

theorem mem_prepared_tryPrepare {k : UInt64} {s : Node σ} {c : Mark} (hc : c ∈ (s.tryPrepare cfg k).prepared) :
    c ∈ s.prepared ∨ (ReqLogEntry.Ready cfg (s.entry k) ∧ c = ⟨s.view, k, s.entry k⟩) := by
  unfold tryPrepare at hc
  dsimp only at hc
  split at hc
  · rename_i hReady
    rw [tryCommit_prepared] at hc
    rcases List.mem_append.mp hc with hOld | hNew
    · exact .inl hOld
    · exact .inr ⟨hReady, List.mem_singleton.mp hNew⟩
  · exact .inl hc

/-- The entry that an accepted pre-prepare is logged in. -/
def logged (cfg : Config σ) (m : PrePrepareMsg) (e : ReqLogEntry) : ReqLogEntry :=
  { e with
    view := m.view
    seq := m.seqNum
    digest := m.reqDigest
    req := m.req
    hasPreprepare := true
    stage := .prePrepared
    prepares := insert cfg.id e.prepares }

theorem reqlog_accept (cfg : Config σ) (m : PrePrepareMsg) (s : Node σ) :
    (s.startTimerIfNotRunning.acceptPreprepare cfg m).reqlog =
      s.reqlog.insert m.seqNum (logged cfg m (s.entry m.seqNum)) := by
  rw [startTimerIfNotRunning_eq]
  rfl

theorem reqlog_onPreprepareImpl {m : PrePrepareMsg} {conn : Conn} {fromSelf : Bool} {s : Node σ}
    (h : Guard cfg m conn fromSelf s) : (s.onPreprepareImpl cfg m conn fromSelf).reqlog =
      s.reqlog.insert m.seqNum ((logged cfg m (s.entry m.seqNum)).tryPrepare cfg) := by
  rw [onPreprepareImpl_of_guard h]
  exact reqlog_setEntry_tryPrepare (reqlog_accept cfg m s)

theorem reqlog_onPrepare {m : PrepareMsg} {conn : Conn} {s : Node σ}
    (hFrom : s.comesFromPrimary cfg conn s.view = false) (hCurrent : Current s m.view m.seqNum)
    (hDigest : (s.entry m.seqNum).hasPreprepare = true → (s.entry m.seqNum).digest = m.reqDigest) :
    (s.onPrepare cfg m conn).reqlog = s.reqlog.insert m.seqNum (ReqLogEntry.tryPrepare cfg
      { s.entry m.seqNum with prepares := insert m.replicaId (s.entry m.seqNum).prepares }) := by
  rw [onPrepare_of_current hFrom hCurrent hDigest]
  exact reqlog_setEntry_tryPrepare rfl

theorem reqlog_onCommit {m : CommitMsg} {s : Node σ} (hCurrent : Current s m.view m.seqNum)
    (hDigest : (s.entry m.seqNum).digest = m.reqDigest) :
    (s.onCommit cfg m).reqlog = s.reqlog.insert m.seqNum (ReqLogEntry.tryCommit cfg
      { s.entry m.seqNum with commits := insert m.replicaId (s.entry m.seqNum).commits }) := by
  rw [onCommit_of_current hCurrent, if_neg (not_not.mpr hDigest)]
  exact reqlog_setEntry_tryCommit rfl

end Node
end Pbft
