import Pbft.Node.Announcement
import Pbft.Node.Certificates
import Pbft.Node.Timer

/-! # A backup that waits for a request

Whatever a backup logs starts its timer, and an execution that leaves something waiting restarts it.
A view change stops the timer, though, and the log may keep what it had: after a NEW-VIEW the timer
runs if one of the re-issued pre-prepares has been accepted, and otherwise only by luck is there
nothing to wait for.
-/
namespace Pbft
set_option autoImplicit false

variable {σ : Type} {cfg : Config σ}

namespace Node

theorem isWaitingForRequest_iff {s : Node σ} : s.isWaitingForRequest = true ↔
    ∃ k, s.lastExec < k ∧ (s.entry k).hasPreprepare = true := by
  unfold isWaitingForRequest
  rw [List.any_eq_true]
  constructor
  · rintro ⟨⟨k, e⟩, hMem, hTest⟩
    rw [Std.ExtTreeMap.mem_toList_iff_getElem?_eq_some] at hMem
    simp only [Bool.and_eq_true, decide_eq_true_eq] at hTest
    exact ⟨k, hTest.2, by rw [entry_of_lookup hMem]; exact hTest.1⟩
  · rintro ⟨k, hAbove, hPre⟩
    obtain ⟨e, hLookup⟩ := TreeMap.mem_iff_exists.mp (mem_of_hasPreprepare hPre)
    rw [entry_of_lookup hLookup] at hPre
    refine ⟨(k, e), Std.ExtTreeMap.mem_toList_iff_getElem?_eq_some.mpr hLookup, ?_⟩
    simp only [Bool.and_eq_true, decide_eq_true_eq]
    exact ⟨hPre, hAbove⟩

/-- A replica that waits has its timer running. -/
def Ticking (s : Node σ) : Prop := s.isWaitingForRequest = true → s.timerRunning = true

theorem Ticking.congr {s t : Node σ} (h : Ticking s)
    (hLog : ∀ k, (t.entry k).hasPreprepare = true → (s.entry k).hasPreprepare = true)
    (hLast : t.lastExec = s.lastExec) (hTimer : s.timerRunning = true → t.timerRunning = true) :
    Ticking t := by
  intro hWaiting
  obtain ⟨k, hAbove, hPre⟩ := isWaitingForRequest_iff.mp hWaiting
  exact hTimer (h (isWaitingForRequest_iff.mpr ⟨k, hLast ▸ hAbove, hLog k hPre⟩))

theorem Ticking.write {s t : Node σ} {k : UInt64} {e : ReqLogEntry} (h : Ticking s)
    (hLog : t.reqlog = s.reqlog.insert k e) (hPre : e.hasPreprepare = (s.entry k).hasPreprepare)
    (hLast : t.lastExec = s.lastExec) (hTimer : t.timerRunning = s.timerRunning) : Ticking t := by
  refine h.congr (fun a ha => ?_) hLast fun hRunning => hTimer.trans hRunning
  rw [entry_of_insert hLog] at ha
  split at ha
  · rename_i hKey
    rw [← hKey, ← hPre]
    exact ha
  · exact ha

/-- What is executed has been waited for, so the timer was running and is restarted if need be. -/
theorem ticking_executeEntry {e : ReqLogEntry} {s : Node σ} (w : WindowInv cfg s) (hLog : LogInv cfg s)
    (hIdle : s.viewChanging = false) (hEntry : s.reqlog[s.lastExec + 1]? = some e)
    (hStage : e.stage = .committed) (h : Ticking s) : Ticking (s.executeEntry cfg e) := by
  have hOk := entry_of_lookup hEntry ▸ hLog.entries (s.lastExec + 1)
  have hPre : (s.entry (s.lastExec + 1)).hasPreprepare = true := by
    rw [entry_of_lookup hEntry]
    exact hOk.hasPreprepare (by simp [hStage])
  have hRunning : s.timerRunning = true := by
    refine h (isWaitingForRequest_iff.mpr ⟨s.lastExec + 1, ?_, hPre⟩)
    rw [UInt64.lt_iff_toNat_lt, w.succ hEntry]
    omega
  intro hWaiting
  rw [executeEntry_timer]
  rw [executeEntry_eq] at hWaiting
  simp only [Bool.and_eq_true, Bool.not_eq_true']
  exact ⟨⟨hWaiting, hRunning⟩, hIdle⟩

theorem ticking_executeLoop (fuel : Nat) {s : Node σ} (w : WindowInv cfg s) (hLog : LogInv cfg s)
    (hIdle : s.viewChanging = false) (h : Ticking s) : Ticking (executeLoop cfg fuel s) := by
  have hAll : WindowInv cfg (executeLoop cfg fuel s) ∧ LogInv cfg (executeLoop cfg fuel s) ∧
      (executeLoop cfg fuel s).viewChanging = false ∧ Ticking (executeLoop cfg fuel s) := by
    apply executeLoop_invariant (I := fun t => WindowInv cfg t ∧ LogInv cfg t ∧ t.viewChanging = false ∧ Ticking t)
      _ fuel ⟨w, hLog, hIdle, h⟩
    rintro e t hEntry hStage ⟨w, hLog, hIdle, h⟩
    refine ⟨windowInv_execute w hEntry, logInv_execute w hLog hEntry hStage, ?_,
      ticking_executeEntry w hLog hIdle hEntry hStage h⟩
    rw [executeEntry_eq]
    exact hIdle
  exact hAll.2.2.2

theorem ticking_tryCommit (k : UInt64) {s : Node σ} (w : WindowInv cfg s) (hLog : LogInv cfg s)
    (hIdle : s.viewChanging = false) (h : Ticking s) : Ticking (s.tryCommit cfg k) := by
  unfold tryCommit
  dsimp only
  split
  · rename_i hReady
    have w' : WindowInv cfg (s.markCommitted k) := w.insert_mem _ (mem_of_stage (by simp [hReady.1]))
    have hLog' : LogInv cfg (s.markCommitted k) :=
      hLog.write rfl ((hLog.entries k).markCommitted hReady.1 hReady.2) rfl rfl
    exact ticking_executeLoop _ w' hLog' hIdle (h.write rfl rfl rfl rfl)
  · exact h

theorem ticking_tryPrepare (k : UInt64) {s : Node σ} (w : WindowInv cfg s) (hLog : LogInv cfg s)
    (hIdle : s.viewChanging = false) (h : Ticking s) : Ticking (s.tryPrepare cfg k) := by
  unfold tryPrepare
  dsimp only
  split
  · rename_i hReady
    have w' : WindowInv cfg (s.markPrepared cfg k) := w.insert_mem _ (mem_of_stage (by simp [hReady.1]))
    have hLog' : LogInv cfg (s.markPrepared cfg k) :=
      hLog.write rfl ((hLog.entries k).markPrepared hReady.2.1 hReady.2.2) rfl rfl
    exact ticking_tryCommit k w' hLog' hIdle (h.write rfl rfl rfl rfl)
  · exact h

/-- Whatever was the case before, an accepted pre-prepare starts the timer. -/
theorem ticking_of_guard {m : PrePrepareMsg} {conn : Conn} {fromSelf : Bool} {s : Node σ}
    (hGuard : Guard cfg m conn fromSelf s) (w : WindowInv cfg s) (hLog : LogInv cfg s) :
    Ticking (s.onPreprepareImpl cfg m conn fromSelf) := by
  have hCurrent := hGuard.current
  rw [onPreprepareImpl_of_guard hGuard, startTimerIfNotRunning_eq]
  have w' : WindowInv cfg (acceptPreprepare cfg m
      { s with timerRunning := s.timerRunning || !s.viewChanging }) := w.insertAt _ hCurrent.2.2
  refine ticking_tryPrepare _ w' (hLog.write rfl (.log _) rfl rfl) hCurrent.1 fun _ => ?_
  simp [acceptPreprepare, hCurrent.1]

theorem ticking_onPreprepareImpl (m : PrePrepareMsg) (conn : Conn) (fromSelf : Bool) {s : Node σ}
    (w : WindowInv cfg s) (hLog : LogInv cfg s) (h : Ticking s) :
    Ticking (s.onPreprepareImpl cfg m conn fromSelf) := by
  rcases onPreprepareImpl_cases cfg m conn fromSelf s with hSame | hGuard
  · rwa [hSame]
  · exact ticking_of_guard hGuard w hLog

theorem ticking_onPrepare (m : PrepareMsg) (conn : Conn) {s : Node σ} (w : WindowInv cfg s)
    (hLog : LogInv cfg s) (h : Ticking s) : Ticking (s.onPrepare cfg m conn) := by
  rcases onPrepare_cases cfg m conn s with hSame | ⟨hFrom, hCurrent, hDigest⟩
  · rwa [hSame]
  · rw [onPrepare_of_current hFrom hCurrent hDigest]
    have hVoted := (hLog.entries m.seqNum).vote (Finset.subset_insert m.replicaId _) Finset.Subset.rfl
    exact ticking_tryPrepare _ (w.insertAt _ hCurrent.2.2) (hLog.write rfl hVoted rfl rfl) hCurrent.1
      (h.write rfl rfl rfl rfl)

theorem ticking_onCommit (m : CommitMsg) {s : Node σ} (w : WindowInv cfg s) (hLog : LogInv cfg s)
    (h : Ticking s) : Ticking (s.onCommit cfg m) := by
  rcases onCommit_cases cfg m s with hSame | hCurrent
  · rwa [hSame]
  · rw [onCommit_of_current hCurrent]
    split
    · exact h.write rfl rfl rfl rfl
    · have hVoted := (hLog.entries m.seqNum).vote Finset.Subset.rfl (Finset.subset_insert m.replicaId _)
      exact ticking_tryCommit _ (w.insertAt _ hCurrent.2.2) (hLog.write rfl hVoted rfl rfl) hCurrent.1
        (h.write rfl rfl rfl rfl)

theorem ticking_onRequest {m : RequestMsg} {s : Node σ} (hBackup : cfg.id ≠ s.view % cfg.n) (h : Ticking s) :
    Ticking (s.onRequest cfg m) := by
  rcases onRequest_cases cfg m s with ⟨hProposes, -⟩ | ⟨-, replies, forwarded, timerRunning, hEq⟩
  · exact absurd hProposes.primary hBackup
  · have hTimer : s.timerRunning = true → (s.onRequest cfg m).timerRunning = true := by
      intro hRunning
      unfold onRequest
      split
      · exact hRunning
      · split
        · exact hRunning
        · split
          · split
            · exact hRunning
            · split <;> exact hRunning
          · rw [startTimerIfNotRunning_eq]
            dsimp only
            rw [hRunning]
            rfl
    refine h.congr (fun k hk => ?_) ?_ hTimer
    · rw [hEq] at hk
      exact hk
    · rw [hEq]

theorem ticking_onCheckpoint (m : CheckpointMsg) {s : Node σ} (h : Ticking s) :
    Ticking (s.onCheckpoint cfg m) := by
  rcases onCheckpoint_cases cfg m s with ⟨-, hEq⟩ | ⟨-, hEq | ⟨cp, -, -, -, hEq⟩⟩
  · rwa [hEq]
  · rw [hEq]
    exact h.congr (fun _ hk => hk) rfl id
  · rw [hEq]
    refine h.congr (fun k hk => ?_) rfl id
    rw [entry_of_stabilize] at hk
    split at hk
    · cases hk
    · exact hk

theorem ticking_manageTimer {s : Node σ} (hIdle : s.viewChanging = false) (h : Ticking s) :
    Ticking s.manageTimer := by
  rw [manageTimer_eq]
  intro hWaiting
  simp only [Bool.and_eq_true, Bool.not_eq_true']
  exact ⟨⟨hWaiting, h hWaiting⟩, hIdle⟩

theorem ticking_prePrepares {O : List PrePrepareMsg} {conn : Conn} {s : Node σ} (w : WindowInv cfg s)
    (hLog : LogInv cfg s) (hIdle : s.viewChanging = false)
    (h : Ticking s ∨ ∃ pp ∈ O, pp.view = s.view ∧ Admits s pp) :
    Ticking (O.foldl (fun s pp => s.onPreprepareImpl cfg pp conn true) s) := by
  induction O generalizing s with
  | nil =>
    rcases h with h | ⟨pp, hpp, -⟩
    · exact h
    · cases hpp
  | cons m O ih =>
    have w' := windowInv_onPreprepareImpl m conn true w
    have hLog' := logInv_onPreprepareImpl m conn true w hLog
    have hFrame : Frame s (s.onPreprepareImpl cfg m conn true) := onPreprepareImpl_frame m conn true s
    have hIdle' := hFrame.changing.trans hIdle
    refine ih w' hLog' hIdle' ?_
    rcases onPreprepareImpl_cases cfg m conn true s with hSame | hGuard
    · simp only [hSame]
      rcases h with h | ⟨pp, hpp, hView, hAdmits⟩
      · exact .inl h
      · rcases List.mem_cons.mp hpp with rfl | hLater
        · have hGuard : Guard cfg pp conn true s := ⟨.inl rfl, ⟨hIdle, hView, hAdmits.1⟩, hAdmits.2⟩
          exact .inl (hSame ▸ ticking_of_guard hGuard w hLog)
        · exact .inr ⟨pp, hLater, hView, hAdmits⟩
    · exact .inl (ticking_of_guard hGuard w hLog)

/-- A view is entered with nothing to wait for, or one of its re-issued pre-prepares is accepted. -/
def Resumes (cfg : Config σ) (s₀ : Node σ) : Input → Prop
  | .recv (.newView m) conn => s₀.acceptsNewview cfg m conn →
      s₀.isWaitingForRequest = false ∨ ∃ pp ∈ m.prePrepares, pp.view = m.nextView.toUInt32 ∧ Admits s₀ pp
  | _ => True

instance (s₀ : Node σ) : (i : Input) → Decidable (Resumes cfg s₀ i)
  | .recv (.newView _) _ => inferInstanceAs (Decidable (_ → _))
  | .recv (.handshake _) _ | .recv (.request _) _ | .recv (.prePrepare _) _ | .recv (.prepare _) _
  | .recv (.commit _) _ | .recv (.checkpoint _) _ | .recv (.viewChange _) _ | .timeout => .isTrue trivial

theorem ticking_onNewview {m : NewViewMsg} {conn : Conn} {s : Node σ} (w : WindowInv cfg s)
    (hLog : LogInv cfg s) (hAccepts : s.acceptsNewview cfg m conn)
    (hResumes : Resumes cfg s (.recv (.newView m) conn)) : Ticking (s.onNewview cfg m conn) := by
  have hEntered : LogInv cfg (s.enterView m) := ⟨hLog.entries, hLog.keys, hLog.executed⟩
  have hLoop : Ticking (m.prePrepares.foldl (fun s pp => s.onPreprepareImpl cfg pp conn true)
      (s.enterView m)) := by
    refine ticking_prePrepares (s := s.enterView m) w hEntered rfl ?_
    rcases hResumes hAccepts with hNothing | hSome
    · left
      intro hWaiting
      cases hNothing.symm.trans hWaiting
    · exact .inr hSome
  have hFrame : Frame (s.enterView m) (m.prePrepares.foldl (fun s pp => s.onPreprepareImpl cfg pp conn true)
      (s.enterView m)) := prePrepares_frame m.prePrepares conn (s.enterView m)
  rw [onNewview, if_neg (not_not.mpr hAccepts)]
  exact ticking_manageTimer hFrame.changing (hLoop.congr (fun _ hk => hk) rfl id)

/-- A backup that is not changing its view has its timer running while it waits. -/
def BackupTicks (cfg : Config σ) (s : Node σ) : Prop :=
  cfg.id ≠ s.view % cfg.n → s.viewChanging = false → Ticking s

/-- A view that a VIEW-CHANGE installs is one of the replica's own, if its number is not cut off. -/
theorem primary_of_mine {v : UInt64} (hNarrow : v.toNat < 2 ^ 32)
    (hMine : v % cfg.n.toUInt64 = cfg.id.toUInt64) : cfg.id = v.toUInt32 % cfg.n := by
  apply UInt32.toNat_inj.mp
  have hNat := congrArg UInt64.toNat hMine
  rw [UInt64.toNat_mod, UInt32.toNat_toUInt64, UInt32.toNat_toUInt64] at hNat
  rw [UInt32.toNat_mod, toNat_toUInt32 hNarrow, hNat]

theorem backupTicks_onViewchange {m : ViewChangeMsg} {s s' : Node σ} (hNarrow : m.nextView.toNat < 2 ^ 32)
    (h : BackupTicks cfg s) (hCall : s.onViewchange cfg m = some s') : BackupTicks cfg s' := by
  rcases onViewchange_cases hCall with rfl | ⟨rfl, -⟩ | ⟨⟨-, hMine, -⟩, O, -, rfl⟩
  · exact h
  · exact h
  · intro hBackup
    rw [manageTimer_eq] at hBackup
    exact absurd (primary_of_mine hNarrow hMine) hBackup

theorem backupTicks_handle {i : Input} {s s' : Node σ} (w : WindowInv cfg s) (hLog : LogInv cfg s)
    (hNarrow : NarrowInput cfg s i) (hResumes : Resumes cfg s i) (h : BackupTicks cfg s)
    (hCall : s.handle cfg i = some s') : BackupTicks cfg s' := by
  unfold handle at hCall
  split at hCall
  · cases hCall
    exact h
  · rename_i m conn
    cases hCall
    intro hBackup hIdle
    rcases onRequest_cases cfg m s with ⟨hProposes, hEq⟩ | ⟨-, replies, forwarded, timerRunning, hEq⟩
    · rw [hEq] at hBackup
      exact absurd hProposes.primary hBackup
    · rw [hEq] at hBackup hIdle
      exact ticking_onRequest hBackup (h hBackup hIdle)
  · rename_i m conn
    cases hCall
    intro hBackup hIdle
    have hFrame : Frame s (s.onPreprepareImpl cfg m conn false) := onPreprepareImpl_frame m conn false s
    rw [onPreprepare, hFrame.view] at hBackup
    rw [onPreprepare, hFrame.changing] at hIdle
    exact ticking_onPreprepareImpl m conn false w hLog (h hBackup hIdle)
  · rename_i m conn
    cases hCall
    rcases onPrepare_cases cfg m conn s with hSame | ⟨hFrom, hCurrent, hDigest⟩
    · rwa [hSame]
    · intro hBackup _
      rw [onPrepare_of_current hFrom hCurrent hDigest, (tryPrepare_frame _ _).view] at hBackup
      exact ticking_onPrepare m conn w hLog (h hBackup hCurrent.1)
  · rename_i m conn
    cases hCall
    rcases onCommit_cases cfg m s with hSame | hCurrent
    · rwa [hSame]
    · intro hBackup _
      have hView : (s.onCommit cfg m).view = s.view := by
        rw [onCommit_of_current hCurrent]
        split
        · rfl
        · exact (tryCommit_frame _ _).view
      rw [hView] at hBackup
      exact ticking_onCommit m w hLog (h hBackup hCurrent.1)
  · rename_i m conn
    cases hCall
    intro hBackup hIdle
    have hChanging : (s.onCheckpoint cfg m).viewChanging = s.viewChanging := by
      rcases onCheckpoint_cases cfg m s with ⟨-, hEq⟩ | ⟨-, hEq | ⟨cp, -, -, -, hEq⟩⟩
      · rw [hEq]
      · rw [hEq]
        rfl
      · rw [hEq]
        rfl
    rw [(frozen_onCheckpoint m conn s).view] at hBackup
    rw [hChanging] at hIdle
    exact ticking_onCheckpoint m (h hBackup hIdle)
  · rename_i m conn
    exact backupTicks_onViewchange (hNarrow.viewChange m (.inl ⟨conn, rfl⟩)) h hCall
  · rename_i m conn
    cases hCall
    by_cases hAccepts : s.acceptsNewview cfg m conn
    · exact fun _ _ => ticking_onNewview w hLog hAccepts hResumes
    · rwa [onNewview, if_pos hAccepts]
  · refine backupTicks_onViewchange (hNarrow.viewChange _ (.inr ⟨rfl, rfl⟩)) (fun _ hIdle => ?_) hCall
    rw [beginViewChange_eq] at hIdle
    cases hIdle

end Node
end Pbft
