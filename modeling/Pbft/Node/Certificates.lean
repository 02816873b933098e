import Pbft.Node.Changing
import Pbft.Node.Stages

/-! # The P set

What has been prepared above the low watermark is prepared or committed for good: a pre-prepare that
sets the entry back finds the old prepares and advances it again in the same call. The P set is read
off the stage, however, and has the entries that are exactly prepared.
-/
namespace Pbft
set_option autoImplicit false

variable {σ : Type} {cfg : Config σ}

/-- The entry has been prepared, whether or not it has been committed since. -/
def ReqLogEntry.Past (e : ReqLogEntry) : Prop := e.stage = .prepared ∨ e.stage = .committed

instance (e : ReqLogEntry) : Decidable e.Past := inferInstanceAs (Decidable (_ ∨ _))

theorem ReqLogEntry.Past.tryCommit {e : ReqLogEntry} (h : e.Past) : (e.tryCommit cfg).Past := by
  rcases e.tryCommit_cases cfg with hSame | ⟨-, -, hEq⟩
  · rwa [hSame]
  · rw [hEq]
    exact .inr rfl

theorem ReqLogEntry.Past.tryPrepare {e : ReqLogEntry} (h : e.Past) : (e.tryPrepare cfg).Past := by
  rcases e.tryPrepare_cases cfg with ⟨-, hSame⟩ | ⟨-, stage, hStage, hEq⟩
  · rwa [hSame]
  · rw [hEq]
    exact hStage

theorem ReqLogEntry.past_of_ready {e : ReqLogEntry} (hStage : e.stage = .prePrepared)
    (hPre : e.hasPreprepare = true) (hQuorum : cfg.prepareQuorum ≤ e.prepares.card) :
    (e.tryPrepare cfg).Past := by
  rw [ReqLogEntry.tryPrepare, if_pos ⟨hStage, hPre, hQuorum⟩]
  exact ReqLogEntry.Past.tryCommit (.inl rfl)

namespace Node

/-- The certificates of the replica that no stable checkpoint has made obsolete. -/
def CertInv (s : Node σ) : Prop :=
  ∀ mark ∈ s.prepared, s.h < mark.key →
    (s.entry mark.key).Past ∧ (s.entry mark.key).digest = mark.entry.digest

theorem CertInv.congr {s t : Node σ} (w : CertInv s) (hLog : t.reqlog = s.reqlog)
    (hPrepared : t.prepared = s.prepared) (hLow : t.h = s.h) : CertInv t := by
  intro mark hMark hAbove
  rw [entry_congr hLog]
  exact w mark (hPrepared ▸ hMark) (hLow ▸ hAbove)

theorem CertInv.write {s t : Node σ} {k : UInt64} {e : ReqLogEntry} (w : CertInv s)
    (hLog : t.reqlog = s.reqlog.insert k e) (hPrepared : t.prepared = s.prepared) (hLow : t.h = s.h)
    (hKeeps : (s.entry k).Past → e.Past ∧ e.digest = (s.entry k).digest) : CertInv t := by
  intro mark hMark hAbove
  have hOld := w mark (hPrepared ▸ hMark) (hLow ▸ hAbove)
  rw [entry_of_insert hLog]
  split
  · rename_i hKey
    rw [← hKey] at hOld
    have hNew := hKeeps hOld.1
    exact ⟨hNew.1, hNew.2.trans hOld.2⟩
  · exact hOld

/-- The test adds the entry that it has found ready, and that is past the stage afterwards. -/
theorem tryPrepare_prepared {k : UInt64} {s : Node σ} {mark : Mark}
    (h : mark ∈ (s.tryPrepare cfg k).prepared) : mark ∈ s.prepared ∨
      (mark.key = k ∧ mark.entry = s.entry k ∧ ((s.entry k).tryPrepare cfg).Past) := by
  rcases mem_prepared_tryPrepare h with hOld | ⟨hReady, rfl⟩
  · exact .inl hOld
  · exact .inr ⟨rfl, rfl, ReqLogEntry.past_of_ready hReady.1 hReady.2.1 hReady.2.2⟩

theorem CertInv.tryPrepare {s t : Node σ} {k : UInt64} {e : ReqLogEntry} (w : CertInv s)
    (hLog : t.reqlog = s.reqlog.insert k e) (hPrepared : t.prepared = s.prepared) (hLow : t.h = s.h)
    (hKeeps : (s.entry k).Past → (e.tryPrepare cfg).Past ∧ e.digest = (s.entry k).digest) :
    CertInv (t.tryPrepare cfg k) := by
  have hAfter : (t.tryPrepare cfg k).reqlog = s.reqlog.insert k (e.tryPrepare cfg) :=
    reqlog_setEntry_tryPrepare hLog
  intro mark hMark hAbove
  rw [(tryPrepare_frame k t).low, hLow] at hAbove
  rw [entry_of_insert hAfter]
  rcases tryPrepare_prepared hMark with hOld | ⟨hKey, hEntry, hPast⟩
  · have hBefore := w mark (hPrepared ▸ hOld) hAbove
    split
    · rename_i hKey
      rw [← hKey] at hBefore
      have hNew := hKeeps hBefore.1
      rw [ReqLogEntry.digest_tryPrepare]
      exact ⟨hNew.1, hNew.2.trans hBefore.2⟩
    · exact hBefore
  · rw [entry_of_insert hLog, if_pos rfl] at hEntry hPast
    rw [if_pos hKey.symm, hEntry, ReqLogEntry.digest_tryPrepare]
    exact ⟨hPast, rfl⟩

/-- A pre-prepare for an entry that is past the stage has its digest and finds its prepares. -/
theorem certInv_onPreprepareImpl (m : PrePrepareMsg) (conn : Conn) (fromSelf : Bool) {s : Node σ}
    (hLog : LogInv cfg s) (w : CertInv s) : CertInv (s.onPreprepareImpl cfg m conn fromSelf) := by
  rcases onPreprepareImpl_cases cfg m conn fromSelf s with hSame | hGuard
  · rwa [hSame]
  rw [onPreprepareImpl_of_guard hGuard]
  refine w.tryPrepare (reqlog_accept cfg m s) ?_ ?_ fun hPast => ⟨?_, ?_⟩
  · rw [startTimerIfNotRunning_eq]
    rfl
  · rw [startTimerIfNotRunning_eq]
    rfl
  · apply ReqLogEntry.past_of_ready rfl rfl
    exact ((hLog.entries m.seqNum).prepared hPast).1.trans (Finset.card_le_card (Finset.subset_insert _ _))
  · refine (hGuard.digest ((hLog.entries m.seqNum).hasPreprepare fun hNone => ?_)).symm
    rcases hPast with hPast | hPast
    · cases hNone.symm.trans hPast
    · cases hNone.symm.trans hPast

theorem logInv_onPreprepareImpl (m : PrePrepareMsg) (conn : Conn) (fromSelf : Bool) {s : Node σ}
    (w : WindowInv cfg s) (h : LogInv cfg s) : LogInv cfg (s.onPreprepareImpl cfg m conn fromSelf) := by
  rcases onPreprepareImpl_cases cfg m conn fromSelf s with hSame | hGuard
  · rwa [hSame]
  apply logInv_steps (windowInv_accept w hGuard) _ (accepted_steps hGuard)
  rw [startTimerIfNotRunning_eq]
  exact h.write rfl (.log _) rfl rfl

theorem certInv_prePrepares (O : List PrePrepareMsg) (conn : Conn) {s : Node σ} (hWindow : WindowInv cfg s)
    (hLog : LogInv cfg s) (w : CertInv s) :
    CertInv (O.foldl (fun s pp => s.onPreprepareImpl cfg pp conn true) s) := by
  induction O generalizing s with
  | nil => exact w
  | cons pp O ih =>
    have hLog' := logInv_onPreprepareImpl pp conn true hWindow hLog
    exact ih (windowInv_onPreprepareImpl pp conn true hWindow) hLog' (certInv_onPreprepareImpl pp conn true hLog w)

/-- No request is numbered onto an entry that has been prepared, and the timer does not fire while an
entry above the low watermark is committed. -/
structure Certified (cfg : Config σ) (s₀ : Node σ) (i : Input) : Prop where
  request : ∀ m ∈ request? i, Proposes cfg s₀ m → ¬(s₀.entry (s₀.seqNum + 1)).Past
  timeout : i = .timeout → ∀ k ∈ s₀.reqlog.keys, s₀.h < k → (s₀.entry k).stage ≠ .committed

instance (s₀ : Node σ) (i : Input) : Decidable (Certified cfg s₀ i) :=
  -- The keys of the log are run through, not all the numbers there are.
  have : Decidable (∀ k ∈ s₀.reqlog.keys, s₀.h < k → (s₀.entry k).stage ≠ .committed) :=
    List.decidableBAll _ _
  decidable_of_iff (_ ∧ _) ⟨fun h => ⟨h.1, h.2⟩, fun h => ⟨h.request, h.timeout⟩⟩

theorem certInv_onRequest {m : RequestMsg} {s : Node σ}
    (hFresh : Proposes cfg s m → ¬(s.entry (s.seqNum + 1)).Past) (w : CertInv s) :
    CertInv (s.onRequest cfg m) := by
  rcases onRequest_cases cfg m s with ⟨hProposes, hEq⟩ | ⟨-, replies, forwarded, timerRunning, hEq⟩
  · rw [hEq]
    exact w.write rfl rfl rfl fun hPast => absurd hPast (hFresh hProposes)
  · rw [hEq]
    exact w.congr rfl rfl rfl

theorem certInv_onPrepare (m : PrepareMsg) (conn : Conn) {s : Node σ} (w : CertInv s) :
    CertInv (s.onPrepare cfg m conn) := by
  rcases onPrepare_cases cfg m conn s with hSame | ⟨hFrom, hCurrent, hDigest⟩
  · rwa [hSame]
  · rw [onPrepare_of_current hFrom hCurrent hDigest]
    exact w.tryPrepare rfl rfl rfl fun hPast => ⟨ReqLogEntry.Past.tryPrepare hPast, rfl⟩

theorem certInv_onCommit (m : CommitMsg) {s : Node σ} (w : CertInv s) : CertInv (s.onCommit cfg m) := by
  rcases onCommit_cases cfg m s with hSame | hCurrent
  · rwa [hSame]
  · by_cases hDigest : (s.entry m.seqNum).digest = m.reqDigest
    · have hCall : s.onCommit cfg m = _ := (onCommit_of_current hCurrent).trans (if_neg (not_not.mpr hDigest))
      refine w.write (reqlog_onCommit hCurrent hDigest) ?_ ?_ fun hPast =>
        ⟨ReqLogEntry.Past.tryCommit hPast, ?_⟩
      · exact onCommit_prepared m s
      · rw [hCall, (tryCommit_frame _ _).low]
        rfl
      · rcases ReqLogEntry.tryCommit_cases cfg { s.entry m.seqNum with
            commits := insert m.replicaId (s.entry m.seqNum).commits } with hSame | ⟨-, -, hEq⟩
        · rw [hSame]
        · rw [hEq]
    · rw [onCommit_of_current hCurrent, if_pos hDigest]
      exact w.write rfl rfl rfl fun hPast => ⟨hPast, rfl⟩

theorem certInv_onCheckpoint (m : CheckpointMsg) {s : Node σ} (w : CertInv s) :
    CertInv (s.onCheckpoint cfg m) := by
  rcases onCheckpoint_cases cfg m s with ⟨-, hEq⟩ | ⟨hLow, hEq | ⟨cp, -, -, -, hEq⟩⟩
  · rwa [hEq]
  · rw [hEq]
    exact w.congr rfl rfl rfl
  · rw [hEq]
    intro mark hMark hAbove
    have hKey : m.seqNum < mark.key := hAbove
    rw [entry_of_stabilize, if_neg (UInt64.not_le.mpr hKey)]
    exact w mark hMark (UInt64.lt_of_le_of_lt hLow hKey)

theorem certInv_onViewchange {m : ViewChangeMsg} {s s' : Node σ} (w : CertInv s)
    (hCall : s.onViewchange cfg m = some s') : CertInv s' := by
  rcases onViewchange_cases hCall with rfl | ⟨rfl, -⟩ | ⟨-, O, -, rfl⟩
  · exact w
  · exact w.congr rfl rfl rfl
  · rw [manageTimer_eq]
    exact w.congr rfl rfl rfl

theorem certInv_onNewview (m : NewViewMsg) (conn : Conn) {s : Node σ} (hWindow : WindowInv cfg s)
    (hLog : LogInv cfg s) (w : CertInv s) : CertInv (s.onNewview cfg m conn) := by
  unfold onNewview
  split
  · exact w
  · rw [manageTimer_eq]
    have hEntered : LogInv cfg (s.enterView m) := ⟨hLog.entries, hLog.keys, hLog.executed⟩
    have hWindow' : WindowInv cfg (s.enterView m) := hWindow
    have hBefore : CertInv (s.enterView m) := w.congr rfl rfl rfl
    have hLoop := certInv_prePrepares m.prePrepares conn hWindow' hEntered hBefore
    exact hLoop.congr rfl rfl rfl

theorem certInv_handle {i : Input} {s s' : Node σ} (hWindow : WindowInv cfg s) (hLog : LogInv cfg s)
    (hCertified : Certified cfg s i) (w : CertInv s) (hCall : s.handle cfg i = some s') : CertInv s' := by
  unfold handle at hCall
  split at hCall
  · cases hCall
    exact w.congr rfl rfl rfl
  · cases hCall
    exact certInv_onRequest (hCertified.request _ rfl) w
  · cases hCall
    exact certInv_onPreprepareImpl _ _ _ hLog w
  · cases hCall
    exact certInv_onPrepare _ _ w
  · cases hCall
    exact certInv_onCommit _ w
  · cases hCall
    exact certInv_onCheckpoint _ w
  · exact certInv_onViewchange w hCall
  · cases hCall
    exact certInv_onNewview _ _ hWindow hLog w
  · refine certInv_onViewchange ?_ hCall
    rw [beginViewChange_eq]
    exact w.congr rfl rfl rfl

theorem certInv_reach {t : Bool} {s : Node σ} (hs : Reach cfg t (Certified cfg) s) : CertInv s := by
  refine Machine.Reach.invariant (I := CertInv) ?_ (fun s i s' hs w hCertified hCall => ?_) hs
  · intro mark hMark
    cases hMark
  · obtain ⟨hWindow, hLog⟩ := logInv_reach hs
    exact certInv_handle hWindow hLog hCertified w hCall

/-- Only the timer makes a replica broadcast a VIEW-CHANGE, with what its log says at that moment. -/
theorem viewChange_sent {i : Input} {s s' : Node σ} (hCall : s.handle cfg i = some s') :
    ∃ l, s'.sent = s.sent ++ l ∧ ∀ vc, Msg.viewChange vc ∈ l → i = .timeout ∧ vc = s.viewChangeMsg cfg := by
  refine handle_invariant (I := fun t => ∃ l, t.sent = s.sent ++ l ∧
    ∀ vc, Msg.viewChange vc ∈ l → i = .timeout ∧ vc = s.viewChangeMsg cfg) (fun t t' ht hStep => ?_)
    ⟨[], by simp⟩ hCall
  obtain ⟨l, hSent, hl⟩ := ht
  have hOther : ∀ m : Msg, (∀ vc, Msg.viewChange vc ≠ m) → t'.sent = t.sent ++ [m] →
      ∃ l, t'.sent = s.sent ++ l ∧ ∀ vc, Msg.viewChange vc ∈ l → i = .timeout ∧ vc = s.viewChangeMsg cfg := by
    intro m hm hNew
    refine ⟨l ++ [m], by rw [hNew, hSent, List.append_assoc], fun vc hvc => ?_⟩
    rcases List.mem_append.mp hvc with hOld | hLast
    · exact hl vc hOld
    · exact absurd (List.mem_singleton.mp hLast) (hm vc)
  cases hStep with
  | propose | accept | markPrepared | installView => exact hOther _ (by simp) rfl
  | execute =>
    rw [executeEntry_eq] at hOther ⊢
    dsimp only at hOther ⊢
    split
    · rename_i hDue
      rw [if_pos hDue] at hOther
      exact hOther _ (by simp) rfl
    · exact ⟨l, hSent, hl⟩
  | beginViewChange hi =>
    rw [beginViewChange_eq]
    refine ⟨[.viewChange (s.viewChangeMsg cfg)], rfl, fun vc hvc => ⟨hi, ?_⟩⟩
    exact Msg.viewChange.inj (List.mem_singleton.mp hvc)
  | _ => exact ⟨l, hSent, hl⟩

/-- In a run whose calls are all certified, every VIEW-CHANGE that is broadcast has a proof for
whatever has been prepared above the low watermark, with its digest. -/
theorem preparedProofs_complete {t : Bool} {s s' : Node σ} {i : Input} (hs : Reach cfg t (Certified cfg) s)
    (hCertified : Certified cfg s i) (hCall : s.handle cfg i = some s') :
    ∃ l, s'.sent = s.sent ++ l ∧ ∀ vc, Msg.viewChange vc ∈ l → ∀ mark ∈ s.prepared, s.h < mark.key →
      ∃ pr ∈ vc.preparedProofs, pr.seqNum = mark.key ∧ pr.digest = mark.entry.digest := by
  obtain ⟨l, hSent, hl⟩ := viewChange_sent hCall
  refine ⟨l, hSent, fun vc hvc mark hMark hAbove => ?_⟩
  obtain ⟨hi, rfl⟩ := hl vc hvc
  obtain ⟨hPast, hDigest⟩ := certInv_reach hs mark hMark hAbove
  have hOk := (logInv_reach hs).2.entries mark.key
  have hKey : mark.key ∈ s.reqlog := mem_of_stage (by rcases hPast with h | h <;> simp [h])
  have hStage : (s.entry mark.key).stage = .prepared :=
    hPast.resolve_right (hCertified.timeout hi mark.key (Std.ExtTreeMap.mem_keys.mpr hKey) hAbove)
  obtain ⟨e, hLookup⟩ := TreeMap.mem_iff_exists.mp hKey
  rw [entry_of_lookup hLookup] at hOk hStage hDigest
  refine ⟨⟨e.view, e.seq, e.digest⟩, mem_preparedProofs.mpr ⟨_, e, hLookup, hStage, rfl⟩, ?_, hDigest⟩
  exact hOk.seq (hOk.hasPreprepare (by simp [hStage]))

/-- Replica 2 has prepared number 1 in view 0, and again in view 1, where it is re-issued. -/
def preparedTwice : List Input :=
  [.recv (.handshake ⟨0⟩) 0, .recv (.handshake ⟨1⟩) 1, .recv (.prePrepare ⟨0, 1, 7, ⟨"A", 1, 9⟩⟩) 0,
    .recv (.prepare ⟨0, 1, 7, 1⟩) 1, .timeout,
    .recv (.newView ⟨1, [⟨1, 0, 0, [], []⟩, ⟨1, 0, 1, [], []⟩, ⟨1, 0, 2, [], [⟨0, 1, 7⟩]⟩],
      [⟨1, 1, 7, ⟨"", 0, 0⟩⟩]⟩) 1]

theorem preparedProofs_complete_again : ∃ s s' : Node (List String),
    Reach { Config.sample 4 200 100 with id := 2 } false
      (Certified { Config.sample 4 200 100 with id := 2 }) s ∧
    s.handle { Config.sample 4 200 100 with id := 2 } .timeout = some s' ∧
    (∃ mark ∈ s.prepared, mark.view = 0 ∧ mark.key = 1 ∧ mark.entry.digest = 7) ∧ s.view = 1 ∧
    ∃ vc, Msg.viewChange vc ∈ s'.sent ∧ ∃ pr ∈ vc.preparedProofs, pr.seqNum = 1 ∧ pr.digest = 7 := by
  let cfg := { Config.sample 4 200 100 with id := 2 }
  obtain ⟨s, s', hs, hCall, hCertified, hMark, hView, hLow, hSent⟩ := exists_call cfg false (Certified cfg)
    preparedTwice .timeout (fun s s' => Certified cfg s .timeout ∧
      (∃ mark ∈ s.prepared, mark.view = 0 ∧ mark.key = 1 ∧ mark.entry.digest = 7) ∧ s.view = 1 ∧ s.h = 0 ∧
      s'.sent = s.sent ++ [.viewChange (s.viewChangeMsg cfg)]) (by decide +kernel)
  obtain ⟨l, hNew, hComplete⟩ := preparedProofs_complete hs hCertified hCall
  rw [hSent] at hNew
  have hl := List.append_cancel_left hNew
  refine ⟨s, s', hs, hCall, hMark, hView, s.viewChangeMsg cfg, ?_, ?_⟩
  · rw [hSent]
    exact List.mem_append_right _ List.mem_cons_self
  · obtain ⟨mark, hMem, -, hKey, hDigest⟩ := hMark
    have hAbove : s.h < mark.key := by
      rw [hLow, hKey]
      decide
    have hProof := hComplete _ (hl ▸ List.mem_cons_self) mark hMem hAbove
    rwa [hKey, hDigest] at hProof

/-- Number 1 is committed and executed when the timer fires, because number 2 is still waiting. -/
theorem preparedProofs_skip_committed : ∃ s s' : Node (List String),
    Reach { Config.sample 4 200 100 with id := 1 } false Fires s ∧ s.timerRunning = true ∧
    s.handle { Config.sample 4 200 100 with id := 1 } .timeout = some s' ∧
    ∃ mark ∈ s.prepared, s.h < mark.key ∧ ∃ vc, s'.sent = s.sent ++ [.viewChange vc] ∧
      ¬∃ pr ∈ vc.preparedProofs, pr.seqNum = mark.key ∧ pr.digest = mark.entry.digest := by
  let cfg := { Config.sample 4 200 100 with id := 1 }
  obtain ⟨s, s', hs, hCall, hTimer, ⟨mark, hMark, hAbove⟩, hSent, hEmpty⟩ := exists_call cfg false Fires
    [.recv (.handshake ⟨0⟩) 0, .recv (.prePrepare ⟨0, 1, 7, ⟨"A", 1, 9⟩⟩) 0,
      .recv (.prePrepare ⟨0, 2, 9, ⟨"B", 2, 9⟩⟩) 0, .recv (.prepare ⟨0, 1, 7, 2⟩) 2,
      .recv (.commit ⟨0, 1, 7, 0⟩) 0, .recv (.commit ⟨0, 1, 7, 2⟩) 2] .timeout
    (fun s s' => s.timerRunning = true ∧ (∃ mark ∈ s.prepared, s.h < mark.key) ∧
      s'.sent = s.sent ++ [.viewChange (s.viewChangeMsg cfg)] ∧ s.preparedProofs = []) (by decide +kernel)
  refine ⟨s, s', hs, hTimer, hCall, mark, hMark, hAbove, s.viewChangeMsg cfg, hSent, ?_⟩
  rintro ⟨pr, hpr, -⟩
  change pr ∈ s.preparedProofs at hpr
  rw [hEmpty] at hpr
  cases hpr

end Node
end Pbft
