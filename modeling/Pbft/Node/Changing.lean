import Pbft.Node.LogEntry
import Pbft.Node.OSet

/-! # A replica that is changing its view

From start_view_change until a view is installed a replica takes no part in the ordering of
requests: only votes for checkpoints and VIEW-CHANGE messages still do something. What it has
announced as prepared therefore stays true of its log, above the low watermark. The timer is off
all that time, so the announcement is the last one.
-/
namespace Pbft
set_option autoImplicit false

variable {σ : Type} {cfg : Config σ}

def Msg.viewChange? : Msg → Option ViewChangeMsg
  | .viewChange m => some m
  | _ => none

namespace Node

/-- The timer fires only while it is running. -/
def Fires (s : Node σ) (i : Input) : Prop := i = .timeout → s.timerRunning = true

instance (s : Node σ) (i : Input) : Decidable (Fires s i) := inferInstanceAs (Decidable (_ → _))

def lastViewChange (s : Node σ) : Option ViewChangeMsg := (s.sent.filterMap Msg.viewChange?).getLast?

/-- What a call leaves as it was. Its only effect on the log is that of a checkpoint that has become
stable. -/
structure Frozen (cfg : Config σ) (s : Node σ) (i : Input) (s' : Node σ) : Prop where
  view : s'.view = s.view
  lastExec : s'.lastExec = s.lastExec
  service : s'.service = s.service
  lastReplies : s'.lastReplies = s.lastReplies
  sent : s'.sent = s.sent
  timer : s'.timerRunning = s.timerRunning
  count : s'.viewChangeTimeoutCount = s.viewChangeTimeoutCount
  log : (s'.h = s.h ∧ s'.reqlog = s.reqlog) ∨
    ∃ m conn, i = .recv (.checkpoint m) conn ∧ Stabilizes cfg s m ∧ s'.h = m.seqNum ∧
      s'.reqlog = s.reqlog.filter fun k _ => !decide (k ≤ m.seqNum)

theorem Frozen.refl (s : Node σ) (i : Input) : Frozen cfg s i s :=
  ⟨rfl, rfl, rfl, rfl, rfl, rfl, rfl, .inl ⟨rfl, rfl⟩⟩

theorem frozen_onRequest (m : RequestMsg) (conn : Conn) {s : Node σ} (h : s.viewChanging = true) :
    Frozen cfg s (.recv (.request m) conn) (s.onRequest cfg m) := by
  unfold onRequest
  split
  · exact ⟨rfl, rfl, rfl, rfl, rfl, rfl, rfl, .inl ⟨rfl, rfl⟩⟩
  · rw [if_pos h]
    exact .refl s _

theorem frozen_onCheckpoint (m : CheckpointMsg) (conn : Conn) (s : Node σ) :
    Frozen cfg s (.recv (.checkpoint m) conn) (s.onCheckpoint cfg m) := by
  rcases onCheckpoint_cases cfg m s with ⟨-, hEq⟩ | ⟨hLow, hEq | ⟨cp, rfl, hUnstable, hQuorum, hEq⟩⟩
  · rw [hEq]
    exact .refl s _
  · rw [hEq]
    exact ⟨rfl, rfl, rfl, rfl, rfl, rfl, rfl, .inl ⟨rfl, rfl⟩⟩
  · rw [hEq]
    exact ⟨rfl, rfl, rfl, rfl, rfl, rfl, rfl, .inr ⟨m, conn, rfl, ⟨hLow, hUnstable, hQuorum⟩, rfl, rfl⟩⟩

theorem not_changing_onNewview {m : NewViewMsg} {conn : Conn} {s : Node σ}
    (h : s.acceptsNewview cfg m conn) : (s.onNewview cfg m conn).viewChanging = false := by
  unfold onNewview
  rw [if_neg (not_not.mpr h), manageTimer_eq]
  exact (prePrepares_frame m.prePrepares conn (s.enterView m)).changing

theorem frozen_handle {s s' : Node σ} {i : Input} (h : s.viewChanging = true) (hi : i ≠ .timeout)
    (hCall : s.handle cfg i = some s') (hEnd : s'.viewChanging = true) : Frozen cfg s i s' := by
  have hNot : ∀ {view k}, ¬Current s view k := fun hCurrent => by simp [hCurrent.1] at h
  unfold handle at hCall
  split at hCall
  · cases hCall
    exact ⟨rfl, rfl, rfl, rfl, rfl, rfl, rfl, .inl ⟨rfl, rfl⟩⟩
  · cases hCall
    exact frozen_onRequest _ _ h
  · rename_i m conn
    cases hCall
    rcases onPreprepareImpl_cases cfg m conn false s with hSame | hGuard
    · rw [onPreprepare, hSame]
      exact .refl s _
    · exact absurd hGuard.current hNot
  · rename_i m conn
    cases hCall
    rcases onPrepare_cases cfg m conn s with hSame | ⟨-, hCurrent, -⟩
    · rw [hSame]
      exact .refl s _
    · exact absurd hCurrent hNot
  · rename_i m conn
    cases hCall
    rcases onCommit_cases cfg m s with hSame | hCurrent
    · rw [hSame]
      exact .refl s _
    · exact absurd hCurrent hNot
  · cases hCall
    exact frozen_onCheckpoint _ _ s
  · rcases onViewchange_cases hCall with rfl | ⟨rfl, -⟩ | ⟨-, O, -, rfl⟩
    · exact .refl _ _
    · exact ⟨rfl, rfl, rfl, rfl, rfl, rfl, rfl, .inl ⟨rfl, rfl⟩⟩
    · rw [manageTimer_eq] at hEnd
      cases hEnd
  · rename_i m conn
    cases hCall
    by_cases hAccepts : s.acceptsNewview cfg m conn
    · rw [not_changing_onNewview hAccepts] at hEnd
      cases hEnd
    · unfold onNewview
      rw [if_pos hAccepts]
      exact .refl s _
  · exact absurd rfl hi

/-- Only the timer starts a view change. -/
theorem changing_handle {s s' : Node σ} {i : Input} (hi : i ≠ .timeout) (hCall : s.handle cfg i = some s')
    (hEnd : s'.viewChanging = true) : s.viewChanging = true := by
  have hKeeps : s.viewChanging = false → s'.viewChanging = false := by
    intro hIdle
    refine handle_invariant (I := fun t => t.viewChanging = false) (fun t t' ht hStep => ?_) hIdle hCall
    cases hStep with
    | beginViewChange h => exact absurd h hi
    | execute =>
      rw [executeEntry_eq]
      exact ht
    | installView | enterView => rfl
    | _ => exact ht
  by_contra hIdle
  rw [hKeeps (Bool.eq_false_iff.mpr hIdle)] at hEnd
  cases hEnd

theorem mem_preparedProofs_of_log {s t : Node σ} (hLog : LogInv cfg s) {m : CheckpointMsg}
    (h : t.reqlog = s.reqlog.filter fun k _ => !decide (k ≤ m.seqNum)) {pr : PrepareProof}
    (hAbove : m.seqNum < pr.seqNum) : pr ∈ t.preparedProofs ↔ pr ∈ s.preparedProofs := by
  rw [mem_preparedProofs, mem_preparedProofs]
  constructor
  · rintro ⟨k, e, hLookup, hRest⟩
    rw [h, TreeMap.lookup_filter] at hLookup
    exact ⟨k, e, hLookup.1, hRest⟩
  · rintro ⟨k, e, hLookup, hStage, rfl⟩
    refine ⟨k, e, ?_, hStage, rfl⟩
    rw [h, TreeMap.lookup_filter]
    have hOk := entry_of_lookup hLookup ▸ hLog.entries k
    have hSeq : e.seq = k := hOk.seq (hOk.hasPreprepare (by simp [hStage]))
    refine ⟨hLookup, ?_⟩
    dsimp only at hAbove
    rw [hSeq] at hAbove
    simpa using hAbove

/-- The announcement of the view change that is under way, against the log as it is now. -/
structure Announced (s : Node σ) (vc : ViewChangeMsg) : Prop where
  last : s.lastViewChange = some vc
  true : ∀ pr : PrepareProof, s.h < pr.seqNum → (pr ∈ vc.preparedProofs ↔ pr ∈ s.preparedProofs)

structure ChangeInv (s : Node σ) : Prop where
  timer : s.viewChanging = true → s.timerRunning = false
  once : s.viewChanging = true → s.viewChangeTimeoutCount = 1
  idle : s.viewChanging = false → s.viewChangeTimeoutCount = 0
  announced : s.viewChanging = true → ∃ vc, Announced s vc

theorem changeInv_init (cfg : Config σ) : ChangeInv (Node.init cfg false) where
  timer h := by cases h
  once h := by cases h
  idle _ := rfl
  announced h := by cases h

theorem idle_step {s₀ s s' : Node σ} {i : Input}
    (w : s.viewChanging = false → s.viewChangeTimeoutCount = 0) (hStep : Step cfg s₀ i s s') :
    s'.viewChanging = false → s'.viewChangeTimeoutCount = 0 := by
  cases hStep with
  | beginViewChange =>
    rw [beginViewChange_eq]
    intro h
    cases h
  | installView | enterView => exact fun _ => rfl
  | execute =>
    rw [executeEntry_eq]
    exact w
  | _ => exact w

theorem idle_handle {s s' : Node σ} {i : Input} (w : s.viewChanging = false → s.viewChangeTimeoutCount = 0)
    (hCall : s.handle cfg i = some s') : s'.viewChanging = false → s'.viewChangeTimeoutCount = 0 :=
  handle_invariant (I := fun t => t.viewChanging = false → t.viewChangeTimeoutCount = 0)
    (fun _ _ => idle_step) w hCall

theorem announced_frozen {s s' : Node σ} {i : Input} {vc : ViewChangeMsg} (hLog : LogInv cfg s)
    (w : Announced s vc) (hFrozen : Frozen cfg s i s') : Announced s' vc := by
  refine ⟨?_, fun pr hAbove => ?_⟩
  · unfold lastViewChange
    rw [hFrozen.sent]
    exact w.last
  · rcases hFrozen.log with ⟨hLow, hSame⟩ | ⟨m, conn, -, hStable, hLow, hFilter⟩
    · rw [hLow] at hAbove
      unfold preparedProofs
      rw [hSame]
      exact w.true pr hAbove
    · rw [hLow] at hAbove
      rw [mem_preparedProofs_of_log hLog hFilter hAbove]
      exact w.true pr (UInt64.lt_of_le_of_lt hStable.1 hAbove)

/-- The timer has fired, so no view change was under way; the one that begins now has its
announcement at the end of the broadcasts. -/
theorem changeInv_startViewChange {s s' : Node σ} (w : ChangeInv s) (hFires : s.timerRunning = true)
    (hCall : s.startViewChange cfg = some s') : ChangeInv s' := by
  have hIdle : s.viewChanging = false := by
    by_contra h
    rw [w.timer (Bool.not_eq_false _ ▸ h)] at hFires
    cases hFires
  have hCount := w.idle hIdle
  have hBegun : ChangeInv (s.beginViewChange cfg) := by
    rw [beginViewChange_eq]
    refine ⟨fun _ => rfl, fun _ => ?_, fun h => ?_, fun _ => ⟨s.viewChangeMsg cfg, ?_, fun _ _ => .rfl⟩⟩
    · dsimp only
      rw [hCount]
      rfl
    · cases h
    · unfold lastViewChange
      simp [Msg.viewChange?]
  rcases onViewchange_cases hCall with rfl | ⟨rfl, -⟩ | ⟨-, O, -, rfl⟩
  · exact hBegun
  · refine ⟨hBegun.timer, hBegun.once, hBegun.idle, fun h => ?_⟩
    obtain ⟨vc, hLast, hTrue⟩ := hBegun.announced h
    exact ⟨vc, hLast, hTrue⟩
  · rw [manageTimer_eq]
    refine ⟨?_, ?_, fun _ => rfl, ?_⟩
    · intro h
      cases h
    · intro h
      cases h
    · intro h
      cases h

theorem changeInv_handle {s s' : Node σ} {i : Input} (hLog : LogInv cfg s) (hFires : Fires s i)
    (w : ChangeInv s) (hCall : s.handle cfg i = some s') : ChangeInv s' := by
  by_cases hi : i = .timeout
  · subst hi
    exact changeInv_startViewChange w (hFires rfl) hCall
  · have hFrozen : s'.viewChanging = true → s.viewChanging = true ∧ Frozen cfg s i s' := by
      intro hEnd
      have h := changing_handle hi hCall hEnd
      exact ⟨h, frozen_handle h hi hCall hEnd⟩
    refine ⟨fun hEnd => ?_, fun hEnd => ?_, idle_handle w.idle hCall, fun hEnd => ?_⟩
    · obtain ⟨h, hSame⟩ := hFrozen hEnd
      rw [hSame.timer]
      exact w.timer h
    · obtain ⟨h, hSame⟩ := hFrozen hEnd
      rw [hSame.count]
      exact w.once h
    · obtain ⟨h, hSame⟩ := hFrozen hEnd
      obtain ⟨vc, hvc⟩ := w.announced h
      exact ⟨vc, announced_frozen hLog hvc hSame⟩

theorem changeInv_reach {s : Node σ} (hs : Reach cfg false Fires s) : ChangeInv s :=
  Machine.Reach.invariant (changeInv_init cfg)
    (fun _ _ _ hs w hFires hCall => changeInv_handle (logInv_reach hs).2 hFires w hCall) hs

/-- The calls of a view change so far, none of which has ended it. -/
structure Throughout (calls : List (Node σ × Input)) (t : Node σ) : Prop where
  before : ∀ c ∈ calls, c.1.viewChanging = true
  now : t.viewChanging = true

/-- What the log of a changing replica has lost, it has lost to a checkpoint. -/
structure Kept (cfg : Config σ) (s : Node σ) (calls : List (Node σ × Input)) (t : Node σ) : Prop where
  low : s.h ≤ t.h
  old : ∀ (k : UInt64) (e : ReqLogEntry), t.reqlog[k]? = some e → s.reqlog[k]? = some e
  removed : ∀ (k : UInt64) (e : ReqLogEntry), s.reqlog[k]? = some e → t.reqlog[k]? = none → k ≤ t.h ∧
    ∃ u m conn, (u, .recv (.checkpoint m) conn) ∈ calls ∧ Stabilizes cfg u m ∧ m.seqNum = t.h

theorem Kept.snoc {s t t' : Node σ} {calls : List (Node σ × Input)} {i : Input} (w : Kept cfg s calls t)
    (hFrozen : Frozen cfg t i t') : Kept cfg s (calls ++ [(t, i)]) t' := by
  rcases hFrozen.log with ⟨hLow, hSame⟩ | ⟨m, conn, rfl, hStable, hLow, hFilter⟩
  · refine ⟨hLow ▸ w.low, fun k e h => w.old k e (hSame ▸ h), fun k e h hNone => ?_⟩
    obtain ⟨hk, u, m, conn, hMem, hStable, hSeq⟩ := w.removed k e h (hSame ▸ hNone)
    rw [hLow]
    exact ⟨hk, u, m, conn, List.mem_append_left _ hMem, hStable, hSeq⟩
  · refine ⟨?_, fun k e h => ?_, fun k e h hNone => ?_⟩
    · rw [hLow]
      exact UInt64.le_trans w.low hStable.1
    · rw [hFilter, TreeMap.lookup_filter] at h
      exact w.old k e h.1
    · refine ⟨?_, t, m, conn, List.mem_append_right _ List.mem_cons_self, hStable, hLow.symm⟩
      rw [hLow]
      by_contra hk
      cases hBefore : t.reqlog[k]? with
      | none =>
        have hGone := (w.removed k e h hBefore).1
        exact hk (UInt64.le_trans hGone hStable.1)
      | some e' =>
        have hLookup : t'.reqlog[k]? = some e' := by
          rw [hFilter, TreeMap.lookup_filter]
          exact ⟨hBefore, by simpa using hk⟩
        rw [hLookup] at hNone
        cases hNone

/-- A replica that is changing its view, after any calls that have not ended the change: nothing is
executed, no entry of the log is new or different, and none is gone but for a stable checkpoint. The
P set of the last VIEW-CHANGE is still what the log says above the low watermark. -/
theorem frozen_while_changing {s t : Node σ} {calls : List (Node σ × Input)} (hs : Reach cfg false Fires s)
    (hPath : Machine.Path (machine cfg false) Fires s calls t) (hChanging : Throughout calls t) :
    t.view = s.view ∧ t.lastExec = s.lastExec ∧ t.service = s.service ∧ t.lastReplies = s.lastReplies ∧
    Kept cfg s calls t ∧ ∃ vc, s.lastViewChange = some vc ∧ Announced t vc := by
  induction hPath with
  | nil =>
    refine ⟨rfl, rfl, rfl, rfl, ⟨UInt64.le_refl _, fun _ _ h => h, fun k e h hNone => ?_⟩, ?_⟩
    · rw [h] at hNone
      cases hNone
    · obtain ⟨vc, hvc⟩ := (changeInv_reach hs).announced hChanging.now
      exact ⟨vc, hvc.last, hvc⟩
  | @snoc calls t t' i hPath hFires hCall ih =>
    have hBefore : Throughout calls t :=
      ⟨fun c hc => hChanging.before c (List.mem_append_left _ hc),
        hChanging.before _ (List.mem_append_right _ List.mem_cons_self)⟩
    obtain ⟨hView, hExec, hService, hReplies, hKept, vc, hvc, hAnnounced⟩ := ih hBefore
    have hReach := hPath.reach hs
    -- the timer is off, so it is not what makes the call
    have hi : i ≠ .timeout := by
      rintro rfl
      have hOff := (changeInv_reach hReach).timer hBefore.now
      rw [hFires rfl] at hOff
      cases hOff
    have hFrozen := frozen_handle hBefore.now hi hCall hChanging.now
    exact ⟨hFrozen.view.trans hView, hFrozen.lastExec.trans hExec, hFrozen.service.trans hService,
      hFrozen.lastReplies.trans hReplies, hKept.snoc hFrozen, vc, hvc,
      announced_frozen (logInv_reach hReach).2 hAnnounced hFrozen⟩

/-- Replica 1 has prepared the numbers 1 and 2 when its timer fires; while it is changing its view
the checkpoint at 1 becomes stable. -/
def preparedThenTimeout : List Input :=
  [.recv (.handshake ⟨0⟩) 0, .recv (.prePrepare ⟨0, 1, 7, ⟨"A", 1, 9⟩⟩) 0,
    .recv (.prePrepare ⟨0, 2, 9, ⟨"B", 2, 9⟩⟩) 0, .recv (.prepare ⟨0, 1, 7, 2⟩) 2,
    .recv (.prepare ⟨0, 2, 9, 2⟩) 2, .timeout, .recv (.checkpoint ⟨1, 5, 0⟩) 0, .recv (.checkpoint ⟨1, 5, 2⟩) 2]

theorem frozen_while_changing_checkpoint : ∃ s t : Node (List String),
    Reach { Config.sample 4 200 100 with id := 1 } false Fires s ∧
    s.handle { Config.sample 4 200 100 with id := 1 } (.recv (.checkpoint ⟨1, 5, 3⟩) 3) = some t ∧
    s.reqlog.size = 2 ∧ t.reqlog.size = 1 ∧ t.view = 0 ∧ ∃ vc, s.lastViewChange = some vc ∧
      vc.preparedProofs = [⟨0, 1, 7⟩, ⟨0, 2, 9⟩] ∧ (⟨0, 2, 9⟩ : PrepareProof) ∈ t.preparedProofs := by
  let cfg := { Config.sample 4 200 100 with id := 1 }
  let i : Input := .recv (.checkpoint ⟨1, 5, 3⟩) 3
  obtain ⟨s, t, hs, hCall, hBefore, hNow, hSize, hSize', hView, hLow, hVc⟩ := exists_call cfg false Fires
    preparedThenTimeout i (fun s t => s.viewChanging = true ∧ t.viewChanging = true ∧ s.reqlog.size = 2 ∧
      t.reqlog.size = 1 ∧ s.view = 0 ∧ t.h = 1 ∧
      s.lastViewChange.map (·.preparedProofs) = some [⟨0, 1, 7⟩, ⟨0, 2, 9⟩]) (by decide +kernel)
  have hPath : Machine.Path (machine cfg false) Fires s ([] ++ [(s, i)]) t :=
    .snoc .nil (by simp [Fires, i]) hCall
  have hChanging : Throughout ([] ++ [(s, i)]) t := by
    refine ⟨fun c hc => ?_, hNow⟩
    rw [List.mem_singleton.mp hc]
    exact hBefore
  obtain ⟨hSame, -, -, -, -, vc, hLast, hAnnounced⟩ := frozen_while_changing hs hPath hChanging
  rw [hLast] at hVc
  have hP : vc.preparedProofs = [⟨0, 1, 7⟩, ⟨0, 2, 9⟩] := Option.some.inj hVc
  refine ⟨s, t, hs, hCall, hSize, hSize', hSame.trans hView, vc, hLast, hP, ?_⟩
  refine (hAnnounced.true ⟨0, 2, 9⟩ ?_).mp (by simp [hP])
  rw [hLow]
  decide

end Node
end Pbft
