import Pbft.Node.Changing

/-! # The timeouts that a replica arms

The length of a timeout doubles with view_change_timeout_count_. Every place that arms the timer
is followed here next to the handler it belongs to, so that the exponents of all timeouts of a call
are known. They are all zero: while the counter is not, the replica is changing its view and arms
nothing, and installing a view puts the counter back first.
-/
namespace Pbft
set_option autoImplicit false

variable {σ : Type} {cfg : Config σ}

namespace Node

/-- The exponent of the timeout that start_timer_if_not_running adds, if it adds one. -/
def startArms (s : Node σ) : List UInt32 :=
  if !s.timerRunning && !s.viewChanging then [s.viewChangeTimeoutCount] else []

def manageArms (s : Node σ) : List UInt32 :=
  if !s.isWaitingForRequest then [] else if s.timerRunning then s.stopTimer.startArms else []

/-- manage_timer comes after last_exec_ has been moved on, and reads nothing else that the pass
has written. -/
def executeArms (cfg : Config σ) : Nat → Node σ → List UInt32
  | 0, _ => []
  | fuel + 1, s =>
    match s.reqlog[s.lastExec + 1]? with
    | none => []
    | some e =>
      if e.stage ≠ .committed then []
      else manageArms { s with lastExec := s.lastExec + 1 } ++ executeArms cfg fuel (s.executeEntry cfg e)

def tryCommitArms (cfg : Config σ) (k : UInt64) (s : Node σ) : List UInt32 :=
  if (s.entry k).stage = .prepared ∧ (s.entry k).commits.card ≥ cfg.quorum then
    executeArms cfg ((s.markCommitted k).reqlog.size + 1) (s.markCommitted k)
  else []

def tryPrepareArms (cfg : Config σ) (k : UInt64) (s : Node σ) : List UInt32 :=
  if (s.entry k).stage = .prePrepared ∧ (s.entry k).hasPreprepare ∧
      (s.entry k).prepares.card ≥ cfg.prepareQuorum then
    tryCommitArms cfg k (s.markPrepared cfg k)
  else []

def requestArms (cfg : Config σ) (m : RequestMsg) (s : Node σ) : List UInt32 :=
  match s.lastReplies[m.clientId]?.filter (·.timestamp == m.timestamp) with
  | some _ => []
  | none => if s.viewChanging then [] else if s.isPrimary cfg then [] else s.startArms

def prePrepareArms (cfg : Config σ) (m : PrePrepareMsg) (conn : Conn) (fromSelf : Bool) (s : Node σ) :
    List UInt32 :=
  if !fromSelf && !s.comesFromPrimary cfg conn s.view then []
  else if s.viewChanging then []
  else if m.view ≠ s.view then []
  else if ¬s.inWindow m.seqNum then []
  else if (s.entry m.seqNum).hasPreprepare ∧ (s.entry m.seqNum).digest ≠ m.reqDigest then []
  else s.startArms ++ tryPrepareArms cfg m.seqNum (s.startTimerIfNotRunning.acceptPreprepare cfg m)

def prepareArms (cfg : Config σ) (m : PrepareMsg) (conn : Conn) (s : Node σ) : List UInt32 :=
  if s.comesFromPrimary cfg conn s.view then []
  else if s.viewChanging then []
  else if m.view ≠ s.view then []
  else if ¬s.inWindow m.seqNum then []
  else
    let e := s.entry m.seqNum
    if e.hasPreprepare ∧ e.digest ≠ m.reqDigest then []
    else tryPrepareArms cfg m.seqNum
      (s.setEntry m.seqNum { e with prepares := insert m.replicaId e.prepares })

def commitArms (cfg : Config σ) (m : CommitMsg) (s : Node σ) : List UInt32 :=
  if s.viewChanging then []
  else if m.view ≠ s.view then []
  else if ¬s.inWindow m.seqNum then []
  else
    let e := s.entry m.seqNum
    if e.digest ≠ m.reqDigest then []
    else tryCommitArms cfg m.seqNum (s.setEntry m.seqNum { e with commits := insert m.replicaId e.commits })

def viewChangeArms (cfg : Config σ) (m : ViewChangeMsg) (s : Node σ) : List UInt32 :=
  if Completes cfg s m then
    match oSet cfg m.nextView (s.reports m) with
    | some O => manageArms ((s.storeViewChange m).installView m.nextView (s.reports m) O)
    | none => []
  else []

def oSetArms (cfg : Config σ) (conn : Conn) : List PrePrepareMsg → Node σ → List UInt32
  | [], s => manageArms { s with seqNum := s.recomputeHighestSequence }
  | pp :: O, s => prePrepareArms cfg pp conn true s ++ oSetArms cfg conn O (s.onPreprepareImpl cfg pp conn true)

def newViewArms (cfg : Config σ) (m : NewViewMsg) (conn : Conn) (s : Node σ) : List UInt32 :=
  if s.acceptsNewview cfg m conn then oSetArms cfg conn m.prePrepares (s.enterView m) else []

/-- The exponents of the timeouts that a call arms, in this order. -/
def armed (cfg : Config σ) (s : Node σ) : Input → List UInt32
  | .recv (.handshake _) _ => []
  | .recv (.request m) _ => requestArms cfg m s
  | .recv (.prePrepare m) conn => prePrepareArms cfg m conn false s
  | .recv (.prepare m) conn => prepareArms cfg m conn s
  | .recv (.commit m) _ => commitArms cfg m s
  | .recv (.checkpoint _) _ => []
  | .recv (.viewChange m) _ => viewChangeArms cfg m s
  | .recv (.newView m) conn => newViewArms cfg m conn s
  | .timeout => viewChangeArms cfg (s.viewChangeMsg cfg) (s.beginViewChange cfg)

theorem executeEntry_timer (e : ReqLogEntry) (s : Node σ) : (s.executeEntry cfg e).timerRunning =
    (isWaitingForRequest { s with lastExec := s.lastExec + 1 } && s.timerRunning && !s.viewChanging) := by
  unfold executeEntry
  simp only [manageTimer_eq]
  split <;> rfl

/-- Neither does the counter change nor is a timer armed that was off. -/
structure Quiet (s t : Node σ) : Prop where
  count : t.viewChangeTimeoutCount = s.viewChangeTimeoutCount
  timer : t.timerRunning = true → s.timerRunning = true

theorem Quiet.refl (s : Node σ) : Quiet s s := ⟨rfl, id⟩

theorem Quiet.trans {s t u : Node σ} (h : Quiet s t) (h' : Quiet t u) : Quiet s u :=
  ⟨h'.count.trans h.count, fun hu => h.timer (h'.timer hu)⟩

theorem manageTimer_quiet (s : Node σ) : Quiet s s.manageTimer := by
  rw [manageTimer_eq]
  refine ⟨rfl, fun h => ?_⟩
  simp only [Bool.and_eq_true] at h
  exact h.1.2

theorem executeEntry_quiet (e : ReqLogEntry) (s : Node σ) : Quiet s (s.executeEntry cfg e) := by
  constructor
  · rw [executeEntry_eq]
  · rw [executeEntry_timer]
    intro h
    simp only [Bool.and_eq_true] at h
    exact h.1.2

theorem executeLoop_quiet (fuel : Nat) (s : Node σ) : Quiet s (executeLoop cfg fuel s) := by
  apply executeLoop_invariant _ fuel (.refl s)
  intro e t _ _ hQuiet
  exact hQuiet.trans (executeEntry_quiet e t)

theorem tryCommit_quiet (k : UInt64) (s : Node σ) : Quiet s (s.tryCommit cfg k) := by
  unfold tryCommit
  dsimp only
  split
  · exact (Quiet.mk rfl id : Quiet s (s.markCommitted k)).trans (executeLoop_quiet _ _)
  · exact .refl s

theorem tryPrepare_quiet (k : UInt64) (s : Node σ) : Quiet s (s.tryPrepare cfg k) := by
  unfold tryPrepare
  dsimp only
  split
  · exact (Quiet.mk rfl id : Quiet s (s.markPrepared cfg k)).trans (tryCommit_quiet _ _)
  · exact .refl s

/-- All exponents of the list are the counter of s, which is not changing its view. -/
def ArmedAt (s : Node σ) (l : List UInt32) : Prop :=
  ∀ x ∈ l, s.viewChanging = false ∧ x = s.viewChangeTimeoutCount

theorem armedAt_nil (s : Node σ) : ArmedAt s [] := by
  intro x hx
  cases hx

theorem ArmedAt.append {s : Node σ} {l l' : List UInt32} (h : ArmedAt s l) (h' : ArmedAt s l') :
    ArmedAt s (l ++ l') := by
  intro x hx
  rcases List.mem_append.mp hx with hx | hx
  · exact h x hx
  · exact h' x hx

theorem ArmedAt.congr {s t : Node σ} {l : List UInt32} (h : ArmedAt t l)
    (hChanging : t.viewChanging = s.viewChanging)
    (hCount : t.viewChangeTimeoutCount = s.viewChangeTimeoutCount) : ArmedAt s l := by
  intro x hx
  obtain ⟨hIdle, hEq⟩ := h x hx
  exact ⟨hChanging ▸ hIdle, hEq.trans hCount⟩

theorem armedAt_startArms (s : Node σ) : ArmedAt s s.startArms := by
  unfold startArms
  split
  · rename_i hIdle
    simp only [Bool.and_eq_true, Bool.not_eq_true'] at hIdle
    intro x hx
    exact ⟨hIdle.2, List.mem_singleton.mp hx⟩
  · exact armedAt_nil s

theorem armedAt_manageArms (s : Node σ) : ArmedAt s s.manageArms := by
  unfold manageArms
  split
  · exact armedAt_nil s
  · split
    · rw [stopTimer_eq]
      exact (armedAt_startArms _).congr rfl rfl
    · exact armedAt_nil s

theorem armedAt_executeArms (fuel : Nat) (s : Node σ) : ArmedAt s (executeArms cfg fuel s) := by
  induction fuel generalizing s with
  | zero => exact armedAt_nil s
  | succ fuel ih =>
    rw [executeArms]
    split
    · exact armedAt_nil s
    · split
      · exact armedAt_nil s
      · refine ((armedAt_manageArms _).congr rfl rfl).append ((ih _).congr ?_ (executeEntry_quiet _ s).count)
        rw [executeEntry_eq]

theorem armedAt_tryCommitArms (k : UInt64) (s : Node σ) : ArmedAt s (tryCommitArms cfg k s) := by
  unfold tryCommitArms
  split
  · exact (armedAt_executeArms _ _).congr rfl rfl
  · exact armedAt_nil s

theorem armedAt_tryPrepareArms (k : UInt64) (s : Node σ) : ArmedAt s (tryPrepareArms cfg k s) := by
  unfold tryPrepareArms
  split
  · exact (armedAt_tryCommitArms _ _).congr rfl rfl
  · exact armedAt_nil s

theorem armedAt_requestArms (m : RequestMsg) (s : Node σ) : ArmedAt s (requestArms cfg m s) := by
  unfold requestArms
  split
  · exact armedAt_nil s
  · split
    · exact armedAt_nil s
    · split
      · exact armedAt_nil s
      · exact armedAt_startArms s

theorem armedAt_prePrepareArms (m : PrePrepareMsg) (conn : Conn) (fromSelf : Bool) (s : Node σ) :
    ArmedAt s (prePrepareArms cfg m conn fromSelf s) := by
  unfold prePrepareArms
  iterate 5
    split
    · exact armedAt_nil s
  apply (armedAt_startArms s).append
  rw [startTimerIfNotRunning_eq]
  exact (armedAt_tryPrepareArms _ _).congr rfl rfl

theorem armedAt_prepareArms (m : PrepareMsg) (conn : Conn) (s : Node σ) :
    ArmedAt s (prepareArms cfg m conn s) := by
  unfold prepareArms
  dsimp only
  iterate 5
    split
    · exact armedAt_nil s
  exact (armedAt_tryPrepareArms _ _).congr rfl rfl

theorem armedAt_commitArms (m : CommitMsg) (s : Node σ) : ArmedAt s (commitArms cfg m s) := by
  unfold commitArms
  dsimp only
  iterate 4
    split
    · exact armedAt_nil s
  exact (armedAt_tryCommitArms _ _).congr rfl rfl

theorem onPreprepareImpl_count (m : PrePrepareMsg) (conn : Conn) (fromSelf : Bool) (s : Node σ) :
    (s.onPreprepareImpl cfg m conn fromSelf).viewChangeTimeoutCount = s.viewChangeTimeoutCount := by
  rcases onPreprepareImpl_cases cfg m conn fromSelf s with hSame | hGuard
  · rw [hSame]
  · rw [onPreprepareImpl_of_guard hGuard, (tryPrepare_quiet _ _).count, startTimerIfNotRunning_eq]
    rfl

theorem armedAt_oSetArms (conn : Conn) (O : List PrePrepareMsg) (s : Node σ) :
    ArmedAt s (oSetArms cfg conn O s) := by
  induction O generalizing s with
  | nil => exact (armedAt_manageArms _).congr rfl rfl
  | cons pp O ih =>
    apply (armedAt_prePrepareArms pp conn true s).append
    exact (ih _).congr (onPreprepareImpl_frame pp conn true s).changing (onPreprepareImpl_count pp conn true s)

/-- A view that is installed resets the counter before any timeout is armed. -/
theorem viewChangeArms_zero (m : ViewChangeMsg) (s : Node σ) : ∀ x ∈ viewChangeArms cfg m s, x = 0 := by
  intro x hx
  unfold viewChangeArms at hx
  split at hx
  · split at hx
    · exact (armedAt_manageArms _ x hx).2
    · cases hx
  · cases hx

theorem armed_zero {s : Node σ} (hIdle : s.viewChanging = false → s.viewChangeTimeoutCount = 0) (i : Input) :
    ∀ x ∈ armed cfg s i, x = 0 := by
  have hZero : ∀ {l}, ArmedAt s l → ∀ x ∈ l, x = 0 := by
    intro l hl x hx
    rw [(hl x hx).2, hIdle (hl x hx).1]
  unfold armed
  split
  · intro x hx
    cases hx
  · exact hZero (armedAt_requestArms _ s)
  · exact hZero (armedAt_prePrepareArms _ _ _ s)
  · exact hZero (armedAt_prepareArms _ _ s)
  · exact hZero (armedAt_commitArms _ s)
  · intro x hx
    cases hx
  · exact viewChangeArms_zero _ s
  · intro x hx
    unfold newViewArms at hx
    split at hx
    · exact (armedAt_oSetArms _ _ _ x hx).2
    · cases hx
  · exact viewChangeArms_zero _ _

theorem startTimer_armed {s : Node σ} (h : s.startTimerIfNotRunning.timerRunning = true) :
    s.timerRunning = true ∨ s.startArms ≠ [] := by
  unfold startTimerIfNotRunning at h
  unfold startArms
  split at h
  · rename_i hIdle
    rw [if_pos hIdle]
    exact .inr (by simp)
  · exact .inl h

theorem onRequest_armed {m : RequestMsg} {s : Node σ} (h : (s.onRequest cfg m).timerRunning = true) :
    s.timerRunning = true ∨ requestArms cfg m s ≠ [] := by
  unfold onRequest at h
  unfold requestArms
  cases hReply : s.lastReplies[m.clientId]?.filter (·.timestamp == m.timestamp) with
  | some info =>
    rw [hReply] at h
    exact .inl h
  | none =>
    rw [hReply] at h
    dsimp only at h ⊢
    split at h
    · exact .inl h
    · rename_i hChanging
      rw [if_neg hChanging]
      split at h
      · left
        split at h
        · exact h
        · split at h <;> exact h
      · rename_i hPrimary
        rw [if_neg hPrimary]
        exact startTimer_armed h

theorem onPreprepareImpl_armed {m : PrePrepareMsg} {conn : Conn} {fromSelf : Bool} {s : Node σ}
    (h : (s.onPreprepareImpl cfg m conn fromSelf).timerRunning = true) :
    s.timerRunning = true ∨ prePrepareArms cfg m conn fromSelf s ≠ [] := by
  unfold onPreprepareImpl at h
  unfold prePrepareArms
  iterate 5
    split at h
    · exact .inl h
    rename_i hTest
    rw [if_neg hTest]
    clear hTest
  have hStarted := (tryPrepare_quiet _ _).timer h
  rcases startTimer_armed hStarted with hBefore | hArmed
  · exact .inl hBefore
  · exact .inr (List.append_ne_nil_of_left_ne_nil hArmed _)

theorem oSet_armed {conn : Conn} {O : List PrePrepareMsg} {s : Node σ}
    (h : (O.foldl (fun s pp => s.onPreprepareImpl cfg pp conn true) s).timerRunning = true) :
    s.timerRunning = true ∨ oSetArms cfg conn O s ≠ [] := by
  induction O generalizing s with
  | nil => exact .inl h
  | cons pp O ih =>
    rw [oSetArms]
    rcases ih h with hBefore | hLater
    · rcases onPreprepareImpl_armed hBefore with hFirst | hArmed
      · exact .inl hFirst
      · exact .inr (List.append_ne_nil_of_left_ne_nil hArmed _)
    · exact .inr (List.append_ne_nil_of_right_ne_nil _ hLater)

/-- No call turns the timer on but by one of the timeouts of the list. -/
theorem handle_armed {s s' : Node σ} {i : Input} (hCall : s.handle cfg i = some s')
    (h : s'.timerRunning = true) : s.timerRunning = true ∨ armed cfg s i ≠ [] := by
  have hViewChange : ∀ {m} {t : Node σ}, t.onViewchange cfg m = some s' → t.timerRunning = true := by
    intro m t hCall
    rcases onViewchange_cases hCall with rfl | ⟨rfl, -⟩ | ⟨-, O, -, rfl⟩
    · exact h
    · exact h
    · have hBefore := (manageTimer_quiet _).timer h
      exact hBefore
  unfold handle at hCall
  split at hCall
  · cases hCall
    exact .inl h
  · cases hCall
    exact onRequest_armed h
  · cases hCall
    exact onPreprepareImpl_armed h
  · rename_i m conn
    cases hCall
    left
    rcases onPrepare_cases cfg m conn s with hSame | ⟨hFrom, hCurrent, hDigest⟩
    · rwa [hSame] at h
    · rw [onPrepare_of_current hFrom hCurrent hDigest] at h
      have hBefore := (tryPrepare_quiet _ _).timer h
      exact hBefore
  · rename_i m conn
    cases hCall
    left
    rcases onCommit_cases cfg m s with hSame | hCurrent
    · rwa [hSame] at h
    · rw [onCommit_of_current hCurrent] at h
      split at h
      · exact h
      · have hBefore := (tryCommit_quiet _ _).timer h
        exact hBefore
  · rename_i m conn
    cases hCall
    left
    rwa [← (frozen_onCheckpoint m conn s).timer]
  · exact .inl (hViewChange hCall)
  · rename_i m conn
    cases hCall
    unfold onNewview at h
    split at h
    · exact .inl h
    · rename_i hAccepts
      have hFold := (manageTimer_quiet _).timer h
      rw [armed, newViewArms, if_pos (not_not.mp hAccepts)]
      exact oSet_armed hFold
  · have hOff := hViewChange hCall
    rw [beginViewChange_eq] at hOff
    cases hOff

/-- The back-off never takes effect. The counter is 1 from the timeout on until a view is installed
and 0 otherwise, so the shift is in range, every timeout that a call arms has the base length, and no
timeout of a view change follows another before a view is installed. -/
theorem timer_backoff {s : Node σ} (hs : Reach cfg false Fires s) :
    (s.viewChanging = true → s.timerRunning = false ∧ s.viewChangeTimeoutCount = 1) ∧
    (s.viewChanging = false → s.viewChangeTimeoutCount = 0) ∧ s.viewChangeTimeoutCount < 32 ∧
    (∀ i s', s.handle cfg i = some s' → (∀ x ∈ armed cfg s i, x = 0) ∧
      (s'.timerRunning = true → s.timerRunning = true ∨ armed cfg s i ≠ [])) ∧
    ∀ calls t, Machine.Path (machine cfg false) Fires s calls t →
      (∀ c ∈ calls, c.1.viewChanging = true) → ∀ c ∈ calls, c.2 ≠ .timeout := by
  have w := changeInv_reach hs
  refine ⟨fun h => ⟨w.timer h, w.once h⟩, w.idle, ?_, fun i s' hCall => ⟨armed_zero w.idle i, ?_⟩, ?_⟩
  · cases hChanging : s.viewChanging with
    | true =>
      rw [w.once hChanging]
      decide
    | false =>
      rw [w.idle hChanging]
      decide
  · exact handle_armed hCall
  · intro calls t hPath hChanging c hc hTimeout
    obtain ⟨hReach, hFires⟩ := hPath.mem hs hc
    have hOff := (changeInv_reach hReach).timer (hChanging c hc)
    rw [hFires hTimeout] at hOff
    cases hOff

theorem timer_backoff_backup : ∃ s s' : Node (List String),
    Reach { Config.sample 4 200 100 with id := 1 } false Fires s ∧
    s.handle { Config.sample 4 200 100 with id := 1 } (.recv (.prePrepare ⟨0, 1, 7, ⟨"A", 1, 9⟩⟩) 0) = some s' ∧
    armed { Config.sample 4 200 100 with id := 1 } s (.recv (.prePrepare ⟨0, 1, 7, ⟨"A", 1, 9⟩⟩) 0) = [0] ∧
    s'.timerRunning = true ∧ s.viewChangeTimeoutCount < 32 := by
  obtain ⟨s, s', hs, hCall, hArmed, hRunning⟩ := exists_call { Config.sample 4 200 100 with id := 1 } false
    Fires [.recv (.handshake ⟨0⟩) 0] (.recv (.prePrepare ⟨0, 1, 7, ⟨"A", 1, 9⟩⟩) 0)
    (fun s s' => armed { Config.sample 4 200 100 with id := 1 } s
        (.recv (.prePrepare ⟨0, 1, 7, ⟨"A", 1, 9⟩⟩) 0) = [0] ∧ s'.timerRunning = true) (by decide +kernel)
  exact ⟨s, s', hs, hCall, hArmed, hRunning, (timer_backoff hs).2.2.1⟩

end Node
end Pbft
