import Pbft.Node.Guards

/-! # Every handler is a sequence of listed changes

A call that returns is a finite sequence of the changes of Step, all of them with the state and
the input of the call as parameters. After this module the handlers are unfolded only for what
is true between calls and not during one.
-/
namespace Pbft.Node
set_option autoImplicit false

open Relation

variable {σ : Type} {cfg : Config σ}

/-- The rule of the execution loop: what each pass keeps, the loop keeps. -/
theorem executeLoop_invariant {I : Node σ → Prop}
    (hPass : ∀ e t, t.reqlog[t.lastExec + 1]? = some e → e.stage = .committed → I t → I (t.executeEntry cfg e))
    (fuel : Nat) {s : Node σ} (hs : I s) : I (executeLoop cfg fuel s) := by
  induction fuel generalizing s with
  | zero => exact hs
  | succ fuel ih =>
    rw [executeLoop]
    cases hEntry : s.reqlog[s.lastExec + 1]? with
    | none => exact hs
    | some e =>
      dsimp only
      split
      · exact hs
      · rename_i hStage
        exact ih (hPass e s hEntry (not_not.mp hStage) hs)

section Decomposition
variable {s₀ : Node σ} {i : Input}

theorem executeLoop_steps (fuel : Nat) (s : Node σ) : Steps cfg s₀ i s (executeLoop cfg fuel s) := by
  apply executeLoop_invariant _ fuel .refl
  intro e t hEntry hStage hSteps
  exact hSteps.tail (.execute hEntry hStage)

theorem tryCommit_steps (k : UInt64) (s : Node σ) : Steps cfg s₀ i s (s.tryCommit cfg k) := by
  unfold tryCommit
  dsimp only
  split
  · rename_i hReady
    exact .head (.markCommitted hReady.1 hReady.2) (executeLoop_steps _ _)
  · exact .refl

theorem tryPrepare_steps (k : UInt64) {s : Node σ} (hChanging : s.viewChanging = false) :
    Steps cfg s₀ i s (s.tryPrepare cfg k) := by
  unfold tryPrepare
  dsimp only
  split
  · rename_i hReady
    exact .head (.markPrepared hReady.1 hReady.2.1 hReady.2.2 hChanging) (tryCommit_steps _ _)
  · exact .refl

theorem startTimer_steps (s : Node σ) : Steps cfg s₀ i s s.startTimerIfNotRunning := by
  rw [startTimerIfNotRunning_eq]
  exact .single (.timer _)

theorem manageTimer_steps (s : Node σ) : Steps cfg s₀ i s s.manageTimer := by
  rw [manageTimer_eq]
  exact .single (.timer _)

end Decomposition

theorem onRequest_steps (m : RequestMsg) (conn : Conn) (s₀ : Node σ) :
    Steps cfg s₀ (.recv (.request m) conn) s₀ (s₀.onRequest cfg m) := by
  unfold onRequest
  split
  · rename_i info hInfo
    rw [Option.filter_eq_some_iff, beq_iff_eq] at hInfo
    exact .single (.resend rfl hInfo.1 hInfo.2)
  · rename_i hReply
    split
    · exact .refl
    · rename_i hChanging
      split
      · rename_i hPrimary
        split
        · exact .refl
        · rename_i hWindow
          rw [not_or, UInt64.not_lt, ge_iff_le, UInt64.not_le] at hWindow
          split
          · exact .refl
          · rename_i hNew
            exact .single (.propose rfl ⟨hReply, Bool.eq_false_iff.mpr hChanging,
              beq_iff_eq.mp hPrimary, hWindow.1, hWindow.2, Bool.eq_false_iff.mpr hNew⟩)
      · exact (startTimer_steps s₀).tail (.forward rfl)

theorem onPrepare_steps (m : PrepareMsg) (conn : Conn) (s₀ : Node σ) :
    Steps cfg s₀ (.recv (.prepare m) conn) s₀ (s₀.onPrepare cfg m conn) := by
  rcases onPrepare_cases cfg m conn s₀ with hSame | ⟨hFrom, hCurrent, hDigest⟩
  · rw [hSame]
  · rw [onPrepare_of_current hFrom hCurrent hDigest]
    exact .head (.votePrepare rfl (by simpa [comesFromPrimary] using hFrom) hCurrent hDigest)
      (tryPrepare_steps _ hCurrent.1)

theorem onCommit_steps (m : CommitMsg) (conn : Conn) (s₀ : Node σ) :
    Steps cfg s₀ (.recv (.commit m) conn) s₀ (s₀.onCommit cfg m) := by
  rcases onCommit_cases cfg m s₀ with hSame | hCurrent
  · rw [hSame]
  · rw [onCommit_of_current hCurrent]
    split
    · exact .single (.touch rfl hCurrent)
    · rename_i hDigest
      exact .head (.voteCommit rfl hCurrent (not_not.mp hDigest)) (tryCommit_steps _ _)

theorem onCheckpoint_steps (m : CheckpointMsg) (conn : Conn) (s₀ : Node σ) :
    Steps cfg s₀ (.recv (.checkpoint m) conn) s₀ (s₀.onCheckpoint cfg m) := by
  rcases onCheckpoint_cases cfg m s₀ with ⟨-, hEq⟩ | ⟨hLow, hCounted⟩
  · rw [hEq]
  · have hVote : Steps cfg s₀ (.recv (.checkpoint m) conn) s₀
        (s₀.voteCheckpoint m.seqNum m.stateDigest m.replicaId) := .single (.voteCheckpoint rfl hLow)
    rcases hCounted with hEq | ⟨cp, hcp, hUnstable, hQuorum, hEq⟩
    · rw [hEq]
      exact hVote
    · rw [hEq]
      refine hVote.tail (.stabilize rfl hLow ?_ hUnstable hQuorum)
      simp [voteCheckpoint, hcp]

theorem onViewchange_steps {i : Input} {m : ViewChangeMsg} {s₀ s s' : Node σ}
    (hi : Offers cfg s₀ i m) (hSent : i = .timeout → Msg.viewChange m ∈ s.sent)
    (hStore : s.viewChangeStore = s₀.viewChangeStore)
    (hSame : s.view = s₀.view ∧ (s.viewChanging = s₀.viewChanging ∨ i = .timeout))
    (h : s.onViewchange cfg m = some s') : Steps cfg s₀ i s s' := by
  rcases onViewchange_cases h with rfl | ⟨rfl, -, hView, hMine⟩ | ⟨⟨hView, hMine, hQuorum⟩, O, hO, rfl⟩
  · exact .refl
  · exact .single (.storeViewChange hi hSent hView hMine)
  · have hWith : s.storedWith m = s₀.storedWith m := by
      unfold storedWith
      rw [hStore]
    refine .head (.storeViewChange hi hSent hView hMine) (.head ?_ (manageTimer_steps _))
    refine .installView hi hView hSame hMine hWith ?_ hQuorum hO
    simp [storeViewChange]

theorem startViewChange_steps {s₀ s' : Node σ} (h : s₀.startViewChange cfg = some s') :
    Steps cfg s₀ .timeout s₀ s' := by
  refine .head (.beginViewChange rfl) (onViewchange_steps (.inr ⟨rfl, rfl⟩) ?_ ?_ ?_ h)
  · intro _
    simp [beginViewChange_eq]
  · simp [beginViewChange_eq]
  · simp [beginViewChange_eq]

/-- While on_newview works through the O set, the window and the connections stay as they were
before the call, no pre-prepare that was in the log is replaced by one with another digest, and
an entry that still has none has the prepares it had. -/
structure Frame (s s' : Node σ) : Prop where
  conn : s'.connToPeer = s.connToPeer
  view : s'.view = s.view
  changing : s'.viewChanging = s.viewChanging
  low : s'.h = s.h
  high : s'.H = s.H
  keeps : ∀ k, (s.entry k).hasPreprepare = true →
    (s'.entry k).hasPreprepare = true ∧ (s'.entry k).digest = (s.entry k).digest
  early : ∀ k, (s'.entry k).hasPreprepare = false → (s'.entry k).prepares = (s.entry k).prepares

theorem Frame.refl (s : Node σ) : Frame s s :=
  ⟨rfl, rfl, rfl, rfl, rfl, fun _ h => ⟨h, rfl⟩, fun _ _ => rfl⟩

theorem Frame.trans {s t u : Node σ} (h : Frame s t) (h' : Frame t u) : Frame s u where
  conn := h'.conn.trans h.conn
  view := h'.view.trans h.view
  changing := h'.changing.trans h.changing
  low := h'.low.trans h.low
  high := h'.high.trans h.high
  keeps k hk :=
    have hMid := h.keeps k hk
    have hEnd := h'.keeps k hMid.1
    ⟨hEnd.1, hEnd.2.trans hMid.2⟩
  early k hk := by
    have hMid : (t.entry k).hasPreprepare = false := by
      by_contra hPre
      rw [(h'.keeps k (Bool.not_eq_false _ ▸ hPre)).1] at hk
      cases hk
    rw [h'.early k hk, h.early k hMid]

theorem Frame.write {s t : Node σ} {k : UInt64} {e : ReqLogEntry}
    (hLog : t.reqlog = s.reqlog.insert k e) (hConn : t.connToPeer = s.connToPeer)
    (hView : t.view = s.view) (hChanging : t.viewChanging = s.viewChanging) (hLow : t.h = s.h)
    (hHigh : t.H = s.H) (he : (s.entry k).hasPreprepare = true →
      e.hasPreprepare = true ∧ e.digest = (s.entry k).digest)
    (hEarly : e.hasPreprepare = false → e.prepares = (s.entry k).prepares) : Frame s t where
  conn := hConn
  view := hView
  changing := hChanging
  low := hLow
  high := hHigh
  keeps a ha := by
    rw [entry_of_insert hLog]
    split
    · rename_i hka
      subst hka
      exact he ha
    · exact ⟨ha, rfl⟩
  early a := by
    rw [entry_of_insert hLog]
    split
    · rename_i hka
      exact hka ▸ hEarly
    · exact fun _ => rfl

theorem executeEntry_frame (e : ReqLogEntry) (s : Node σ) : Frame s (s.executeEntry cfg e) := by
  rw [executeEntry_eq]
  exact ⟨rfl, rfl, rfl, rfl, rfl, fun _ h => ⟨h, rfl⟩, fun _ _ => rfl⟩

theorem executeLoop_frame (fuel : Nat) (s : Node σ) : Frame s (executeLoop cfg fuel s) := by
  apply executeLoop_invariant _ fuel (.refl s)
  intro e t _ _ hFrame
  exact hFrame.trans (executeEntry_frame e t)

theorem tryCommit_frame (k : UInt64) (s : Node σ) : Frame s (s.tryCommit cfg k) := by
  unfold tryCommit
  dsimp only
  split
  · refine .trans ?_ (executeLoop_frame _ _)
    exact .write rfl rfl rfl rfl rfl rfl (fun h => ⟨h, rfl⟩) fun _ => rfl
  · exact .refl s

theorem tryPrepare_frame (k : UInt64) (s : Node σ) : Frame s (s.tryPrepare cfg k) := by
  unfold tryPrepare
  dsimp only
  split
  · refine .trans ?_ (tryCommit_frame _ _)
    exact .write rfl rfl rfl rfl rfl rfl (fun h => ⟨h, rfl⟩) fun _ => rfl
  · exact .refl s

theorem startTimer_frame (s : Node σ) : Frame s s.startTimerIfNotRunning := by
  rw [startTimerIfNotRunning_eq]
  exact ⟨rfl, rfl, rfl, rfl, rfl, fun _ h => ⟨h, rfl⟩, fun _ _ => rfl⟩

theorem acceptPreprepare_frame {m : PrePrepareMsg} {s : Node σ}
    (hDigest : (s.entry m.seqNum).hasPreprepare = true → (s.entry m.seqNum).digest = m.reqDigest) :
    Frame s (s.acceptPreprepare cfg m) :=
  .write rfl rfl rfl rfl rfl rfl (fun h => ⟨rfl, (hDigest h).symm⟩) nofun

theorem onPreprepareImpl_frame (m : PrePrepareMsg) (conn : Conn) (fromSelf : Bool) (s : Node σ) :
    Frame s (s.onPreprepareImpl cfg m conn fromSelf) := by
  rcases onPreprepareImpl_cases cfg m conn fromSelf s with hSame | hGuard
  · rw [hSame]
    exact .refl s
  · rw [onPreprepareImpl_of_guard hGuard]
    refine (startTimer_frame s).trans ((acceptPreprepare_frame ?_).trans (tryPrepare_frame _ _))
    rw [startTimerIfNotRunning_eq]
    exact hGuard.digest

theorem prePrepares_frame (O : List PrePrepareMsg) (conn : Conn) (s : Node σ) :
    Frame s (O.foldl (fun s pp => s.onPreprepareImpl cfg pp conn true) s) := by
  induction O generalizing s with
  | nil => exact .refl s
  | cons pp O ih => exact (onPreprepareImpl_frame pp conn true s).trans (ih _)

theorem onPreprepareImpl_steps {i : Input} {m : PrePrepareMsg} {conn : Conn} {fromSelf : Bool}
    {s₀ s : Node σ} (hi : Carries i m conn)
    (hConn : fromSelf = true → s.connToPeer[conn]? = some (s.view % cfg.n))
    (hAccepts : Admits s₀ m → s.connToPeer[conn]? = some (s.view % cfg.n) →
      s.viewChanging = false → m.view = s.view → Accepts cfg s₀ i m)
    (hLow : s.h = s₀.h) (hHigh : s.H = s₀.H)
    (hKeeps : ∀ k, (s₀.entry k).hasPreprepare = true →
      (s.entry k).hasPreprepare = true ∧ (s.entry k).digest = (s₀.entry k).digest)
    (hEarly : ∀ k, (s.entry k).hasPreprepare = false → (s.entry k).prepares = (s₀.entry k).prepares) :
    Steps cfg s₀ i s (s.onPreprepareImpl cfg m conn fromSelf) := by
  rcases onPreprepareImpl_cases cfg m conn fromSelf s with hSame | hGuard
  · rw [hSame]
  -- a caller that skips the test of the connection has made it already
  have hPeer : s.connToPeer[conn]? = some (s.view % cfg.n) := by
    rcases hGuard.sender with hSelf | hFrom
    · exact hConn hSelf
    · simpa [comesFromPrimary] using hFrom
  have hCurrent := hGuard.current
  have hAdmits : Admits s₀ m := by
    constructor
    · have hWindow := hCurrent.2.2
      unfold inWindow at hWindow ⊢
      rwa [← hLow, ← hHigh]
    · intro hPre
      have hNow := hKeeps _ hPre
      rw [← hNow.2]
      exact hGuard.digest hNow.1
  rw [onPreprepareImpl_of_guard hGuard, startTimerIfNotRunning_eq]
  refine .head (.timer (s.timerRunning || !s.viewChanging)) ?_
  refine .head (.accept hi hPeer hCurrent hGuard.digest hLow ?_ (hEarly _)) (tryPrepare_steps _ hCurrent.1)
  exact hAccepts hAdmits hPeer hCurrent.1 hCurrent.2.1

theorem onPreprepare_steps (m : PrePrepareMsg) (conn : Conn) (s₀ : Node σ) :
    Steps cfg s₀ (.recv (.prePrepare m) conn) s₀ (s₀.onPreprepare cfg m conn) :=
  onPreprepareImpl_steps (.inl rfl) (fun h => nomatch h)
    (fun hAdmits hPeer hChanging hView => ⟨List.mem_singleton.mpr rfl, hAdmits,
      by simpa [comesFromPrimary], hChanging, hView⟩)
    rfl rfl (fun _ h => ⟨h, rfl⟩) fun _ _ => rfl

theorem prePrepares_steps {m : NewViewMsg} {conn : Conn} {s₀ : Node σ} (O : List PrePrepareMsg)
    (hO : ∀ pp ∈ O, pp ∈ m.prePrepares) (hAccepts : s₀.acceptsNewview cfg m conn) (s : Node σ)
    (hFrame : Frame (s₀.enterView m) s) :
    Steps cfg s₀ (.recv (.newView m) conn) s
      (O.foldl (fun s pp => s.onPreprepareImpl cfg pp conn true) s) := by
  induction O generalizing s with
  | nil => exact .refl
  | cons pp O ih =>
    have hHead : Steps cfg s₀ (.recv (.newView m) conn) s (s.onPreprepareImpl cfg pp conn true) := by
      have hMem := hO pp List.mem_cons_self
      refine onPreprepareImpl_steps (.inr ⟨m, rfl, hMem⟩) (fun _ => ?_)
        (fun hAdmits _ _ hView => ⟨hMem, hAdmits, hAccepts, ?_⟩)
        hFrame.low hFrame.high hFrame.keeps hFrame.early
      · rw [hFrame.conn, hFrame.view]
        simpa [comesFromPrimary, enterView] using hAccepts.1
      · rw [hView, hFrame.view]
        rfl
    refine hHead.trans (ih (fun pp' h => hO pp' (List.mem_cons_of_mem _ h)) _ ?_)
    exact hFrame.trans (onPreprepareImpl_frame pp conn true s)

theorem onNewview_steps (m : NewViewMsg) (conn : Conn) (s₀ : Node σ) :
    Steps cfg s₀ (.recv (.newView m) conn) s₀ (s₀.onNewview cfg m conn) := by
  unfold onNewview
  split
  · exact .refl
  · rename_i hAccepts
    rw [not_not] at hAccepts
    have hLoop := prePrepares_steps m.prePrepares (fun _ h => h) hAccepts _ (.refl (s₀.enterView m))
    refine .head (.enterView rfl hAccepts) ?_
    exact (hLoop.tail (.recompute rfl)).trans (manageTimer_steps _)

theorem handle_steps {i : Input} {s s' : Node σ} (h : s.handle cfg i = some s') :
    Steps cfg s i s s' := by
  unfold handle at h
  split at h
  · cases h
    exact .single (.handshake rfl)
  · cases h
    exact onRequest_steps _ _ s
  · cases h
    exact onPreprepare_steps _ _ s
  · cases h
    exact onPrepare_steps _ _ s
  · cases h
    exact onCommit_steps _ _ s
  · cases h
    exact onCheckpoint_steps _ _ s
  · exact onViewchange_steps (.inl ⟨_, rfl⟩) (fun h => nomatch h) rfl ⟨rfl, .inl rfl⟩ h
  · cases h
    exact onNewview_steps _ _ s
  · exact startViewChange_steps h

/-- The rule every invariant of a replica is proved with: it is enough that the listed changes
keep it, given whatever the environment promises about the call. -/
theorem handle_invariant {I : Node σ → Prop} {i : Input} {s₀ s' : Node σ}
    (hStep : ∀ s s', I s → Step cfg s₀ i s s' → I s') (h₀ : I s₀)
    (h : s₀.handle cfg i = some s') : I s' := by
  have hSteps := handle_steps h
  clear h
  induction hSteps with
  | refl => exact h₀
  | tail _ hLast ih => exact hStep _ _ ih hLast

end Pbft.Node
