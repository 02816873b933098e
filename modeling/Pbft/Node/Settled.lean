import Pbft.Node.LogEntry

/-! # What is true only between handlers

A handler that adds a commit vote tests for a quorum before it returns, and the execution loop
runs until it meets an entry that is not committed. The loop of the model is cut off after as
many passes as the log has entries; that this never ends it early rests on the log window.
-/
namespace Pbft.Node
set_option autoImplicit false

variable {σ : Type} {cfg : Config σ}

theorem windowInv_steps {s₀ s s' : Node σ} {i : Input} (w : WindowInv cfg s)
    (hSteps : Steps cfg s₀ i s s') : WindowInv cfg s' := by
  induction hSteps with
  | refl => exact w
  | tail _ hLast ih => exact windowInv_step ih hLast

theorem logInv_steps {s₀ s s' : Node σ} {i : Input} (w : WindowInv cfg s) (h : LogInv cfg s)
    (hSteps : Steps cfg s₀ i s s') : LogInv cfg s' := by
  induction hSteps with
  | refl => exact h
  | tail hBefore hLast ih => exact logInv_step (windowInv_steps w hBefore) ih hLast

def pending (s : Node σ) : Finset UInt64 := s.reqlog.keys.toFinset.filter (s.lastExec < ·)

theorem pending_card_le (s : Node σ) : s.pending.card ≤ s.reqlog.size := by
  calc
    s.pending.card ≤ s.reqlog.keys.toFinset.card := Finset.card_filter_le _ _
    _ ≤ s.reqlog.keys.length := List.toFinset_card_le _
    _ = s.reqlog.size := Std.ExtTreeMap.length_keys

theorem pending_executeEntry {s : Node σ} {e : ReqLogEntry} (w : WindowInv cfg s)
    (hEntry : s.reqlog[s.lastExec + 1]? = some e) :
    (s.executeEntry cfg e).pending.card < s.pending.card := by
  have hSucc := w.succ hEntry
  have hKey : s.lastExec + 1 ∈ s.pending := by
    unfold pending
    rw [Finset.mem_filter, List.mem_toFinset, Std.ExtTreeMap.mem_keys, UInt64.lt_iff_toNat_lt]
    exact ⟨TreeMap.mem_iff_exists.mpr ⟨e, hEntry⟩, by omega⟩
  refine Finset.card_lt_card (Finset.ssubset_iff_subset_ne.mpr ⟨?_, fun hEq => ?_⟩)
  · rw [executeEntry_eq]
    intro k hk
    unfold pending at hk ⊢
    rw [Finset.mem_filter] at hk ⊢
    have hlt : (s.lastExec + 1).toNat < k.toNat := UInt64.lt_iff_toNat_lt.mp hk.2
    exact ⟨hk.1, UInt64.lt_iff_toNat_lt.mpr (by omega)⟩
  · rw [← hEq, executeEntry_eq] at hKey
    exact UInt64.lt_irrefl _ (Finset.mem_filter.mp hKey).2

theorem executeLoop_reqlog (fuel : Nat) (s : Node σ) :
    (executeLoop cfg fuel s).reqlog = s.reqlog := by
  apply executeLoop_invariant (I := fun t => t.reqlog = s.reqlog) _ fuel rfl
  intro e t _ _ hSame
  rw [executeEntry_eq]
  exact hSame

theorem executeLoop_next {fuel : Nat} {s : Node σ} (w : WindowInv cfg s)
    (hFuel : s.pending.card < fuel) :
    let t := executeLoop cfg fuel s
    (t.entry (t.lastExec + 1)).stage ≠ .committed := by
  induction fuel generalizing s with
  | zero => exact absurd hFuel (Nat.not_lt_zero _)
  | succ fuel ih =>
    rw [executeLoop]
    cases hEntry : s.reqlog[s.lastExec + 1]? with
    | none =>
      dsimp only
      rw [entry, Std.ExtTreeMap.getD_eq_getD_getElem?, hEntry]
      intro h
      cases h
    | some e =>
      dsimp only
      split
      · rename_i hStage
        rwa [entry_of_lookup hEntry]
      · rename_i hStage
        refine ih (windowInv_execute w hEntry) ?_
        exact Nat.lt_of_lt_of_le (pending_executeEntry w hEntry) (Nat.le_of_lt_succ hFuel)

structure Settled (cfg : Config σ) (s : Node σ) : Prop where
  quorum : ∀ k, (s.entry k).stage = .prepared → (s.entry k).commits.card < cfg.quorum
  next : (s.entry (s.lastExec + 1)).stage ≠ .committed

theorem Settled.write {s t : Node σ} {k : UInt64} {e : ReqLogEntry} (h : Settled cfg s)
    (hLog : t.reqlog = s.reqlog.insert k e) (hLast : t.lastExec = s.lastExec)
    (hPrepared : e.stage = .prepared → e.commits.card < cfg.quorum)
    (hCommitted : e.stage = .committed → (s.entry k).stage = .committed) : Settled cfg t where
  quorum a := by
    rw [entry_of_insert hLog]
    split
    · exact hPrepared
    · exact h.quorum a
  next := by
    rw [hLast, entry_of_insert hLog]
    split
    · rename_i hka
      exact fun hStage => h.next (hka ▸ hCommitted hStage)
    · exact h.next

theorem Settled.congr {s t : Node σ} (h : Settled cfg s) (hLog : t.reqlog = s.reqlog)
    (hLast : t.lastExec = s.lastExec) : Settled cfg t := by
  constructor
  · intro k
    rw [entry_congr hLog]
    exact h.quorum k
  · rw [entry_congr hLog, hLast]
    exact h.next

theorem tryCommit_settled {k : UInt64} {s : Node σ} (w : WindowInv cfg s)
    (hOthers : ∀ a, k ≠ a → (s.entry a).stage = .prepared → (s.entry a).commits.card < cfg.quorum)
    (hNext : (s.entry (s.lastExec + 1)).stage ≠ .committed) : Settled cfg (s.tryCommit cfg k) := by
  unfold tryCommit
  dsimp only
  split
  · rename_i hReady
    have w' : WindowInv cfg (s.markCommitted k) := w.insert_mem _ (mem_of_stage (by simp [hReady.1]))
    refine ⟨fun a => ?_, executeLoop_next w' (Nat.lt_succ_of_le (pending_card_le _))⟩
    rw [entry, tryExecute, executeLoop_reqlog, ← entry, entry_of_insert rfl]
    split
    · intro h
      cases h
    · rename_i hka
      exact hOthers a hka
  · rename_i hReady
    refine ⟨fun a hStage => ?_, hNext⟩
    by_cases hka : k = a
    · subst hka
      exact Nat.lt_of_not_le fun hQuorum => hReady ⟨hStage, hQuorum⟩
    · exact hOthers a hka hStage

theorem tryPrepare_settled {k : UInt64} {s : Node σ} (w : WindowInv cfg s) (h : Settled cfg s) :
    Settled cfg (s.tryPrepare cfg k) := by
  unfold tryPrepare
  dsimp only
  split
  · rename_i hReady
    refine tryCommit_settled (w.insert_mem _ (mem_of_stage (by simp [hReady.1]))) (fun a hka => ?_) ?_
    · rw [entry_of_insert rfl, if_neg hka]
      exact h.quorum a
    · rw [entry_of_insert rfl]
      split
      · intro hStage
        cases hStage
      · exact h.next
  · exact h

theorem windowInv_accept {m : PrePrepareMsg} {conn : Conn} {fromSelf : Bool} {s : Node σ} (w : WindowInv cfg s)
    (hGuard : Guard cfg m conn fromSelf s) :
    WindowInv cfg (s.startTimerIfNotRunning.acceptPreprepare cfg m) := by
  rw [startTimerIfNotRunning_eq]
  exact w.insertAt _ hGuard.current.2.2

/-- What happens to an accepted pre-prepare after it has been logged. -/
theorem accepted_steps {m : PrePrepareMsg} {conn : Conn} {fromSelf : Bool} {s : Node σ}
    (hGuard : Guard cfg m conn fromSelf s) :
    Steps cfg s .timeout (s.startTimerIfNotRunning.acceptPreprepare cfg m)
      (s.onPreprepareImpl cfg m conn fromSelf) := by
  rw [onPreprepareImpl_of_guard hGuard]
  apply tryPrepare_steps
  rw [startTimerIfNotRunning_eq]
  exact hGuard.current.1

theorem windowInv_onPreprepareImpl (m : PrePrepareMsg) (conn : Conn) (fromSelf : Bool) {s : Node σ}
    (w : WindowInv cfg s) : WindowInv cfg (s.onPreprepareImpl cfg m conn fromSelf) := by
  rcases onPreprepareImpl_cases cfg m conn fromSelf s with hSame | hGuard
  · rwa [hSame]
  · exact windowInv_steps (windowInv_accept w hGuard) (accepted_steps hGuard)

theorem onPreprepareImpl_settled (m : PrePrepareMsg) (conn : Conn) (fromSelf : Bool) {s : Node σ}
    (w : WindowInv cfg s) (h : Settled cfg s) : Settled cfg (s.onPreprepareImpl cfg m conn fromSelf) := by
  rcases onPreprepareImpl_cases cfg m conn fromSelf s with hSame | hGuard
  · rwa [hSame]
  have w' := windowInv_accept w hGuard
  rw [onPreprepareImpl_of_guard hGuard]
  rw [startTimerIfNotRunning_eq] at w' ⊢
  refine tryPrepare_settled w' (h.write rfl rfl ?_ ?_)
  · intro hStage
    cases hStage
  · intro hStage
    cases hStage

theorem prePrepares_settled (O : List PrePrepareMsg) (conn : Conn) {s : Node σ}
    (w : WindowInv cfg s) (h : Settled cfg s) :
    Settled cfg (O.foldl (fun s pp => s.onPreprepareImpl cfg pp conn true) s) := by
  induction O generalizing s with
  | nil => exact h
  | cons pp O ih =>
    exact ih (windowInv_onPreprepareImpl pp conn true w) (onPreprepareImpl_settled pp conn true w h)

theorem onRequest_settled (m : RequestMsg) {s : Node σ} (h : Settled cfg s) :
    Settled cfg (s.onRequest cfg m) := by
  rcases onRequest_cases cfg m s with ⟨-, hEq⟩ | ⟨-, replies, forwarded, timerRunning, hEq⟩
  · rw [hEq]
    refine h.write rfl rfl ?_ ?_
    · intro hStage
      cases hStage
    · intro hStage
      cases hStage
  · rw [hEq]
    exact h.congr rfl rfl

theorem onPrepare_settled (m : PrepareMsg) (conn : Conn) {s : Node σ} (w : WindowInv cfg s)
    (h : Settled cfg s) : Settled cfg (s.onPrepare cfg m conn) := by
  rcases onPrepare_cases cfg m conn s with hSame | ⟨hFrom, hCurrent, hDigest⟩
  · rwa [hSame]
  · rw [onPrepare_of_current hFrom hCurrent hDigest]
    exact tryPrepare_settled (w.insertAt _ hCurrent.2.2) (h.write rfl rfl (h.quorum _) id)

theorem onCommit_settled (m : CommitMsg) {s : Node σ} (w : WindowInv cfg s) (h : Settled cfg s) :
    Settled cfg (s.onCommit cfg m) := by
  rcases onCommit_cases cfg m s with hSame | hCurrent
  · rwa [hSame]
  rw [onCommit_of_current hCurrent]
  split
  · exact h.write rfl rfl (h.quorum _) id
  · refine tryCommit_settled (w.insertAt _ hCurrent.2.2) (fun a hka => ?_) ?_
    · rw [entry_of_insert rfl, if_neg hka]
      exact h.quorum a
    · rw [entry_of_insert rfl]
      split
      · rename_i hNext
        exact fun hStage => h.next (hNext ▸ hStage)
      · exact h.next

theorem onCheckpoint_settled (m : CheckpointMsg) {s : Node σ} (h : Settled cfg s) :
    Settled cfg (s.onCheckpoint cfg m) := by
  rcases onCheckpoint_cases cfg m s with ⟨-, hEq⟩ | ⟨-, hEq | ⟨cp, -, -, -, hEq⟩⟩ <;> rw [hEq]
  · exact h
  · exact h.congr rfl rfl
  · refine ⟨fun k => ?_, ?_⟩ <;> rw [entry_of_stabilize] <;> split
    · intro hStage
      cases hStage
    · exact h.quorum k
    · intro hStage
      cases hStage
    · exact h.next

theorem onViewchange_settled {m : ViewChangeMsg} {s s' : Node σ} (h : Settled cfg s)
    (hCall : s.onViewchange cfg m = some s') : Settled cfg s' := by
  rcases onViewchange_cases hCall with rfl | ⟨rfl, -⟩ | ⟨-, O, -, rfl⟩
  · exact h
  · exact h.congr rfl rfl
  · rw [manageTimer_eq]
    exact h.congr rfl rfl

theorem onNewview_settled (m : NewViewMsg) (conn : Conn) {s : Node σ} (w : WindowInv cfg s)
    (h : Settled cfg s) : Settled cfg (s.onNewview cfg m conn) := by
  unfold onNewview
  split
  · exact h
  · have hEntered : Settled cfg (s.enterView m) := h.congr rfl rfl
    rw [manageTimer_eq]
    have w' : WindowInv cfg (s.enterView m) := w
    exact (prePrepares_settled m.prePrepares conn w' hEntered).congr rfl rfl

theorem handle_settled {i : Input} {s s' : Node σ} (w : WindowInv cfg s) (h : Settled cfg s)
    (hCall : s.handle cfg i = some s') : Settled cfg s' := by
  unfold handle at hCall
  split at hCall
  · exact Option.some.inj hCall ▸ h.congr rfl rfl
  · exact Option.some.inj hCall ▸ onRequest_settled _ h
  · exact Option.some.inj hCall ▸ onPreprepareImpl_settled _ _ _ w h
  · exact Option.some.inj hCall ▸ onPrepare_settled _ _ w h
  · exact Option.some.inj hCall ▸ onCommit_settled _ w h
  · exact Option.some.inj hCall ▸ onCheckpoint_settled _ h
  · exact onViewchange_settled h hCall
  · exact Option.some.inj hCall ▸ onNewview_settled _ _ w h
  · refine onViewchange_settled ?_ hCall
    rw [beginViewChange_eq]
    exact h.congr rfl rfl

theorem settled_reach {t : Bool} {ok : Node σ → Input → Prop} {s : Node σ}
    (hs : Reach cfg t ok s) : Settled cfg s := by
  refine Machine.Reach.invariant ?_ (fun s₀ _ _ hs₀ h _ hn => ?_) hs
  · exact ⟨fun k hk => by simp [machine, Node.init, entry] at hk, by simp [machine, Node.init, entry]⟩
  · exact handle_settled (windowInv_reach hs₀) h hn

/-- The life of a log entry between handlers, under arbitrary messages on arbitrary connections
and any timer firings, and the order in which the service is called. -/
theorem log_entries {t : Bool} {s : Node σ} (hs : Reach cfg t Anything s) :
    (∀ k e, s.reqlog[k]? = some e →
      (e.stage = .none ↔ e.hasPreprepare = false) ∧
      (e.hasPreprepare = true → e.seq = k ∧ cfg.id ∈ e.prepares) ∧
      (e.stage = .prepared ∨ e.stage = .committed →
        2 * cfg.f.toNat ≤ e.prepares.card ∧ cfg.id ∈ e.commits) ∧
      (e.stage = .prepared → e.commits.card < 2 * cfg.f.toNat + 1) ∧
      (e.stage = .committed → 2 * cfg.f.toNat + 1 ≤ e.commits.card) ∧
      (k = s.lastExec + 1 → e.stage ≠ .committed)) ∧
    s.executed.map (fun x => x.key.toNat) = (List.range s.lastExec.toNat).map (· + 1) ∧
    ∀ x ∈ s.executed, x.entry.stage = .committed := by
  have hLog := (logInv_reach hs).2
  have hSettled := settled_reach hs
  refine ⟨fun k e he => ?_, hLog.keys, fun x hx => (hLog.executed x hx).1⟩
  have hEntry := entry_of_lookup he
  have hOk := hEntry ▸ hLog.entries k
  rw [← cfg.quorum_eq, ← cfg.prepareQuorum_eq]
  refine ⟨hOk.fresh, fun hPre => ⟨hOk.seq hPre, hOk.prepare hPre⟩, hOk.prepared,
    hEntry ▸ hSettled.quorum k, hOk.committed, ?_⟩
  rintro rfl
  exact hEntry ▸ hSettled.next

theorem log_entries_ordered : ∃ s, Reach (Config.sample 4 200 100) false Anything s ∧
    s.executed.map (·.key) = [1] ∧ (∀ x ∈ s.executed, x.entry.stage = .committed) ∧
    ∀ e, s.reqlog[(1 : UInt64)]? = some e → e.stage = .committed → 3 ≤ e.commits.card := by
  let m : RequestMsg := ⟨"INC", 5, 9⟩
  let digest := (Config.sample 4 200 100).getHash m
  obtain ⟨s, hs, hKeys⟩ := Machine.exists_reach (machine (Config.sample 4 200 100) false) Anything
    [.recv (.request m) 9, .recv (.prepare ⟨0, 1, digest, 1⟩) 1, .recv (.commit ⟨0, 1, digest, 1⟩) 1,
      .recv (.commit ⟨0, 1, digest, 2⟩) 2]
    (fun s => s.executed.map (·.key) = [1]) (by decide +kernel)
  have hLog := log_entries hs
  exact ⟨s, hs, hKeys, hLog.2.2, fun e he => (hLog.1 1 e he).2.2.2.2.1⟩

end Pbft.Node
