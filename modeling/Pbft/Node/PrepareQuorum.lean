import Pbft.Node.Stages

/-! # Prepare quorums that go unnoticed

A prepare that arrives and an accepted pre-prepare are followed by the test for 2f prepares. The
primary counts itself when it assigns a number and does not test: if that completes the quorum, the
entry waits until another prepare for it arrives, which in a cluster with f = 0 may never happen.
-/
namespace Pbft
set_option autoImplicit false

variable {σ : Type} {cfg : Config σ}

namespace ReqLogEntry

theorem not_ready_tryPrepare (cfg : Config σ) (e : ReqLogEntry) : ¬Ready cfg (e.tryPrepare cfg) := by
  intro hAgain
  rcases tryPrepare_cases cfg e with ⟨hNot, hSame⟩ | ⟨-, stage, hLater, hEq⟩
  · rw [hSame] at hAgain
    exact hNot hAgain
  · rw [hEq] at hAgain
    have hStage : stage = .prePrepared := hAgain.1
    rw [hStage] at hLater
    rcases hLater with hLater | hLater
    · cases hLater
    · cases hLater

theorem not_ready_tryCommit {e : ReqLogEntry} (h : ¬Ready cfg e) : ¬Ready cfg (e.tryCommit cfg) := by
  rcases tryCommit_cases cfg e with hSame | ⟨-, -, hEq⟩
  · rwa [hSame]
  · rw [hEq]
    intro hAgain
    cases hAgain.1

end ReqLogEntry

namespace Node

/-- No entry of the log still waits for prepares when it has 2f of them. -/
def NoneReady (cfg : Config σ) (s : Node σ) : Prop :=
  ∀ (k : UInt64) (e : ReqLogEntry), s.reqlog[k]? = some e →
    ¬(e.stage = .prePrepared ∧ e.hasPreprepare = true ∧ 2 * cfg.f.toNat ≤ e.prepares.card)

/-- What the code does not see to: a number that the call assigns has not got so many prepares before
that the primary's own completes the quorum. -/
def FewBuffered (cfg : Config σ) (s : Node σ) (i : Input) : Prop :=
  ∀ m ∈ request? i, Proposes cfg s m →
    (insert cfg.id (s.entry (s.seqNum + 1)).prepares).card < 2 * cfg.f.toNat

instance (s : Node σ) (i : Input) : Decidable (FewBuffered cfg s i) :=
  inferInstanceAs (Decidable (∀ m ∈ request? i, Proposes cfg s m →
    (insert cfg.id (s.entry (s.seqNum + 1)).prepares).card < 2 * cfg.f.toNat))

theorem noneReady_iff {s : Node σ} : NoneReady cfg s ↔ ∀ k, ¬ReqLogEntry.Ready cfg (s.entry k) := by
  unfold NoneReady ReqLogEntry.Ready
  rw [cfg.prepareQuorum_eq]
  constructor
  · intro h k hReady
    cases hEntry : s.reqlog[k]? with
    | none =>
      rw [entry, Std.ExtTreeMap.getD_eq_getD_getElem?, hEntry] at hReady
      cases hReady.1
    | some e =>
      rw [entry_of_lookup hEntry] at hReady
      exact h k e hEntry hReady
  · intro h k e hEntry
    rw [← entry_of_lookup hEntry]
    exact h k

theorem noneReady_init (t : Bool) : NoneReady cfg (Node.init cfg t) := by
  intro k e hEntry
  simp [Node.init] at hEntry

theorem NoneReady.congr {s t : Node σ} (h : NoneReady cfg s) (hLog : t.reqlog = s.reqlog) :
    NoneReady cfg t := by
  unfold NoneReady
  rwa [hLog]

theorem noneReady_write_iff {s t : Node σ} {k : UInt64} {e : ReqLogEntry} (h : NoneReady cfg s)
    (hLog : t.reqlog = s.reqlog.insert k e) : NoneReady cfg t ↔ ¬ReqLogEntry.Ready cfg e := by
  rw [noneReady_iff] at h ⊢
  constructor
  · intro hAll
    have hHere := hAll k
    rwa [entry_of_insert hLog, if_pos rfl] at hHere
  · intro he a
    rw [entry_of_insert hLog]
    split
    · exact he
    · exact h a

theorem noneReady_onPreprepareImpl {m : PrePrepareMsg} {conn : Conn} {fromSelf : Bool} {s : Node σ}
    (h : NoneReady cfg s) : NoneReady cfg (s.onPreprepareImpl cfg m conn fromSelf) := by
  rcases onPreprepareImpl_cases cfg m conn fromSelf s with hSame | hGuard
  · rwa [hSame]
  · rw [noneReady_write_iff h (reqlog_onPreprepareImpl hGuard)]
    exact ReqLogEntry.not_ready_tryPrepare cfg _

theorem noneReady_prePrepares (O : List PrePrepareMsg) (conn : Conn) {s : Node σ} (h : NoneReady cfg s) :
    NoneReady cfg (O.foldl (fun s pp => s.onPreprepareImpl cfg pp conn true) s) := by
  induction O generalizing s with
  | nil => exact h
  | cons pp O ih => exact ih (noneReady_onPreprepareImpl h)

theorem noneReady_onPrepare {m : PrepareMsg} {conn : Conn} {s : Node σ} (h : NoneReady cfg s) :
    NoneReady cfg (s.onPrepare cfg m conn) := by
  rcases onPrepare_cases cfg m conn s with hSame | ⟨hFrom, hCurrent, hDigest⟩
  · rwa [hSame]
  · rw [noneReady_write_iff h (reqlog_onPrepare hFrom hCurrent hDigest)]
    exact ReqLogEntry.not_ready_tryPrepare cfg _

theorem noneReady_onCommit {m : CommitMsg} {s : Node σ} (h : NoneReady cfg s) :
    NoneReady cfg (s.onCommit cfg m) := by
  have hEntry := noneReady_iff.mp h m.seqNum
  rcases onCommit_cases cfg m s with hSame | hCurrent
  · rwa [hSame]
  by_cases hDigest : (s.entry m.seqNum).digest = m.reqDigest
  · rw [noneReady_write_iff h (reqlog_onCommit hCurrent hDigest)]
    -- the test for commits reads no prepares
    apply ReqLogEntry.not_ready_tryCommit
    exact hEntry
  · rw [onCommit_of_current hCurrent, if_pos hDigest, noneReady_write_iff h rfl]
    exact hEntry

theorem noneReady_onCheckpoint {m : CheckpointMsg} {s : Node σ} (h : NoneReady cfg s) :
    NoneReady cfg (s.onCheckpoint cfg m) := by
  rcases onCheckpoint_cases cfg m s with ⟨-, hEq⟩ | ⟨-, hEq | ⟨cp, -, -, -, hEq⟩⟩
  · rwa [hEq]
  · rw [hEq]
    exact h.congr rfl
  · rw [hEq, noneReady_iff]
    intro k
    rw [entry_of_stabilize]
    split
    · intro hReady
      cases hReady.1
    · exact noneReady_iff.mp h k

theorem noneReady_onViewchange {m : ViewChangeMsg} {s s' : Node σ} (h : NoneReady cfg s)
    (hCall : s.onViewchange cfg m = some s') : NoneReady cfg s' := by
  rcases onViewchange_cases hCall with rfl | ⟨rfl, -⟩ | ⟨-, O, -, rfl⟩
  · exact h
  · exact h.congr rfl
  · rw [manageTimer_eq]
    exact h.congr rfl

theorem noneReady_onNewview {m : NewViewMsg} {conn : Conn} {s : Node σ} (h : NoneReady cfg s) :
    NoneReady cfg (s.onNewview cfg m conn) := by
  unfold onNewview
  split
  · exact h
  · have hEntered : NoneReady cfg (s.enterView m) := h.congr rfl
    rw [manageTimer_eq]
    exact (noneReady_prePrepares m.prePrepares conn hEntered).congr rfl

theorem noneReady_onRequest_iff {m : RequestMsg} {s : Node σ} (h : NoneReady cfg s) :
    NoneReady cfg (s.onRequest cfg m) ↔ (Proposes cfg s m →
      (insert cfg.id (s.entry (s.seqNum + 1)).prepares).card < 2 * cfg.f.toNat) := by
  rcases onRequest_cases cfg m s with ⟨hProposes, hEq⟩ | ⟨hNot, replies, forwarded, timerRunning, hEq⟩
  · rw [hEq, noneReady_write_iff h rfl, ← cfg.prepareQuorum_eq]
    constructor
    · intro hWaits _
      exact Nat.lt_of_not_le fun hQuorum => hWaits ⟨rfl, rfl, hQuorum⟩
    · intro hFew hReady
      exact Nat.not_le_of_lt (hFew hProposes) hReady.2.2
  · rw [hEq]
    exact iff_of_true (h.congr rfl) fun hProposes => absurd hProposes hNot

theorem noneReady_handle {s s' : Node σ} {i : Input} (hi : request? i = none) (h : NoneReady cfg s)
    (hCall : s.handle cfg i = some s') : NoneReady cfg s' := by
  cases i with
  | timeout =>
    have hBegun : NoneReady cfg (s.beginViewChange cfg) := by
      rw [beginViewChange_eq]
      exact h.congr rfl
    exact noneReady_onViewchange hBegun hCall
  | recv m conn =>
    cases m with
    | request m => cases hi
    | handshake m => exact Option.some.inj hCall ▸ h.congr rfl
    | prePrepare m => exact Option.some.inj hCall ▸ noneReady_onPreprepareImpl h
    | prepare m => exact Option.some.inj hCall ▸ noneReady_onPrepare h
    | commit m => exact Option.some.inj hCall ▸ noneReady_onCommit h
    | checkpoint m => exact Option.some.inj hCall ▸ noneReady_onCheckpoint h
    | viewChange m => exact noneReady_onViewchange h hCall
    | newView m => exact Option.some.inj hCall ▸ noneReady_onNewview h

theorem noneReady_handle_iff {s s' : Node σ} {i : Input} (h : NoneReady cfg s)
    (hCall : s.handle cfg i = some s') : NoneReady cfg s' ↔ FewBuffered cfg s i := by
  by_cases hRequest : ∃ m conn, i = .recv (.request m) conn
  · obtain ⟨m, conn, rfl⟩ := hRequest
    cases hCall
    rw [noneReady_onRequest_iff h]
    constructor
    · rintro hFew _ ⟨⟩
      exact hFew
    · intro hFew
      exact hFew m rfl
  · have hNone : request? i = none := by
      unfold request?
      split
      · rename_i m conn
        exact absurd ⟨m, conn, rfl⟩ hRequest
      · rfl
    apply iff_of_true (noneReady_handle hNone h hCall)
    intro m hm
    rw [hNone] at hm
    cases hm

/-- In a run no prepare quorum ever goes unnoticed exactly if the primary's own prepare never
completes one. -/
theorem prepares_noticed_iff {t : Bool} {s : Node σ} {trace : List (Node σ × Input)}
    (hs : Machine.Reach (machine cfg t).record (fun x => Anything x.1) (s, trace)) :
    ((∀ c ∈ trace, NoneReady cfg c.1) ∧ NoneReady cfg s) ↔ ∀ c ∈ trace, FewBuffered cfg c.1 c.2 := by
  apply Machine.Reach.record_iff (noneReady_init t) _ hs
  intro s i s' _ _ hBefore hCall
  exact noneReady_handle_iff hBefore hCall

/-- The primary of four assigns a number that nobody has voted for yet, and notices the quorum when
the prepare of replica 1 arrives. -/
theorem prepares_noticed_iff_four : ∃ x : Node (List String) × List (Node (List String) × Input),
    Machine.Reach (machine (Config.sample 4 200 100) false).record (fun x => Anything x.1) x ∧
    (x.1.entry 1).prepares = {0, 1} ∧ (x.1.entry 1).stage = .prepared ∧ NoneReady (Config.sample 4 200 100) x.1 := by
  let m : RequestMsg := ⟨"INC", 5, 9⟩
  let digest := (Config.sample 4 200 100).getHash m
  obtain ⟨x, hx, hPrepares, hStage, hFew⟩ := Machine.exists_reach
    (machine (Config.sample 4 200 100) false).record (fun x => Anything x.1)
    [.recv (.request m) 9, .recv (.prepare ⟨0, 1, digest, 1⟩) 1]
    (fun x => (x.1.entry 1).prepares = {0, 1} ∧ (x.1.entry 1).stage = .prepared ∧
      ∀ c ∈ x.2, FewBuffered (Config.sample 4 200 100) c.1 c.2) (by decide +kernel)
  exact ⟨x, hx, hPrepares, hStage, ((prepares_noticed_iff hx).mpr hFew).2⟩

/-- A single replica has its quorum as soon as it assigns a number, and so has the primary of four when
the prepare of replica 1 has come first: neither entry is prepared. -/
theorem prepares_unnoticed :
    (∃ s, Reach (Config.sample 1 200 100) false Anything s ∧ (s.entry 1).prepares = {0} ∧
      ¬NoneReady (Config.sample 1 200 100) s) ∧
    ∃ s, Reach (Config.sample 4 200 100) false Anything s ∧ (s.entry 1).prepares = {0, 1} ∧
      ¬NoneReady (Config.sample 4 200 100) s := by
  let m : RequestMsg := ⟨"INC", 5, 9⟩
  constructor
  · obtain ⟨s, hs, hPrepares, hReady⟩ := Machine.exists_reach (machine (Config.sample 1 200 100) false) Anything
      [.recv (.request m) 9]
      (fun s => (s.entry 1).prepares = {0} ∧ ReqLogEntry.Ready (Config.sample 1 200 100) (s.entry 1))
      (by decide +kernel)
    exact ⟨s, hs, hPrepares, fun hNone => noneReady_iff.mp hNone 1 hReady⟩
  · obtain ⟨s, hs, hPrepares, hReady⟩ := Machine.exists_reach (machine (Config.sample 4 200 100) false) Anything
      [.recv (.prepare ⟨0, 1, (Config.sample 4 200 100).getHash m, 1⟩) 1, .recv (.request m) 9]
      (fun s => (s.entry 1).prepares = {0, 1} ∧ ReqLogEntry.Ready (Config.sample 4 200 100) (s.entry 1))
      (by decide +kernel)
    exact ⟨s, hs, hPrepares, fun hNone => noneReady_iff.mp hNone 1 hReady⟩

end Node
end Pbft
