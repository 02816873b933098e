import Pbft.Node.Step

/-! # What each handler checks

A handler leaves the state alone or it has passed its tests; the tests and what follows them are
stated here once for each handler, so that nothing later has to go through the early returns.
-/
namespace Pbft.Node
set_option autoImplicit false

variable {σ : Type} {cfg : Config σ}

theorem onRequest_cases (cfg : Config σ) (m : RequestMsg) (s : Node σ) :
    (Proposes cfg s m ∧ s.onRequest cfg m = s.propose cfg m) ∨
    (¬Proposes cfg s m ∧ ∃ replies forwarded timerRunning, s.onRequest cfg m =
      { s with replies := replies, forwarded := forwarded, timerRunning := timerRunning }) := by
  unfold onRequest
  split
  · rename_i info hInfo
    refine .inr ⟨fun h => ?_, _, _, _, rfl⟩
    rw [h.noReply] at hInfo
    cases hInfo
  rename_i hReply
  split
  · rename_i hChanging
    exact .inr ⟨fun h => by simp [h.changing] at hChanging, _, _, _, rfl⟩
  rename_i hChanging
  split
  · rename_i hPrimary
    split
    · rename_i hWindow
      refine .inr ⟨fun h => ?_, _, _, _, rfl⟩
      rcases hWindow with hLow | hHigh
      · exact UInt64.not_lt.mpr h.low hLow
      · exact UInt64.not_le.mpr h.high hHigh
    rename_i hWindow
    rw [not_or, UInt64.not_lt, ge_iff_le, UInt64.not_le] at hWindow
    split
    · rename_i hOld
      exact .inr ⟨fun h => by simp [h.isNew] at hOld, _, _, _, rfl⟩
    · rename_i hNew
      exact .inl ⟨⟨hReply, Bool.eq_false_iff.mpr hChanging, beq_iff_eq.mp hPrimary, hWindow.1, hWindow.2,
        Bool.eq_false_iff.mpr hNew⟩, rfl⟩
  · rename_i hPrimary
    refine .inr ⟨fun h => hPrimary (beq_iff_eq.mpr h.primary), ?_⟩
    rw [startTimerIfNotRunning_eq]
    exact ⟨_, _, _, rfl⟩

/-- What on_preprepare_impl checks. -/
structure Guard (cfg : Config σ) (m : PrePrepareMsg) (conn : Conn) (fromSelf : Bool) (s : Node σ) : Prop where
  sender : fromSelf = true ∨ s.comesFromPrimary cfg conn s.view = true
  current : Current s m.view m.seqNum
  digest : (s.entry m.seqNum).hasPreprepare = true → (s.entry m.seqNum).digest = m.reqDigest

theorem onPreprepareImpl_of_guard {m : PrePrepareMsg} {conn : Conn} {fromSelf : Bool} {s : Node σ}
    (h : Guard cfg m conn fromSelf s) : s.onPreprepareImpl cfg m conn fromSelf =
      (s.startTimerIfNotRunning.acceptPreprepare cfg m).tryPrepare cfg m.seqNum := by
  obtain ⟨hSender, ⟨hChanging, hView, hWindow⟩, hDigest⟩ := h
  unfold onPreprepareImpl
  rw [if_neg (by rcases hSender with h | h <;> simp [h]), if_neg (by simp [hChanging]),
    if_neg (not_not.mpr hView), if_neg (not_not.mpr hWindow), if_neg fun hNe => hNe.2 (hDigest hNe.1)]

theorem onPreprepareImpl_cases (cfg : Config σ) (m : PrePrepareMsg) (conn : Conn) (fromSelf : Bool)
    (s : Node σ) : s.onPreprepareImpl cfg m conn fromSelf = s ∨ Guard cfg m conn fromSelf s := by
  unfold onPreprepareImpl
  split
  · exact .inl rfl
  rename_i hSender
  split
  · exact .inl rfl
  rename_i hChanging
  split
  · exact .inl rfl
  rename_i hView
  split
  · exact .inl rfl
  rename_i hWindow
  split
  · exact .inl rfl
  rename_i hConflict
  refine .inr ⟨?_, ⟨Bool.eq_false_iff.mpr hChanging, not_not.mp hView, not_not.mp hWindow⟩, fun hPre => ?_⟩
  · cases fromSelf with
    | true => exact .inl rfl
    | false => exact .inr (by simpa using hSender)
  · exact not_not.mp fun hNe => hConflict ⟨hPre, hNe⟩

theorem onPrepare_of_current {m : PrepareMsg} {conn : Conn} {s : Node σ}
    (hFrom : s.comesFromPrimary cfg conn s.view = false) (hCurrent : Current s m.view m.seqNum)
    (hDigest : (s.entry m.seqNum).hasPreprepare = true → (s.entry m.seqNum).digest = m.reqDigest) :
    s.onPrepare cfg m conn = (s.setEntry m.seqNum { s.entry m.seqNum with
      prepares := insert m.replicaId (s.entry m.seqNum).prepares }).tryPrepare cfg m.seqNum := by
  unfold onPrepare
  rw [if_neg (by simp [hFrom]), if_neg (by simp [hCurrent.1]), if_neg (not_not.mpr hCurrent.2.1),
    if_neg (not_not.mpr hCurrent.2.2)]
  exact if_neg fun hNe => hNe.2 (hDigest hNe.1)

theorem onPrepare_cases (cfg : Config σ) (m : PrepareMsg) (conn : Conn) (s : Node σ) :
    s.onPrepare cfg m conn = s ∨ (s.comesFromPrimary cfg conn s.view = false ∧ Current s m.view m.seqNum ∧
      ((s.entry m.seqNum).hasPreprepare = true → (s.entry m.seqNum).digest = m.reqDigest)) := by
  unfold onPrepare
  split
  · exact .inl rfl
  rename_i hFrom
  split
  · exact .inl rfl
  rename_i hChanging
  split
  · exact .inl rfl
  rename_i hView
  split
  · exact .inl rfl
  rename_i hWindow
  dsimp only
  split
  · exact .inl rfl
  rename_i hConflict
  refine .inr ⟨Bool.eq_false_iff.mpr hFrom, ⟨Bool.eq_false_iff.mpr hChanging, not_not.mp hView,
    not_not.mp hWindow⟩, fun hPre => ?_⟩
  exact not_not.mp fun hNe => hConflict ⟨hPre, hNe⟩

theorem onCommit_of_current {m : CommitMsg} {s : Node σ} (hCurrent : Current s m.view m.seqNum) :
    s.onCommit cfg m = if (s.entry m.seqNum).digest ≠ m.reqDigest then
        s.setEntry m.seqNum (s.entry m.seqNum)
      else (s.setEntry m.seqNum { s.entry m.seqNum with
        commits := insert m.replicaId (s.entry m.seqNum).commits }).tryCommit cfg m.seqNum := by
  unfold onCommit
  rw [if_neg (by simp [hCurrent.1]), if_neg (not_not.mpr hCurrent.2.1), if_neg (not_not.mpr hCurrent.2.2)]
  dsimp only
  unfold setEntry
  dsimp only
  rw [TreeMap.insert_insert]

theorem onCommit_cases (cfg : Config σ) (m : CommitMsg) (s : Node σ) :
    s.onCommit cfg m = s ∨ Current s m.view m.seqNum := by
  unfold onCommit
  split
  · exact .inl rfl
  rename_i hChanging
  split
  · exact .inl rfl
  rename_i hView
  split
  · exact .inl rfl
  rename_i hWindow
  exact .inr ⟨Bool.eq_false_iff.mpr hChanging, not_not.mp hView, not_not.mp hWindow⟩

theorem onCheckpoint_cases (cfg : Config σ) (m : CheckpointMsg) (s : Node σ) :
    (m.seqNum < s.h ∧ s.onCheckpoint cfg m = s) ∨
    (s.h ≤ m.seqNum ∧ (s.onCheckpoint cfg m = s.voteCheckpoint m.seqNum m.stateDigest m.replicaId ∨
      ∃ cp, cp = (s.checkpoints.getD m.seqNum {}).addVote m.stateDigest m.replicaId ∧ cp.stable = false ∧
        cfg.quorum ≤ (cp.votes.getD m.stateDigest ∅).card ∧ s.onCheckpoint cfg m =
          (s.voteCheckpoint m.seqNum m.stateDigest m.replicaId).stabilize cfg m cp)) := by
  unfold onCheckpoint
  split
  · rename_i hOld
    exact .inl ⟨hOld, rfl⟩
  rename_i hLow
  refine .inr ⟨UInt64.not_lt.mp hLow, ?_⟩
  dsimp only
  split
  · rename_i hReady
    rw [Bool.and_eq_true, Bool.not_eq_true', decide_eq_true_eq] at hReady
    refine .inr ⟨_, ?_, hReady.1, hReady.2, rfl⟩
    simp [voteCheckpoint]
  · exact .inl rfl

theorem eq_checkpoint_or (i : Input) :
    (∃ m conn, i = .recv (.checkpoint m) conn) ∨ ∀ m conn, i ≠ .recv (.checkpoint m) conn := by
  by_cases h : ∃ m conn, i = .recv (.checkpoint m) conn
  · exact .inl h
  · exact .inr fun m conn hi => h ⟨m, conn, hi⟩

/-- The checkpoint that m votes for becomes stable with this vote. -/
def Stabilizes (cfg : Config σ) (s : Node σ) (m : CheckpointMsg) : Prop :=
  let cp := (s.checkpoints.getD m.seqNum {}).addVote m.stateDigest m.replicaId
  s.h ≤ m.seqNum ∧ cp.stable = false ∧ cfg.quorum ≤ (cp.votes.getD m.stateDigest ∅).card

instance (s : Node σ) (m : CheckpointMsg) : Decidable (Stabilizes cfg s m) :=
  inferInstanceAs (Decidable (_ ∧ _))

def Completes (cfg : Config σ) (s₀ : Node σ) (m : ViewChangeMsg) : Prop :=
  s₀.view.toUInt64 ≤ m.nextView ∧ m.nextView % cfg.n.toUInt64 = cfg.id.toUInt64 ∧
    cfg.quorum ≤ (s₀.storedWith m).size

instance (s₀ : Node σ) (m : ViewChangeMsg) : Decidable (Completes cfg s₀ m) :=
  inferInstanceAs (Decidable (_ ∧ _))

/-- The V set of a NEW-VIEW that m completes. -/
def reports (s : Node σ) (m : ViewChangeMsg) : List ViewChangeMsg := (s.storedWith m).toList.map Prod.snd

def offered? (cfg : Config σ) (s₀ : Node σ) : Input → Option ViewChangeMsg
  | .recv (.viewChange m) _ => some m
  | .timeout => some (s₀.viewChangeMsg cfg)
  | _ => none

theorem mem_offered?_of_offers {s₀ : Node σ} {i : Input} {m : ViewChangeMsg}
    (h : Offers cfg s₀ i m) : m ∈ offered? cfg s₀ i := by
  rcases h with ⟨conn, rfl⟩ | ⟨rfl, rfl⟩
  · rfl
  · rfl

theorem offers_of_mem_offered? {s₀ : Node σ} {i : Input} {m : ViewChangeMsg}
    (h : m ∈ offered? cfg s₀ i) : Offers cfg s₀ i m := by
  unfold offered? at h
  split at h
  · cases h
    exact .inl ⟨_, rfl⟩
  · cases h
    exact .inr ⟨rfl, rfl⟩
  · cases h

theorem onViewchange_cases {m : ViewChangeMsg} {s s' : Node σ} (h : s.onViewchange cfg m = some s') :
    s' = s ∨ (s' = s.storeViewChange m ∧ (s.storedWith m).size < cfg.quorum ∧
      s.view.toUInt64 ≤ m.nextView ∧ m.nextView % cfg.n.toUInt64 = cfg.id.toUInt64) ∨
    (Completes cfg s m ∧ ∃ O, oSet cfg m.nextView ((s.storedWith m).toList.map Prod.snd) = some O ∧
      s' = ((s.storeViewChange m).installView m.nextView
        ((s.storedWith m).toList.map Prod.snd) O).manageTimer) := by
  unfold onViewchange at h
  split at h
  · cases h
    exact .inl rfl
  · rename_i hView
    split at h
    · cases h
      exact .inl rfl
    · rename_i hMine
      dsimp only at h
      split at h
      · rename_i hQuorum
        obtain ⟨O, hO, rfl⟩ := Option.map_eq_some_iff.mp h
        exact .inr (.inr ⟨⟨UInt64.not_lt.mp hView, not_not.mp hMine, hQuorum⟩, O, hO, rfl⟩)
      · rename_i hFew
        cases h
        exact .inr (.inl ⟨rfl, Nat.lt_of_not_le hFew, UInt64.not_lt.mp hView, not_not.mp hMine⟩)

theorem onViewchange_eq {m : ViewChangeMsg} {s : Node σ} (hView : s.view.toUInt64 ≤ m.nextView)
    (hMine : m.nextView % cfg.n.toUInt64 = cfg.id.toUInt64) : s.onViewchange cfg m =
      if (s.storedWith m).size ≥ cfg.quorum then
        (oSet cfg m.nextView ((s.storedWith m).toList.map Prod.snd)).map fun O =>
          ((s.storeViewChange m).installView m.nextView ((s.storedWith m).toList.map Prod.snd) O).manageTimer
      else some (s.storeViewChange m) := by
  unfold onViewchange
  rw [if_neg (UInt64.not_lt.mpr hView), if_neg (not_not.mpr hMine)]

end Pbft.Node
