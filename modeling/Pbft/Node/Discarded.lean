import Pbft.Node.Authentic

/-! # Messages that a handler discards

Every handler but one has returned before it writes anything if one of its checks fails. The handler
of commits looks its entry up before the last check, which creates the entry if there is none.
-/
namespace Pbft.Node
set_option autoImplicit false

variable {σ : Type} {cfg : Config σ}

/-- One of the checks of the handler fails. A request that has been answered is not discarded but
answered again, and a handshake is never discarded. -/
def Discards (cfg : Config σ) (s : Node σ) (conn : Conn) : Msg → Prop
  | .handshake _ => False
  | .request m => s.lastReplies[m.clientId]?.filter (·.timestamp == m.timestamp) = none ∧
      (s.viewChanging = true ∨ (s.isPrimary cfg = true ∧
        ((s.seqNum < s.h ∨ s.seqNum ≥ s.H) ∨ s.alreadyInProgress m = true)))
  | .prePrepare m => s.comesFromPrimary cfg conn s.view = false ∨ s.viewChanging = true ∨ m.view ≠ s.view ∨
      ¬s.inWindow m.seqNum ∨ ((s.entry m.seqNum).hasPreprepare = true ∧ (s.entry m.seqNum).digest ≠ m.reqDigest)
  | .prepare m => s.comesFromPrimary cfg conn s.view = true ∨ s.viewChanging = true ∨ m.view ≠ s.view ∨
      ¬s.inWindow m.seqNum ∨ ((s.entry m.seqNum).hasPreprepare = true ∧ (s.entry m.seqNum).digest ≠ m.reqDigest)
  | .commit m => s.viewChanging = true ∨ m.view ≠ s.view ∨ ¬s.inWindow m.seqNum ∨
      (s.entry m.seqNum).digest ≠ m.reqDigest
  | .checkpoint m => m.seqNum < s.h
  | .viewChange m => m.nextView < s.view.toUInt64 ∨ m.nextView % cfg.n.toUInt64 ≠ cfg.id.toUInt64
  | .newView m => ¬s.acceptsNewview cfg m conn

/-- A commit that gets as far as the lookup, for a number that is not in the log. -/
def LeavesEntry (s : Node σ) : Msg → Prop
  | .commit m => Current s m.view m.seqNum ∧ m.seqNum ∉ s.reqlog
  | _ => False

section
variable {s : Node σ} {conn : Conn}

theorem onRequest_of_discards {m : RequestMsg} (h : Discards cfg s conn (.request m)) :
    s.onRequest cfg m = s := by
  obtain ⟨hReply, hRest⟩ := h
  unfold onRequest
  rw [hReply]
  dsimp only
  split
  · rfl
  rename_i hChanging
  rcases hRest with h | ⟨hPrimary, hWindow | hOld⟩
  · exact absurd h hChanging
  · rw [if_pos hPrimary, if_pos hWindow]
  · rw [if_pos hPrimary, if_pos hOld]
    split <;> rfl

theorem onPreprepare_of_discards {m : PrePrepareMsg} (h : Discards cfg s conn (.prePrepare m)) :
    s.onPreprepare cfg m conn = s := by
  rcases onPreprepareImpl_cases cfg m conn false s with hSame | hGuard
  · exact hSame
  · rcases h with hFrom | hChanging | hView | hWindow | ⟨hPre, hDigest⟩
    · rcases hGuard.sender with hSelf | hSender
      · cases hSelf
      · rw [hFrom] at hSender
        cases hSender
    · rw [hGuard.current.1] at hChanging
      cases hChanging
    · exact absurd hGuard.current.2.1 hView
    · exact absurd hGuard.current.2.2 hWindow
    · exact absurd (hGuard.digest hPre) hDigest

theorem onPrepare_of_discards {m : PrepareMsg} (h : Discards cfg s conn (.prepare m)) :
    s.onPrepare cfg m conn = s := by
  rcases onPrepare_cases cfg m conn s with hSame | ⟨hSender, hCurrent, hMatch⟩
  · exact hSame
  · rcases h with hFrom | hChanging | hView | hWindow | ⟨hPre, hDigest⟩
    · rw [hFrom] at hSender
      cases hSender
    · rw [hCurrent.1] at hChanging
      cases hChanging
    · exact absurd hCurrent.2.1 hView
    · exact absurd hCurrent.2.2 hWindow
    · exact absurd (hMatch hPre) hDigest

theorem setEntry_entry_iff {k : UInt64} : s.setEntry k (s.entry k) = s ↔ k ∈ s.reqlog := by
  constructor
  · intro hSame
    rw [← hSame]
    exact Std.ExtTreeMap.mem_insert_self
  · intro hk
    obtain ⟨e, he⟩ := TreeMap.mem_iff_exists.mp hk
    rw [entry_of_lookup he, setEntry, TreeMap.insert_of_lookup he]

theorem onCommit_of_discards {m : CommitMsg} (h : Discards cfg s conn (.commit m)) :
    s.onCommit cfg m = s ↔ ¬LeavesEntry s (.commit m) := by
  by_cases hCurrent : Current s m.view m.seqNum
  · have hDigest : (s.entry m.seqNum).digest ≠ m.reqDigest := by
      rcases h with hChanging | hView | hWindow | hDigest
      · rw [hCurrent.1] at hChanging
        cases hChanging
      · exact absurd hCurrent.2.1 hView
      · exact absurd hCurrent.2.2 hWindow
      · exact hDigest
    rw [onCommit_of_current hCurrent, if_pos hDigest, setEntry_entry_iff]
    constructor
    · intro hk hLeaves
      exact hLeaves.2 hk
    · intro hNot
      by_contra hk
      exact hNot ⟨hCurrent, hk⟩
  · have hSame := (onCommit_cases cfg m s).resolve_right hCurrent
    exact iff_of_true hSame fun hLeaves => hCurrent hLeaves.1

end

/-- A message that its handler discards changes nothing at all, unless it is a commit that gets as far as
the lookup for a number that is not in the log. -/
theorem discarded_iff {s : Node σ} {m : Msg} {conn : Conn} (hDiscards : Discards cfg s conn m) :
    s.handle cfg (.recv m conn) = some s ↔ ¬LeavesEntry s m := by
  cases m with
  | handshake m => exact hDiscards.elim
  | request m => exact iff_of_true (congrArg some (onRequest_of_discards hDiscards)) id
  | prePrepare m => exact iff_of_true (congrArg some (onPreprepare_of_discards hDiscards)) id
  | prepare m => exact iff_of_true (congrArg some (onPrepare_of_discards hDiscards)) id
  | commit m => exact Option.some_inj.trans (onCommit_of_discards hDiscards)
  | checkpoint m => exact iff_of_true (congrArg some (if_pos hDiscards)) id
  | viewChange m =>
    refine iff_of_true ?_ id
    show s.onViewchange cfg m = some s
    unfold onViewchange
    rcases hDiscards with hOld | hOther
    · rw [if_pos hOld]
    · rw [if_pos hOther]
      split <;> rfl
  | newView m => exact iff_of_true (congrArg some (if_pos hDiscards)) id

/-- Replica 1 has logged number 1, and a commit for another digest there is of no effect. -/
theorem discarded_iff_logged : ∃ s : Node (List String),
    Reach { Config.sample 4 200 100 with id := 1 } false Anything s ∧ (1 : UInt64) ∈ s.reqlog ∧
    s.handle { Config.sample 4 200 100 with id := 1 } (.recv (.commit ⟨0, 1, 9, 2⟩) 2) = some s := by
  obtain ⟨s, hs, hLogged, hDigest⟩ := Machine.exists_reach
    (machine { Config.sample 4 200 100 with id := 1 } false) Anything
    [.recv (.handshake ⟨0⟩) 0, .recv (.prePrepare ⟨0, 1, 7, {}⟩) 0]
    (fun s => (1 : UInt64) ∈ s.reqlog ∧ (s.entry 1).digest ≠ 9) (by decide +kernel)
  have hDiscards : Discards { Config.sample 4 200 100 with id := 1 } s 2 (.commit ⟨0, 1, 9, 2⟩) :=
    .inr (.inr (.inr hDigest))
  exact ⟨s, hs, hLogged, (discarded_iff hDiscards).mpr fun hLeaves => hLeaves.2 hLogged⟩

/-- A commit for number 150, of which nothing is known yet: it is discarded for its digest, and the next
highest sequence number is 150. -/
theorem discarded_leaves_entry : ∃ s s' : Node (List String),
    Reach { Config.sample 4 200 100 with id := 1 } false Anything s ∧
    Discards { Config.sample 4 200 100 with id := 1 } s 2 (.commit ⟨0, 150, 7, 2⟩) ∧
    s.handle { Config.sample 4 200 100 with id := 1 } (.recv (.commit ⟨0, 150, 7, 2⟩) 2) = some s' ∧
    s' ≠ s ∧ s.reqlog.keys = [] ∧ s'.reqlog.keys = [150] ∧
    s.recomputeHighestSequence = 0 ∧ s'.recomputeHighestSequence = 150 := by
  let cfg := { Config.sample 4 200 100 with id := 1 }
  let s : Node (List String) := Node.init cfg false
  refine ⟨s, s.onCommit cfg ⟨0, 150, 7, 2⟩, .init, .inr (.inr (.inr (by decide))), rfl, fun hSame => ?_, by decide,
    by decide +kernel, by decide, by decide +kernel⟩
  have hKeys : (s.onCommit cfg ⟨0, 150, 7, 2⟩).reqlog.keys = [150] := by decide +kernel
  rw [hSame] at hKeys
  exact absurd hKeys (by decide)

end Pbft.Node
