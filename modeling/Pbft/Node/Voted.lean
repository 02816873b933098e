import Pbft.Node.Settled

/-! # The numbers a replica votes for

A replica prepares what its primary sends it and commits what it has prepared, so both its votes
on a number go back to the messages of the call: the pre-prepare that is accepted, or a PREPARE
of the same view. The call is what links a vote to the current view, since the entry may have been
logged in an earlier one.
-/
namespace Pbft
set_option autoImplicit false

variable {σ : Type} {cfg : Config σ}

def Msg.slot? : Msg → Option (UInt32 × UInt64)
  | .prepare m => some (m.view, m.seqNum)
  | .commit m => some (m.view, m.seqNum)
  | _ => none

namespace Node

/-- The view and number of every PREPARE and COMMIT that has been broadcast, oldest first. -/
def voted (s : Node σ) : List (UInt32 × UInt64) := s.sent.filterMap Msg.slot?

theorem voted_congr {s t : Node σ} (h : t.sent = s.sent) : t.voted = s.voted := by
  unfold voted
  rw [h]

theorem voted_append {s t : Node σ} {m : Msg} (h : t.sent = s.sent ++ [m]) :
    t.voted = s.voted ++ m.slot?.toList := by
  unfold voted
  rw [h, List.filterMap_append]
  cases hSlot : m.slot? <;> simp [hSlot]

theorem mem_voted_of_append {s t : Node σ} {m : Msg} (h : t.sent = s.sent ++ [m]) {x : UInt32 × UInt64}
    (hx : x ∈ t.voted) : x ∈ s.voted ∨ m.slot? = some x := by
  rw [voted_append h, List.mem_append, Option.mem_toList] at hx
  exact hx

theorem voted_executeEntry (e : ReqLogEntry) (s : Node σ) : (s.executeEntry cfg e).voted = s.voted := by
  rw [executeEntry_eq]
  by_cases hDue : s.checkpointDue cfg
  · rw [voted_append (if_pos hDue)]
    exact List.append_nil _
  · exact voted_congr (if_neg hDue)

theorem voted_executeLoop (fuel : Nat) (s : Node σ) : (executeLoop cfg fuel s).voted = s.voted := by
  apply executeLoop_invariant (I := fun t => t.voted = s.voted) _ fuel rfl
  intro e t _ _ hSame
  rw [voted_executeEntry]
  exact hSame

theorem voted_tryCommit (k : UInt64) (s : Node σ) : (s.tryCommit cfg k).voted = s.voted := by
  unfold tryCommit
  dsimp only
  split
  · rw [tryExecute, voted_executeLoop]
    rfl
  · rfl

theorem voted_tryPrepare {k : UInt64} {s : Node σ} {x : UInt32 × UInt64}
    (hx : x ∈ (s.tryPrepare cfg k).voted) :
    x ∈ s.voted ∨ (x = (s.view, (s.entry k).seq) ∧ (s.entry k).hasPreprepare = true) := by
  unfold tryPrepare at hx
  dsimp only at hx
  split at hx
  · rename_i hReady
    rw [voted_tryCommit] at hx
    rcases mem_voted_of_append rfl hx with hOld | hNew
    · exact .inl hOld
    · exact .inr ⟨(Option.some.inj hNew).symm, hReady.2.1⟩
  · exact .inl hx

theorem voted_onPreprepareImpl {m : PrePrepareMsg} {conn : Conn} {fromSelf : Bool} {s : Node σ}
    {x : UInt32 × UInt64} (hx : x ∈ (s.onPreprepareImpl cfg m conn fromSelf).voted) :
    x ∈ s.voted ∨ (x = (m.view, m.seqNum) ∧ Guard cfg m conn fromSelf s) := by
  rcases onPreprepareImpl_cases cfg m conn fromSelf s with hSame | hGuard
  · rw [hSame] at hx
    exact .inl hx
  · have hView := hGuard.current.2.1
    rw [onPreprepareImpl_of_guard hGuard, startTimerIfNotRunning_eq] at hx
    rcases voted_tryPrepare hx with hx | ⟨rfl, -⟩
    · rcases mem_voted_of_append rfl hx with hOld | hNew
      · exact .inl hOld
      · refine .inr ⟨?_, hGuard⟩
        rw [← Option.some.inj hNew, hView]
    · refine .inr ⟨?_, hGuard⟩
      rw [entry_of_insert rfl, if_pos rfl, hView]
      rfl

theorem voted_prePrepares {O : List PrePrepareMsg} {conn : Conn} {s : Node σ} {x : UInt32 × UInt64}
    (hx : x ∈ (O.foldl (fun s pp => s.onPreprepareImpl cfg pp conn true) s).voted) :
    x ∈ s.voted ∨ ∃ pp ∈ O, x = (pp.view, pp.seqNum) ∧ pp.view = s.view := by
  induction O generalizing s with
  | nil => exact .inl hx
  | cons pp O ih =>
    rcases ih hx with hx | ⟨pp', hpp, hEq, hView⟩
    · rcases voted_onPreprepareImpl hx with hOld | ⟨hEq, hGuard⟩
      · exact .inl hOld
      · exact .inr ⟨pp, List.mem_cons_self, hEq, hGuard.current.2.1⟩
    · rw [(onPreprepareImpl_frame pp conn true s).view] at hView
      exact .inr ⟨pp', List.mem_cons_of_mem _ hpp, hEq, hView⟩

/-- The primary of the view has sent the call a pre-prepare for the number. -/
def FromPrimary (cfg : Config σ) (s : Node σ) (i : Input) (v : UInt32) (k : UInt64) : Prop :=
  ∃ pp conn, Carries i pp conn ∧ pp.view = v ∧ pp.seqNum = k ∧ s.connToPeer[conn]? = some (v % cfg.n) ∧
    ∀ nv, i = .recv (.newView nv) conn → nv.nextView.toUInt32 = v

theorem voted_onViewchange {m : ViewChangeMsg} {s s' : Node σ} (hCall : s.onViewchange cfg m = some s') :
    s'.voted = s.voted := by
  rcases onViewchange_cases hCall with rfl | ⟨rfl, -⟩ | ⟨-, O, -, rfl⟩
  · rfl
  · rfl
  · rw [manageTimer_eq]
    exact (voted_append rfl).trans (List.append_nil _)

theorem voted_onNewview {m : NewViewMsg} {conn : Conn} {s : Node σ} {v : UInt32} {k : UInt64}
    (hx : (v, k) ∈ (s.onNewview cfg m conn).voted) :
    (v, k) ∈ s.voted ∨ FromPrimary cfg s (.recv (.newView m) conn) v k := by
  unfold onNewview at hx
  split at hx
  · exact .inl hx
  · rename_i hAccepts
    rw [manageTimer_eq] at hx
    rcases voted_prePrepares hx with hOld | ⟨pp, hpp, hEq, hView⟩
    · exact .inl hOld
    · have hFrom := (not_not.mp hAccepts).1
      rw [comesFromPrimary, beq_iff_eq] at hFrom
      obtain ⟨rfl, rfl⟩ := Prod.mk.inj hEq
      refine .inr ⟨pp, conn, .inr ⟨m, rfl, hpp⟩, rfl, rfl, ?_, fun nv hi => ?_⟩
      · rw [hView]
        exact hFrom
      · cases hi
        exact hView.symm

theorem voted_onPrepare {m : PrepareMsg} {conn : Conn} {s : Node σ}
    (hSeq : ∀ k, (s.entry k).hasPreprepare = true → (s.entry k).seq = k) {x : UInt32 × UInt64}
    (hx : x ∈ (s.onPrepare cfg m conn).voted) : x ∈ s.voted ∨ x = (m.view, m.seqNum) := by
  rcases onPrepare_cases cfg m conn s with hSame | ⟨hFrom, hCurrent, hDigest⟩
  · rw [hSame] at hx
    exact .inl hx
  · rw [onPrepare_of_current hFrom hCurrent hDigest] at hx
    rcases voted_tryPrepare hx with hOld | ⟨rfl, hPre⟩
    · exact .inl hOld
    · rw [entry_setEntry] at hPre ⊢
      refine .inr ?_
      dsimp only
      rw [hSeq _ hPre, hCurrent.2.1]
      rfl

theorem voted_onCommit (m : CommitMsg) (s : Node σ) : (s.onCommit cfg m).voted = s.voted := by
  rcases onCommit_cases cfg m s with hSame | hCurrent
  · rw [hSame]
  · rw [onCommit_of_current hCurrent]
    split
    · rfl
    · rw [voted_tryCommit]
      rfl

theorem voted_onCheckpoint (m : CheckpointMsg) (s : Node σ) : (s.onCheckpoint cfg m).voted = s.voted := by
  rcases onCheckpoint_cases cfg m s with ⟨-, hEq⟩ | ⟨-, hEq | ⟨cp, -, -, -, hEq⟩⟩
  · rw [hEq]
  · rw [hEq]
    rfl
  · rw [hEq]
    rfl

theorem voted_handle {s s' : Node σ} {i : Input}
    (hSeq : ∀ k, (s.entry k).hasPreprepare = true → (s.entry k).seq = k)
    (hCall : s.handle cfg i = some s') {v : UInt32} {k : UInt64} (hx : (v, k) ∈ s'.voted) :
    (v, k) ∈ s.voted ∨ FromPrimary cfg s i v k ∨
      ∃ m conn, i = .recv (.prepare m) conn ∧ m.view = v ∧ m.seqNum = k := by
  unfold handle at hCall
  split at hCall
  · cases hCall
    exact .inl hx
  · cases hCall
    rcases onRequest_cases cfg _ s with ⟨-, hEq⟩ | ⟨-, _, _, _, hEq⟩
    · rw [hEq] at hx
      rcases mem_voted_of_append rfl hx with hOld | hNew
      · exact .inl hOld
      · cases hNew
    · rw [hEq] at hx
      exact .inl hx
  · rename_i m conn
    cases hCall
    rcases voted_onPreprepareImpl hx with hOld | ⟨hEq, hGuard⟩
    · exact .inl hOld
    · obtain ⟨rfl, rfl⟩ := Prod.mk.inj hEq
      refine .inr (.inl ⟨m, conn, .inl rfl, rfl, rfl, ?_, fun nv hi => ?_⟩)
      · rcases hGuard.sender with hSelf | hFrom
        · cases hSelf
        · rw [hGuard.current.2.1]
          simpa [comesFromPrimary] using hFrom
      · cases hi
  · rename_i m conn
    cases hCall
    rcases voted_onPrepare hSeq hx with hOld | hEq
    · exact .inl hOld
    · obtain ⟨rfl, rfl⟩ := Prod.mk.inj hEq
      exact .inr (.inr ⟨m, conn, rfl, rfl, rfl⟩)
  · cases hCall
    rw [voted_onCommit] at hx
    exact .inl hx
  · cases hCall
    rw [voted_onCheckpoint] at hx
    exact .inl hx
  · rw [voted_onViewchange hCall] at hx
    exact .inl hx
  · cases hCall
    rcases voted_onNewview hx with hOld | hFrom
    · exact .inl hOld
    · exact .inr (.inl hFrom)
  · rw [voted_onViewchange hCall, beginViewChange_eq] at hx
    rcases mem_voted_of_append rfl hx with hOld | hNew
    · exact .inl hOld
    · cases hNew

end Node
end Pbft
