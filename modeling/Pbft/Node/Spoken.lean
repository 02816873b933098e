import Pbft.Node.Follow
import Pbft.Node.OwnVote

/-! # What a replica has said

In view 0, without faults and timers, each vote that a replica's own state calls for has been
broadcast: a prepare for an accepted pre-prepare, a commit for a prepared entry, a checkpoint for
each multiple of the interval that it has executed. What is broadcast can be delivered again.
-/
namespace Pbft
set_option autoImplicit false

variable {σ : Type} {cfg : Config σ} {P : List PrePrepareMsg}

theorem Numbered.unique (h : Numbered P) {pp pp' : PrePrepareMsg} (hpp : pp ∈ P) (hpp' : pp' ∈ P)
    (hSeq : pp.seqNum = pp'.seqNum) : pp = pp' := by
  have hHere := (h.index hpp).1
  rw [hSeq, (h.index hpp').1] at hHere
  exact (Option.some.inj hHere).symm

/-- The entry holds what the pre-prepare says. -/
structure ReqLogEntry.Copies (e : ReqLogEntry) (pp : PrePrepareMsg) : Prop where
  view : e.view = pp.view
  seq : e.seq = pp.seqNum
  digest : e.digest = pp.reqDigest
  req : e.req = pp.req

namespace Node

structure Said (cfg : Config σ) (P : List PrePrepareMsg) (sent : List Msg) (k : UInt64) (e : ReqLogEntry) :
    Prop where
  logged : e.hasPreprepare = true →
    ∃ pp, (pp ∈ P ∨ Msg.prePrepare pp ∈ sent) ∧ pp.view = 0 ∧ pp.seqNum = k ∧ e.Copies pp
  prepare : e.hasPreprepare = true → cfg.id ≠ 0 → Msg.prepare ⟨0, k, e.digest, cfg.id⟩ ∈ sent
  commit : e.stage = .prepared ∨ e.stage = .committed → Msg.commit ⟨0, k, e.digest, cfg.id⟩ ∈ sent

structure Spoken (cfg : Config σ) (P : List PrePrepareMsg) (s : Node σ) : Prop where
  view : s.view = 0
  idle : s.viewChanging = false
  said : ∀ k, Said cfg P s.sent k (s.entry k)
  mine : ∀ pp, Msg.prePrepare pp ∈ s.sent →
    pp.view = 0 ∧ (s.h < pp.seqNum → (s.entry pp.seqNum).hasPreprepare = true)

theorem Said.empty (sent : List Msg) (k : UInt64) : Said cfg P sent k {} where
  logged h := by cases h
  prepare h := by cases h
  commit h := by rcases h with h | h <;> cases h

theorem Said.mono {sent sent' : List Msg} {k : UInt64} {e : ReqLogEntry} (h : Said cfg P sent k e)
    (hSent : ∀ m ∈ sent, m ∈ sent') : Said cfg P sent' k e where
  logged hPre := by
    obtain ⟨pp, hpp, hRest⟩ := h.logged hPre
    exact ⟨pp, hpp.imp_right (hSent _), hRest⟩
  prepare hPre hBackup := hSent _ (h.prepare hPre hBackup)
  commit hStage := hSent _ (h.commit hStage)

/-- Votes are no part of what the pre-prepare says, and neither is the stage. -/
theorem Said.vote {sent : List Msg} {k : UInt64} {e : ReqLogEntry} (h : Said cfg P sent k e) {stage : ReqStage}
    (A B : Finset UInt32) (hStage : stage = .prepared ∨ stage = .committed →
      Msg.commit ⟨0, k, e.digest, cfg.id⟩ ∈ sent) :
    Said cfg P sent k { e with stage := stage, prepares := A, commits := B } where
  logged hPre := by
    obtain ⟨pp, hpp, hView, hSeq, hCopies⟩ := h.logged hPre
    exact ⟨pp, hpp, hView, hSeq, hCopies.view, hCopies.seq, hCopies.digest, hCopies.req⟩
  prepare := h.prepare
  commit := hStage

theorem spoken_init (t : Bool) : Spoken cfg P (Node.init cfg t) where
  view := rfl
  idle := rfl
  said k := by simpa [Node.init, entry] using Said.empty _ k
  mine pp h := by simp [Node.init] at h

/-- A step that writes one entry and broadcasts no pre-prepare. -/
theorem Spoken.write {s t : Node σ} {k : UInt64} {e : ReqLogEntry} (w : Spoken cfg P s)
    (hLog : t.reqlog = s.reqlog.insert k e) (hView : t.view = s.view) (hIdle : t.viewChanging = s.viewChanging)
    (hLow : t.h = s.h) (hSent : ∀ m ∈ s.sent, m ∈ t.sent)
    (hNone : ∀ pp, Msg.prePrepare pp ∈ t.sent → Msg.prePrepare pp ∈ s.sent)
    (hKeeps : (s.entry k).hasPreprepare = true → e.hasPreprepare = true) (he : Said cfg P t.sent k e) :
    Spoken cfg P t where
  view := hView.trans w.view
  idle := hIdle.trans w.idle
  said a := by
    rw [entry_of_insert hLog]
    split
    · rename_i hka
      exact hka ▸ he
    · exact (w.said a).mono hSent
  mine pp hpp := by
    obtain ⟨hZero, hAbove⟩ := w.mine pp (hNone pp hpp)
    refine ⟨hZero, fun hLt => ?_⟩
    rw [hLow] at hLt
    rw [entry_of_insert hLog]
    split
    · rename_i hka
      exact hKeeps (hka ▸ hAbove hLt)
    · exact hAbove hLt

theorem Spoken.congr {s t : Node σ} (w : Spoken cfg P s) (hLog : t.reqlog = s.reqlog) (hView : t.view = s.view)
    (hIdle : t.viewChanging = s.viewChanging) (hLow : t.h = s.h) (hSent : ∀ m ∈ s.sent, m ∈ t.sent)
    (hNone : ∀ pp, Msg.prePrepare pp ∈ t.sent → Msg.prePrepare pp ∈ s.sent) : Spoken cfg P t where
  view := hView.trans w.view
  idle := hIdle.trans w.idle
  said k := by
    rw [entry_congr hLog]
    exact (w.said k).mono hSent
  mine pp hpp := by
    rw [hLow, entry_congr hLog]
    exact w.mine pp (hNone pp hpp)

theorem spoken_propose {s : Node σ} {m : RequestMsg} (w : Spoken cfg P s) (hProposes : Proposes cfg s m) :
    Spoken cfg P (s.propose cfg m) := by
  have hMine : cfg.id = 0 := by
    rw [hProposes.primary, w.view, UInt32.zero_mod]
  have hSent : ∀ a ∈ s.sent, a ∈ (s.propose cfg m).sent := fun a ha => List.mem_append_left _ ha
  refine ⟨w.view, w.idle, fun k => ?_, fun pp hpp => ?_⟩
  · rw [entry_of_insert rfl]
    split
    · rename_i hk
      refine ⟨fun _ => ?_, fun _ hBackup => absurd hMine hBackup, fun hStage => ?_⟩
      · refine ⟨⟨s.view, s.seqNum + 1, cfg.getHash m, m⟩, .inr ?_, w.view, hk, rfl, rfl, rfl, rfl⟩
        exact List.mem_append_right _ (List.mem_singleton.mpr rfl)
      · rcases hStage with hStage | hStage <;> cases hStage
    · exact (w.said k).mono hSent
  · rw [entry_of_insert rfl]
    rcases List.mem_append.mp hpp with hOld | hNew
    · obtain ⟨hZero, hAbove⟩ := w.mine pp hOld
      refine ⟨hZero, fun hLt => ?_⟩
      split
      · rfl
      · exact hAbove hLt
    · cases List.mem_singleton.mp hNew
      exact ⟨w.view, fun _ => by rw [if_pos rfl]⟩

theorem spoken_stabilize {s : Node σ} {m : CheckpointMsg} {cp : CheckpointVotes} (w : Spoken cfg P s)
    (hLow : s.h ≤ m.seqNum) : Spoken cfg P (s.stabilize cfg m cp) where
  view := w.view
  idle := w.idle
  said k := by
    rw [entry_of_stabilize]
    split
    · exact .empty _ k
    · exact (w.said k).mono fun _ => id
  mine pp hpp := by
    obtain ⟨hZero, hAbove⟩ := w.mine pp hpp
    refine ⟨hZero, fun hLt => ?_⟩
    have hNew : m.seqNum < pp.seqNum := hLt
    rw [entry_of_stabilize, if_neg (UInt64.not_le.mpr hNew)]
    exact hAbove (UInt64.lt_of_le_of_lt hLow hNew)

theorem spoken_step {s₀ s s' : Node σ} {i : Input} (hIn : Ordinary P i) (hLog : LogInv cfg s)
    (w : Spoken cfg P s) (hStep : Step cfg s₀ i s s') : Spoken cfg P s' := by
  cases hStep with
  | propose _ hProposes => exact spoken_propose w hProposes
  | @accept _ m conn hi _ hCurrent =>
    have hMem : m ∈ P := by
      rcases hi with hi | ⟨nv, hi, -⟩
      · exact hIn.within _ _ hi
      · exact (hIn.within _ _ hi).elim
    refine w.write rfl rfl rfl rfl (fun _ h => List.mem_append_left _ h)
      (fun pp hpp => sent_of_append hpp nofun) (fun _ => rfl) ⟨fun _ => ?_, fun _ _ => ?_, fun hStage => ?_⟩
    · exact ⟨m, .inl hMem, hCurrent.2.1.trans w.view, rfl, rfl, rfl, rfl, rfl⟩
    · rw [← w.view]
      exact List.mem_append_right _ (List.mem_singleton.mpr rfl)
    · rcases hStage with hStage | hStage <;> cases hStage
  | votePrepare =>
    exact w.write rfl rfl rfl rfl (fun _ => id) (fun _ => id) id ((w.said _).vote _ _ (w.said _).commit)
  | voteCommit =>
    exact w.write rfl rfl rfl rfl (fun _ => id) (fun _ => id) id ((w.said _).vote _ _ (w.said _).commit)
  | touch => exact w.write rfl rfl rfl rfl (fun _ => id) (fun _ => id) id (w.said _)
  | @markPrepared _ k _ hPre =>
    have hSent : ∀ a ∈ s.sent, a ∈ (s.markPrepared cfg k).sent := fun a ha => List.mem_append_left _ ha
    refine w.write rfl rfl rfl rfl hSent (fun pp hpp => sent_of_append hpp nofun) id
      (((w.said k).mono hSent).vote _ _ fun _ => ?_)
    have hSeq : (s.entry k).seq = k := (hLog.entries k).seq hPre
    have hNew : Msg.commit ⟨s.view, (s.entry k).seq, (s.entry k).digest, cfg.id⟩ ∈
        (s.markPrepared cfg k).sent := List.mem_append_right _ (List.mem_singleton.mpr rfl)
    rwa [w.view, hSeq] at hNew
  | markCommitted hStage =>
    exact w.write rfl rfl rfl rfl (fun _ => id) (fun _ => id) id
      ((w.said _).vote _ _ fun _ => (w.said _).commit (.inl hStage))
  | execute =>
    rw [executeEntry_eq]
    refine w.congr rfl rfl rfl rfl (fun a ha => ?_) fun pp hpp => ?_
    · dsimp only
      split
      · exact List.mem_append_left _ ha
      · exact ha
    · dsimp only at hpp
      split at hpp
      · exact sent_of_append hpp nofun
      · exact hpp
  | stabilize _ hLow => exact spoken_stabilize w hLow
  | beginViewChange hi => exact absurd hi hIn.noTimeout
  | storeViewChange hi | installView hi => exact absurd hi hIn.not_offers
  | enterView hi | recompute hi => exact (hIn.within _ _ hi).elim
  | handshake | timer | resend | forward | voteCheckpoint =>
    exact w.congr rfl rfl rfl rfl (fun _ => id) fun _ => id

/-- The replica's own message for number k, as its history determines it. -/
def described (cfg : Config σ) (s : Node σ) (k : UInt64) : CheckpointMsg :=
  ⟨k, cfg.service.getCheckpointDigest (stateAfter cfg (s.executed.take k.toNat)), cfg.id⟩

structure Described (cfg : Config σ) (s : Node σ) : Prop where
  sent : ∀ k, 0 < k → k ≤ s.lastExec → k % cfg.K.toUInt64 = 0 → Msg.checkpoint (described cfg s k) ∈ s.sent
  own : ∀ m, Msg.checkpoint m ∈ s.sent →
    m.replicaId = cfg.id ∧ (s.h ≤ m.seqNum → cfg.id ∈ s.voters (.checkpoint m.seqNum m.stateDigest))

theorem voters_stabilize {s : Node σ} {m : CheckpointMsg} {cp : CheckpointVotes}
    (hVotes : s.checkpoints[m.seqNum]? = some cp) {k : UInt64} (hk : m.seqNum ≤ k) (digest : Digest) :
    (s.stabilize cfg m cp).voters (.checkpoint k digest) = s.voters (.checkpoint k digest) := by
  have hKept := TreeMap.getD_filter (t := s.checkpoints.insert m.seqNum { cp with stable := true })
    (fun k => !decide (k < m.seqNum)) k {}
  refine (congrArg (fun cp : CheckpointVotes => cp.votes.getD digest ∅) hKept).trans ?_
  rw [if_pos (by simpa using hk), TreeMap.getD_insert]
  split
  · rename_i hSame
    rw [← hSame, voters, TreeMap.getD_of_lookup hVotes]
  · rfl

theorem described_init (t : Bool) : Described cfg (Node.init cfg t) where
  sent k hPos hk := absurd (UInt64.lt_of_lt_of_le hPos hk) (UInt64.lt_irrefl 0)
  own m h := by simp [Node.init] at h

theorem Described.congr {s t : Node σ} (w : Described cfg s) (hLast : t.lastExec = s.lastExec)
    (hExecuted : t.executed = s.executed) (hLow : t.h = s.h) (hSent : ∀ m ∈ s.sent, m ∈ t.sent)
    (hNone : ∀ m, Msg.checkpoint m ∈ t.sent → Msg.checkpoint m ∈ s.sent)
    (hVotes : ∀ k d, s.voters (.checkpoint k d) ⊆ t.voters (.checkpoint k d)) : Described cfg t where
  sent k hPos hk hDue := by
    unfold described
    rw [hExecuted]
    exact hSent _ (w.sent k hPos (hLast ▸ hk) hDue)
  own m hm := by
    obtain ⟨hId, hOwn⟩ := w.own m (hNone m hm)
    exact ⟨hId, fun hLe => hVotes _ _ (hOwn (hLow ▸ hLe))⟩

theorem described_execute {s : Node σ} {e : ReqLogEntry} (hWindow : WindowInv cfg s) (hLog : LogInv cfg s)
    (hService : ServiceInv cfg s) (w : Described cfg s) (hEntry : s.reqlog[s.lastExec + 1]? = some e) :
    Described cfg (s.executeEntry cfg e) := by
  have hSucc := hWindow.succ hEntry
  have hLength := hLog.length
  let r := cfg.service.execute s.service e.req.operation
  let x := Execution.mk (s.lastExec + 1) e r.2
  have hState : stateAfter cfg (s.executed ++ [x]) = r.1 := by
    unfold stateAfter
    rw [List.foldl_append, ← stateAfter, ← hService.service]
    rfl
  have hOld : ∀ k, k ≤ s.lastExec → (s.executed ++ [x]).take k.toNat = s.executed.take k.toNat := by
    intro k hk
    rw [UInt64.le_iff_toNat_le] at hk
    exact List.take_append_of_le_length (by omega)
  have hAll : (s.executed ++ [x]).take (s.lastExec + 1).toNat = s.executed ++ [x] :=
    List.take_of_length_le (by simp [hLength, hSucc])
  rw [executeEntry_eq]
  constructor
  · intro k hPos hk hDue
    unfold described
    dsimp only at hk ⊢
    by_cases hNew : k ≤ s.lastExec
    · rw [hOld k hNew]
      have hBefore := w.sent k hPos hNew hDue
      split
      · exact List.mem_append_left _ hBefore
      · exact hBefore
    · have hLast : k = s.lastExec + 1 := by
        rw [UInt64.le_iff_toNat_le] at hk hNew
        exact UInt64.toNat_inj.mp (by omega)
      subst hLast
      have hDue : s.checkpointDue cfg := hDue
      rw [if_pos hDue, hAll, hState]
      exact List.mem_append_right _ (List.mem_singleton.mpr rfl)
  · intro m hm
    dsimp only at hm ⊢
    by_cases hDue : s.checkpointDue cfg
    · have hVotes := voters_voteCheckpoint (s.lastExec + 1) m.seqNum (cfg.service.getCheckpointDigest r.1)
        m.stateDigest cfg.id s
      rw [if_pos hDue] at hm
      simp only [if_pos hDue]
      refine ⟨?_, fun hLe => ?_⟩
      · rcases List.mem_append.mp hm with hm | hm
        · exact (w.own m hm).1
        · cases List.mem_singleton.mp hm
          rfl
      · refine (Finset.ext_iff.mp hVotes cfg.id).mpr ?_
        rcases List.mem_append.mp hm with hm | hm
        · have hOwn := (w.own m hm).2 hLe
          split
          · exact Finset.mem_insert_self _ _
          · exact hOwn
        · cases List.mem_singleton.mp hm
          rw [if_pos ⟨rfl, rfl⟩]
          exact Finset.mem_insert_self _ _
    · rw [if_neg hDue] at hm
      simp only [if_neg hDue]
      exact w.own m hm

theorem described_step {s₀ s s' : Node σ} {i : Input} (hWindow : WindowInv cfg s) (hLog : LogInv cfg s)
    (hService : ServiceInv cfg s) (w : Described cfg s) (hStep : Step cfg s₀ i s s') : Described cfg s' := by
  cases hStep with
  | propose | accept | markPrepared | installView =>
    exact w.congr rfl rfl rfl (fun _ h => List.mem_append_left _ h) (fun m hm => sent_of_append hm nofun)
      fun _ _ => Finset.Subset.rfl
  | beginViewChange =>
    rw [beginViewChange_eq]
    exact w.congr rfl rfl rfl (fun _ h => List.mem_append_left _ h) (fun m hm => sent_of_append hm nofun)
      fun _ _ => Finset.Subset.rfl
  | execute hEntry => exact described_execute hWindow hLog hService w hEntry
  | @voteCheckpoint _ m =>
    refine w.congr rfl rfl rfl (fun _ => id) (fun _ => id) fun k d => ?_
    rw [voters_voteCheckpoint]
    split
    · rename_i hSame
      rw [← hSame.1, ← hSame.2]
      exact Finset.subset_insert _ _
    · exact Finset.Subset.rfl
  | @stabilize _ m _ cp _ hLow hVotes =>
    refine ⟨w.sent, fun a ha => ?_⟩
    obtain ⟨hId, hOwn⟩ := w.own a ha
    refine ⟨hId, fun hLe => ?_⟩
    have hLe : m.seqNum ≤ a.seqNum := hLe
    rw [voters_stabilize hVotes hLe]
    exact hOwn (UInt64.le_trans hLow hLe)
  | _ => exact w.congr rfl rfl rfl (fun _ => id) (fun _ => id) fun _ _ => Finset.Subset.rfl

theorem described_reach {t : Bool} {ok : Node σ → Input → Prop} {s : Node σ} (hs : Reach cfg t ok s) :
    Described cfg s := by
  have hAll := Reach.invariant
    (I := fun s => (WindowInv cfg s ∧ LogInv cfg s ∧ ServiceInv cfg s) ∧ Described cfg s)
    ⟨⟨windowInv_init t, logInv_init t, serviceInv_init t⟩, described_init t⟩
    (fun _ _ _ _ _ _ h hStep => ⟨⟨windowInv_step h.1.1 hStep, logInv_step h.1.1 h.1.2.1 hStep,
      serviceInv_step h.1.1 h.1.2.1 h.1.2.2 hStep⟩, described_step h.1.1 h.1.2.1 h.1.2.2 h.2 hStep⟩) hs
  exact hAll.2

end Node
end Pbft
