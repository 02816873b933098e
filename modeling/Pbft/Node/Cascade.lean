import Pbft.Node.Stages

/-! # The cascade once more

An entry that a cascade has worked through may be set back to the beginning, as a repeated
pre-prepare does. The second cascade ends where the first one did: the votes are there already,
and the execution loop finds nothing to do.
-/
namespace Pbft
set_option autoImplicit false

variable {σ : Type} {cfg : Config σ}

namespace Node

/-- Equality in everything but the histories, the timer and the connections. -/
structure Same (s t : Node σ) : Prop where
  view : s.view = t.view
  viewChanging : s.viewChanging = t.viewChanging
  seqNum : s.seqNum = t.seqNum
  lastExec : s.lastExec = t.lastExec
  low : s.h = t.h
  high : s.H = t.H
  reqlog : s.reqlog = t.reqlog
  lastReplies : s.lastReplies = t.lastReplies
  checkpoints : s.checkpoints = t.checkpoints
  lastStableDigest : s.lastStableDigest = t.lastStableDigest
  viewChangeStore : s.viewChangeStore = t.viewChangeStore
  service : s.service = t.service

theorem Same.refl (s : Node σ) : Same s s :=
  ⟨rfl, rfl, rfl, rfl, rfl, rfl, rfl, rfl, rfl, rfl, rfl, rfl⟩

theorem tryExecute_idle {s : Node σ} (h : (s.entry (s.lastExec + 1)).stage ≠ .committed) :
    s.tryExecute cfg = s := by
  unfold tryExecute
  rw [executeLoop]
  cases hEntry : s.reqlog[s.lastExec + 1]? with
  | none => rfl
  | some e =>
    rw [entry_of_lookup hEntry] at h
    exact if_pos h

theorem tryCommit_entry (cfg : Config σ) (k : UInt64) (s : Node σ) : ∃ stage,
    (s.tryCommit cfg k).entry k = { s.entry k with stage := stage } := by
  rw [entry_tryCommit]
  rcases ReqLogEntry.tryCommit_cases cfg (s.entry k) with hSame | ⟨-, -, hEq⟩
  · exact ⟨_, hSame⟩
  · exact ⟨_, hEq⟩

/-- After the test for prepares an entry has left the first stage or has too few of them. -/
theorem tryPrepare_entry (cfg : Config σ) (k : UInt64) (s : Node σ) : ∃ stage commits,
    (s.tryPrepare cfg k).entry k = { s.entry k with stage := stage, commits := commits } ∧
      ¬(stage = .prePrepared ∧ (s.entry k).hasPreprepare = true ∧
        cfg.prepareQuorum ≤ (s.entry k).prepares.card) := by
  rw [entry_tryPrepare]
  rcases ReqLogEntry.tryPrepare_cases cfg (s.entry k) with ⟨hNot, hSame⟩ | ⟨-, stage, hStage, hEq⟩
  · exact ⟨_, _, hSame, hNot⟩
  · refine ⟨stage, _, hEq, fun hReady => ?_⟩
    rcases hStage with hStage | hStage
    · cases hStage.symm.trans hReady.1
    · cases hStage.symm.trans hReady.1

theorem Settled.tryCommit {s t : Node σ} (h : Settled cfg s) (hSame : Same t s) (k : UInt64) :
    t.tryCommit cfg k = t := by
  unfold Node.tryCommit
  refine if_neg fun hReady => ?_
  rw [entry_congr hSame.reqlog] at hReady
  exact Nat.not_le.mpr (h.quorum k hReady.1) hReady.2

theorem insert_entry {s : Node σ} {k : UInt64} (hk : k ∈ s.reqlog) {stage : ReqStage}
    (hStage : (s.entry k).stage = stage) :
    s.reqlog.insert k { s.entry k with stage := stage } = s.reqlog := by
  subst hStage
  obtain ⟨e, he⟩ := TreeMap.mem_iff_exists.mp hk
  rw [entry_of_lookup he]
  exact TreeMap.insert_of_lookup he

theorem setEntry_self {s t : Node σ} (hSame : Same t s) {k : UInt64} (hk : k ∈ s.reqlog) :
    Same (t.setEntry k (s.entry k)) s := by
  refine { hSame with reqlog := ?_ }
  unfold setEntry
  dsimp only
  rw [hSame.reqlog]
  exact insert_entry hk rfl

/-- The entry at k is in the state in which a cascade has left it. -/
structure Complete (cfg : Config σ) (k : UInt64) (s : Node σ) : Prop where
  log : LogInv cfg s
  settled : Settled cfg s
  tested : ¬((s.entry k).stage = .prePrepared ∧ (s.entry k).hasPreprepare = true ∧
    cfg.prepareQuorum ≤ (s.entry k).prepares.card)

theorem Complete.tryPrepare {k : UInt64} {s t : Node σ} (h : Complete cfg k s) (hSame : Same t s) :
    t.tryPrepare cfg k = t := by
  unfold Node.tryPrepare
  refine if_neg fun hReady => h.tested ?_
  rwa [entry_congr hSame.reqlog] at hReady

/-- The entry is put back to the first stage and counted as prepared once more: the vote of the
replica itself is among the commits already. -/
theorem Complete.markPrepared {k : UInt64} {s t : Node σ} (h : Complete cfg k s)
    (hStage : (s.entry k).stage = .prepared ∨ (s.entry k).stage = .committed)
    (hLog : t.reqlog = s.reqlog.insert k { s.entry k with stage := .prePrepared }) :
    t.tryPrepare cfg k = (t.markPrepared cfg k).tryCommit cfg k ∧
      (t.markPrepared cfg k).reqlog = s.reqlog.insert k { s.entry k with stage := .prepared } := by
  have hOk := h.log.entries k
  have hEntry : t.entry k = { s.entry k with stage := .prePrepared } := by
    rw [entry_of_insert hLog, if_pos rfl]
  obtain ⟨hQuorum, hMine⟩ := hOk.prepared hStage
  have hPre : (s.entry k).hasPreprepare = true := by
    by_contra hNone
    rw [hOk.fresh.mpr (Bool.eq_false_iff.mpr hNone)] at hStage
    rcases hStage with hStage | hStage <;> cases hStage
  constructor
  · unfold Node.tryPrepare
    refine if_pos ?_
    rw [hEntry]
    exact ⟨rfl, hPre, hQuorum⟩
  · unfold Node.markPrepared
    dsimp only
    rw [hEntry, hLog, TreeMap.insert_insert]
    dsimp only
    rw [Finset.insert_eq_of_mem hMine]

/-- A committed entry is put back to the second stage: it commits again, and nothing waits to be
executed. -/
theorem Complete.tryCommit {k : UInt64} {s t : Node σ} (h : Complete cfg k s) (hk : k ∈ s.reqlog)
    (hStage : (s.entry k).stage = .committed) (hSame : Same { t with reqlog := s.reqlog } s)
    (hLog : t.reqlog = s.reqlog.insert k { s.entry k with stage := .prepared }) :
    Same (t.tryCommit cfg k) s := by
  have hEntry : t.entry k = { s.entry k with stage := .prepared } := by
    rw [entry_of_insert hLog, if_pos rfl]
  have hNow : Same (t.markCommitted k) s := by
    refine { hSame with reqlog := ?_ }
    unfold Node.markCommitted
    dsimp only
    rw [hEntry, hLog, TreeMap.insert_insert]
    exact insert_entry hk hStage
  have hReady : t.tryCommit cfg k = (t.markCommitted k).tryExecute cfg := by
    unfold Node.tryCommit
    refine if_pos ?_
    rw [hEntry]
    exact ⟨rfl, (h.log.entries k).committed hStage⟩
  have hIdle : (t.markCommitted k).tryExecute cfg = t.markCommitted k := by
    refine tryExecute_idle ?_
    rw [entry_congr hNow.reqlog, hNow.lastExec]
    exact h.settled.next
  rwa [hReady, hIdle]

theorem Complete.again {k : UInt64} {s t : Node σ} (h : Complete cfg k s)
    (hPre : (s.entry k).hasPreprepare = true) (hSame : Same { t with reqlog := s.reqlog } s)
    (hLog : t.reqlog = s.reqlog.insert k { s.entry k with stage := .prePrepared }) :
    Same (t.tryPrepare cfg k) s := by
  have hk := mem_of_hasPreprepare hPre
  cases hStage : (s.entry k).stage with
  | none =>
    rw [(h.log.entries k).fresh.mp hStage] at hPre
    cases hPre
  | prePrepared =>
    have hNow : Same t s := { hSame with reqlog := hLog.trans (insert_entry hk hStage) }
    rwa [h.tryPrepare hNow]
  | prepared =>
    obtain ⟨hCall, hNew⟩ := h.markPrepared (.inl hStage) hLog
    have hNow : Same (t.markPrepared cfg k) s :=
      { hSame with reqlog := hNew.trans (insert_entry hk hStage) }
    rwa [hCall, h.settled.tryCommit hNow]
  | committed =>
    obtain ⟨hCall, hNew⟩ := h.markPrepared (.inr hStage) hLog
    have hNow : Same { t.markPrepared cfg k with reqlog := s.reqlog } s := { hSame with reqlog := rfl }
    rw [hCall]
    exact h.tryCommit hk hStage hNow hNew

end Node
end Pbft
