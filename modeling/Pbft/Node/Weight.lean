import Mathlib.Algebra.Order.BigOperators.Group.Finset
import Pbft.Node.Absorbed
import Pbft.Node.Batch

/-! # How far a replica has come

A number that rises with every message that changes the replica at all: it adds up the stages and votes
of the log, the votes for checkpoints, the watermark and the last executed number. What garbage
collection takes away is made up for by the numbers that have fallen below the watermark.
-/
namespace Pbft
set_option autoImplicit false

variable {σ : Type} {cfg : Config σ}

def ReqStage.rank : ReqStage → Nat
  | .none => 0
  | .prePrepared => 1
  | .prepared => 2
  | .committed => 3

namespace ReqLogEntry
variable {e : ReqLogEntry}

/-- An entry counts as one even when there is nothing in it yet. -/
def weight (e : ReqLogEntry) : Nat := 1 + e.stage.rank + e.prepares.card + e.commits.card

theorem rank_le (stage : ReqStage) : stage.rank ≤ 3 := by cases stage <;> decide

theorem weight_tryCommit (cfg : Config σ) (e : ReqLogEntry) :
    e.tryCommit cfg = e ∨ e.weight < (e.tryCommit cfg).weight := by
  rcases tryCommit_cases cfg e with hSame | ⟨hStage, -, hEq⟩
  · exact .inl hSame
  · right
    rw [hEq]
    simp [weight, hStage, ReqStage.rank]

theorem weight_tryPrepare (cfg : Config σ) (e : ReqLogEntry) :
    e.tryPrepare cfg = e ∨ e.weight < (e.tryPrepare cfg).weight := by
  rcases tryPrepare_cases cfg e with ⟨-, hSame⟩ | ⟨hReady, stage, hStage, hEq⟩
  · exact .inl hSame
  · right
    rw [hEq]
    have hMore : e.commits.card ≤ (insert cfg.id e.commits).card := Finset.card_le_card (Finset.subset_insert _ _)
    have hRank : 2 ≤ stage.rank := by rcases hStage with rfl | rfl <;> decide
    have hBefore : e.stage.rank = 1 := by rw [hReady.1, ReqStage.rank]
    unfold weight
    dsimp only
    omega

/-- A vote that is new makes a set larger, and the test that follows takes nothing away. -/
theorem weight_prepare (cfg : Config σ) (e : ReqLogEntry) (r : UInt32) :
    tryPrepare cfg { e with prepares := insert r e.prepares } = e ∨
      e.weight < (tryPrepare cfg { e with prepares := insert r e.prepares }).weight := by
  by_cases hr : r ∈ e.prepares
  · rw [Finset.insert_eq_of_mem hr]
    exact weight_tryPrepare cfg e
  · right
    have hVote : e.weight < weight { e with prepares := insert r e.prepares } := by
      unfold weight
      dsimp only
      rw [Finset.card_insert_of_notMem hr]
      omega
    rcases weight_tryPrepare cfg { e with prepares := insert r e.prepares } with hSame | hMore
    · rwa [hSame]
    · exact hVote.trans hMore

theorem weight_commit (cfg : Config σ) (e : ReqLogEntry) (r : UInt32) :
    tryCommit cfg { e with commits := insert r e.commits } = e ∨
      e.weight < (tryCommit cfg { e with commits := insert r e.commits }).weight := by
  by_cases hr : r ∈ e.commits
  · rw [Finset.insert_eq_of_mem hr]
    exact weight_tryCommit cfg e
  · right
    have hVote : e.weight < weight { e with commits := insert r e.commits } := by
      unfold weight
      dsimp only
      rw [Finset.card_insert_of_notMem hr]
      omega
    rcases weight_tryCommit cfg { e with commits := insert r e.commits } with hSame | hMore
    · rwa [hSame]
    · exact hVote.trans hMore

/-- A pre-prepare fills an entry, or goes once more through the stages of one that it has filled. -/
theorem weight_logged {k : UInt64} {m : PrePrepareMsg} (hOk : EntryOk cfg k e)
    (hFew : e.stage = .prepared → e.commits.card < cfg.quorum)
    (hCopies : e.hasPreprepare = true → e.Copies m) :
    (Node.logged cfg m e).tryPrepare cfg = e ∨ e.weight < ((Node.logged cfg m e).tryPrepare cfg).weight := by
  cases hPre : e.hasPreprepare with
  | false =>
    right
    have hStage := hOk.fresh.mpr hPre
    have hFill : e.weight < (Node.logged cfg m e).weight := by
      have hMore : e.prepares.card ≤ (insert cfg.id e.prepares).card :=
        Finset.card_le_card (Finset.subset_insert _ _)
      unfold weight Node.logged
      rw [hStage]
      simp only [ReqStage.rank]
      omega
    rcases weight_tryPrepare cfg (Node.logged cfg m e) with hSame | hMore
    · rwa [hSame]
    · exact hFill.trans hMore
  | true =>
    have hC := hCopies hPre
    have hLogged : Node.logged cfg m e = { e with stage := .prePrepared } := by
      unfold Node.logged
      rw [← hC.view, ← hC.seq, ← hC.digest, ← hC.req, Finset.insert_eq_of_mem (hOk.prepare hPre), ← hPre]
    rw [hLogged]
    -- past the first stage the quorum of prepares is there, and so is the replica's own commit
    have hPast : e.stage = .prepared ∨ e.stage = .committed →
        tryPrepare cfg { e with stage := .prePrepared } = tryCommit cfg { e with stage := .prepared } := by
      intro hStage
      obtain ⟨hQuorum, hMine⟩ := hOk.prepared hStage
      have hReady : Ready cfg { e with stage := .prePrepared } := ⟨rfl, hPre, hQuorum⟩
      rw [tryPrepare_of_ready hReady]
      dsimp only
      rw [Finset.insert_eq_of_mem hMine]
    cases hStage : e.stage with
    | none =>
      rw [hOk.fresh.mp hStage] at hPre
      cases hPre
    | prePrepared =>
      rw [← hStage]
      exact weight_tryPrepare cfg e
    | prepared =>
      left
      rw [hPast (.inl hStage), tryCommit, if_neg fun hBoth => Nat.not_le.mpr (hFew hStage) hBoth.2, ← hStage]
    | committed =>
      left
      rw [hPast (.inr hStage), tryCommit, if_pos ⟨rfl, hOk.committed hStage⟩, ← hStage]

end ReqLogEntry

namespace Node

/-- The state t has come out of s by ordering messages: unless something has been executed, it differs
in the log at most. -/
structure Advances (s t : Node σ) : Prop where
  conn : t.connToPeer = s.connToPeer
  view : t.view = s.view
  changing : t.viewChanging = s.viewChanging
  seqNum : t.seqNum = s.seqNum
  low : t.h = s.h
  high : t.H = s.H
  stableDigest : t.lastStableDigest = s.lastStableDigest
  store : t.viewChangeStore = s.viewChangeStore
  last : s.lastExec ≤ t.lastExec
  votes : ∀ k d, s.voters (.checkpoint k d) ⊆ t.voters (.checkpoint k d)
  idle : t.lastExec = s.lastExec →
    t.service = s.service ∧ t.lastReplies = s.lastReplies ∧ t.checkpoints = s.checkpoints

theorem Advances.refl (s : Node σ) : Advances s s :=
  ⟨rfl, rfl, rfl, rfl, rfl, rfl, rfl, rfl, UInt64.le_refl _, fun _ _ => Finset.Subset.rfl, fun _ => ⟨rfl, rfl, rfl⟩⟩

theorem advances_execute {s t : Node σ} {e : ReqLogEntry} (hWindow : WindowInv cfg t) (h : Advances s t)
    (hEntry : t.reqlog[t.lastExec + 1]? = some e) : Advances s (t.executeEntry cfg e) := by
  have hSucc := hWindow.succ hEntry
  have hLast := UInt64.le_iff_toNat_le.mp h.last
  rw [executeEntry_eq]
  refine ⟨h.conn, h.view, h.changing, h.seqNum, h.low, h.high, h.stableDigest, h.store, ?_, fun k d => ?_,
    fun hSame => ?_⟩
  · rw [UInt64.le_iff_toNat_le]
    dsimp only
    omega
  · refine (h.votes k d).trans ?_
    unfold voters
    dsimp only
    split
    · have hVotes := voters_voteCheckpoint (t.lastExec + 1) k
        (cfg.service.getCheckpointDigest (cfg.service.execute t.service e.req.operation).1) d cfg.id t
      refine Finset.Subset.trans ?_ (Finset.subset_of_eq hVotes.symm)
      split
      · rename_i hHere
        rw [← hHere.1, ← hHere.2]
        exact Finset.subset_insert _ _
      · exact Finset.Subset.rfl
    · exact Finset.Subset.rfl
  · have hEq := congrArg UInt64.toNat hSame
    dsimp only at hEq
    omega

theorem advances_step {s₀ s t t' : Node σ} {i : Input} (hi : slot? i ≠ none) (hWindow : WindowInv cfg t)
    (h : Advances s t) (hStep : Step cfg s₀ i t t') : Advances s t' := by
  cases hStep with
  | accept | votePrepare | markPrepared | touch | voteCommit | markCommitted | timer =>
    exact ⟨h.conn, h.view, h.changing, h.seqNum, h.low, h.high, h.stableDigest, h.store, h.last, h.votes, h.idle⟩
  | execute hEntry => exact advances_execute hWindow h hEntry
  | handshake hIn | resend hIn | forward hIn | propose hIn | voteCheckpoint hIn | stabilize hIn
  | beginViewChange hIn | enterView hIn | recompute hIn =>
    rw [hIn] at hi
    exact absurd rfl hi
  | storeViewChange hOffers | installView hOffers =>
    rcases hOffers with ⟨conn, hIn⟩ | ⟨hIn, -⟩
    · rw [hIn] at hi
      exact absurd rfl hi
    · rw [hIn] at hi
      exact absurd rfl hi

theorem advances_handle {s s' : Node σ} {i : Input} (hi : slot? i ≠ none) (hWindow : WindowInv cfg s)
    (hCall : s.handle cfg i = some s') : Advances s s' := by
  have hAll := handle_invariant (I := fun t => WindowInv cfg t ∧ Advances s t)
    (fun t t' ht hStep => ⟨windowInv_step ht.1 hStep, advances_step hi ht.1 ht.2 hStep⟩)
    ⟨hWindow, .refl s⟩ hCall
  exact hAll.2

def slotWeight (s : Node σ) (k : UInt64) : Nat := (s.reqlog[k]?).elim 0 ReqLogEntry.weight

theorem slotWeight_of_lookup {s : Node σ} {k : UInt64} {e : ReqLogEntry} (h : s.reqlog[k]? = some e) :
    s.slotWeight k = e.weight := by
  rw [slotWeight, h]
  rfl

theorem slotWeight_le_weight (s : Node σ) (k : UInt64) : s.slotWeight k ≤ (s.entry k).weight := by
  unfold slotWeight
  cases hEntry : s.reqlog[k]? with
  | none => exact Nat.zero_le _
  | some e =>
    rw [entry_of_lookup hEntry]
    exact Nat.le_refl _

section
variable (n : Nat) (D : UInt64 → Digest)

/-- What number k contributes when there are n voters and D is the one digest that is voted for. -/
def numberWeight (s : Node σ) (k : UInt64) : Nat :=
  if k < s.h then 5 * n + 8
  else (if k = s.h then 2 * n + 4 else 0) + s.slotWeight k + (s.voters (.checkpoint k (D k))).card

/-- The contributions of the numbers up to N. -/
def weight (N : Nat) (s : Node σ) : Nat :=
  s.lastExec.toNat + s.h.toNat + ∑ k ∈ Finset.range (N + 1), numberWeight n D s (UInt64.ofNat k)

end

section
variable {n N : Nat} {D : UInt64 → Digest} {s t : Node σ}

theorem slotWeight_le (hVoters : ∀ b, (s.voters b).card ≤ n) (k : UInt64) : s.slotWeight k ≤ 2 * n + 4 := by
  have hPrepares : (s.entry k).prepares.card ≤ n := hVoters (.prepare k)
  have hCommits : (s.entry k).commits.card ≤ n := hVoters (.commit k)
  have hRank := ReqLogEntry.rank_le (s.entry k).stage
  refine (slotWeight_le_weight s k).trans ?_
  unfold ReqLogEntry.weight
  omega

theorem numberWeight_le (hVoters : ∀ b, (s.voters b).card ≤ n) (k : UInt64) :
    numberWeight n D s k ≤ 5 * n + 8 := by
  have hSlot := slotWeight_le hVoters k
  have hVotes := hVoters (.checkpoint k (D k))
  unfold numberWeight
  split_ifs <;> omega

theorem weight_le (hVoters : ∀ b, (s.voters b).card ≤ n) (hLow : s.h.toNat ≤ N) (hLast : s.lastExec.toNat ≤ N) :
    weight n D N s ≤ 2 * N + (N + 1) * (5 * n + 8) := by
  have hSum := Finset.sum_le_card_nsmul (Finset.range (N + 1)) (fun k => numberWeight n D s (UInt64.ofNat k)) _
    fun k _ => numberWeight_le hVoters (UInt64.ofNat k)
  rw [Finset.card_range, Nat.nsmul_eq_mul] at hSum
  unfold weight
  omega

theorem weight_congr (h : Alike t s) : weight n D N t = weight n D N s := by
  unfold weight numberWeight slotWeight
  rw [h.lastExec, h.low, h.reqlog]
  simp only [h.voters]

/-- No contribution falls, and something rises. -/
theorem weight_lt (hLow : s.h ≤ t.h) (hLast : s.lastExec ≤ t.lastExec)
    (hNumbers : ∀ k, numberWeight n D s k ≤ numberWeight n D t k)
    (hMore : s.h < t.h ∨ s.lastExec < t.lastExec ∨
      ∃ k, k.toNat ≤ N ∧ numberWeight n D s k < numberWeight n D t k) : weight n D N s < weight n D N t := by
  have hSum := Finset.sum_le_sum (s := Finset.range (N + 1)) fun k _ => hNumbers (UInt64.ofNat k)
  rw [UInt64.le_iff_toNat_le] at hLow hLast
  unfold weight
  rcases hMore with hRise | hRise | ⟨k, hk, hRise⟩
  · rw [UInt64.lt_iff_toNat_lt] at hRise
    omega
  · rw [UInt64.lt_iff_toNat_lt] at hRise
    omega
  · have hStrict : ∑ k ∈ Finset.range (N + 1), numberWeight n D s (UInt64.ofNat k) <
        ∑ k ∈ Finset.range (N + 1), numberWeight n D t (UInt64.ofNat k) := by
      refine Finset.sum_lt_sum (fun k _ => hNumbers (UInt64.ofNat k)) ⟨k.toNat, ?_, ?_⟩
      · rw [Finset.mem_range]
        omega
      · rwa [UInt64.ofNat_toNat]
    omega

theorem numberWeight_of_insert (hAdvances : Advances s t) {k : UInt64} {e : ReqLogEntry}
    (hLog : t.reqlog = s.reqlog.insert k e) (he : s.slotWeight k ≤ e.weight) (a : UInt64) :
    numberWeight n D s a ≤ numberWeight n D t a := by
  have hVotes := Finset.card_le_card (hAdvances.votes a (D a))
  have hSlot : s.slotWeight a ≤ t.slotWeight a := by
    unfold slotWeight
    rw [hLog, TreeMap.lookup_insert]
    split
    · rename_i hka
      exact hka ▸ he
    · exact Nat.le_refl _
  unfold numberWeight
  rw [hAdvances.low]
  split_ifs <;> omega

/-- A message about number k has made the entry grow, or has led to an execution, or has changed nothing. -/
theorem alike_or_weight_lt (hAdvances : Advances s t) {k : UInt64} {e : ReqLogEntry}
    (hLog : t.reqlog = s.reqlog.insert k e) (he : e = s.entry k ∨ (s.entry k).weight < e.weight)
    (hLow : s.h ≤ k) (hk : k.toNat ≤ N) : Alike t s ∨ weight n D N s < weight n D N t := by
  have hGe : (s.entry k).weight ≤ e.weight := by
    rcases he with rfl | hMore
    · exact Nat.le_refl _
    · exact Nat.le_of_lt hMore
  have hNumbers := numberWeight_of_insert (n := n) (D := D) hAdvances hLog ((slotWeight_le_weight s k).trans hGe)
  by_cases hExecuted : s.lastExec < t.lastExec
  · exact .inr (weight_lt (UInt64.le_of_eq hAdvances.low.symm) hAdvances.last hNumbers (.inr (.inl hExecuted)))
  by_cases hSlot : s.slotWeight k < e.weight
  · right
    refine weight_lt (UInt64.le_of_eq hAdvances.low.symm) hAdvances.last hNumbers (.inr (.inr ⟨k, hk, ?_⟩))
    have hVotes := Finset.card_le_card (hAdvances.votes k (D k))
    have hNow : t.slotWeight k = e.weight := slotWeight_of_lookup (by rw [hLog, TreeMap.lookup_insert, if_pos rfl])
    unfold numberWeight
    rw [hAdvances.low, if_neg (UInt64.not_lt.mpr hLow), if_neg (UInt64.not_lt.mpr hLow), hNow]
    omega
  · left
    -- the entry was there already and is what it was
    have hIn : s.reqlog[k]? = some (s.entry k) := by
      cases hEntry : s.reqlog[k]? with
      | none =>
        rw [slotWeight, hEntry] at hSlot
        exact absurd (Nat.lt_of_lt_of_le (by simp [ReqLogEntry.weight]) hGe) hSlot
      | some e' => rw [entry_of_lookup hEntry]
    have hSame : e = s.entry k := he.resolve_right (slotWeight_of_lookup hIn ▸ hSlot)
    obtain ⟨hService, hReplies, hCheckpoints⟩ :=
      hAdvances.idle (UInt64.le_antisymm (UInt64.not_lt.mp hExecuted) hAdvances.last)
    have hReqlog : t.reqlog = s.reqlog := by
      rw [hLog, hSame]
      exact TreeMap.insert_of_lookup hIn
    exact ⟨⟨hAdvances.view, hAdvances.changing, hAdvances.seqNum,
      UInt64.le_antisymm (UInt64.not_lt.mp hExecuted) hAdvances.last, hAdvances.low, hAdvances.high, hReqlog,
      hReplies, hCheckpoints, hAdvances.stableDigest, hAdvances.store, hService⟩, hAdvances.conn⟩

theorem voters_subset_voteCheckpoint (s : Node σ) (k a : UInt64) (digest d : Digest) (r : UInt32) :
    s.voters (.checkpoint a d) ⊆ (s.voteCheckpoint k digest r).voters (.checkpoint a d) := by
  rw [voters_voteCheckpoint]
  split
  · rename_i hSame
    rw [hSame.1, hSame.2]
    exact Finset.subset_insert _ _
  · exact Finset.Subset.rfl

theorem voteCheckpoint_of_voted {k : UInt64} {digest : Digest} {r : UInt32}
    (hr : r ∈ s.voters (.checkpoint k digest)) : s.voteCheckpoint k digest r = s := by
  cases hVotes : s.checkpoints[k]? with
  | none => simp [voters, Std.ExtTreeMap.getD_eq_getD_getElem?, hVotes] at hr
  | some cp =>
    rw [voters, TreeMap.getD_of_lookup hVotes] at hr
    exact voteCheckpoint_again hVotes hr

theorem slotWeight_stabilize (m : CheckpointMsg) (cp : CheckpointVotes) {k : UInt64} (hk : m.seqNum < k) :
    (s.stabilize cfg m cp).slotWeight k = s.slotWeight k := by
  have hKept : (s.stabilize cfg m cp).reqlog[k]? = s.reqlog[k]? := by
    refine Option.ext fun e => ?_
    refine (TreeMap.lookup_filter (fun k _ => !decide (k ≤ m.seqNum)) k e).trans ?_
    simp [hk, advanceWatermarks]
  rw [slotWeight, hKept, slotWeight]

/-- The watermark rises, since what is stable at it is never made stable again. -/
theorem lt_of_stabilizes {m : CheckpointMsg} (hStore : StoreInv cfg s) (hPos : 0 < m.seqNum)
    (h : Stabilizes cfg s m) : s.h < m.seqNum := by
  rw [UInt64.lt_iff_le_and_ne]
  refine ⟨h.1, fun hSame => ?_⟩
  obtain ⟨cp, hcp, hStable, -⟩ := hStore.proof (hSame ▸ hPos)
  have hUnstable : ((s.checkpoints.getD m.seqNum {}).addVote m.stateDigest m.replicaId).stable = false := h.2.1
  rw [hSame] at hcp
  rw [TreeMap.getD_of_lookup hcp] at hUnstable
  exact absurd hStable (Bool.eq_false_iff.mp hUnstable)

/-- A higher watermark makes up for what garbage collection erases below it. -/
theorem weight_lt_of_low (hVoters : ∀ b, (s.voters b).card ≤ n) (hRise : s.h < t.h) (hLast : t.lastExec = s.lastExec)
    (hSlots : ∀ a, t.h < a → t.slotWeight a = s.slotWeight a)
    (hVotes : ∀ a d, t.h ≤ a → s.voters (.checkpoint a d) ⊆ t.voters (.checkpoint a d)) :
    weight n D N s < weight n D N t := by
  refine weight_lt (UInt64.le_of_lt hRise) (UInt64.le_of_eq hLast.symm) (fun a => ?_) (.inl hRise)
  have hSlot := slotWeight_le hVoters a
  rcases Word.lt_or_eq_or_lt a t.h with hBelow | hHere | hAbove
  · have hBefore := numberWeight_le (D := D) hVoters a
    unfold numberWeight at hBefore ⊢
    rwa [if_pos hBelow]
  · have hMore := Finset.card_le_card (hVotes a (D a) (UInt64.le_of_eq hHere.symm))
    have hHigh : s.h < a := hHere ▸ hRise
    rw [numberWeight, numberWeight, if_neg (UInt64.not_lt.mpr (UInt64.le_of_lt hHigh)),
      if_neg fun hSame : a = s.h => UInt64.lt_irrefl _ (hSame ▸ hHigh),
      if_neg (UInt64.not_lt.mpr (UInt64.le_of_eq hHere.symm)), if_pos hHere]
    omega
  · have hMore := Finset.card_le_card (hVotes a (D a) (UInt64.le_of_lt hAbove))
    have hHigh : s.h < a := UInt64.lt_trans hRise hAbove
    rw [numberWeight, numberWeight, if_neg (UInt64.not_lt.mpr (UInt64.le_of_lt hHigh)),
      if_neg fun hSame : a = s.h => UInt64.lt_irrefl _ (hSame ▸ hHigh),
      if_neg (UInt64.not_lt.mpr (UInt64.le_of_lt hAbove)),
      if_neg fun hSame : a = t.h => UInt64.lt_irrefl _ (hSame ▸ hAbove), hSlots a hAbove]
    omega

theorem weight_lt_stabilize {m : CheckpointMsg} (hVoters : ∀ b, (s.voters b).card ≤ n) (hRise : s.h < m.seqNum) :
    weight n D N s < weight n D N ((s.voteCheckpoint m.seqNum m.stateDigest m.replicaId).stabilize cfg m
      ((s.checkpoints.getD m.seqNum {}).addVote m.stateDigest m.replicaId)) := by
  have hLookup : (s.voteCheckpoint m.seqNum m.stateDigest m.replicaId).checkpoints[m.seqNum]? =
      some ((s.checkpoints.getD m.seqNum {}).addVote m.stateDigest m.replicaId) := Std.ExtTreeMap.getElem?_insert_self
  refine weight_lt_of_low hVoters hRise rfl (fun a ha => ?_) fun a d ha => ?_
  · exact slotWeight_stabilize (s := s.voteCheckpoint m.seqNum m.stateDigest m.replicaId) m _ ha
  · rw [voters_stabilize hLookup ha]
    exact voters_subset_voteCheckpoint s m.seqNum a m.stateDigest d m.replicaId

theorem alike_or_weight_lt_vote {m : CheckpointMsg} (hLow : s.h ≤ m.seqNum) (hDigest : m.stateDigest = D m.seqNum)
    (hk : m.seqNum.toNat ≤ N) : Alike (s.voteCheckpoint m.seqNum m.stateDigest m.replicaId) s ∨
      weight n D N s < weight n D N (s.voteCheckpoint m.seqNum m.stateDigest m.replicaId) := by
  by_cases hVoted : m.replicaId ∈ s.voters (.checkpoint m.seqNum m.stateDigest)
  · left
    rw [voteCheckpoint_of_voted hVoted]
    exact .refl s
  · right
    let t := s.voteCheckpoint m.seqNum m.stateDigest m.replicaId
    have hLowSame : t.h = s.h := rfl
    have hSlot : ∀ a, t.slotWeight a = s.slotWeight a := fun _ => rfl
    refine weight_lt (UInt64.le_refl _) (UInt64.le_refl _) (fun a => ?_) (.inr (.inr ⟨m.seqNum, hk, ?_⟩))
    · have hMono := Finset.card_le_card
        (voters_subset_voteCheckpoint s m.seqNum a m.stateDigest (D a) m.replicaId)
      unfold numberWeight
      rw [hLowSame, hSlot]
      split_ifs <;> omega
    · have hVotes : (t.voters (.checkpoint m.seqNum (D m.seqNum))).card =
          (s.voters (.checkpoint m.seqNum (D m.seqNum))).card + 1 := by
        rw [voters_voteCheckpoint, if_pos ⟨rfl, hDigest⟩, ← hDigest, Finset.card_insert_of_notMem hVoted]
      unfold numberWeight
      rw [hLowSame, hSlot, hVotes, if_neg (UInt64.not_lt.mpr hLow), if_neg (UInt64.not_lt.mpr hLow)]
      omega

theorem alike_or_weight_lt_checkpoint {m : CheckpointMsg} (hStore : StoreInv cfg s)
    (hVoters : ∀ b, (s.voters b).card ≤ n) (hDigest : m.stateDigest = D m.seqNum) (hPos : 0 < m.seqNum)
    (hk : m.seqNum.toNat ≤ N) :
    Alike (s.onCheckpoint cfg m) s ∨ weight n D N s < weight n D N (s.onCheckpoint cfg m) := by
  by_cases hLow : s.h ≤ m.seqNum
  · rw [onCheckpoint_eq hLow]
    split
    · rename_i hStabilizes
      exact .inr (weight_lt_stabilize hVoters (lt_of_stabilizes hStore hPos hStabilizes))
    · exact alike_or_weight_lt_vote hLow hDigest hk
  · have hSame : s.onCheckpoint cfg m = s := if_pos (UInt64.not_le.mp hLow)
    rw [hSame]
    exact .inl (.refl s)

end

end Node
end Pbft
