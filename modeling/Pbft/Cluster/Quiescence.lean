import Pbft.Cluster.Checkpoints
import Pbft.Cluster.NormalCase
import Pbft.Node.Absorbed

/-! # Where the normal case comes to rest

Without faults and timers the cluster can only stop when nothing that has been broadcast is news to
anyone. Then every request that has a number has been executed, at every replica that a checkpoint has
not overtaken; there is no state transfer for one that it has.
-/
namespace Pbft.Cluster
set_option autoImplicit false

open Node

variable {σ : Type} {C : Cluster σ} {G : World σ} {link : UInt32 → UInt32 → Conn}

/-- link r p is a connection on which replica r has had the handshake of replica p. -/
def Linked (C : Cluster σ) (link : UInt32 → UInt32 → Conn) (G : World σ) : Prop :=
  ∀ r p, r < C.base.n → p < C.base.n → p ≠ r → (G r).connToPeer[link r p]? = some p

/-- Whatever a replica has broadcast so far, no other replica would be changed by it. -/
def Quiescent (C : Cluster σ) (link : UInt32 → UInt32 → Conn) (G : World σ) : Prop :=
  ∀ r p, r < C.base.n → p < C.base.n → p ≠ r → ∀ m ∈ (G p).sent, ∀ s',
    (G r).handle (C.cfg r) (.recv m (link r p)) = some s' → Same s' (G r)

theorem spoken_of_reach (hFaulty : C.faulty = ∅) (hs : C.Reach C.Untimed G) (r : UInt32) :
    Spoken (C.cfg r) (G 0).proposals (G r) := by
  have w := normalInv_of_reach hFaulty hs
  have hNode := hs.node (fun _ _ i => Ordinary (G 0).proposals i) (fun G' r i hOk hSent => by
    refine ⟨hOk.2, ?_⟩
    rintro m conn rfl
    rcases hOk.1.exists_sender hFaulty with ⟨_, rfl⟩ | ⟨_, rfl⟩ | ⟨p, hp⟩
    · trivial
    · trivial
    · exact (w.follows p).sent m (hSent p m hp)) r
  have hAll := Node.Reach.invariant
    (I := fun s => (WindowInv (C.cfg r) s ∧ LogInv (C.cfg r) s) ∧ Spoken (C.cfg r) (G 0).proposals s)
    ⟨⟨windowInv_init _, logInv_init _⟩, spoken_init _⟩
    (fun _ _ _ hIn _ _ h hStep => ⟨⟨windowInv_step h.1.1 hStep, logInv_step h.1.1 h.1.2 hStep⟩,
      spoken_step hIn h.1.2 h.2 hStep⟩) hNode
  exact hAll.2

/-- What is logged at a replica is a proposal of the first primary. -/
theorem exists_proposal (hFaulty : C.faulty = ∅) (hs : C.Reach C.Untimed G) {r : UInt32} {k : UInt64}
    (hPre : ((G r).entry k).hasPreprepare = true) :
    ∃ pp ∈ (G 0).proposals, pp.view = 0 ∧ pp.seqNum = k ∧ ((G r).entry k).Copies pp := by
  obtain ⟨pp, hpp, hView, hSeq, hCopies⟩ := ((spoken_of_reach hFaulty hs r).said k).logged hPre
  refine ⟨pp, ?_, hView, hSeq, hCopies⟩
  rcases hpp with hpp | hpp
  · exact hpp
  · exact ((normalInv_of_reach hFaulty hs).follows r).sent _ hpp

theorem digest_of_logged (hFaulty : C.faulty = ∅) (hs : C.Reach C.Untimed G) {r : UInt32} {pp : PrePrepareMsg}
    (hpp : pp ∈ (G 0).proposals) (hPre : ((G r).entry pp.seqNum).hasPreprepare = true) :
    ((G r).entry pp.seqNum).digest = pp.reqDigest := by
  obtain ⟨pp', hpp', -, hSeq, hCopies⟩ := exists_proposal hFaulty hs hPre
  rw [hCopies.digest, (normalInv_of_reach hFaulty hs).leads.numbered.unique hpp' hpp hSeq]

theorem proposal_sent {r : UInt32} {pp : PrePrepareMsg} (hpp : pp ∈ (G r).proposals) :
    Msg.prePrepare pp ∈ (G r).sent := by
  obtain ⟨m, hm, hEq⟩ := List.mem_filterMap.mp hpp
  unfold Msg.prePrepare? at hEq
  split at hEq
  · cases hEq
    exact hm
  · cases hEq

/-- What is assumed of a state in which the cluster has come to rest. -/
structure AtRest (C : Cluster σ) (link : UInt32 → UInt32 → Conn) (G : World σ) : Prop where
  faultless : C.faulty = ∅
  reach : C.Reach C.Untimed G
  size : 4 ≤ C.base.n
  linked : C.Linked link G
  room : (G 0).seqNum.toNat + C.base.L.toNat < 2 ^ 64
  quiet : ∀ r p, r < C.base.n → p < C.base.n → p ≠ r → ∀ m ∈ (G p).sent, Absorbs (C.cfg r) (G r) m (link r p)

theorem AtRest.of_quiescent (hFaulty : C.faulty = ∅) (hs : C.Reach C.Untimed G) (hSize : 4 ≤ C.base.n)
    (hLinked : C.Linked link G) (hRoom : (G 0).seqNum.toNat + C.base.L.toNat < 2 ^ 64)
    (hQuiet : C.Quiescent link G) : AtRest C link G :=
  ⟨hFaulty, hs, hSize, hLinked, hRoom, fun r p hr hp hNe m hm => ⟨G r, .refl _, hQuiet r p hr hp hNe m hm⟩⟩

namespace AtRest
variable (h : AtRest C link G)
include h

theorem toNat_size : 3 * C.base.f.toNat + 1 ≤ C.base.n.toNat ∧ 1 ≤ C.base.f.toNat := by
  have hSize := UInt32.le_iff_toNat_le.mp h.size
  have hSub : (C.base.n - 1).toNat = C.base.n.toNat - 1 :=
    UInt32.toNat_sub_of_le _ _ (UInt32.le_trans (by decide) h.size)
  unfold Config.f
  rw [UInt32.toNat_div, hSub]
  simp only [UInt32.reduceToNat] at hSize ⊢
  omega

theorem normal : NormalInv G := normalInv_of_reach h.faultless h.reach

theorem log (r : UInt32) : WindowInv (C.cfg r) (G r) ∧ LogInv (C.cfg r) (G r) := logInv_reach (h.reach.anything r)

theorem spoken (r : UInt32) : Spoken (C.cfg r) (G 0).proposals (G r) := spoken_of_reach h.faultless h.reach r

theorem absorbs_checkpoint {r p : UInt32} (hr : r < C.base.n) (hp : p < C.base.n) (hNe : p ≠ r) {m : CheckpointMsg}
    (hm : Msg.checkpoint m ∈ (G p).sent) (hLow : (G r).h ≤ m.seqNum) :
    m.replicaId ∈ (G r).voters (.checkpoint m.seqNum m.stateDigest) ∧
      (C.base.quorum ≤ ((G r).voters (.checkpoint m.seqNum m.stateDigest)).card → m.seqNum = (G r).h) := by
  have hStore : StoreInv (C.cfg r) (G r) := storeInv_reach (h.reach.anything r)
  have hVoted := checkpoint_of_absorbs hStore hLow (h.quiet r p hr hp hNe (.checkpoint m) hm)
  exact hVoted

/-- A checkpoint that enough replicas have announced is stable everywhere. -/
theorem stable_of_announced {A : Finset UInt32} (hQuorum : C.base.quorum ≤ A.card) (hIds : ∀ p ∈ A, p < C.base.n)
    {k : UInt64} {digest : Digest} (hSent : ∀ p ∈ A, Msg.checkpoint ⟨k, digest, p⟩ ∈ (G p).sent) {r : UInt32}
    (hr : r < C.base.n) : k ≤ (G r).h := by
  by_contra hAbove
  rw [UInt64.not_le] at hAbove
  have hLow := UInt64.le_of_lt hAbove
  have hAll : A ⊆ (G r).voters (.checkpoint k digest) := by
    intro p hp
    by_cases hpr : p = r
    · subst hpr
      exact ((described_reach (h.reach.anything p)).own _ (hSent p hp)).2 hLow
    · exact (h.absorbs_checkpoint hr (hIds p hp) hpr (hSent p hp) hLow).1
  -- the last of the votes of others has been followed by the test
  have hTwo : 1 < A.card := by
    have hFaults := h.toNat_size.2
    rw [Config.quorum_eq] at hQuorum
    omega
  obtain ⟨p, hp, hpr⟩ := Finset.exists_mem_ne hTwo r
  have hStable := (h.absorbs_checkpoint hr (hIds p hp) hpr (hSent p hp) hLow).2
    (hQuorum.trans (Finset.card_le_card hAll))
  exact UInt64.lt_irrefl _ (hStable ▸ hAbove)

theorem low_le {r p : UInt32} (hr : r < C.base.n) (hp : p < C.base.n) : (G p).h ≤ (G r).h := by
  by_cases hPos : 0 < (G p).h
  · have hIdentified : C.Reach C.Identified G :=
      Machine.Reach.mono (fun _ _ _ hOk => ⟨hOk.1.correct, hOk.1.id⟩) h.reach
    have hNone : ∀ q, q ∉ C.faulty := by simp [h.faultless]
    obtain ⟨A, hQuorum, hIds, hVotes⟩ := exists_stable_quorum hIdentified ⟨hp, hNone p⟩ hPos
    exact h.stable_of_announced hQuorum hIds (fun q hq => (hVotes q hq (hNone q)).1) hr
  · have hZero : (G p).h = 0 := by
      rw [UInt64.lt_iff_toNat_lt, UInt64.toNat_zero] at hPos
      exact UInt64.toNat_inj.mp (by simpa using hPos)
    rw [hZero, UInt64.le_iff_toNat_le]
    exact Nat.zero_le _

theorem low_eq {r p : UInt32} (hr : r < C.base.n) (hp : p < C.base.n) : (G r).h = (G p).h :=
  UInt64.le_antisymm (h.low_le hp hr) (h.low_le hr hp)

theorem zero_lt : (0 : UInt32) < C.base.n := UInt32.lt_of_lt_of_le (by decide) h.size

theorem inWindow {r : UInt32} (hr : r < C.base.n) {pp : PrePrepareMsg} (hpp : pp ∈ (G 0).proposals)
    (hLow : (G r).h ≤ pp.seqNum) : (G r).inWindow pp.seqNum := by
  have hLeads := h.normal.leads
  have hCount := hLeads.count
  have hBound := (hLeads.numbered.index hpp).2.2
  have hSame := h.low_eq hr h.zero_lt
  have hRoom := h.room
  have hL : (C.cfg r).L.toNat = C.base.L.toNat := rfl
  have hBelow : (G 0).h.toNat ≤ (G 0).seqNum.toNat := by
    rw [hSame, UInt64.le_iff_toNat_le] at hLow
    omega
  -- the counter is a key of the primary's log or the watermark, so it is in the primary's window
  have hTop : (G 0).seqNum.toNat ≤ (G 0).h.toNat + C.base.L.toNat := by
    by_cases hAbove : (G 0).h < (G 0).seqNum
    · exact (h.log 0).1.top _ (hLeads.top hAbove)
    · rw [UInt64.lt_iff_toNat_lt] at hAbove
      omega
  rw [inWindow_iff]
  refine ⟨hLow, ?_⟩
  rw [UInt64.le_iff_toNat_le, (h.log r).1.high, hSame, UInt64.toNat_add, UInt32.toNat_toUInt64, hL,
    Nat.mod_eq_of_lt (by omega)]
  omega

theorem current {r : UInt32} (hr : r < C.base.n) {pp : PrePrepareMsg} (hpp : pp ∈ (G 0).proposals)
    (hLow : (G r).h ≤ pp.seqNum) : Current (G r) 0 pp.seqNum :=
  ⟨(h.spoken r).idle, (h.spoken r).view.symm, h.inWindow hr hpp hLow⟩

theorem comesFromPrimary {r p : UInt32} (hr : r < C.base.n) (hp : p < C.base.n) (hNe : p ≠ r) :
    (G r).comesFromPrimary (C.cfg r) (link r p) (G r).view = (p == 0) := by
  unfold Node.comesFromPrimary
  rw [h.linked r p hr hp hNe, (h.spoken r).view, UInt32.zero_mod]
  rfl

/-- The pre-prepare has arrived, and where prepares were enough that has been noticed. -/
theorem logged_backup {r : UInt32} (hr : r < C.base.n) (hBackup : r ≠ 0) {pp : PrePrepareMsg}
    (hpp : pp ∈ (G 0).proposals) (hLow : (G r).h ≤ pp.seqNum) :
    ((G r).entry pp.seqNum).hasPreprepare = true ∧ ¬ReqLogEntry.Ready (C.cfg r) ((G r).entry pp.seqNum) := by
  have hSent := proposal_sent hpp
  have hView : pp.view = 0 := ((h.spoken 0).mine pp hSent).1
  have hGuard : Guard (C.cfg r) pp (link r 0) false (G r) := by
    refine ⟨.inr ?_, hView ▸ h.current hr hpp hLow, digest_of_logged h.faultless h.reach hpp⟩
    rw [h.comesFromPrimary hr h.zero_lt (Ne.symm hBackup)]
    rfl
  exact logged_of_absorbs hGuard (h.quiet r 0 hr h.zero_lt (Ne.symm hBackup) _ hSent)

/-- Replica r has or gets the pre-prepare. The number of the stable checkpoint itself is still in the window:
a backup may get it once more, the primary does not, whose entry has been erased. -/
def Open (G : World σ) (r : UInt32) (k : UInt64) : Prop := (G r).h ≤ k ∧ (r = 0 → (G r).h < k)

theorem logged {r : UInt32} (hr : r < C.base.n) {pp : PrePrepareMsg} (hpp : pp ∈ (G 0).proposals)
    (hOpen : Open G r pp.seqNum) : ((G r).entry pp.seqNum).hasPreprepare = true := by
  by_cases hZero : r = 0
  · subst hZero
    exact ((h.spoken 0).mine pp (proposal_sent hpp)).2 (hOpen.2 rfl)
  · exact (h.logged_backup hr hZero hpp hOpen.1).1

/-- Every backup's prepare has been counted at every other replica. -/
theorem absorbs_prepare {r p : UInt32} (hr : r < C.base.n) (hp : p < C.base.n) (hNe : p ≠ r) (hBackup : p ≠ 0)
    {pp : PrePrepareMsg} (hpp : pp ∈ (G 0).proposals) (hLow : (G r).h ≤ pp.seqNum) :
    p ∈ ((G r).entry pp.seqNum).prepares ∧ ¬ReqLogEntry.Ready (C.cfg r) ((G r).entry pp.seqNum) := by
  have hLogged := (h.logged_backup hp hBackup hpp (h.low_eq hp hr ▸ hLow)).1
  have hSent := ((h.spoken p).said pp.seqNum).prepare hLogged hBackup
  rw [digest_of_logged h.faultless h.reach hpp hLogged] at hSent
  have hFrom : (G r).comesFromPrimary (C.cfg r) (link r p) (G r).view = false := by
    rw [h.comesFromPrimary hr hp hNe]
    exact beq_false_of_ne hBackup
  exact prepared_of_absorbs (m := ⟨0, pp.seqNum, pp.reqDigest, p⟩) hFrom (h.current hr hpp hLow)
    (digest_of_logged h.faultless h.reach hpp) (h.quiet r p hr hp hNe _ hSent)

theorem one_lt : (1 : UInt32) < C.base.n := UInt32.lt_of_lt_of_le (by decide) h.size

theorem not_ready {r : UInt32} (hr : r < C.base.n) {pp : PrePrepareMsg} (hpp : pp ∈ (G 0).proposals)
    (hLow : (G r).h ≤ pp.seqNum) : ¬ReqLogEntry.Ready (C.cfg r) ((G r).entry pp.seqNum) := by
  by_cases hZero : r = 0
  · -- the primary tests when the prepare of a backup arrives
    subst hZero
    exact (h.absorbs_prepare hr h.one_lt (by decide) (by decide) hpp hLow).2
  · exact (h.logged_backup hr hZero hpp hLow).2

theorem le_card_backups {A : Finset UInt32} (hA : ∀ p < C.base.n, p ≠ 0 → p ∈ A) : 3 * C.base.f.toNat ≤ A.card := by
  have hBackups : C.base.replicas.erase 0 ⊆ A := fun p hp => by
    obtain ⟨hBackup, hp⟩ := Finset.mem_erase.mp hp
    exact hA p (Config.mem_replicas.mp hp) hBackup
  have hCount := Finset.card_le_card hBackups
  rw [Finset.card_erase_of_mem (Config.mem_replicas.mpr h.zero_lt), Config.card_replicas] at hCount
  have hSize := h.toNat_size
  omega

theorem prepared {r : UInt32} (hr : r < C.base.n) {pp : PrePrepareMsg} (hpp : pp ∈ (G 0).proposals)
    (hOpen : Open G r pp.seqNum) :
    ((G r).entry pp.seqNum).stage = .prepared ∨ ((G r).entry pp.seqNum).stage = .committed := by
  have hPre := h.logged hr hpp hOpen
  have hOk := (h.log r).2.entries pp.seqNum
  have hCount : 3 * C.base.f.toNat ≤ ((G r).entry pp.seqNum).prepares.card := by
    refine h.le_card_backups fun p hp hBackup => ?_
    by_cases hpr : p = r
    · exact hpr ▸ hOk.prepare hPre
    · exact (h.absorbs_prepare hr hp hpr hBackup hpp hOpen.1).1
  have hEnough : (C.cfg r).prepareQuorum ≤ ((G r).entry pp.seqNum).prepares.card := by
    rw [Config.prepareQuorum_eq]
    have hf : (C.cfg r).f.toNat = C.base.f.toNat := rfl
    omega
  cases hStage : ((G r).entry pp.seqNum).stage with
  | none => exact absurd (hOk.fresh.mp hStage) (by simp [hPre])
  | prePrepared => exact absurd ⟨hStage, hPre, hEnough⟩ (h.not_ready hr hpp hOpen.1)
  | prepared => exact .inl rfl
  | committed => exact .inr rfl

theorem absorbs_commit {r p : UInt32} (hr : r < C.base.n) (hp : p < C.base.n) (hNe : p ≠ r) (hBackup : p ≠ 0)
    {pp : PrePrepareMsg} (hpp : pp ∈ (G 0).proposals) (hOpen : Open G r pp.seqNum) :
    p ∈ ((G r).entry pp.seqNum).commits := by
  have hThere : Open G p pp.seqNum := ⟨h.low_eq hr hp ▸ hOpen.1, fun hZero => absurd hZero hBackup⟩
  have hSent := ((h.spoken p).said pp.seqNum).commit (h.prepared hp hpp hThere)
  rw [digest_of_logged h.faultless h.reach hpp (h.logged hp hpp hThere)] at hSent
  exact committed_of_absorbs (m := ⟨0, pp.seqNum, pp.reqDigest, p⟩) (h.current hr hpp hOpen.1)
    (digest_of_logged h.faultless h.reach hpp (h.logged hr hpp hOpen)) (h.quiet r p hr hp hNe _ hSent)

theorem committed {r : UInt32} (hr : r < C.base.n) {pp : PrePrepareMsg} (hpp : pp ∈ (G 0).proposals)
    (hOpen : Open G r pp.seqNum) : ((G r).entry pp.seqNum).stage = .committed := by
  rcases h.prepared hr hpp hOpen with hStage | hStage
  · have hCount : 3 * C.base.f.toNat ≤ ((G r).entry pp.seqNum).commits.card := by
      refine h.le_card_backups fun p hp hBackup => ?_
      by_cases hpr : p = r
      · exact hpr ▸ (((h.log r).2.entries pp.seqNum).prepared (.inl hStage)).2
      · exact h.absorbs_commit hr hp hpr hBackup hpp hOpen
    have hFew := (settled_reach (h.reach.anything r)).quorum pp.seqNum hStage
    have hSize := h.toNat_size
    rw [Config.quorum_eq] at hFew
    have hf : (C.cfg r).f.toNat = C.base.f.toNat := rfl
    omega
  · exact hStage

theorem lastExec_eq {r : UInt32} (hr : r < C.base.n) (hLow : (G r).h.toNat ≤ (G r).lastExec.toNat + 1)
    (hPrimary : r = 0 → (G r).h ≤ (G r).lastExec) : (G r).lastExec = (G 0).seqNum := by
  have hCount := h.normal.leads.count
  have hLast := (h.normal.follows r).last
  by_contra hNe
  have hLt : (G r).lastExec.toNat < (G 0).proposals.length :=
    Nat.lt_of_le_of_ne hLast fun hEq => hNe (UInt64.toNat_inj.mp (hEq.trans hCount.symm))
  -- the next number is committed, and the execution loop has not stopped short of it
  have hNumber := h.normal.leads.numbered _ _ (List.getElem?_eq_getElem hLt)
  have hSucc : ((G r).lastExec + 1).toNat = (G r).lastExec.toNat + 1 :=
    Word.toNat_succ (b := (G 0).seqNum) (UInt64.lt_iff_toNat_lt.mpr (by omega))
  have hOpen : Open G r (G 0).proposals[(G r).lastExec.toNat].seqNum := by
    constructor
    · rw [UInt64.le_iff_toNat_le, hNumber]
      exact hLow
    · intro hZero
      have hBelow := UInt64.le_iff_toNat_le.mp (hPrimary hZero)
      rw [UInt64.lt_iff_toNat_lt, hNumber]
      omega
  have hCommitted := h.committed hr (List.getElem_mem hLt) hOpen
  rw [UInt64.toNat_inj.mp (hNumber.trans hSucc.symm)] at hCommitted
  exact (settled_reach (h.reach.anything r)).next hCommitted

theorem lastExec_eq_of_le {r : UInt32} (hr : r < C.base.n) (hNot : (G r).h ≤ (G r).lastExec) :
    (G r).lastExec = (G 0).seqNum :=
  h.lastExec_eq hr (Nat.le_succ_of_le (UInt64.le_iff_toNat_le.mp hNot)) fun _ => hNot

/-- A replica has executed everything, or the watermark has overtaken it by more than the one number
that a backup can still get. -/
theorem lastExec_or {r : UInt32} (hr : r < C.base.n) : (G r).lastExec = (G 0).seqNum ∨
    ((G r).lastExec < (G r).h ∧ (r ≠ 0 → (G r).lastExec + 1 < (G r).h)) := by
  refine or_iff_not_imp_left.mpr fun hNe => ?_
  have hBehind : (G r).lastExec < (G r).h :=
    UInt64.not_le.mp fun hNot => hNe (h.lastExec_eq_of_le hr hNot)
  refine ⟨hBehind, fun hBackup => ?_⟩
  rw [UInt64.lt_iff_toNat_lt, Word.toNat_succ hBehind]
  by_contra hLow
  exact hNe (h.lastExec_eq hr (Nat.not_lt.mp hLow) fun hZero => absurd hZero hBackup)

theorem operations_of_lastExec {r : UInt32} (hDone : (G r).lastExec = (G 0).seqNum) :
    (G r).operations = (G 0).proposals.map (·.req.operation) := by
  have hCount := h.normal.leads.count
  rw [operations_eq_take (h.log r).2 (h.normal.follows r), hDone]
  exact List.take_of_length_le (by simp [hCount])

theorem operations {r : UInt32} (hr : r < C.base.n) (hNot : (G r).h ≤ (G r).lastExec) :
    (G r).operations = (G 0).proposals.map (·.req.operation) :=
  h.operations_of_lastExec (h.lastExec_eq_of_le hr hNot)

/-- The last multiple of the interval, if it is not 0, has been announced by all with one digest. -/
theorem multiple_le_low (hNone : ∀ r < C.base.n, (G r).h ≤ (G r).lastExec) {k : UInt64} (hPos : 0 < k)
    (hk : k ≤ (G 0).seqNum) (hDue : k % C.base.K.toUInt64 = 0) {r : UInt32} (hr : r < C.base.n) :
    k ≤ (G r).h := by
  have hSent : ∀ p ∈ C.base.replicas, Msg.checkpoint ⟨k, C.base.service.getCheckpointDigest
      (stateAfter C.base ((G 0).executed.take k.toNat)), p⟩ ∈ (G p).sent := by
    intro p hp
    have hp := Config.mem_replicas.mp hp
    have hVote := (described_reach (h.reach.anything p)).sent k hPos (h.lastExec_eq_of_le hp (hNone p hp) ▸ hk) hDue
    have hSame : stateAfter (C.cfg p) ((G p).executed.take k.toNat) =
        stateAfter C.base ((G 0).executed.take k.toNat) := by
      have hOps : (G p).operations = (G 0).operations := by
        rw [h.operations hp (hNone p hp), h.operations h.zero_lt (hNone 0 h.zero_lt)]
      unfold Node.operations at hOps
      rw [stateAfter_eq_foldl, stateAfter_eq_foldl, List.map_take, List.map_take, hOps]
      rfl
    unfold described at hVote
    rw [hSame] at hVote
    exact hVote
  have hEnough : C.base.quorum ≤ C.base.replicas.card := by
    have hSize := h.toNat_size
    rw [Config.quorum_eq, Config.card_replicas]
    omega
  exact h.stable_of_announced hEnough (fun p => Config.mem_replicas.mp) hSent hr

theorem low_dvd {r : UInt32} (hr : r < C.base.n) : C.base.K.toNat ∣ (G r).h.toNat := by
  by_cases hPos : 0 < (G r).h
  · have hIdentified : C.Reach C.Identified G :=
      Machine.Reach.mono (fun _ _ _ hOk => ⟨hOk.1.correct, hOk.1.id⟩) h.reach
    have hNone : ∀ q, q ∉ C.faulty := by simp [h.faultless]
    obtain ⟨A, hQuorum, -, hVotes⟩ := exists_stable_quorum hIdentified ⟨hr, hNone r⟩ hPos
    rw [Config.quorum_eq] at hQuorum
    obtain ⟨p, hp⟩ : A.Nonempty := Finset.card_pos.mp (by omega)
    exact (hVotes p hp (hNone p)).2.multiple
  · have hZero : (G r).h.toNat = 0 := by
      rw [UInt64.lt_iff_toNat_lt, UInt64.toNat_zero] at hPos
      omega
    rw [hZero]
    exact Nat.dvd_zero _

theorem low_eq_multiple (hNone : ∀ r < C.base.n, (G r).h ≤ (G r).lastExec) {r : UInt32} (hr : r < C.base.n) :
    (G r).h.toNat = (G 0).seqNum.toNat / C.base.K.toNat * C.base.K.toNat := by
  have hLe : (G r).h.toNat ≤ (G 0).seqNum.toNat := by
    rw [← h.lastExec_eq_of_le hr (hNone r hr), ← UInt64.le_iff_toNat_le]
    exact hNone r hr
  obtain ⟨q, hq⟩ := h.low_dvd hr
  let k := UInt64.ofNat ((G 0).seqNum.toNat / C.base.K.toNat * C.base.K.toNat)
  have hMultiple : (G 0).seqNum.toNat / C.base.K.toNat * C.base.K.toNat ≤ (G 0).seqNum.toNat :=
    Nat.div_mul_le_self _ _
  have hk : k.toNat = (G 0).seqNum.toNat / C.base.K.toNat * C.base.K.toNat :=
    UInt64.toNat_ofNat_of_lt' (Nat.lt_of_le_of_lt hMultiple (G 0).seqNum.toNat_lt)
  apply Nat.le_antisymm
  · rw [hq, Nat.mul_comm]
    rcases Nat.eq_zero_or_pos C.base.K.toNat with hZero | hPos
    · rw [hZero]
      exact Nat.le_refl _
    · exact Nat.mul_le_mul_right _ ((Nat.le_div_iff_mul_le hPos).mpr (by rwa [Nat.mul_comm, ← hq]))
  · rcases Nat.eq_zero_or_pos k.toNat with hZero | hPos
    · omega
    · rw [← hk, ← UInt64.le_iff_toNat_le]
      refine h.multiple_le_low hNone (UInt64.lt_iff_toNat_lt.mpr hPos) ?_ ?_ hr
      · rwa [UInt64.le_iff_toNat_le, hk]
      · rw [← UInt64.toNat_inj, UInt64.toNat_mod, UInt32.toNat_toUInt64, hk]
        exact Nat.mul_mod_left _ _

/-- With a log as long as the interval the primary can number another request. -/
theorem window (hNone : ∀ r < C.base.n, (G r).h ≤ (G r).lastExec) (hPos : 0 < C.base.K)
    (hLe : C.base.K ≤ C.base.L) : (G 0).h ≤ (G 0).seqNum ∧ (G 0).seqNum < (G 0).H := by
  have hLow := h.low_eq_multiple hNone h.zero_lt
  have hRest := Nat.div_add_mod' (G 0).seqNum.toNat C.base.K.toNat
  have hMod := Nat.mod_lt (G 0).seqNum.toNat (UInt32.lt_iff_toNat_lt.mp hPos)
  have hRoom := h.room
  have hHigh : (G 0).H.toNat = (G 0).h.toNat + C.base.L.toNat := by
    rw [(h.log 0).1.high, UInt64.toNat_add, UInt32.toNat_toUInt64]
    exact Nat.mod_eq_of_lt (by
      have hL : (C.cfg 0).L.toNat = C.base.L.toNat := rfl
      omega)
  rw [UInt32.le_iff_toNat_le] at hLe
  rw [UInt64.le_iff_toNat_le, UInt64.lt_iff_toNat_lt]
  omega

end AtRest

/-- Four replicas that make a checkpoint after each request. -/
def checkpointing : Cluster (List String) := { sample 4 ∅ with base := Config.sample 4 200 1 }

def toOthers (p : UInt32) (m : Msg) : List (UInt32 × Input) :=
  ([0, 1, 2, 3].filter (· ≠ p)).map (deliver m p)

/-- Everything about the first request. The ordering messages come once more at the end: the entry has
been erased by then, and its number is still in the window. -/
def toRest : List (UInt32 × Input) :=
  let m : RequestMsg := ⟨"INC", 1, 9⟩
  let digest := checkpointing.base.getHash m
  let all (m : UInt32 → Msg) := [0, 1, 2, 3].flatMap fun p => toOthers p (m p)
  let order := toOthers 0 (.prePrepare ⟨0, 1, digest, m⟩) ++
    ([1, 2, 3].flatMap fun p => toOthers p (.prepare ⟨0, 1, digest, p⟩)) ++ all fun p => .commit ⟨0, 1, digest, p⟩
  (all fun p => .handshake ⟨p⟩) ++ [(0, .recv (.request m) 9)] ++ order ++
    (all fun p => .checkpoint ⟨1, 3, p⟩) ++ order

theorem mem_of_lt_four {r : UInt32} (h : r < 4) : r ∈ ([0, 1, 2, 3] : List UInt32) := by
  have hlt : r.toNat < 4 := UInt32.lt_iff_toNat_lt.mp h
  simp only [List.mem_cons, List.not_mem_nil, or_false, ← UInt32.toNat_inj, UInt32.reduceToNat]
  omega

def allPairs (test : UInt32 → UInt32 → Bool) : Bool :=
  [0, 1, 2, 3].all fun r => ([0, 1, 2, 3].filter (· ≠ r)).all (test r)

theorem of_allPairs {test : UInt32 → UInt32 → Bool} (h : allPairs test = true) {r p : UInt32} (hr : r < 4)
    (hp : p < 4) (hNe : p ≠ r) : test r p = true := by
  simp only [allPairs, List.all_eq_true, List.mem_filter, decide_eq_true_eq] at h
  exact h r (mem_of_lt_four hr) p ⟨mem_of_lt_four hp, hNe⟩

/-- The connection from p to r is open. -/
def hasLink (G : World (List String)) (r p : UInt32) : Bool := decide ((G r).connToPeer[p.toNat]? = some p)

/-- Nothing that p has broadcast is news to r. -/
def hasHeard (G : World (List String)) (r p : UInt32) : Bool :=
  (G p).sent.all fun m => ((G r).handle (checkpointing.cfg r) (.recv m p.toNat)).all fun s' => decide (Same s' (G r))

theorem of_allPairs_left {test : UInt32 → Bool} (h : allPairs (fun r _ => test r) = true) {r : UInt32} (hr : r < 4) :
    test r = true := by
  by_cases hZero : r = 0
  · exact hZero ▸ of_allPairs h (r := 0) (p := 1) (by decide) (by decide) (by decide)
  · exact of_allPairs h (p := 0) hr (by decide) (Ne.symm hZero)

theorem quiescent_of_hasHeard {G : World (List String)} (h : allPairs (hasHeard G) = true) :
    checkpointing.Quiescent (fun _ p => p.toNat) G := by
  intro r p hr hp hNe m hm s' hCall
  have hSame := List.all_eq_true.mp (of_allPairs h hr hp hNe) m hm
  rw [hCall] at hSame
  exact of_decide_eq_true hSame

theorem exists_at_rest : ∃ G, checkpointing.Reach checkpointing.Untimed G ∧
    checkpointing.Linked (fun _ p => p.toNat) G ∧ checkpointing.Quiescent (fun _ p => p.toNat) G ∧
    (G 0).seqNum = 1 ∧ ∀ r < 4, (G r).h ≤ (G r).lastExec := by
  obtain ⟨G, hs, hSeq, hLinks, hHeard, hNone⟩ := Machine.exists_reach checkpointing.machine
    (fun G a => checkpointing.Untimed G a.1 a.2) toRest (fun G => (G 0).seqNum = 1 ∧ allPairs (hasLink G) = true ∧
      allPairs (hasHeard G) = true ∧ allPairs (fun r _ => decide ((G r).h ≤ (G r).lastExec)) = true)
    (by decide +kernel)
  refine ⟨G, hs, fun r p hr hp hNe => ?_, quiescent_of_hasHeard hHeard, hSeq, fun r hr => ?_⟩
  · exact of_decide_eq_true (of_allPairs hLinks hr hp hNe)
  · exact of_decide_eq_true (of_allPairs_left hNone hr)

/-- A cluster without faults that has come to rest has the same watermark everywhere, and a replica
that has not executed every request with a number, in order, is one that the watermark has overtaken:
at a backup by more than the one number that it can still get. -/
theorem quiescent_executed (hFaulty : C.faulty = ∅) (hs : C.Reach C.Untimed G) (hSize : 4 ≤ C.base.n)
    (hLinked : C.Linked link G) (hRoom : (G 0).seqNum.toNat + C.base.L.toNat < 2 ^ 64)
    (hQuiet : C.Quiescent link G) {r : UInt32} (hr : r < C.base.n) :
    (G r).h = (G 0).h ∧ (((G r).lastExec = (G 0).seqNum ∧
        (G r).operations = (G 0).proposals.map (·.req.operation)) ∨
      ((G r).lastExec < (G r).h ∧ (r ≠ 0 → (G r).lastExec + 1 < (G r).h))) := by
  have h := AtRest.of_quiescent hFaulty hs hSize hLinked hRoom hQuiet
  refine ⟨h.low_eq hr h.zero_lt, (h.lastExec_or hr).imp_left fun hDone => ⟨hDone, ?_⟩⟩
  exact h.operations_of_lastExec hDone

theorem quiescent_executed_one : ∃ G, checkpointing.Reach checkpointing.Untimed G ∧ (G 0).seqNum = 1 ∧
    (G 3).h = (G 0).h ∧ (G 3).operations = (G 0).proposals.map (·.req.operation) := by
  obtain ⟨G, hs, hLinked, hQuiet, hSeq, hNone⟩ := exists_at_rest
  have hRoom : (G 0).seqNum.toNat + checkpointing.base.L.toNat < 2 ^ 64 := by
    rw [hSeq]
    decide
  obtain ⟨hLow, hDone⟩ := quiescent_executed rfl hs (by decide) hLinked hRoom hQuiet (r := 3) (by decide)
  refine ⟨G, hs, hSeq, hLow, And.right (hDone.resolve_right fun hBehind => ?_)⟩
  exact UInt64.not_lt.mpr (hNone 3 (by decide)) hBehind.1

/-- If no replica is overtaken, all have executed all requests, the last multiple of the interval is
stable everywhere, and with a log as long as the interval the next request is within the window. -/
theorem quiescent_checkpoint (hFaulty : C.faulty = ∅) (hs : C.Reach C.Untimed G) (hSize : 4 ≤ C.base.n)
    (hLinked : C.Linked link G) (hRoom : (G 0).seqNum.toNat + C.base.L.toNat < 2 ^ 64)
    (hQuiet : C.Quiescent link G) (hNone : ∀ r < C.base.n, (G r).h ≤ (G r).lastExec) :
    (∀ r < C.base.n, (G r).operations = (G 0).proposals.map (·.req.operation) ∧
      (G r).h.toNat = (G 0).seqNum.toNat / C.base.K.toNat * C.base.K.toNat) ∧
    (0 < C.base.K → C.base.K ≤ C.base.L → (G 0).h ≤ (G 0).seqNum ∧ (G 0).seqNum < (G 0).H) := by
  have h := AtRest.of_quiescent hFaulty hs hSize hLinked hRoom hQuiet
  exact ⟨fun r hr => ⟨h.operations hr (hNone r hr), h.low_eq_multiple hNone hr⟩, h.window hNone⟩

theorem quiescent_checkpoint_one : ∃ G, checkpointing.Reach checkpointing.Untimed G ∧
    (G 3).operations = (G 0).proposals.map (·.req.operation) ∧ (G 3).h.toNat = 1 ∧ (G 0).seqNum < (G 0).H := by
  obtain ⟨G, hs, hLinked, hQuiet, hSeq, hNone⟩ := exists_at_rest
  have hRoom : (G 0).seqNum.toNat + checkpointing.base.L.toNat < 2 ^ 64 := by
    rw [hSeq]
    decide
  obtain ⟨hAll, hNext⟩ := quiescent_checkpoint rfl hs (by decide) hLinked hRoom hQuiet hNone
  obtain ⟨hOps, hLow⟩ := hAll 3 (by decide)
  rw [hSeq] at hLow
  exact ⟨G, hs, hOps, hLow, (hNext (by decide) (by decide)).2⟩

end Pbft.Cluster
