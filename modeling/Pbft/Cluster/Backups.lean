import Pbft.Cluster.Contiguous
import Pbft.Cluster.NormalCase
import Pbft.Node.PrepareQuorum

/-! # The backups behind a prepared entry

The test for a prepared entry asks for 2f prepares at every replica. A backup counts itself and
other backups there. The primary, which sends no prepare, has put its own id into the set as well,
so that its 2f prepares come from one backup less.
-/
namespace Pbft
set_option autoImplicit false

open Node

variable {σ : Type} {cfg : Config σ}

namespace Node

/-- An entry that has become prepared has 2f prepares besides the primary's, and with the
pre-prepare it has 2f + 1 replicas behind it. -/
structure BackupQuorum (cfg : Config σ) (c : Mark) : Prop where
  backups : 2 * cfg.f.toNat ≤ (c.entry.prepares.erase (c.view % cfg.n)).card
  replicas : 2 * cfg.f.toNat + 1 ≤ (insert (c.view % cfg.n) c.entry.prepares).card

theorem backupQuorum_iff {c : Mark} :
    BackupQuorum cfg c ↔ 2 * cfg.f.toNat ≤ (c.entry.prepares.erase (c.view % cfg.n)).card := by
  constructor
  · intro h
    exact h.backups
  · intro h
    refine ⟨h, ?_⟩
    have hUnion : insert (c.view % cfg.n) (c.entry.prepares.erase (c.view % cfg.n)) ⊆
        insert (c.view % cfg.n) c.entry.prepares :=
      Finset.insert_subset_insert _ (Finset.erase_subset _ _)
    have hCard := Finset.card_le_card hUnion
    rw [Finset.card_insert_of_notMem (Finset.notMem_erase _ _)] at hCard
    omega

/-- A vote is counted one at a time and tested at once, so an entry that still waits has less than 2f
prepares, and one that has become prepared had exactly as many as it needed. -/
structure Sparse (cfg : Config σ) (s : Node σ) : Prop where
  entries : ∀ k, (s.entry k).stage = .prePrepared → (s.entry k).prepares.card < cfg.prepareQuorum
  marks : ∀ c ∈ s.prepared, cfg.id ∈ c.entry.prepares ∧ c.entry.prepares.card ≤ cfg.prepareQuorum

theorem sparse_init (t : Bool) : Sparse cfg (Node.init cfg t) where
  entries k h := by simp [Node.init, entry] at h
  marks c hc := by simp [Node.init] at hc

theorem Sparse.noneReady {s : Node σ} (h : Sparse cfg s) : NoneReady cfg s := by
  apply noneReady_iff.mpr
  intro k hReady
  exact Nat.not_le_of_lt (h.entries k hReady.1) hReady.2.2

theorem NoneReady.lt_prepareQuorum {s : Node σ} (h : NoneReady cfg s) (hLog : LogInv cfg s) {k : UInt64}
    (hStage : (s.entry k).stage = .prePrepared) : (s.entry k).prepares.card < cfg.prepareQuorum := by
  apply Nat.lt_of_not_le
  intro hQuorum
  have hPre := (hLog.entries k).hasPreprepare (by rw [hStage]; simp)
  exact noneReady_iff.mp h k ⟨hStage, hPre, hQuorum⟩

theorem fewBuffered_of_fresh {s : Node σ} (hMore : 1 < cfg.prepareQuorum)
    (hFresh : ∀ m, Proposes cfg s m → (s.entry (s.seqNum + 1)).prepares = ∅) (i : Input) :
    FewBuffered cfg s i := by
  intro m _ hProposes
  rw [hFresh m hProposes, ← cfg.prepareQuorum_eq]
  exact hMore

theorem marks_onPrepare {m : PrepareMsg} {conn : Conn} {s : Node σ} (hLog : LogInv cfg s) (h : Sparse cfg s)
    {c : Mark} (hc : c ∈ (s.onPrepare cfg m conn).prepared) :
    cfg.id ∈ c.entry.prepares ∧ c.entry.prepares.card ≤ cfg.prepareQuorum := by
  rcases onPrepare_cases cfg m conn s with hSame | ⟨hFrom, hCurrent, hDigest⟩
  · rw [hSame] at hc
    exact h.marks c hc
  rw [onPrepare_of_current hFrom hCurrent hDigest] at hc
  rcases mem_prepared_tryPrepare hc with hOld | ⟨⟨hStage, -⟩, rfl⟩
  · exact h.marks c hOld
  · -- the vote that has just been counted is the one that completes the quorum
    dsimp only
    rw [entry_setEntry] at hStage ⊢
    have hPre := (hLog.entries m.seqNum).hasPreprepare (by rw [hStage]; simp)
    refine ⟨Finset.mem_insert_of_mem ((hLog.entries m.seqNum).prepare hPre), ?_⟩
    exact (Finset.card_insert_le _ _).trans (h.entries m.seqNum hStage)

theorem marks_handle {P : List PrePrepareMsg} {s s' : Node σ} {i : Input} (hIn : Ordinary P i)
    (hUnaliased : Unaliased cfg s) (hPrimary : cfg.id = s.view % cfg.n) (hLog : LogInv cfg s) (h : Sparse cfg s)
    (hCall : s.handle cfg i = some s') {c : Mark} (hc : c ∈ s'.prepared) :
    cfg.id ∈ c.entry.prepares ∧ c.entry.prepares.card ≤ cfg.prepareQuorum := by
  cases i with
  | timeout => exact absurd rfl hIn.noTimeout
  | recv m conn =>
    cases m with
    | viewChange m | newView m => exact (hIn.within _ _ rfl).elim
    | handshake m =>
      cases hCall
      exact h.marks c hc
    | request m =>
      cases hCall
      rcases onRequest_cases cfg m s with ⟨-, hEq⟩ | ⟨-, replies, forwarded, timerRunning, hEq⟩
      · rw [hEq] at hc
        exact h.marks c hc
      · rw [hEq] at hc
        exact h.marks c hc
    | prepare m =>
      cases hCall
      exact marks_onPrepare hLog h hc
    | commit m =>
      cases hCall
      rw [onCommit_prepared] at hc
      exact h.marks c hc
    | checkpoint m =>
      cases hCall
      rcases onCheckpoint_cases cfg m s with ⟨-, hEq⟩ | ⟨-, hEq | ⟨cp, -, -, -, hEq⟩⟩
      · rw [hEq] at hc
        exact h.marks c hc
      · rw [hEq] at hc
        exact h.marks c hc
      · rw [hEq] at hc
        exact h.marks c hc
    | prePrepare m =>
      -- no connection leads to the primary itself
      cases hCall
      rcases onPreprepareImpl_cases cfg m conn false s with hSame | hGuard
      · unfold onPreprepare at hc
        rw [hSame] at hc
        exact h.marks c hc
      · rcases hGuard.sender with hSelf | hFrom
        · cases hSelf
        · unfold comesFromPrimary at hFrom
          rw [beq_iff_eq, ← hPrimary] at hFrom
          exact absurd hFrom (hUnaliased conn)

theorem sparse_handle {P : List PrePrepareMsg} {s s' : Node σ} {i : Input} (hMore : 1 < cfg.prepareQuorum)
    (hIn : Ordinary P i) (hUnaliased : Unaliased cfg s) (hPrimary : cfg.id = s.view % cfg.n)
    (hLog : LogInv cfg s) (hLog' : LogInv cfg s')
    (hFresh : ∀ m, Proposes cfg s m → (s.entry (s.seqNum + 1)).prepares = ∅)
    (h : Sparse cfg s) (hCall : s.handle cfg i = some s') : Sparse cfg s' where
  entries _ hStage :=
    have hNone := (noneReady_handle_iff h.noneReady hCall).mpr (fewBuffered_of_fresh hMore hFresh i)
    hNone.lt_prepareQuorum hLog' hStage
  marks _ hc := marks_handle hIn hUnaliased hPrimary hLog h hCall hc

end Node

namespace Cluster
variable {C : Cluster σ} {G : World σ}

theorem fresh_of_proposes {s : Node σ} {m : RequestMsg} (hLeads : Leads s) (hFollows : Follows s.proposals s)
    (hProposes : Proposes cfg s m) : s.entry (s.seqNum + 1) = {} := by
  refine Std.ExtTreeMap.getD_eq_fallback fun hKey => ?_
  have hBound := hFollows.keys _ hKey
  have hSucc := Word.toNat_succ hProposes.high
  have hCount := hLeads.count
  omega

theorem sparse_of_reach (hFaulty : C.faulty = ∅) (hf : 1 ≤ C.base.f.toNat) (hs : C.Reach C.Untimed G) :
    Sparse (C.cfg 0) (G 0) := by
  have hAll := hs.pointwise_call (J := fun r s => r = 0 → Sparse (C.cfg r) s)
    (fun r _ => sparse_init _) (fun G r i s' hs hOk hJ hCall hr => ?_) 0
  · exact hAll rfl
  subst hr
  have w := normalInv_of_reach hFaulty hs
  have hMore : 1 < (C.cfg 0).prepareQuorum := by
    rw [Config.prepareQuorum_eq]
    exact Nat.lt_of_lt_of_le Nat.one_lt_two (Nat.mul_le_mul_left 2 hf)
  have hPrimary : (C.cfg 0).id = (G 0).view % (C.cfg 0).n := by
    rw [(w.follows 0).view, UInt32.zero_mod]
    rfl
  have hReach := hs.anything 0
  refine sparse_handle hMore (ordinary_of_untimed hFaulty w hOk) (unaliased_of_network (fun _ _ _ h => h.1) hs 0)
    hPrimary (logInv_reach hReach).2 (logInv_reach (.step hReach trivial hCall)).2 (fun m hProposes => ?_) (hJ 0 rfl)
    hCall
  rw [fresh_of_proposes w.leads (w.follows 0) hProposes]

/-- The primary of the first view sends no prepare, so no backup ever counts it. -/
structure BackupInv (C : Cluster σ) (r : UInt32) (s : Node σ) : Prop where
  view : s.view = 0
  peer : Unaliased (C.cfg r) s
  quiet : r = 0 → ∀ m, Msg.prepare m ∉ s.sent
  entries : r ≠ 0 → ∀ k, 0 ∉ (s.entry k).prepares
  marks : ∀ c ∈ s.prepared, c.view = 0 ∧ C.base.prepareQuorum ≤ c.entry.prepares.card ∧
    (r ≠ 0 → 0 ∉ c.entry.prepares)

theorem backupInv_init (r : UInt32) (t : Bool) : BackupInv C r (Node.init (C.cfg r) t) where
  view := rfl
  peer conn := by simp [Node.init]
  quiet _ m hm := by simp [Node.init] at hm
  entries _ k h := by simp [Node.init, entry] at h
  marks c hc := by simp [Node.init] at hc

theorem BackupInv.write {r : UInt32} {s t : Node σ} {k : UInt64} {e : ReqLogEntry} (w : BackupInv C r s)
    (hLog : t.reqlog = s.reqlog.insert k e) (hView : t.view = s.view) (hPeer : Unaliased (C.cfg r) t)
    (hSent : r = 0 → ∀ m, Msg.prepare m ∈ t.sent → Msg.prepare m ∈ s.sent)
    (he : r ≠ 0 → 0 ∉ (s.entry k).prepares → 0 ∉ e.prepares)
    (hMarks : ∀ c ∈ t.prepared, c ∈ s.prepared ∨ (c = ⟨s.view, k, s.entry k⟩ ∧
      C.base.prepareQuorum ≤ (s.entry k).prepares.card)) :
    BackupInv C r t where
  view := hView.trans w.view
  peer := hPeer
  quiet hr m hm := w.quiet hr m (hSent hr m hm)
  entries hr a := by
    rw [entry_of_insert hLog]
    split
    · exact he hr (w.entries hr k)
    · exact w.entries hr a
  marks c hc := by
    rcases hMarks c hc with hOld | ⟨rfl, hQuorum⟩
    · exact w.marks c hOld
    · exact ⟨w.view, hQuorum, fun hr => w.entries hr k⟩

theorem backupInv_step {r : UInt32} {s₀ s s' : Node σ} {i : Input} {P : List PrePrepareMsg}
    (hIn : Ordinary P i) (hPeer : ∀ m conn, i = .recv (.handshake m) conn → m.id ≠ (C.cfg r).id)
    (hVoter : ∀ m conn, i = .recv (.prepare m) conn → m.replicaId ≠ 0)
    (w : BackupInv C r s) (hStep : Step (C.cfg r) s₀ i s s') : BackupInv C r s' := by
  have hUnaliased := unaliased_step w.peer hPeer hStep
  cases hStep with
  | propose =>
    refine w.write rfl rfl hUnaliased (fun _ m hm => sent_of_append hm (by simp)) (fun hr hOld h => ?_) fun _ => .inl
    rcases Finset.mem_insert.mp h with h | h
    · exact hr h.symm
    · exact hOld h
  | accept _ hFrom =>
    have hBackup : r ≠ 0 := by
      rintro rfl
      rw [w.view, UInt32.zero_mod] at hFrom
      exact w.peer _ hFrom
    refine w.write rfl rfl hUnaliased (fun hr => absurd hr hBackup) (fun hr hOld h => ?_) fun _ => .inl
    rcases Finset.mem_insert.mp h with h | h
    · exact hr h.symm
    · exact hOld h
  | votePrepare hi =>
    refine w.write rfl rfl hUnaliased (fun _ _ => id) (fun _ hOld h => ?_) fun _ => .inl
    rcases Finset.mem_insert.mp h with h | h
    · exact hVoter _ _ hi h.symm
    · exact hOld h
  | markPrepared _ _ hQuorum =>
    refine w.write rfl rfl hUnaliased (fun _ m hm => sent_of_append hm (by simp)) (fun _ => id) fun c hc => ?_
    rcases List.mem_append.mp hc with hOld | hNew
    · exact .inl hOld
    · exact .inr ⟨List.mem_singleton.mp hNew, hQuorum⟩
  | touch | voteCommit | markCommitted =>
    exact w.write rfl rfl hUnaliased (fun _ _ => id) (fun _ => id) fun _ => .inl
  | execute =>
    rw [executeEntry_eq] at hUnaliased ⊢
    refine ⟨w.view, hUnaliased, fun hr m hm => w.quiet hr m ?_, w.entries, w.marks⟩
    exact (sent_or_of_due (P := fun x => x ≠ .prepare m) (by simp) _ hm).resolve_right fun h => h rfl
  | stabilize =>
    refine ⟨w.view, hUnaliased, w.quiet, fun hr k => ?_, w.marks⟩
    rw [entry_of_stabilize]
    split
    · exact Finset.notMem_empty 0
    · exact w.entries hr k
  | beginViewChange hi => exact absurd hi hIn.noTimeout
  | storeViewChange hi | installView hi => exact absurd hi hIn.not_offers
  | enterView hi | recompute hi => exact (hIn.within _ _ hi).elim
  | handshake | timer | resend | forward | voteCheckpoint =>
    exact ⟨w.view, hUnaliased, w.quiet, w.entries, w.marks⟩

theorem backupInv_of_reach (hFaulty : C.faulty = ∅) (hs : C.Reach C.Untimed G) (r : UInt32) :
    BackupInv C r (G r) := by
  refine hs.pointwise (J := BackupInv C) (fun r => backupInv_init r _)
    (fun G r i hs hOk hJ s s' w hStep => ?_) r
  refine backupInv_step (ordinary_of_untimed hFaulty (normalInv_of_reach hFaulty hs) hOk) hOk.1.peer ?_ w hStep
  rintro m conn rfl hZero
  have hSent := (hOk.1.id m.replicaId rfl).2.2 (by simp [hFaulty])
  rw [hZero] at hSent
  exact (hJ 0).quiet rfl m hSent

/-- In the first view of a cluster without faults, an entry that becomes prepared has 2f backups
behind it exactly if the replica is a backup itself. -/
theorem backupQuorum_iff_backup (hFaulty : C.faulty = ∅) (hf : 1 ≤ C.base.f.toNat) (hs : C.Reach C.Untimed G)
    {r : UInt32} {c : Mark} (hc : c ∈ (G r).prepared) :
    BackupQuorum C.base c ↔ r ≠ (G r).view % C.base.n := by
  have w := backupInv_of_reach hFaulty hs r
  obtain ⟨hView, hQuorum, hBackup⟩ := w.marks c hc
  rw [backupQuorum_iff, hView, w.view, UInt32.zero_mod]
  rw [Config.prepareQuorum_eq] at hQuorum
  constructor
  · rintro hOthers rfl
    obtain ⟨hOwn, hCard⟩ := (sparse_of_reach hFaulty hf hs).marks c hc
    have hOwn : 0 ∈ c.entry.prepares := hOwn
    have hCard : c.entry.prepares.card ≤ C.base.prepareQuorum := hCard
    rw [Config.prepareQuorum_eq] at hCard
    rw [Finset.card_erase_of_mem hOwn] at hOthers
    omega
  · intro hr
    rwa [Finset.erase_eq_of_notMem (hBackup hr)]

/-- Replica 1 prepares the request with the prepare of replica 2 and its own. -/
theorem backupQuorum_iff_backup_one : ∃ G, ∃ c ∈ (G 1).prepared, (sample 4 ∅).Reach (sample 4 ∅).Untimed G ∧
    BackupQuorum (sample 4 ∅).base c := by
  let m : RequestMsg := ⟨"INC", 1, 9⟩
  let digest := (sample 4 ∅).base.getHash m
  obtain ⟨G, hs, ⟨c, hc⟩, hView⟩ := Machine.exists_reach (sample 4 ∅).machine
    (fun G a => (sample 4 ∅).Untimed G a.1 a.2)
    ([(0, .recv (.request m) 9)] ++ ordering ⟨0, 1, digest, m⟩ 0 [1, 2])
    (fun G => (∃ c ∈ (G 1).prepared, c.key = 1) ∧ (G 1).view = 0) (by decide +kernel)
  refine ⟨G, c, hc.1, hs, (backupQuorum_iff_backup rfl (by decide) hs hc.1).mpr ?_⟩
  rw [hView]
  decide

/-- One prepare is enough for the primary of four replicas: only it and replica 1 stand behind the
request that it has prepared. -/
theorem backupQuorum_primary : ∃ G, ∃ c ∈ (G 0).prepared, (sample 4 ∅).Reach (sample 4 ∅).Untimed G ∧
    c.entry.prepares = {0, 1} ∧ ¬BackupQuorum (sample 4 ∅).base c := by
  let m : RequestMsg := ⟨"INC", 1, 9⟩
  let digest := (sample 4 ∅).base.getHash m
  obtain ⟨G, hs, c, hc, hView, hPrepares⟩ := Machine.exists_reach (sample 4 ∅).machine
    (fun G a => (sample 4 ∅).Untimed G a.1 a.2)
    [(0, .recv (.request m) 9), deliver (.handshake ⟨0⟩) 0 1, deliver (.prePrepare ⟨0, 1, digest, m⟩) 0 1,
      deliver (.prepare ⟨0, 1, digest, 1⟩) 1 0]
    (fun G => ∃ c ∈ (G 0).prepared, c.view = 0 ∧ c.entry.prepares = {0, 1}) (by decide +kernel)
  refine ⟨G, c, hc, hs, hPrepares, fun hBoth => ?_⟩
  have hTwo := hBoth.backups
  rw [hView, hPrepares] at hTwo
  exact absurd hTwo (by decide)

end Cluster
end Pbft
