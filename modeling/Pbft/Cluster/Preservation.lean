import Pbft.Cluster.AcrossViews
import Pbft.Cluster.Prepares
import Pbft.Cluster.Promise

/-! # A view change preserves what is committed

A quorum stands behind a committed entry and another one behind a NEW-VIEW. The replicas that
are in both have promised to vote in no older view any more and have announced their vote, so
the O set has f + 1 proofs to choose from. No proof of another digest can be among them: it would
rest on a replica that is pledged to two digests.
-/
namespace Pbft.Cluster
set_option autoImplicit false

open Node

variable {σ : Type} {C : Cluster σ} {ok : World σ → UInt32 → Input → Prop} {G : World σ}

structure RecordInv (C : Cluster σ) (S : Traffic) (r : UInt32) (s : Node σ) : Prop where
  replica : ReplicaInv (C.cfg r) s
  pledge : PledgeInv s
  prepare : C.PrepareInv S r s
  vote : C.VoteInv S (fun now v => v ≤ now) r s
  promise : C.PromiseInv S r s

theorem recordInv_of_reach (hFaulty : C.faulty = ∅)
    (hNet : ∀ G r i, ok G r i → C.Network G r i) (hGuard : ∀ G r i, ok G r i → Guarded (C.cfg r) (G r) i)
    (hCareful : ∀ G r i, ok G r i → Careful (C.cfg r) (G r) i)
    (hUnfilled : ∀ G r i, ok G r i → Unfilled (C.cfg r) (G r) i)
    (hMatching : ∀ G r i, ok G r i → Matching (C.cfg r) G.sent (G r) i) (hs : C.Reach ok G)
    (r : UInt32) : C.RecordInv G.sent r (G r) := by
  have hNone : ∀ p, p ∉ C.faulty := by simp [hFaulty]
  have hNarrow : ∀ p m, G.sent p m → m.Narrow := fun p => narrow_reach (hs.anything p)
  have hS : C.CommitsNonzero G.sent := fun p _ m hm =>
    (replicaInv_of_reach hGuard hs p).digest.nonzero m hm
  have hNode := hs.node (fun r s i => C.Correct r ∧ C.IdTrue G.sent r i ∧ NarrowInput (C.cfg r) s i ∧
      Guarded (C.cfg r) s i ∧ Careful (C.cfg r) s i ∧ Unfilled (C.cfg r) s i ∧
      Matching (C.cfg r) G.sent s i)
    (fun G' r i h hSent => ⟨(hNet G' r i h).correct, (hNet G' r i h).id.mono hSent,
      (hNet G' r i h).narrow hFaulty fun p m hm => hNarrow p m (hSent p m hm), hGuard G' r i h,
      hCareful G' r i h, hUnfilled G' r i h, (hMatching G' r i h).mono hSent⟩) r
  refine Node.Reach.invariant (I := C.RecordInv G.sent r) ⟨⟨windowInv_init _, logInv_init _,
    digestInv_init _⟩, pledgeInv_init (C.cfg r) _, prepareInv_init _, voteInv_init _,
    promiseInv_init _⟩ ?_ hNode
  rintro s₀ i - ⟨hr, hId, hNarrow, hGuard, hCareful, hUnfilled, hMatching⟩ s s' w hStep
  exact
    { replica := replicaInv_step hGuard w.replica hStep
      pledge := pledgeInv_step hUnfilled w.replica w.pledge hStep
      prepare := prepareInv_step hr.1 hNone hMatching hId w.replica w.prepare hStep
      vote := voteInv_step hr hS hId UInt32.le_refl
        (fun _ hv => UInt32.le_trans hv (view_step hNarrow hStep)) w.replica w.vote hStep
      promise := promiseInv_step hr.1 hNone hNarrow hCareful hId w.replica w.promise hStep }

section
variable (hSize : C.base.n.toNat = 3 * C.base.f.toNat + 1) (hNone : ∀ p, p ∉ C.faulty)
variable (hAll : ∀ r, C.RecordInv G.sent r (G r)) {p q : UInt32} {c : Mark} (hc : c ∈ (G p).committed)

include hNone hAll hc

theorem commit_of_committed {r : UInt32} (hr : r ∈ c.entry.commits) : ∃ v, v ≤ c.view ∧
    Msg.commit ⟨v, c.key, c.entry.digest, r⟩ ∈ (G r).sent := by
  obtain ⟨-, v, hv, hSent⟩ := (((hAll p).vote.committed c hc).2 r hr).2 (hNone r)
  exact ⟨v, hv, heard_sent hSent⟩

include hSize

theorem proof_digest {r : UInt32} {vc : ViewChangeMsg} {pr : PrepareProof}
    (hvc : Msg.viewChange vc ∈ (G r).sent) (hpr : pr ∈ vc.preparedProofs) (hKey : pr.seqNum = c.key)
    (hPos : c.key ≠ 0) : pr.digest = c.entry.digest := by
  obtain ⟨hQuorum, hBacked⟩ := (hAll p).vote.committed c hc
  obtain ⟨Q, hQ⟩ := (hAll r).prepare.proofs vc hvc pr hpr
  have hCard := hQ.card
  have hSome := hQ.pos
  rw [Config.prepareQuorum_eq] at hCard
  rw [Config.quorum_eq] at hQuorum
  have hUnion := card_union_le (fun a ha => (hBacked a ha).1) hQ.lt
  -- 2f + 1 commit votes and 2f prepares, but at least one: they meet even in a cluster of one
  obtain ⟨a, haVotes, haQ, -⟩ := Quorum.exists_common (F := ∅) hUnion (by
    rw [Finset.card_empty]
    omega)
  obtain ⟨v, -, hCommit⟩ := commit_of_committed hNone hAll hc haVotes
  obtain ⟨m, hm, hPledge⟩ := hQ.pledged a haQ
  exact (hAll a).pledge.unique m (heard_sent hm) _ hCommit c.key _ _ (hKey ▸ hPledge) rfl hPos

theorem carriers_of_committed {nv : NewViewMsg} {vcs : Std.ExtTreeMap UInt32 ViewChangeMsg}
    (hFrom : ∀ r m, vcs[r]? = some m → Announced (C.cfg q) (Heard G.sent q (G q)) nv.nextView r m)
    (hQuorum : C.base.quorum ≤ vcs.size) (hLater : c.view.toNat < nv.nextView.toNat)
    (hMin : minS (vcs.toList.map Prod.snd) < c.key) : C.base.f.toNat + 1 ≤
      (carriers (vcs.toList.map Prod.snd) c.key c.entry.digest).card := by
  obtain ⟨hVotes, hBacked⟩ := (hAll p).vote.committed c hc
  have hKeys : ∀ r ∈ vcs.keys.toFinset, ∃ vc, vcs[r]? = some vc := fun r hr =>
    TreeMap.mem_iff_exists.mp (Std.ExtTreeMap.mem_keys.mp (List.mem_toFinset.mp hr))
  have hUnion : (c.entry.commits ∪ vcs.keys.toFinset).card ≤ C.base.n.toNat := by
    refine card_union_le (fun r hr => (hBacked r hr).1) fun r hr => ?_
    obtain ⟨vc, hvc⟩ := hKeys r hr
    exact (hFrom r vc hvc).lt
  have hCount := Finset.card_union_add_card_inter c.entry.commits vcs.keys.toFinset
  have hCard : vcs.keys.toFinset.card = vcs.size := by
    rw [List.toFinset_card_of_nodup Std.ExtTreeMap.nodup_keys, Std.ExtTreeMap.length_keys]
  rw [Config.quorum_eq] at hVotes hQuorum
  have hCommon : C.base.f.toNat + 1 ≤ (c.entry.commits ∩ vcs.keys.toFinset).card := by omega
  refine hCommon.trans (Finset.card_le_card fun r hr => ?_)
  obtain ⟨hVoted, hKey⟩ := Finset.mem_inter.mp hr
  obtain ⟨vc, hvc⟩ := hKeys r hKey
  obtain ⟨hId, -, hView, hSent⟩ := hFrom r vc hvc
  obtain ⟨v, hv, hCommit⟩ := commit_of_committed hNone hAll hc hVoted
  have hMem : vc ∈ vcs.toList.map Prod.snd := TreeMap.mem_map_snd_toList.mpr ⟨r, hvc⟩
  have hBefore : v.toNat < vc.nextView.toNat := by
    rw [hView]
    exact Nat.lt_of_le_of_lt (UInt32.le_iff_toNat_le.mp hv) hLater
  refine mem_carriers.mpr ⟨vc, hMem, hId.symm, ?_⟩
  rcases (hAll r).promise.covered _ vc hCommit (heard_sent hSent) hBefore with hLow | hProof
  · exact absurd (UInt64.le_trans hLow (le_minS hMem)) (UInt64.not_le.mpr hMin)
  · exact hProof

theorem newView_covers_committed {nv : NewViewMsg} (hnv : Msg.newView nv ∈ (G q).sent)
    (hLater : c.view.toNat < nv.nextView.toNat) : c.key ≤ minS nv.viewChanges ∨
      ∃ pp ∈ nv.prePrepares, pp.seqNum = c.key ∧ pp.reqDigest = c.entry.digest := by
  obtain ⟨vcs, hV, hQuorum, hFrom, hO, hVisible⟩ := (hAll q).promise.founded nv hnv
  rw [hV] at hO hVisible ⊢
  by_cases hMin : minS (vcs.toList.map Prod.snd) < c.key
  · refine .inr (oSet_of_visible hVisible hO hMin
      (carriers_of_committed hSize hNone hAll hc hFrom hQuorum hLater hMin) fun pr hpr hKey => ?_)
    obtain ⟨vc, hvc, hpr⟩ := List.mem_flatMap.mp hpr
    obtain ⟨r, hr⟩ := TreeMap.mem_map_snd_toList.mp hvc
    refine proof_digest hSize hNone hAll hc (heard_sent (hFrom r vc hr).sent) hpr hKey ?_
    rintro hZero
    rw [hZero] at hMin
    exact absurd hMin UInt64.not_lt_zero
  · exact .inl (UInt64.not_lt.mp hMin)

end

/-- Without faulty replicas, across any view changes and for all commits ever made: a NEW-VIEW for
a later view starts above the sequence number or re-issues the digest, provided that every call
is careful, leaves the entry at the watermark alone and counts early prepares for their digest. -/
theorem view_change_preserves (hFaulty : C.faulty = ∅)
    (hSize : C.base.n.toNat = 3 * C.base.f.toNat + 1) (hHash : ∀ m, C.base.getHash m ≠ 0)
    (hEmpty : C.base.emptyHash ≠ 0)
    (hs : C.Reach (fun G r i => C.Network G r i ∧ Careful (C.cfg r) (G r) i ∧
      Unfilled (C.cfg r) (G r) i ∧ Matching (C.cfg r) G.sent (G r) i) G) {p q : UInt32} {c : Mark}
    (hc : c ∈ (G p).committed) {nv : NewViewMsg} (hnv : Msg.newView nv ∈ (G q).sent)
    (hLater : c.view.toNat < nv.nextView.toNat) : c.key ≤ minS nv.viewChanges ∨
      ∃ pp ∈ nv.prePrepares, pp.seqNum = c.key ∧ pp.reqDigest = c.entry.digest := by
  let ok (G : World σ) (r : UInt32) (i : Input) : Prop := C.Network G r i ∧ Careful (C.cfg r) (G r) i ∧
    Unfilled (C.cfg r) (G r) i ∧ Matching (C.cfg r) G.sent (G r) i
  have hNone : ∀ p, p ∉ C.faulty := by simp [hFaulty]
  have hNet : ∀ G r i, ok G r i → C.Network G r i := fun _ _ _ h => h.1
  have hNonzero : C.Reach (fun G r i => ok G r i ∧ Nonzero (C.cfg r) (G r) i) G :=
    Machine.Reach.mono (fun G a hs hOk => ⟨hOk, nonzero_of_reach hFaulty hHash hEmpty hNet hs hOk⟩) hs
  have hAll := recordInv_of_reach hFaulty (fun _ _ _ h => h.1.1) (fun _ _ _ h => ⟨h.2, h.1.1.peer⟩)
    (fun _ _ _ h => h.1.2.1) (fun _ _ _ h => h.1.2.2.1) (fun _ _ _ h => h.1.2.2.2) hNonzero
  exact newView_covers_committed hSize hNone hAll hc hnv hLater

/-- The second primary commits a request that the other replicas have only prepared, and the
third primary re-issues its digest. -/
theorem view_change_preserves_sample : ∃ G : World (List String), ∃ c ∈ (G 1).committed,
    ∃ nv, Msg.newView nv ∈ (G 2).sent ∧ c.view.toNat < nv.nextView.toNat ∧
      (c.key ≤ minS nv.viewChanges ∨
        ∃ pp ∈ nv.prePrepares, pp.seqNum = c.key ∧ pp.reqDigest = c.entry.digest) := by
  let C := sample 4 ∅
  let m : RequestMsg := ⟨"INC", 1, 9⟩
  let digest := C.base.getHash m
  let vc (view : UInt64) (P : List PrepareProof) (r : UInt32) : ViewChangeMsg := ⟨view, 0, r, [], P⟩
  let second : NewViewMsg := ⟨1, [1, 2, 3].map (vc 1 []), []⟩
  let third : NewViewMsg := ⟨2, vc 2 [] 0 :: [2, 3].map (vc 2 [⟨1, 1, digest⟩]),
    [⟨2, 1, digest, ⟨"", 0, 0⟩⟩]⟩
  let prepare (p r : UInt32) := deliver (.prepare ⟨1, 1, digest, p⟩) p r
  let commit (p r : UInt32) := deliver (.commit ⟨1, 1, digest, p⟩) p r
  obtain ⟨G, hs, hc, hnv⟩ := Machine.exists_reach C.machine
    (fun G a => C.Network G a.1 a.2 ∧ Careful (C.cfg a.1) (G a.1) a.2 ∧
      Unfilled (C.cfg a.1) (G a.1) a.2 ∧ Matching (C.cfg a.1) G.sent (G a.1) a.2)
    ([0, 1, 2, 3].map (fun r => (r, .timeout)) ++
      [2, 3].map (fun r => deliver (.viewChange (vc 1 [] r)) r 1) ++
      [0, 2, 3].map (deliver (.handshake ⟨1⟩) 1) ++ [0, 2, 3].map (deliver (.newView second) 1) ++
      [(1, .recv (.request m) 9)] ++ [2, 3].map (deliver (.prePrepare ⟨1, 1, digest, m⟩) 1) ++
      [prepare 2 3, prepare 3 2, prepare 2 1, commit 2 1, commit 3 1] ++
      [0, 2, 3].map (fun r => (r, .timeout)) ++
      [deliver (.viewChange (vc 2 [] 0)) 0 2, deliver (.viewChange (vc 2 [⟨1, 1, digest⟩] 3)) 3 2])
    (fun G => ((G 1).committed.map (·.view) = [1]) ∧ Msg.newView third ∈ (G 2).sent) (by decide +kernel)
  obtain ⟨c, hMem, hView⟩ := List.mem_map.mp (hc ▸ List.mem_singleton.mpr rfl)
  have hLater : c.view.toNat < third.nextView.toNat := hView ▸ (by decide)
  exact ⟨G, c, hMem, third, hnv, hLater, view_change_preserves rfl (by decide)
    (Config.sample_getHash 4 200 100) (by decide) hs hMem hnv hLater⟩

/-- All four replicas run the code and timers fire only where they run. The request is committed
at replica 1 in view 0; its own P set leaves out the committed entry, the proofs of the other
two are from view 0 and passed over, and the NEW-VIEW puts the null request in its place. -/
theorem view_change_loses_committed : ¬∀ C : Cluster (List String), C.faulty = ∅ →
    C.base.n.toNat = 3 * C.base.f.toNat + 1 → (∀ m, C.base.getHash m ≠ 0) → C.base.emptyHash ≠ 0 →
    ∀ G, C.Reach (fun G r i => C.Network G r i ∧ (i = .timeout → (G r).timerRunning = true)) G →
    ∀ p q, p < C.base.n → q < C.base.n → ∀ c ∈ (G p).committed, ∀ nv, Msg.newView nv ∈ (G q).sent →
      c.view.toNat < nv.nextView.toNat → c.key ≤ minS nv.viewChanges ∨
        ∃ pp ∈ nv.prePrepares, pp.seqNum = c.key ∧ pp.reqDigest = c.entry.digest := by
  intro hClaim
  let C := sample 4 ∅
  let m : RequestMsg := ⟨"INC", 1, 9⟩
  let digest := C.base.getHash m
  let vc (P : List PrepareProof) (r : UInt32) : ViewChangeMsg := ⟨1, 0, r, [], P⟩
  let second : NewViewMsg := ⟨1, vc [] 1 :: [2, 3].map (vc [⟨0, 1, digest⟩]), [⟨1, 1, 2, ⟨"", 0, 0⟩⟩]⟩
  let prepare (p r : UInt32) := deliver (.prepare ⟨0, 1, digest, p⟩) p r
  let commit (p r : UInt32) := deliver (.commit ⟨0, 1, digest, p⟩) p r
  obtain ⟨G, hs, hc, hnv⟩ := Machine.exists_reach C.machine
    (fun G a => C.Network G a.1 a.2 ∧ (a.2 = .timeout → (G a.1).timerRunning = true))
    ((0, .recv (.request m) 9) :: [1, 2, 3].map (deliver (.handshake ⟨0⟩) 0) ++
      [1, 2, 3].map (deliver (.prePrepare ⟨0, 1, digest, m⟩) 0) ++
      [prepare 2 1, prepare 3 2, prepare 2 3, commit 2 1, commit 3 1] ++
      (1, .recv (.request ⟨"DEC", 2, 9⟩) 9) :: [1, 2, 3].map (fun r => (r, .timeout)) ++
      [2, 3].map (fun r => deliver (.viewChange (vc [⟨0, 1, digest⟩] r)) r 1))
    (fun G => (G 1).committed.map (fun c => (c.view, c.key, c.entry.digest)) = [(0, 1, digest)] ∧
      Msg.newView second ∈ (G 1).sent) (by decide +kernel)
  obtain ⟨c, hMem, hMark⟩ := List.mem_map.mp (hc ▸ List.mem_singleton.mpr rfl)
  simp only [Prod.mk.injEq] at hMark
  rcases hClaim C rfl (by decide) (Config.sample_getHash 4 200 100) (by decide) G hs 1 1 (by decide)
    (by decide) c hMem second hnv (hMark.1 ▸ (by decide)) with hLow | ⟨pp, hpp, -, hDigest⟩
  · rw [hMark.2.1] at hLow
    exact absurd hLow (by decide)
  · rw [List.mem_singleton.mp hpp, hMark.2.2] at hDigest
    exact absurd hDigest (by decide)

end Pbft.Cluster
