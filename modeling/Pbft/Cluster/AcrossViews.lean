import Pbft.Cluster.Agreement
import Pbft.Node.Hash

/-! # Agreement across view changes

When all replicas run this code, every digest on the network is the hash of a request or of
the empty string, however often views change. What is left of the conditions of agreement is
that a re-issued pre-prepare brings the operation of its digest, which the O set never does.
-/
namespace Pbft.Cluster
set_option autoImplicit false

open Node

variable {σ : Type} {C : Cluster σ} {ok : World σ → UInt32 → Input → Prop} {G : World σ}

section
variable (hFaulty : C.faulty = ∅) (hHash : ∀ m, C.base.getHash m ≠ 0) (hEmpty : C.base.emptyHash ≠ 0)
variable (hNet : ∀ G r i, ok G r i → C.Network G r i)

include hFaulty hHash hEmpty hNet

theorem hashInv_of_reach (hs : C.Reach ok G) (r : UInt32) : HashInv (G r) := by
  have hAll := hs.pointwise
    (J := fun r s => WindowInv (C.cfg r) s ∧ LogInv (C.cfg r) s ∧ HashInv s)
    (fun r => ⟨windowInv_init _, logInv_init _, hashInv_init (C.cfg r) _⟩) ?_ r
  · exact hAll.2.2
  · intro G r i _ hOk hJ s s' h hStep
    have hGet : ∀ m, (C.cfg r).getHash m ≠ 0 := hHash
    refine ⟨windowInv_step h.1 hStep, logInv_step h.1 h.2.1 hStep,
      hashInv_step hGet hEmpty ?_ h.2.1 h.2.2 hStep⟩
    rintro m conn rfl hZero
    rcases (hNet G r _ hOk).exists_sender hFaulty with ⟨hs, rfl⟩ | ⟨q, rfl⟩ | ⟨p, hp⟩
    · cases hZero
    · cases hZero
    · exact (hJ p).2.2.sent m hp hZero

theorem nonzero_of_reach (hs : C.Reach ok G) {r : UInt32} {i : Input} (hOk : ok G r i) :
    Nonzero (C.cfg r) (G r) i := by
  refine ⟨fun m hm _ hZero => ?_, fun m _ _ => hHash m⟩
  obtain ⟨msg, conn, rfl, hDigest⟩ := exists_of_mem_prePrepares hm
  rw [hZero] at hDigest
  rcases (hNet G r _ hOk).exists_sender hFaulty with ⟨hs, rfl⟩ | ⟨q, rfl⟩ | ⟨p, hp⟩
  · cases hDigest
  · cases hDigest
  · exact (hashInv_of_reach hFaulty hHash hEmpty hNet hs p).sent msg hp hDigest

end

/-- Without faulty replicas but across any view changes: as long as every logged pre-prepare,
direct or out of an O set, carries the operation that belongs to its digest and the entry at the
watermark is left alone, replicas agree on what they execute. -/
theorem view_change_agreement (β : UInt64 → Digest → String) (hFaulty : C.faulty = ∅)
    (hSize : C.base.n.toNat = 3 * C.base.f.toNat + 1) (hHash : ∀ m, C.base.getHash m ≠ 0)
    (hEmpty : C.base.emptyHash ≠ 0)
    (hs : C.Reach (fun G r i => C.Network G r i ∧ Fits β (C.cfg r) (G r) i) G) {p q : UInt32}
    (hp : p < C.base.n) (hq : q < C.base.n) :
    ∀ x ∈ (G p).executed, ∀ y ∈ (G q).executed, x.key = y.key →
      x.entry.req.operation = y.entry.req.operation := by
  have hNone : ∀ r, r ∉ C.faulty := by simp [hFaulty]
  have hNet : ∀ (G : World σ) r i, C.Network G r i ∧ Fits β (C.cfg r) (G r) i → C.Network G r i :=
    fun _ _ _ h => h.1
  have hNonzero : C.Reach (fun G r i => C.Network G r i ∧ Fits β (C.cfg r) (G r) i ∧
      Nonzero (C.cfg r) (G r) i) G :=
    Machine.Reach.mono (fun G a hs hOk => ⟨hOk.1, hOk.2,
      nonzero_of_reach hFaulty hHash hEmpty hNet hs hOk⟩) hs
  have hGuard : ∀ (G : World σ) r i, C.Network G r i ∧ Fits β (C.cfg r) (G r) i ∧
      Nonzero (C.cfg r) (G r) i → Guarded (C.cfg r) (G r) i := fun G r i h => ⟨h.2.2, h.1.peer⟩
  intro x hx y hy
  exact executed_agree hGuard (fun _ _ _ h => h.2.1) ⟨hSize, by simp [hFaulty]⟩
    (fun _ _ _ h => h.1.id) hNonzero ⟨hp, hNone p⟩ ⟨hq, hNone q⟩ hx hy

/-- Three replicas give up on the first primary, and the second one orders a request. -/
theorem view_change_agreement_sample : ∃ G : World (List String), (G 1).view = 1 ∧
    (G 1).operations = ["INC"] ∧ (G 2).operations = ["INC"] ∧
    ∀ x ∈ (G 1).executed, ∀ y ∈ (G 2).executed, x.key = y.key →
      x.entry.req.operation = y.entry.req.operation := by
  let m : RequestMsg := ⟨"INC", 1, 9⟩
  let digest := (sample 4 ∅).base.getHash m
  let vc (r : UInt32) : ViewChangeMsg := ⟨1, 0, r, [], []⟩
  let commit (r : UInt32) : Msg := .commit ⟨1, 1, digest, r⟩
  obtain ⟨G, hs, hView, hp, hq⟩ := Machine.exists_reach (sample 4 ∅).machine
    (fun G a => (sample 4 ∅).Network G a.1 a.2 ∧ Fits (fun _ _ => "INC") ((sample 4 ∅).cfg a.1) (G a.1) a.2)
    ([(1, .timeout), (2, .timeout), (3, .timeout), deliver (.viewChange (vc 2)) 2 1,
        deliver (.viewChange (vc 3)) 3 1, deliver (.handshake ⟨1⟩) 1 2, deliver (.handshake ⟨1⟩) 1 3,
        deliver (.newView ⟨1, [vc 1, vc 2, vc 3], []⟩) 1 2,
        deliver (.newView ⟨1, [vc 1, vc 2, vc 3], []⟩) 1 3, (1, .recv (.request m) 9)] ++
      ordering ⟨1, 1, digest, m⟩ 1 [2, 3] ++
      [deliver (.prepare ⟨1, 1, digest, 2⟩) 2 1, deliver (commit 2) 2 1, deliver (commit 3) 3 1,
        deliver (commit 1) 1 2])
    (fun G => (G 1).view = 1 ∧ (G 1).operations = ["INC"] ∧ (G 2).operations = ["INC"])
    (by decide +kernel)
  exact ⟨G, hView, hp, hq, view_change_agreement (fun _ _ => "INC") rfl (by decide)
    (Config.sample_getHash 4 200 100) (by decide) hs (by decide) (by decide)⟩

/-- All seven replicas run the code and timers fire only where they run. The request that the
second primary orders is executed there, but the third primary re-issues its digest with a null
request, which another replica then logs and, with the votes of both views, executes. -/
theorem view_change_disagreement : ¬∀ C : Cluster (List String), C.faulty = ∅ →
    C.base.n.toNat = 3 * C.base.f.toNat + 1 → (∀ m, C.base.getHash m ≠ 0) → C.base.emptyHash ≠ 0 →
    ∀ G, C.Reach (fun G r i => C.Network G r i ∧ (i = .timeout → (G r).timerRunning = true)) G →
    ∀ p q, p < C.base.n → q < C.base.n → ∀ x ∈ (G p).executed, ∀ y ∈ (G q).executed,
      x.key = y.key → x.entry.req.operation = y.entry.req.operation := by
  intro hClaim
  let m : RequestMsg := ⟨"INC", 1, 9⟩
  let digest := (sample 7 ∅).base.getHash m
  let backups : List UInt32 := [2, 3, 4, 5, 6]
  let vc (view : UInt64) (P : List PrepareProof) (r : UInt32) : ViewChangeMsg := ⟨view, 0, r, [], P⟩
  let second : NewViewMsg := ⟨1, backups.map (vc 1 []), []⟩
  let third : NewViewMsg := ⟨2, backups.map (vc 2 [⟨1, 1, digest⟩]), [⟨2, 1, digest, ⟨"", 0, 0⟩⟩]⟩
  let prepare (p r : UInt32) := deliver (.prepare ⟨1, 1, digest, p⟩) p r
  let commit (p r : UInt32) := deliver (.commit ⟨1, 1, digest, p⟩) p r
  obtain ⟨G, hs, hp, hq⟩ := Machine.exists_reach (sample 7 ∅).machine
    (fun G a => (sample 7 ∅).Network G a.1 a.2 ∧ (a.2 = .timeout → (G a.1).timerRunning = true))
    (backups.map (fun r => (r, .recv (.request m) 9)) ++ backups.map (fun r => (r, .timeout)) ++
      backups.map (fun r => deliver (.viewChange (vc 1 [] r)) r 1) ++
      backups.map (deliver (.handshake ⟨1⟩) 1) ++ backups.map (deliver (.newView second) 1) ++
      [(1, .recv (.request m) 9)] ++ backups.map (deliver (.prePrepare ⟨1, 1, digest, m⟩) 1) ++
      (backups.flatMap fun r => (backups.filter (· ≠ r)).map fun p => prepare p r) ++
      [prepare 2 1, prepare 3 1, prepare 4 1, commit 2 1, commit 3 1, commit 4 1, commit 5 1,
        commit 2 3, commit 4 3, commit 5 3] ++
      backups.map (fun r => (r, .timeout)) ++
      [3, 4, 5, 6].map (fun r => deliver (.viewChange (vc 2 [⟨1, 1, digest⟩] r)) r 2) ++
      [3, 6].map (deliver (.handshake ⟨2⟩) 2) ++ [3, 6].map (deliver (.newView third) 2) ++
      [deliver (.commit ⟨2, 1, digest, 6⟩) 6 3])
    (fun G => (G 1).executed.map (fun x => (x.key, x.entry.req.operation)) = [(1, "INC")] ∧
      (G 3).executed.map (fun x => (x.key, x.entry.req.operation)) = [(1, "")]) (by decide +kernel)
  obtain ⟨x, hx, hxOp⟩ := List.mem_map.mp (hp ▸ List.mem_singleton.mpr rfl)
  obtain ⟨y, hy, hyOp⟩ := List.mem_map.mp (hq ▸ List.mem_singleton.mpr rfl)
  have hSame := hClaim (sample 7 ∅) rfl (by decide) (Config.sample_getHash 7 200 100) (by decide) G hs
    1 3 (by decide) (by decide) x hx y hy
  simp_all

end Pbft.Cluster
