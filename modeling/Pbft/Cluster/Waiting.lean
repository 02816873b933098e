import Pbft.Cluster.Promise
import Pbft.Node.Waiting

/-! # Waiting backups of a cluster

Without faults the views that replicas name fit into 32 bits, so that a replica which installs a view
by itself is the primary of it. A backup then waits without a timer only if it has entered a view with
a NEW-VIEW from which it could accept nothing, while its log still had what it had been waiting for.
-/
namespace Pbft.Cluster
set_option autoImplicit false

open Node

variable {σ : Type} {C : Cluster σ} {G : World σ}

theorem waiting_backup_ticks (hFaulty : C.faulty = ∅)
    (hs : C.Reach (fun G r i => C.Network G r i ∧ Resumes (C.cfg r) (G r) i) G) (r : UInt32)
    (hBackup : r ≠ (G r).view % C.base.n) (hIdle : (G r).viewChanging = false)
    (hWaiting : (G r).isWaitingForRequest = true) : (G r).timerRunning = true := by
  have hTicks : ∀ r, BackupTicks (C.cfg r) (G r) := by
    refine hs.pointwise_call (J := fun r => BackupTicks (C.cfg r)) (fun r _ _ hNever => ?_)
      fun G r i s' hs hOk hJ hCall => ?_
    · obtain ⟨k, -, hPre⟩ := isWaitingForRequest_iff.mp hNever
      simp [Node.init, entry] at hPre
    · obtain ⟨hWindow, hLog⟩ := logInv_reach (hs.anything r)
      have hNarrow := hOk.1.narrow hFaulty fun p => narrow_reach (hs.anything p)
      exact backupTicks_handle hWindow hLog hNarrow hOk.2 (hJ r) hCall
  exact hTicks r hBackup hIdle hWaiting

/-- The pre-prepare of view 0 reaches rs, the others hear of the request from the client, and in the end
replica 2 enters view 1. -/
def changeView (m : RequestMsg) (rs : List UInt32) (P : UInt32 → List PrepareProof) (O : List PrePrepareMsg) :
    List (UInt32 × Input) :=
  let d := (Config.sample 4 200 100).getHash m
  let vc (r : UInt32) : ViewChangeMsg := ⟨1, 0, r, [], P r⟩
  let votes := (rs.flatMap fun r => (rs.filter (· ≠ r)).map fun p => deliver (.prepare ⟨0, 1, d, p⟩) p r)
  [(0, .recv (.request m) 9)] ++ rs.map (deliver (.handshake ⟨0⟩) 0) ++
    rs.map (deliver (.prePrepare ⟨0, 1, d, m⟩) 0) ++ votes ++
    ([1, 2, 3].filter (· ∉ rs)).map (fun r => (r, .recv (.request m) 9)) ++
    [(2, .timeout), (3, .timeout), deliver (.viewChange (vc 2)) 2 1, deliver (.viewChange (vc 3)) 3 1,
      (1, .timeout), deliver (.handshake ⟨1⟩) 1 2, deliver (.newView ⟨1, [vc 1, vc 2, vc 3], O⟩) 1 2]

/-- Replica 2 learns of number 1 from the NEW-VIEW, after replicas 1 and 3 have prepared it. -/
theorem waiting_backup_ticks_reissued : ∃ G, (sample 4 ∅).Reach
    (fun G r i => (sample 4 ∅).Network G r i ∧ Resumes ((sample 4 ∅).cfg r) (G r) i) G ∧
    (G 2).view = 1 ∧ (G 2).isWaitingForRequest = true ∧ (G 2).timerRunning = true := by
  let m : RequestMsg := ⟨"A", 1, 9⟩
  let P (r : UInt32) : List PrepareProof := if r = 2 then [] else [⟨0, 1, (Config.sample 4 200 100).getHash m⟩]
  obtain ⟨G, hs, hView, hIdle, hWaiting⟩ := Machine.exists_reach (sample 4 ∅).machine
    (fun G a => (sample 4 ∅).Network G a.1 a.2 ∧ Resumes ((sample 4 ∅).cfg a.1) (G a.1) a.2)
    (changeView m [1, 3] P [⟨1, 1, 2, ⟨"", 0, 0⟩⟩])
    (fun G => (G 2).view = 1 ∧ (G 2).viewChanging = false ∧ (G 2).isWaitingForRequest = true) (by decide +kernel)
  have hBackup : 2 ≠ (G 2).view % (sample 4 ∅).base.n := by
    rw [hView]
    decide
  exact ⟨G, hs, hView, hWaiting, waiting_backup_ticks rfl hs 2 hBackup hIdle hWaiting⟩

/-- Replica 2 alone has got the pre-prepare. Nobody reports it, and replica 2 goes on waiting for it in
view 1, with its timer off. -/
theorem waiting_backup_without_timer : ∃ G, (sample 4 ∅).Reach
    (fun G r i => (sample 4 ∅).Network G r i ∧ Fires (G r) i) G ∧
    2 ≠ (G 2).view % (sample 4 ∅).base.n ∧ (G 2).viewChanging = false ∧
    (G 2).isWaitingForRequest = true ∧ (G 2).timerRunning = false :=
  Machine.exists_reach (sample 4 ∅).machine (fun G a => (sample 4 ∅).Network G a.1 a.2 ∧ Fires (G a.1) a.2)
    (changeView ⟨"A", 1, 9⟩ [2] (fun _ => []) [])
    (fun G => 2 ≠ (G 2).view % (sample 4 ∅).base.n ∧ (G 2).viewChanging = false ∧
      (G 2).isWaitingForRequest = true ∧ (G 2).timerRunning = false) (by decide +kernel)

end Pbft.Cluster
