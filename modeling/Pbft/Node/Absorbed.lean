import Pbft.Node.PrepareQuorum
import Pbft.Node.Redelivery
import Pbft.Node.Spoken

/-! # Messages that change nothing

A message that passes the tests of its handler and still leaves the state as it was has been counted
before, and the test for a quorum that follows it has been made.
-/
namespace Pbft.Node
set_option autoImplicit false

variable {σ : Type} {cfg : Config σ} {s : Node σ}

deriving instance DecidableEq for CheckpointVotes

instance [DecidableEq σ] (s t : Node σ) : Decidable (Same s t) :=
  decidable_of_iff (_ ∧ _ ∧ _ ∧ _ ∧ _ ∧ _ ∧ _ ∧ _ ∧ _ ∧ _ ∧ _ ∧ _)
    ⟨fun ⟨h₁, h₂, h₃, h₄, h₅, h₆, h₇, h₈, h₉, h₁₀, h₁₁, h₁₂⟩ =>
      ⟨h₁, h₂, h₃, h₄, h₅, h₆, h₇, h₈, h₉, h₁₀, h₁₁, h₁₂⟩,
    fun h => ⟨h.view, h.viewChanging, h.seqNum, h.lastExec, h.low, h.high, h.reqlog, h.lastReplies,
      h.checkpoints, h.lastStableDigest, h.viewChangeStore, h.service⟩⟩

/-- Equality in what a handler of the normal case reads or writes, the timer apart. -/
structure Alike (t s : Node σ) : Prop extends Same t s where
  conn : t.connToPeer = s.connToPeer

theorem Alike.refl (s : Node σ) : Alike s s := ⟨.refl s, rfl⟩

theorem Same.trans {s t u : Node σ} (h : Same s t) (h' : Same t u) : Same s u :=
  ⟨h.view.trans h'.view, h.viewChanging.trans h'.viewChanging, h.seqNum.trans h'.seqNum,
    h.lastExec.trans h'.lastExec, h.low.trans h'.low, h.high.trans h'.high, h.reqlog.trans h'.reqlog,
    h.lastReplies.trans h'.lastReplies, h.checkpoints.trans h'.checkpoints,
    h.lastStableDigest.trans h'.lastStableDigest, h.viewChangeStore.trans h'.viewChangeStore,
    h.service.trans h'.service⟩

theorem Same.symm {s t : Node σ} (h : Same s t) : Same t s :=
  ⟨h.view.symm, h.viewChanging.symm, h.seqNum.symm, h.lastExec.symm, h.low.symm, h.high.symm, h.reqlog.symm,
    h.lastReplies.symm, h.checkpoints.symm, h.lastStableDigest.symm, h.viewChangeStore.symm, h.service.symm⟩

theorem Alike.symm {s t : Node σ} (h : Alike s t) : Alike t s := ⟨h.toSame.symm, h.conn.symm⟩

theorem Alike.trans {s t u : Node σ} (h : Alike s t) (h' : Alike t u) : Alike s u :=
  ⟨h.toSame.trans h'.toSame, h.conn.trans h'.conn⟩

section
variable {t : Node σ} (h : Alike t s)
include h

theorem Alike.entry (k : UInt64) : t.entry k = s.entry k := entry_congr h.reqlog k

theorem Alike.current {view : UInt32} {k : UInt64} (hCurrent : Current s view k) : Current t view k :=
  ⟨h.viewChanging.trans hCurrent.1, hCurrent.2.1.trans h.view.symm, (inWindow_congr h.low h.high).mpr hCurrent.2.2⟩

theorem Alike.comesFromPrimary (conn : Conn) :
    t.comesFromPrimary cfg conn t.view = s.comesFromPrimary cfg conn s.view := by
  unfold Node.comesFromPrimary
  rw [h.conn, h.view]

theorem Alike.voters (k : UInt64) (digest : Digest) :
    t.voters (.checkpoint k digest) = s.voters (.checkpoint k digest) := by
  rw [Node.voters, Node.voters, h.checkpoints]

end

/-- The message has changed nothing in a state like s. -/
def Absorbs (cfg : Config σ) (s : Node σ) (m : Msg) (conn : Conn) : Prop :=
  ∃ t, Alike t s ∧ ∀ t', t.handle cfg (.recv m conn) = some t' → Same t' t

theorem entry_of_same {t' t : Node σ} (hSame : Same t' t) {k : UInt64} {e : ReqLogEntry}
    (hLog : t'.reqlog = t.reqlog.insert k e) : t.entry k = e := by
  rw [← entry_congr hSame.reqlog, entry_of_insert hLog, if_pos rfl]

theorem logged_of_absorbs {m : PrePrepareMsg} {conn : Conn} (hGuard : Guard cfg m conn false s)
    (h : Absorbs cfg s (.prePrepare m) conn) :
    (s.entry m.seqNum).hasPreprepare = true ∧ ¬ReqLogEntry.Ready cfg (s.entry m.seqNum) := by
  obtain ⟨t, hAlike, hSame⟩ := h
  have hGuard' : Guard cfg m conn false t := by
    refine ⟨?_, hAlike.current hGuard.current, ?_⟩
    · rw [hAlike.comesFromPrimary]
      exact hGuard.sender
    · rw [hAlike.entry]
      exact hGuard.digest
  have hEntry := entry_of_same (hSame _ rfl) (reqlog_onPreprepareImpl hGuard')
  rw [hAlike.entry] at hEntry
  rw [hEntry]
  refine ⟨?_, ReqLogEntry.not_ready_tryPrepare cfg _⟩
  rw [ReqLogEntry.hasPreprepare_tryPrepare]
  rfl

theorem prepared_of_absorbs {m : PrepareMsg} {conn : Conn} (hFrom : s.comesFromPrimary cfg conn s.view = false)
    (hCurrent : Current s m.view m.seqNum)
    (hDigest : (s.entry m.seqNum).hasPreprepare = true → (s.entry m.seqNum).digest = m.reqDigest)
    (h : Absorbs cfg s (.prepare m) conn) :
    m.replicaId ∈ (s.entry m.seqNum).prepares ∧ ¬ReqLogEntry.Ready cfg (s.entry m.seqNum) := by
  obtain ⟨t, hAlike, hSame⟩ := h
  have hEntry := entry_of_same (hSame _ rfl) (reqlog_onPrepare ((hAlike.comesFromPrimary conn).trans hFrom)
    (hAlike.current hCurrent) (by rwa [hAlike.entry]))
  rw [hAlike.entry] at hEntry
  rw [hEntry]
  refine ⟨?_, ReqLogEntry.not_ready_tryPrepare cfg _⟩
  rcases ReqLogEntry.tryPrepare_cases cfg { s.entry m.seqNum with
    prepares := insert m.replicaId (s.entry m.seqNum).prepares } with ⟨-, hEq⟩ | ⟨-, stage, -, hEq⟩
  · rw [hEq]
    exact Finset.mem_insert_self _ _
  · rw [hEq]
    exact Finset.mem_insert_self _ _

theorem committed_of_absorbs {m : CommitMsg} {conn : Conn} (hCurrent : Current s m.view m.seqNum)
    (hDigest : (s.entry m.seqNum).digest = m.reqDigest) (h : Absorbs cfg s (.commit m) conn) :
    m.replicaId ∈ (s.entry m.seqNum).commits := by
  obtain ⟨t, hAlike, hSame⟩ := h
  have hEntry := entry_of_same (hSame _ rfl) (reqlog_onCommit (hAlike.current hCurrent)
    ((congrArg _ (hAlike.entry _)).trans hDigest))
  rw [hAlike.entry] at hEntry
  rw [hEntry]
  rcases ReqLogEntry.tryCommit_cases cfg { s.entry m.seqNum with
    commits := insert m.replicaId (s.entry m.seqNum).commits } with hEq | ⟨-, -, hEq⟩
  · rw [hEq]
    exact Finset.mem_insert_self _ _
  · rw [hEq]
    exact Finset.mem_insert_self _ _

theorem checkpoint_of_absorbs {m : CheckpointMsg} {conn : Conn} (hStore : StoreInv cfg s) (hLow : s.h ≤ m.seqNum)
    (h : Absorbs cfg s (.checkpoint m) conn) : m.replicaId ∈ s.voters (.checkpoint m.seqNum m.stateDigest) ∧
      (cfg.quorum ≤ (s.voters (.checkpoint m.seqNum m.stateDigest)).card → m.seqNum = s.h) := by
  obtain ⟨t, hAlike, hSame⟩ := h
  have hStore' : StoreInv cfg t := by
    unfold StoreInv
    rwa [hAlike.low, hAlike.lastStableDigest, hAlike.checkpoints]
  rw [← hAlike.voters, ← hAlike.low]
  have hHere : Same (t.onCheckpoint cfg m) t := hSame _ rfl
  rw [onCheckpoint_eq (hAlike.low ▸ hLow)] at hHere
  split at hHere
  · -- a checkpoint that becomes stable moves the watermark to its number, so it was there already
    refine ⟨?_, fun _ => hHere.low⟩
    rw [Node.voters, ← hHere.checkpoints, TreeMap.getD_of_lookup (lookup_stabilize m _ _)]
    simp [CheckpointVotes.addVote_getD]
  · rename_i hNot
    have hVoters : t.voters (.checkpoint m.seqNum m.stateDigest) =
        insert m.replicaId (t.voters (.checkpoint m.seqNum m.stateDigest)) := by
      have hVote := voters_voteCheckpoint m.seqNum m.seqNum m.stateDigest m.stateDigest m.replicaId t
      rw [if_pos ⟨rfl, rfl⟩] at hVote
      rw [← hVote, Node.voters, Node.voters, hHere.checkpoints]
    refine ⟨hVoters ▸ Finset.mem_insert_self _ _, fun hQuorum => ?_⟩
    by_contra hNe
    refine hNot ⟨hAlike.low ▸ hLow, ?_, ?_⟩
    · rw [Bool.eq_false_iff]
      exact fun hStable => hNe (hStore'.eq_of_stable hStable)
    · rw [CheckpointVotes.addVote_getD, if_pos rfl]
      rw [hVoters] at hQuorum
      exact hQuorum

end Pbft.Node
