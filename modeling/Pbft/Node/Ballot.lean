import Pbft.Node.CheckpointStore

/-! # The sets that quorums are counted in

All quorums are counted over ids that the senders write into their messages themselves. The sets
they are counted in are listed here as ballots, so that all four handlers are one case: a call
adds at most its own replica and the one id that its message names.
-/
namespace Pbft
set_option autoImplicit false

variable {σ : Type} {cfg : Config σ}

inductive Ballot where
  | prepare (k : UInt64)
  | commit (k : UInt64)
  | checkpoint (k : UInt64) (digest : Digest)
  | viewChange (view : UInt32)
deriving DecidableEq

def Msg.vote? : Msg → Option (Ballot × UInt32)
  | .prepare m => some (.prepare m.seqNum, m.replicaId)
  | .commit m => some (.commit m.seqNum, m.replicaId)
  | .checkpoint m => some (.checkpoint m.seqNum m.stateDigest, m.replicaId)
  | .viewChange m => some (.viewChange m.nextView.toUInt32, m.replicaId)
  | _ => none

namespace Node

def voters (s : Node σ) : Ballot → Finset UInt32
  | .prepare k => (s.entry k).prepares
  | .commit k => (s.entry k).commits
  | .checkpoint k digest => (s.checkpoints.getD k {}).votes.getD digest ∅
  | .viewChange view => (s.viewChangeStore.getD view ∅).keys.toFinset

def Gains (P : Ballot → UInt32 → Prop) (s t : Node σ) : Prop :=
  ∀ b r, r ∈ t.voters b → r ∈ s.voters b ∨ P b r

theorem voters_congr {s t : Node σ} (hLog : t.reqlog = s.reqlog) (hVotes : t.checkpoints = s.checkpoints)
    (hStore : t.viewChangeStore = s.viewChangeStore) : t.voters = s.voters := by
  funext b
  cases b <;> simp only [voters, entry, hLog, hVotes, hStore]

section
variable {P : Ballot → UInt32 → Prop} {s t : Node σ}

theorem Gains.of_eq (h : t.voters = s.voters) : Gains P s t := by
  intro b r hr
  rw [h] at hr
  exact .inl hr

theorem Gains.write {k : UInt64} {e : ReqLogEntry} (hLog : t.reqlog = s.reqlog.insert k e)
    (hVotes : t.checkpoints = s.checkpoints) (hStore : t.viewChangeStore = s.viewChangeStore)
    (hPrepares : ∀ r ∈ e.prepares, r ∈ (s.entry k).prepares ∨ P (.prepare k) r)
    (hCommits : ∀ r ∈ e.commits, r ∈ (s.entry k).commits ∨ P (.commit k) r) : Gains P s t := by
  intro b r hr
  cases b with
  | prepare a =>
    rw [voters, entry_of_insert hLog] at hr
    split at hr
    · rename_i hka
      exact hka ▸ hPrepares r hr
    · exact .inl hr
  | commit a =>
    rw [voters, entry_of_insert hLog] at hr
    split at hr
    · rename_i hka
      exact hka ▸ hCommits r hr
    · exact .inl hr
  | checkpoint a digest =>
    rw [voters, hVotes] at hr
    exact .inl hr
  | viewChange view =>
    rw [voters, hStore] at hr
    exact .inl hr

theorem Gains.vote {k : UInt64} {digest : Digest} {r₀ : UInt32} (hLog : t.reqlog = s.reqlog)
    (hVotes : t.checkpoints = s.checkpoints.insert k ((s.checkpoints.getD k {}).addVote digest r₀))
    (hStore : t.viewChangeStore = s.viewChangeStore) (hNew : P (.checkpoint k digest) r₀) : Gains P s t := by
  intro b r hr
  cases b with
  | prepare a =>
    rw [voters, entry_congr hLog] at hr
    exact .inl hr
  | commit a =>
    rw [voters, entry_congr hLog] at hr
    exact .inl hr
  | checkpoint a d =>
    rw [voters, hVotes, TreeMap.getD_insert] at hr
    split at hr
    · rename_i hka
      subst hka
      rw [CheckpointVotes.addVote_getD] at hr
      split at hr
      · rename_i hd
        subst hd
        rcases Finset.mem_insert.mp hr with rfl | hOld
        · exact .inr hNew
        · exact .inl hOld
      · exact .inl hr
    · exact .inl hr
  | viewChange view =>
    rw [voters, hStore] at hr
    exact .inl hr

theorem Gains.store {m : ViewChangeMsg} (hNew : P (.viewChange m.nextView.toUInt32) m.replicaId) :
    Gains P s (s.storeViewChange m) := by
  intro b r hr
  cases b with
  | viewChange view =>
    rw [voters, storeViewChange, TreeMap.getD_insert] at hr
    split at hr
    · rename_i hView
      subst hView
      rw [List.mem_toFinset, Std.ExtTreeMap.mem_keys, storedWith, TreeMap.mem_insert] at hr
      rcases hr with rfl | hOld
      · exact .inr hNew
      · refine .inl ?_
        rw [voters, List.mem_toFinset, Std.ExtTreeMap.mem_keys]
        exact hOld
    · exact .inl hr
  | prepare => exact .inl hr
  | commit => exact .inl hr
  | checkpoint => exact .inl hr

theorem Gains.stabilize {m : CheckpointMsg} {cp : CheckpointVotes}
    (hVotes : s.checkpoints[m.seqNum]? = some cp) : Gains P s (s.stabilize cfg m cp) := by
  intro b r hr
  cases b with
  | prepare k =>
    rw [voters, entry_of_stabilize] at hr
    split at hr
    · exact absurd hr (Finset.notMem_empty r)
    · exact .inl hr
  | commit k =>
    rw [voters, entry_of_stabilize] at hr
    split at hr
    · exact absurd hr (Finset.notMem_empty r)
    · exact .inl hr
  | checkpoint k digest =>
    have hKept := TreeMap.getD_filter (t := s.checkpoints.insert m.seqNum { cp with stable := true })
      (fun a => !decide (a < m.seqNum)) k ({} : CheckpointVotes)
    have hEq : (s.stabilize cfg m cp).voters (.checkpoint k digest) = _ :=
      congrArg (fun cp : CheckpointVotes => cp.votes.getD digest ∅) hKept
    rw [hEq, TreeMap.getD_insert] at hr
    refine .inl ?_
    rw [voters]
    split at hr
    · split at hr
      · rename_i hk
        rwa [← hk, TreeMap.getD_of_lookup hVotes]
      · exact hr
    · simp at hr
  | viewChange => exact .inl hr

end

/-- A vote that a call may add: one of this replica, or the one its message names. -/
def Named (cfg : Config σ) (i : Input) (b : Ballot) (r : UInt32) : Prop :=
  r = cfg.id ∨ ∃ m conn, i = .recv m conn ∧ m.vote? = some (b, r)

theorem mem_or_named_of_insert {i : Input} {b : Ballot} {r : UInt32} {ids : Finset UInt32}
    (hr : r ∈ insert cfg.id ids) : r ∈ ids ∨ Named cfg i b r := by
  rcases Finset.mem_insert.mp hr with rfl | hOld
  · exact .inr (.inl rfl)
  · exact .inl hOld

theorem gains_step {s₀ s s' : Node σ} {i : Input} (hStep : Step cfg s₀ i s s') :
    Gains (Named cfg i) s s' := by
  cases hStep with
  | propose | accept =>
    exact .write rfl rfl rfl (fun _ => mem_or_named_of_insert) fun _ => .inl
  | votePrepare hi =>
    refine .write rfl rfl rfl (fun r hr => ?_) fun _ => .inl
    rcases Finset.mem_insert.mp hr with rfl | hOld
    · exact .inr (.inr ⟨_, _, hi, rfl⟩)
    · exact .inl hOld
  | markPrepared =>
    exact .write rfl rfl rfl (fun _ => .inl) fun _ => mem_or_named_of_insert
  | touch | markCommitted =>
    exact .write rfl rfl rfl (fun _ => .inl) fun _ => .inl
  | voteCommit hi =>
    refine .write rfl rfl rfl (fun _ => .inl) (fun r hr => ?_)
    rcases Finset.mem_insert.mp hr with rfl | hOld
    · exact .inr (.inr ⟨_, _, hi, rfl⟩)
    · exact .inl hOld
  | execute =>
    rw [executeEntry_eq]
    by_cases hDue : s.checkpointDue cfg
    · exact .vote rfl (if_pos hDue) rfl (.inl rfl)
    · exact .of_eq (voters_congr rfl (if_neg hDue) rfl)
  | voteCheckpoint hi => exact .vote rfl rfl rfl (.inr ⟨_, _, hi, rfl⟩)
  | stabilize _ _ hVotes => exact .stabilize hVotes
  | beginViewChange =>
    rw [beginViewChange_eq]
    exact .of_eq rfl
  | storeViewChange hi =>
    refine .store ?_
    rcases hi with ⟨conn, rfl⟩ | ⟨rfl, rfl⟩
    · exact .inr ⟨_, _, rfl, rfl⟩
    · exact .inl rfl
  | _ => exact .of_eq rfl

theorem Gains.tail {s₀ s t t' : Node σ} {i : Input} (h : Gains (Named cfg i) s t)
    (hStep : Step cfg s₀ i t t') : Gains (Named cfg i) s t' := by
  intro b r hr
  rcases gains_step hStep b r hr with hOld | hNew
  · exact h b r hOld
  · exact .inr hNew

theorem gains_handle {s s' : Node σ} {i : Input} (hCall : s.handle cfg i = some s') :
    Gains (Named cfg i) s s' :=
  handle_invariant (I := Gains (Named cfg i) s) (fun _ _ => Gains.tail) (fun _ _ => .inl) hCall

end Node
end Pbft
