import Pbft.Node.State

/-! # Checkpoints, watermarks and garbage collection

A replica votes for its own checkpoint in makeCheckpoint and counts the votes of the others
in onCheckpoint; only the latter tests for a quorum.
-/
namespace Pbft
set_option autoImplicit false

variable {σ : Type}

def CheckpointVotes.addVote (cp : CheckpointVotes) (digest : Digest) (replica : UInt32) :
    CheckpointVotes :=
  { cp with votes := cp.votes.insert digest (insert replica (cp.votes.getD digest ∅)) }

namespace Node

def voteCheckpoint (k : UInt64) (digest : Digest) (replica : UInt32) (s : Node σ) : Node σ :=
  let cp := s.checkpoints.getD k {}
  { s with checkpoints := s.checkpoints.insert k (cp.addVote digest replica) }

def makeCheckpoint (cfg : Config σ) (s : Node σ) : Node σ :=
  let digest := cfg.service.getCheckpointDigest s.service
  let s := s.broadcast (.checkpoint ⟨s.lastExec, digest, cfg.id⟩)
  s.voteCheckpoint s.lastExec digest cfg.id

/-- H_ = h_ + L_ wraps modulo 2^64. -/
def advanceWatermarks (cfg : Config σ) (s : Node σ) (stableSeq : UInt64) : Node σ :=
  { s with h := stableSeq, H := stableSeq + cfg.L.toUInt64 }

def recomputeHighestSequence (s : Node σ) : UInt64 :=
  let highest := max s.lastExec s.h
  match s.reqlog.keys.getLast? with
  | some k => max highest k
  | none => highest

def garbageCollect (s : Node σ) : Node σ :=
  { s with
    reqlog := s.reqlog.filter fun k _ => !decide (k ≤ s.h)
    checkpoints := s.checkpoints.filter fun k _ => !decide (k < s.h) }

/-- The body of onCheckpoint's quorum branch, for the votes cp already stored at the key. -/
def stabilize (cfg : Config σ) (m : CheckpointMsg) (cp : CheckpointVotes) (s : Node σ) : Node σ :=
  let s := { s with checkpoints := s.checkpoints.insert m.seqNum { cp with stable := true } }
  let s := { s with lastStableDigest := m.stateDigest }
  let s := s.advanceWatermarks cfg m.seqNum
  let s := { s with seqNum := s.recomputeHighestSequence }
  s.garbageCollect

def onCheckpoint (cfg : Config σ) (m : CheckpointMsg) (s : Node σ) : Node σ :=
  if m.seqNum < s.h then s
  else
    let s := s.voteCheckpoint m.seqNum m.stateDigest m.replicaId
    let cp := s.checkpoints.getD m.seqNum {}
    if !cp.stable && decide ((cp.votes.getD m.stateDigest ∅).card ≥ cfg.quorum) then
      s.stabilize cfg m cp
    else s

end Node
end Pbft
