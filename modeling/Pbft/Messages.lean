import Mathlib.Data.Finset.Card
import Mathlib.Data.Finset.Sort
import Std.Data.ExtTreeMap

/-! # Messages exchanged by replicas and clients

The records follow include/pbft/messages.hh with their fixed widths: views are 32 bits
inside a replica but 64 bits in VIEW-CHANGE and NEW-VIEW, sequence numbers and timestamps
are 64 bits, digests are 256 bits. The serialized copy that each message carries is not
part of the protocol state and is left to the wire format.
-/
namespace Pbft
set_option autoImplicit false

abbrev Digest := BitVec 256

instance : Std.TransCmp (fun a b : Digest => compare a b) := inferInstance

/-- The address of a connection object, which is all a handler ever uses of one. -/
abbrev Conn := Nat

structure RequestMsg where
  operation : String := ""
  timestamp : UInt64 := 0
  clientId : UInt32 := 0
deriving DecidableEq

structure ReplyMsg where
  view : UInt32
  timestamp : UInt64
  clientId : UInt32
  replicaId : UInt32
  result : String
deriving DecidableEq

structure PrePrepareMsg where
  view : UInt32
  seqNum : UInt64
  reqDigest : Digest
  req : RequestMsg
deriving DecidableEq

structure PrepareMsg where
  view : UInt32
  seqNum : UInt64
  reqDigest : Digest
  replicaId : UInt32
deriving DecidableEq

structure CommitMsg where
  view : UInt32
  seqNum : UInt64
  reqDigest : Digest
  replicaId : UInt32
deriving DecidableEq

structure CheckpointMsg where
  seqNum : UInt64
  stateDigest : Digest
  replicaId : UInt32
deriving DecidableEq

/-- One element of the P set. The set of prepared replicas that the source declares is never
filled nor sent. -/
structure PrepareProof where
  view : UInt32
  seqNum : UInt64
  digest : Digest
deriving DecidableEq

structure ViewChangeMsg where
  nextView : UInt64
  lastStableCheckpoint : UInt64
  replicaId : UInt32
  checkpointProof : List CheckpointMsg
  preparedProofs : List PrepareProof
deriving DecidableEq

structure NewViewMsg where
  nextView : UInt64
  viewChanges : List ViewChangeMsg
  prePrepares : List PrePrepareMsg
deriving DecidableEq

structure HandshakeMsg where
  id : UInt32
deriving DecidableEq

/-- What a replica has a handler for; a REPLY only ever reaches a client. -/
inductive Msg where
  | handshake (m : HandshakeMsg)
  | request (m : RequestMsg)
  | prePrepare (m : PrePrepareMsg)
  | prepare (m : PrepareMsg)
  | commit (m : CommitMsg)
  | checkpoint (m : CheckpointMsg)
  | viewChange (m : ViewChangeMsg)
  | newView (m : NewViewMsg)
deriving DecidableEq

/-- The replica named in the body of a vote. PRE-PREPARE and NEW-VIEW name nobody: there the
handler looks at the connection. -/
def Msg.replicaId? : Msg → Option UInt32
  | .prepare m => some m.replicaId
  | .commit m => some m.replicaId
  | .checkpoint m => some m.replicaId
  | .viewChange m => some m.replicaId
  | _ => none

end Pbft
