import Pbft.Wire.Stream

/-! # The formats of the messages

Every message is written in two places, by the constructor that sets its members, which also fills
the stream serialized, and by serialize, which is what a message inside another one goes through.
It is read by the constructor from a stream and, where it can be nested, by unserialize. Strings
are any bytes here, so the messages with a string in them have a type of their own.
-/
namespace Pbft.Wire
set_option autoImplicit false

variable (u : Uint256)

structure RequestMsg where
  operation : Bytes
  timestamp : UInt64
  clientId : UInt32
deriving DecidableEq

structure ReplyMsg where
  view : UInt32
  timestamp : UInt64
  clientId : UInt32
  replicaId : UInt32
  result : Bytes
deriving DecidableEq

structure PrePrepareMsg where
  view : UInt32
  seqNum : UInt64
  reqDigest : Digest
  req : RequestMsg
deriving DecidableEq

structure NewViewMsg where
  nextView : UInt64
  viewChanges : List ViewChangeMsg
  prePrepares : List PrePrepareMsg
deriving DecidableEq

/-- What a constructor leaves behind. -/
structure Built (α : Type) where
  fields : α
  serialized : Bytes
deriving DecidableEq

def RequestMsg.construct (op : Bytes) (ts : UInt64) (cid : UInt32) : Built RequestMsg where
  fields := ⟨op, ts, cid⟩
  serialized := putU32 (UInt32.ofNat op.length) ++ op ++ putU64 ts ++ putU32 cid

def RequestMsg.serialize (m : RequestMsg) : Bytes :=
  putU32 (UInt32.ofNat m.operation.length) ++ m.operation ++ putU64 m.timestamp ++ putU32 m.clientId

def RequestMsg.ofStream : Reader RequestMsg := do
  let operation ← getString
  let timestamp ← getU64
  let clientId ← getU32
  return ⟨operation, timestamp, clientId⟩

def RequestMsg.unserialize : Reader RequestMsg := do
  let operation ← getString
  let timestamp ← getU64
  let clientId ← getU32
  return ⟨operation, timestamp, clientId⟩

def RequestMsg.Sized (m : RequestMsg) : Prop := m.operation.length < 2 ^ 32

def ReplyMsg.construct (v : UInt32) (ts : UInt64) (cid rid : UInt32) (res : Bytes) : Built ReplyMsg where
  fields := ⟨v, ts, cid, rid, res⟩
  serialized := putU32 v ++ putU64 ts ++ putU32 cid ++ putU32 rid ++
    putU32 (UInt32.ofNat res.length) ++ res

def ReplyMsg.serialize (m : ReplyMsg) : Bytes :=
  putU32 m.view ++ putU64 m.timestamp ++ putU32 m.clientId ++ putU32 m.replicaId ++
    putU32 (UInt32.ofNat m.result.length) ++ m.result

def ReplyMsg.ofStream : Reader ReplyMsg := do
  let view ← getU32
  let timestamp ← getU64
  let clientId ← getU32
  let replicaId ← getU32
  let result ← getString
  return ⟨view, timestamp, clientId, replicaId, result⟩

def ReplyMsg.Sized (m : ReplyMsg) : Prop := m.result.length < 2 ^ 32

def PrePrepareMsg.construct (v : UInt32) (n : UInt64) (rd : Digest) (rqm : RequestMsg) :
    Built PrePrepareMsg where
  fields := ⟨v, n, rd, rqm⟩
  serialized := putU32 v ++ putU64 n ++ putUint256 u rd ++ rqm.serialize

def PrePrepareMsg.serialize (m : PrePrepareMsg) : Bytes :=
  putU32 m.view ++ putU64 m.seqNum ++ putUint256 u m.reqDigest ++ m.req.serialize

def PrePrepareMsg.ofStream : Reader PrePrepareMsg := do
  let view ← getU32
  let seqNum ← getU64
  let reqDigest ← getUint256 u
  let req ← RequestMsg.unserialize
  return ⟨view, seqNum, reqDigest, req⟩

def PrePrepareMsg.unserialize : Reader PrePrepareMsg := do
  let view ← getU32
  let seqNum ← getU64
  let reqDigest ← getUint256 u
  let req ← RequestMsg.unserialize
  return ⟨view, seqNum, reqDigest, req⟩

def PrePrepareMsg.Sized (m : PrePrepareMsg) : Prop := m.req.Sized

def PrepareMsg.construct (v : UInt32) (n : UInt64) (d : Digest) (rid : UInt32) : Built PrepareMsg where
  fields := ⟨v, n, d, rid⟩
  serialized := putU32 v ++ putU64 n ++ putUint256 u d ++ putU32 rid

def PrepareMsg.serialize (m : PrepareMsg) : Bytes :=
  putU32 m.view ++ putU64 m.seqNum ++ putUint256 u m.reqDigest ++ putU32 m.replicaId

def PrepareMsg.ofStream : Reader PrepareMsg := do
  let view ← getU32
  let seqNum ← getU64
  let reqDigest ← getUint256 u
  let replicaId ← getU32
  return ⟨view, seqNum, reqDigest, replicaId⟩

def PrepareMsg.unserialize : Reader PrepareMsg := do
  let view ← getU32
  let seqNum ← getU64
  let reqDigest ← getUint256 u
  let replicaId ← getU32
  return ⟨view, seqNum, reqDigest, replicaId⟩

def CommitMsg.construct (v : UInt32) (n : UInt64) (rd : Digest) (rid : UInt32) : Built CommitMsg where
  fields := ⟨v, n, rd, rid⟩
  serialized := putU32 v ++ putU64 n ++ putUint256 u rd ++ putU32 rid

def CommitMsg.serialize (m : CommitMsg) : Bytes :=
  putU32 m.view ++ putU64 m.seqNum ++ putUint256 u m.reqDigest ++ putU32 m.replicaId

def CommitMsg.ofStream : Reader CommitMsg := do
  let view ← getU32
  let seqNum ← getU64
  let reqDigest ← getUint256 u
  let replicaId ← getU32
  return ⟨view, seqNum, reqDigest, replicaId⟩

def CheckpointMsg.construct (n : UInt64) (sd : Digest) (rid : UInt32) : Built CheckpointMsg where
  fields := ⟨n, sd, rid⟩
  serialized := putU64 n ++ putUint256 u sd ++ putU32 rid

def CheckpointMsg.serialize (m : CheckpointMsg) : Bytes :=
  putU64 m.seqNum ++ putUint256 u m.stateDigest ++ putU32 m.replicaId

def CheckpointMsg.ofStream : Reader CheckpointMsg := do
  let seqNum ← getU64
  let stateDigest ← getUint256 u
  let replicaId ← getU32
  return ⟨seqNum, stateDigest, replicaId⟩

def CheckpointMsg.unserialize : Reader CheckpointMsg := do
  let seqNum ← getU64
  let stateDigest ← getUint256 u
  let replicaId ← getU32
  return ⟨seqNum, stateDigest, replicaId⟩

/-- The friend operator << of PrepareProof; the member serialize is the same. -/
def PrepareProof.put (p : PrepareProof) : Bytes :=
  putU32 p.view ++ putU64 p.seqNum ++ putUint256 u p.digest

def PrepareProof.get : Reader PrepareProof := do
  let view ← getU32
  let seqNum ← getU64
  let digest ← getUint256 u
  return ⟨view, seqNum, digest⟩

/-- The view that the constructor takes is 32 bits wide, the member and its bytes are 64. -/
def ViewChangeMsg.construct (nv : UInt32) (lsc : UInt64) (rid : UInt32) (C : List CheckpointMsg)
    (P : List PrepareProof) : Built ViewChangeMsg where
  fields := ⟨nv.toUInt64, lsc, rid, C, P⟩
  serialized := putU64 nv.toUInt64 ++ putU64 lsc ++ putU32 rid ++
    putVector (CheckpointMsg.serialize u) C ++ putVector (PrepareProof.put u) P

def ViewChangeMsg.serialize (m : ViewChangeMsg) : Bytes :=
  putU64 m.nextView ++ putU64 m.lastStableCheckpoint ++ putU32 m.replicaId ++
    putVector (CheckpointMsg.serialize u) m.checkpointProof ++
    putVector (PrepareProof.put u) m.preparedProofs

def ViewChangeMsg.ofStream : Reader ViewChangeMsg := do
  let nextView ← getU64
  let lastStableCheckpoint ← getU64
  let replicaId ← getU32
  let checkpointProof ← getVector (CheckpointMsg.unserialize u)
  let preparedProofs ← getVector (PrepareProof.get u)
  return ⟨nextView, lastStableCheckpoint, replicaId, checkpointProof, preparedProofs⟩

def ViewChangeMsg.unserialize : Reader ViewChangeMsg := do
  let nextView ← getU64
  let lastStableCheckpoint ← getU64
  let replicaId ← getU32
  let checkpointProof ← getVector (CheckpointMsg.unserialize u)
  let preparedProofs ← getVector (PrepareProof.get u)
  return ⟨nextView, lastStableCheckpoint, replicaId, checkpointProof, preparedProofs⟩

def ViewChangeMsg.Sized (m : ViewChangeMsg) : Prop :=
  m.checkpointProof.length < 2 ^ 32 ∧ m.preparedProofs.length < 2 ^ 32

/-- The two vectors are written and read by loops of their own, not by the operators. -/
def NewViewMsg.construct (nv : UInt32) (V : List ViewChangeMsg) (O : List PrePrepareMsg) :
    Built NewViewMsg where
  fields := ⟨nv.toUInt64, V, O⟩
  serialized := putU64 nv.toUInt64 ++ putU32 (UInt32.ofNat V.length) ++
    V.flatMap (ViewChangeMsg.serialize u) ++ putU32 (UInt32.ofNat O.length) ++
    O.flatMap (PrePrepareMsg.serialize u)

def NewViewMsg.serialize (m : NewViewMsg) : Bytes :=
  putU64 m.nextView ++ putU32 (UInt32.ofNat m.viewChanges.length) ++
    m.viewChanges.flatMap (ViewChangeMsg.serialize u) ++
    putU32 (UInt32.ofNat m.prePrepares.length) ++ m.prePrepares.flatMap (PrePrepareMsg.serialize u)

def NewViewMsg.ofStream : Reader NewViewMsg := do
  let nextView ← getU64
  let count ← getU32
  let viewChanges ← Reader.repeated (ViewChangeMsg.unserialize u) count.toNat
  let count ← getU32
  let prePrepares ← Reader.repeated (PrePrepareMsg.unserialize u) count.toNat
  return ⟨nextView, viewChanges, prePrepares⟩

def NewViewMsg.Sized (m : NewViewMsg) : Prop :=
  (m.viewChanges.length < 2 ^ 32 ∧ ∀ vc ∈ m.viewChanges, ViewChangeMsg.Sized vc) ∧
    m.prePrepares.length < 2 ^ 32 ∧ ∀ pp ∈ m.prePrepares, pp.Sized

def HandshakeMsg.construct (id : UInt32) : Built HandshakeMsg where
  fields := ⟨id⟩
  serialized := putU32 id

def HandshakeMsg.serialize (m : HandshakeMsg) : Bytes := putU32 m.id

def HandshakeMsg.ofStream : Reader HandshakeMsg := do return ⟨← getU32⟩

end Pbft.Wire
