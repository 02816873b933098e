import Pbft.Wire.Formats

/-! # The wire format is exact

A byte string is read as a message and a remainder precisely if it is the encoding of that message
followed by that remainder, message inside message.
-/
namespace Pbft.Wire
set_option autoImplicit false

variable (u : Uint256)

theorem RequestMsg.unserialize_exact : Exact serialize Sized unserialize := by
  intro b m t
  simp only [unserialize, Reader.run_bind_eq_some, Reader.run_pure_eq_some, getString_exact _ _ _,
    getU64_exact _ _ _, getU32_exact _ _ _, true_and]
  constructor
  · rintro ⟨op, _, ⟨hOp, rfl⟩, ts, _, rfl, cid, _, rfl, rfl, rfl⟩
    exact ⟨hOp, by simp [serialize, putString]⟩
  · rintro ⟨hOp, rfl⟩
    refine ⟨_, _, ⟨hOp, ?_⟩, _, _, rfl, _, _, rfl, rfl, rfl⟩
    simp [serialize, putString]

theorem ReplyMsg.ofStream_exact : Exact serialize Sized ofStream := by
  intro b m t
  simp only [ofStream, Reader.run_bind_eq_some, Reader.run_pure_eq_some, getString_exact _ _ _,
    getU64_exact _ _ _, getU32_exact _ _ _, true_and]
  constructor
  · rintro ⟨v, _, rfl, ts, _, rfl, cid, _, rfl, rid, _, rfl, res, _, ⟨hRes, rfl⟩, rfl, rfl⟩
    exact ⟨hRes, by simp [serialize, putString]⟩
  · rintro ⟨hRes, rfl⟩
    refine ⟨_, _, ?_, _, _, rfl, _, _, rfl, _, _, rfl, _, _, ⟨hRes, rfl⟩, rfl, rfl⟩
    simp [serialize, putString]

theorem PrePrepareMsg.unserialize_exact : Exact (serialize u) Sized (unserialize u) := by
  intro b m t
  simp only [unserialize, Reader.run_bind_eq_some, Reader.run_pure_eq_some, getU64_exact _ _ _,
    getU32_exact _ _ _, getUint256_exact u _ _ _, RequestMsg.unserialize_exact _ _ _, true_and]
  constructor
  · rintro ⟨v, _, rfl, n, _, rfl, rd, _, rfl, req, _, ⟨hReq, rfl⟩, rfl, rfl⟩
    exact ⟨hReq, by simp [serialize]⟩
  · rintro ⟨hReq, rfl⟩
    refine ⟨_, _, ?_, _, _, rfl, _, _, rfl, _, _, ⟨hReq, rfl⟩, rfl, rfl⟩
    simp [serialize]

theorem PrepareMsg.unserialize_exact : Exact (serialize u) (fun _ => True) (unserialize u) := by
  intro b m t
  simp only [unserialize, Reader.run_bind_eq_some, Reader.run_pure_eq_some, getU64_exact _ _ _,
    getU32_exact _ _ _, getUint256_exact u _ _ _, true_and]
  constructor
  · rintro ⟨v, _, rfl, n, _, rfl, d, _, rfl, rid, _, rfl, rfl, rfl⟩
    simp [serialize]
  · rintro rfl
    refine ⟨_, _, ?_, _, _, rfl, _, _, rfl, _, _, rfl, rfl, rfl⟩
    simp [serialize]

theorem CommitMsg.ofStream_exact : Exact (serialize u) (fun _ => True) (ofStream u) := by
  intro b m t
  simp only [ofStream, Reader.run_bind_eq_some, Reader.run_pure_eq_some, getU64_exact _ _ _,
    getU32_exact _ _ _, getUint256_exact u _ _ _, true_and]
  constructor
  · rintro ⟨v, _, rfl, n, _, rfl, d, _, rfl, rid, _, rfl, rfl, rfl⟩
    simp [serialize]
  · rintro rfl
    refine ⟨_, _, ?_, _, _, rfl, _, _, rfl, _, _, rfl, rfl, rfl⟩
    simp [serialize]

theorem CheckpointMsg.unserialize_exact : Exact (serialize u) (fun _ => True) (unserialize u) := by
  intro b m t
  simp only [unserialize, Reader.run_bind_eq_some, Reader.run_pure_eq_some, getU64_exact _ _ _,
    getU32_exact _ _ _, getUint256_exact u _ _ _, true_and]
  constructor
  · rintro ⟨n, _, rfl, sd, _, rfl, rid, _, rfl, rfl, rfl⟩
    simp [serialize]
  · rintro rfl
    refine ⟨_, _, ?_, _, _, rfl, _, _, rfl, rfl, rfl⟩
    simp [serialize]

theorem PrepareProof.get_exact : Exact (put u) (fun _ => True) (get u) := by
  intro b m t
  simp only [get, Reader.run_bind_eq_some, Reader.run_pure_eq_some, getU64_exact _ _ _,
    getU32_exact _ _ _, getUint256_exact u _ _ _, true_and]
  constructor
  · rintro ⟨v, _, rfl, n, _, rfl, d, _, rfl, rfl, rfl⟩
    simp [put]
  · rintro rfl
    refine ⟨_, _, ?_, _, _, rfl, _, _, rfl, rfl, rfl⟩
    simp [put]

theorem ViewChangeMsg.unserialize_exact : Exact (serialize u) Sized (unserialize u) := by
  intro b m t
  simp only [unserialize, Reader.run_bind_eq_some, Reader.run_pure_eq_some, getU64_exact _ _ _,
    getU32_exact _ _ _, getVector_exact (CheckpointMsg.unserialize_exact u) _ _ _,
    getVector_exact (PrepareProof.get_exact u) _ _ _, implies_true, true_and, and_true]
  constructor
  · rintro ⟨nv, _, rfl, lsc, _, rfl, rid, _, rfl, C, _, ⟨hC, rfl⟩, P, _, ⟨hP, rfl⟩, rfl, rfl⟩
    exact ⟨⟨hC, hP⟩, by simp [serialize]⟩
  · rintro ⟨⟨hC, hP⟩, rfl⟩
    refine ⟨_, _, ?_, _, _, rfl, _, _, rfl, _, _, ⟨hC, rfl⟩, _, _, ⟨hP, rfl⟩, rfl, rfl⟩
    simp [serialize]

/-- The loops of NEW-VIEW do what the operators for vectors do. -/
theorem NewViewMsg.ofStream_eq : NewViewMsg.ofStream u = (do
    let nextView ← getU64
    let viewChanges ← getVector (ViewChangeMsg.unserialize u)
    let prePrepares ← getVector (PrePrepareMsg.unserialize u)
    return ⟨nextView, viewChanges, prePrepares⟩) := by
  simp only [NewViewMsg.ofStream, getVector, bind_assoc]

theorem NewViewMsg.ofStream_exact : Exact (serialize u) Sized (ofStream u) := by
  intro b m t
  rw [ofStream_eq]
  simp only [Reader.run_bind_eq_some, Reader.run_pure_eq_some, getU64_exact _ _ _,
    getVector_exact (ViewChangeMsg.unserialize_exact u) _ _ _,
    getVector_exact (PrePrepareMsg.unserialize_exact u) _ _ _, true_and]
  constructor
  · rintro ⟨nv, _, rfl, V, _, ⟨hV, rfl⟩, O, _, ⟨hO, rfl⟩, rfl, rfl⟩
    exact ⟨⟨hV, hO⟩, by simp [serialize, putVector]⟩
  · rintro ⟨⟨hV, hO⟩, rfl⟩
    refine ⟨_, _, ?_, _, _, ⟨hV, rfl⟩, _, _, ⟨hO, rfl⟩, rfl, rfl⟩
    simp [serialize, putVector]

theorem HandshakeMsg.ofStream_exact : Exact serialize (fun _ => True) ofStream :=
  getU32_exact.map (f := HandshakeMsg.mk) (g := HandshakeMsg.id) (fun _ _ => ⟨rfl, trivial⟩)
    fun _ _ => ⟨rfl, trivial⟩

inductive MsgType where
  | request
  | reply
  | prePrepare
  | prepare
  | commit
  | checkpoint
  | viewChange
  | newView
  | handshake
deriving DecidableEq

def MsgType.Fields : MsgType → Type
  | .request => RequestMsg
  | .reply => ReplyMsg
  | .prePrepare => PrePrepareMsg
  | .prepare => PrepareMsg
  | .commit => CommitMsg
  | .checkpoint => CheckpointMsg
  | .viewChange => ViewChangeMsg
  | .newView => NewViewMsg
  | .handshake => HandshakeMsg

/-- What the constructor of a message takes. -/
def MsgType.Args : MsgType → Type
  | .request => Bytes × UInt64 × UInt32
  | .reply => UInt32 × UInt64 × UInt32 × UInt32 × Bytes
  | .prePrepare => UInt32 × UInt64 × Digest × RequestMsg
  | .prepare => UInt32 × UInt64 × Digest × UInt32
  | .commit => UInt32 × UInt64 × Digest × UInt32
  | .checkpoint => UInt64 × Digest × UInt32
  | .viewChange => UInt32 × UInt64 × UInt32 × List CheckpointMsg × List PrepareProof
  | .newView => UInt32 × List ViewChangeMsg × List PrePrepareMsg
  | .handshake => UInt32

def construct : (ty : MsgType) → ty.Args → Built ty.Fields
  | .request, (op, ts, cid) => RequestMsg.construct op ts cid
  | .reply, (v, ts, cid, rid, res) => ReplyMsg.construct v ts cid rid res
  | .prePrepare, (v, n, rd, rqm) => PrePrepareMsg.construct u v n rd rqm
  | .prepare, (v, n, d, rid) => PrepareMsg.construct u v n d rid
  | .commit, (v, n, rd, rid) => CommitMsg.construct u v n rd rid
  | .checkpoint, (n, sd, rid) => CheckpointMsg.construct u n sd rid
  | .viewChange, (nv, lsc, rid, C, P) => ViewChangeMsg.construct u nv lsc rid C P
  | .newView, (nv, V, O) => NewViewMsg.construct u nv V O
  | .handshake, id => HandshakeMsg.construct id

def serialize : (ty : MsgType) → ty.Fields → Bytes
  | .request => RequestMsg.serialize
  | .reply => ReplyMsg.serialize
  | .prePrepare => PrePrepareMsg.serialize u
  | .prepare => PrepareMsg.serialize u
  | .commit => CommitMsg.serialize u
  | .checkpoint => CheckpointMsg.serialize u
  | .viewChange => ViewChangeMsg.serialize u
  | .newView => NewViewMsg.serialize u
  | .handshake => HandshakeMsg.serialize

def ofStream : (ty : MsgType) → Reader ty.Fields
  | .request => RequestMsg.ofStream
  | .reply => ReplyMsg.ofStream
  | .prePrepare => PrePrepareMsg.ofStream u
  | .prepare => PrepareMsg.ofStream u
  | .commit => CommitMsg.ofStream u
  | .checkpoint => CheckpointMsg.ofStream u
  | .viewChange => ViewChangeMsg.ofStream u
  | .newView => NewViewMsg.ofStream u
  | .handshake => HandshakeMsg.ofStream

/-- Four of the messages have no unserialize. -/
def unserialize? : (ty : MsgType) → Option (Reader ty.Fields)
  | .request => some RequestMsg.unserialize
  | .prePrepare => some (PrePrepareMsg.unserialize u)
  | .prepare => some (PrepareMsg.unserialize u)
  | .checkpoint => some (CheckpointMsg.unserialize u)
  | .viewChange => some (ViewChangeMsg.unserialize u)
  | .reply | .commit | .newView | .handshake => none

def Sized : (ty : MsgType) → ty.Fields → Prop
  | .request => RequestMsg.Sized
  | .reply => ReplyMsg.Sized
  | .prePrepare => PrePrepareMsg.Sized
  | .viewChange => ViewChangeMsg.Sized
  | .newView => NewViewMsg.Sized
  | .prepare | .commit | .checkpoint | .handshake => fun _ => True

theorem ofStream_exact (ty : MsgType) : Exact (serialize u ty) (Sized ty) (ofStream u ty) := by
  cases ty with
  | request => exact RequestMsg.unserialize_exact
  | reply => exact ReplyMsg.ofStream_exact
  | prePrepare => exact PrePrepareMsg.unserialize_exact u
  | prepare => exact PrepareMsg.unserialize_exact u
  | commit => exact CommitMsg.ofStream_exact u
  | checkpoint => exact CheckpointMsg.unserialize_exact u
  | viewChange => exact ViewChangeMsg.unserialize_exact u
  | newView => exact NewViewMsg.ofStream_exact u
  | handshake => exact HandshakeMsg.ofStream_exact

theorem unserialize?_eq (ty : MsgType) : ∀ get ∈ unserialize? u ty, get = ofStream u ty := by
  intro get hGet
  cases ty <;> cases hGet <;> rfl

theorem serialized_eq (ty : MsgType) (args : ty.Args) :
    (construct u ty args).serialized = serialize u ty (construct u ty args).fields := by
  cases ty <;> rfl

/-- A request, its encoding, and one byte of whatever follows it. -/
example : RequestMsg.ofStream.run [3, 0, 0, 0, 73, 78, 67, 5, 0, 0, 0, 0, 0, 0, 0, 9, 0, 0, 0, 255] =
    some (⟨[73, 78, 67], 5, 9⟩, [255]) := by decide

end Pbft.Wire
