import Pbft.Foundation.Codec
import Pbft.Messages

/-! # The operators of DataStream

What serialization.hh adds to the stream class: strings and vectors, both behind a count of 32
bits. Integers go to the stream as they lie in memory, on a little-endian host, where htole and
letoh change nothing. How the 32 bytes of a uint256 are arranged is a parameter.
-/
namespace Pbft.Wire
set_option autoImplicit false

abbrev Uint256 := Digest ≃ List.Vector UInt8 32

/-- The bytes of a uint256 on a little-endian host, the least significant word first. -/
def Uint256.littleEndian : Uint256 where
  toFun x := ⟨putNumber 32 x.toNat, length_putNumber 32 x.toNat⟩
  invFun w := BitVec.ofNat 256 (Nat.ofDigits 256 (w.toList.map UInt8.toNat))
  left_inv x := by
    have hValue : Nat.ofDigits 256 ((putNumber 32 x.toNat).map UInt8.toNat) = x.toNat :=
      ofDigits_putNumber x.isLt
    apply BitVec.eq_of_toNat_eq
    change (BitVec.ofNat 256 (Nat.ofDigits 256 ((putNumber 32 x.toNat).map UInt8.toNat))).toNat = _
    rw [hValue, BitVec.ofNat_toNat, BitVec.setWidth_eq]
  right_inv w := by
    obtain ⟨b, hLength⟩ := w
    have hBound : Nat.ofDigits 256 (b.map UInt8.toNat) < 2 ^ 256 := by
      have hDigits := ofDigits_lt b
      rwa [hLength] at hDigits
    apply Subtype.ext
    change putNumber 32 (BitVec.ofNat 256 (Nat.ofDigits 256 (b.map UInt8.toNat))).toNat = b
    rw [BitVec.toNat_ofNat, Nat.mod_eq_of_lt hBound, ← hLength, putNumber_ofDigits]

variable {α : Type} {put : α → Bytes} {valid : α → Prop} {get : Reader α}

def putU32 (x : UInt32) : Bytes := putNumber 4 x.toNat

def getU32 : Reader UInt32 := do return UInt32.ofNat (← Reader.number 4)

def putU64 (x : UInt64) : Bytes := putNumber 8 x.toNat

def getU64 : Reader UInt64 := do return UInt64.ofNat (← Reader.number 8)

def putUint256 (u : Uint256) (x : Digest) : Bytes := (u x).toList

def getUint256 (u : Uint256) : Reader Digest := do return u.symm (← Reader.data 32)

/-- A string is written raw behind its size; the writers put the size themselves. -/
def putString (w : Bytes) : Bytes := putU32 (UInt32.ofNat w.length) ++ w

def getString : Reader Bytes := do
  let len ← getU32
  let w ← Reader.data len.toNat
  return w.toList

def putVector (put : α → Bytes) (v : List α) : Bytes :=
  putU32 (UInt32.ofNat v.length) ++ v.flatMap put

def getVector (get : Reader α) : Reader (List α) := do
  let size ← getU32
  Reader.repeated get size.toNat

theorem getU32_exact : Exact putU32 (fun _ => True) getU32 := by
  refine (Exact.number 4).map (fun v hv => ⟨UInt32.toNat_ofNat_of_lt hv, trivial⟩) fun x _ => ⟨?_, ?_⟩
  · exact UInt32.ofNat_toNat
  · exact x.toNat_lt

theorem getU64_exact : Exact putU64 (fun _ => True) getU64 := by
  refine (Exact.number 8).map (fun v hv => ⟨UInt64.toNat_ofNat_of_lt hv, trivial⟩) fun x _ => ⟨?_, ?_⟩
  · exact UInt64.ofNat_toNat
  · exact x.toNat_lt

theorem getUint256_exact (u : Uint256) : Exact (putUint256 u) (fun _ => True) (getUint256 u) :=
  (Exact.data 32).map (fun w _ => ⟨u.apply_symm_apply w, trivial⟩) fun x _ => ⟨u.symm_apply_apply x, trivial⟩

theorem getString_exact : Exact putString (fun w => w.length < 2 ^ 32) getString := by
  intro b w t
  simp only [getString, Reader.run_bind_eq_some, Reader.run_pure_eq_some, getU32_exact _ _ _,
    Exact.data _ _ _ _, true_and]
  constructor
  · rintro ⟨len, _, rfl, w, _, rfl, rfl, rfl⟩
    have hLength : w.toList.length = len.toNat := w.toList_length
    constructor
    · rw [hLength]
      exact len.toNat_lt
    · rw [putString, hLength, UInt32.ofNat_toNat, List.append_assoc]
  · rintro ⟨hLength, rfl⟩
    refine ⟨UInt32.ofNat w.length, _, List.append_assoc _ _ _, ⟨w, ?_⟩, t, rfl, rfl, rfl⟩
    exact (UInt32.toNat_ofNat_of_lt hLength).symm

theorem getVector_exact (h : Exact put valid get) :
    Exact (putVector put) (fun v => v.length < 2 ^ 32 ∧ ∀ a ∈ v, valid a) (getVector get) := by
  intro b v t
  simp only [getVector, Reader.run_bind_eq_some, getU32_exact _ _ _, h.repeated _ _ _ _, true_and]
  constructor
  · rintro ⟨size, _, rfl, ⟨hLength, hAll⟩, rfl⟩
    refine ⟨⟨?_, hAll⟩, ?_⟩
    · rw [hLength]
      exact size.toNat_lt
    · rw [putVector, hLength, UInt32.ofNat_toNat, List.append_assoc]
  · rintro ⟨⟨hLength, hAll⟩, rfl⟩
    refine ⟨UInt32.ofNat v.length, _, List.append_assoc _ _ _, ⟨?_, hAll⟩, rfl⟩
    exact (UInt32.toNat_ofNat_of_lt hLength).symm

end Pbft.Wire
