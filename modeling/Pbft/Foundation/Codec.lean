import Mathlib.Data.Nat.Digits.Defs
import Mathlib.Data.Vector.Basic

/-! # Byte strings that are read from the front

A reader consumes the front of a byte string and fails when there is too little of it. A format
is exact when reading succeeds on precisely the encodings, each followed by anything: then what is
read determines what was consumed, and the encodings form a prefix code.
-/
namespace Pbft
set_option autoImplicit false

abbrev Bytes := List UInt8

abbrev Reader (α : Type) := StateT Bytes Option α

namespace Reader
variable {α β : Type} {b t : Bytes}

theorem run_bind_eq_some {x : Reader α} {k : α → Reader β} {r : β × Bytes} :
    (x >>= k).run b = some r ↔ ∃ a c, x.run b = some (a, c) ∧ (k a).run c = some r := by
  rw [StateT.run_bind]
  refine Option.bind_eq_some_iff.trans ?_
  constructor
  · rintro ⟨⟨a, c⟩, hx, hk⟩
    exact ⟨a, c, hx, hk⟩
  · rintro ⟨a, c, hx, hk⟩
    exact ⟨(a, c), hx, hk⟩

theorem run_pure_eq_some {a a' : α} : (pure a : Reader α).run b = some (a', t) ↔ a = a' ∧ b = t := by
  rw [StateT.run_pure, Option.pure_def, Option.some.injEq, Prod.mk.injEq]

/-- Raw bytes, as many as asked for. -/
def data (n : Nat) : Reader (List.Vector UInt8 n) := fun b =>
  if h : n ≤ b.length then some (⟨b.take n, List.length_take_of_le h⟩, b.drop n) else none

def repeated (x : Reader α) : Nat → Reader (List α)
  | 0 => pure []
  | n + 1 => do
    let a ← x
    let rest ← repeated x n
    return a :: rest

/-- A number in the given count of bytes, the least significant first. -/
def number (width : Nat) : Reader Nat := do
  return Nat.ofDigits 256 ((← data width).toList.map UInt8.toNat)

end Reader

def putNumber : Nat → Nat → Bytes
  | 0, _ => []
  | width + 1, v => UInt8.ofNat v :: putNumber width (v / 256)

theorem length_putNumber (width v : Nat) : (putNumber width v).length = width := by
  induction width generalizing v with
  | zero => rfl
  | succ width ih => rw [putNumber, List.length_cons, ih]

theorem putNumber_ofDigits (b : Bytes) :
    putNumber b.length (Nat.ofDigits 256 (b.map UInt8.toNat)) = b := by
  induction b with
  | nil => rfl
  | cons d b ih =>
    rw [List.length_cons, putNumber, List.map_cons, Nat.ofDigits_cons]
    have hDigit : d.toNat < 256 := d.toNat_lt
    congr 1
    · apply UInt8.toNat_inj.mp
      rw [UInt8.toNat_ofNat']
      omega
    · rw [Nat.add_mul_div_left _ _ (by decide), Nat.div_eq_of_lt hDigit, Nat.zero_add, ih]

theorem ofDigits_putNumber {width v : Nat} (hv : v < 256 ^ width) :
    Nat.ofDigits 256 ((putNumber width v).map UInt8.toNat) = v := by
  induction width generalizing v with
  | zero => exact (Nat.lt_one_iff.mp hv).symm
  | succ width ih =>
    have hHigh : v / 256 < 256 ^ width := Nat.div_lt_of_lt_mul (by rwa [Nat.pow_succ, Nat.mul_comm] at hv)
    rw [putNumber, List.map_cons, Nat.ofDigits_cons, ih hHigh, UInt8.toNat_ofNat']
    omega

theorem ofDigits_lt (b : Bytes) : Nat.ofDigits 256 (b.map UInt8.toNat) < 256 ^ b.length := by
  have hBound := Nat.ofDigits_lt_base_pow_length (l := b.map UInt8.toNat) (b := 256) (by decide)
  rw [List.length_map] at hBound
  apply hBound
  intro d hd
  obtain ⟨d, -, rfl⟩ := List.mem_map.mp hd
  exact d.toNat_lt

/-- Reading succeeds on the encodings of valid values, whatever follows them, and on nothing else. -/
def Exact {α : Type} (put : α → Bytes) (valid : α → Prop) (get : Reader α) : Prop :=
  ∀ b a t, get.run b = some (a, t) ↔ valid a ∧ b = put a ++ t

namespace Exact
variable {α β : Type} {put : α → Bytes} {valid : α → Prop} {get : Reader α}

theorem decode_encode (h : Exact put valid get) {a : α} (ha : valid a) (t : Bytes) :
    get.run (put a ++ t) = some (a, t) :=
  (h _ a t).mpr ⟨ha, rfl⟩

theorem injective (h : Exact put valid get) {a a' : α} (ha : valid a) (ha' : valid a')
    (hEq : put a = put a') : a = a' := by
  have hRead := h.decode_encode ha []
  rw [hEq, h.decode_encode ha' []] at hRead
  simp only [Option.some.injEq, Prod.mk.injEq] at hRead
  exact hRead.1.symm

/-- The encodings are a prefix code, so a truncated one is not read at all. -/
theorem strict_prefix_fails (h : Exact put valid get) {a : α} (ha : valid a) {b : Bytes}
    (hPrefix : b <+: put a) (hStrict : b ≠ put a) : get.run b = none := by
  cases hRead : get.run b with
  | none => rfl
  | some r =>
    obtain ⟨a', t⟩ := r
    obtain ⟨ha', rfl⟩ := (h _ _ _).mp hRead
    obtain ⟨rest, hRest⟩ := hPrefix
    -- the whole encoding starts with that of a' too, and only one value can be read from it
    have hWhole := h.decode_encode ha' (t ++ rest)
    rw [← List.append_assoc, hRest, ← List.append_nil (put a), h.decode_encode ha []] at hWhole
    simp only [Option.some.injEq, Prod.mk.injEq, List.nil_eq_append_iff] at hWhole
    rw [hWhole.2.2, List.append_nil] at hRest
    exact absurd hRest hStrict

/-- A change of the type that a format is read into, by inverse functions on the valid values. -/
theorem map (h : Exact put valid get) {valid' : β → Prop} {f : α → β} {g : β → α}
    (hRight : ∀ a, valid a → g (f a) = a ∧ valid' (f a)) (hLeft : ∀ b, valid' b → f (g b) = b ∧ valid (g b)) :
    Exact (fun b => put (g b)) valid' (do return f (← get)) := by
  intro b x t
  rw [Reader.run_bind_eq_some]
  constructor
  · rintro ⟨a, c, hGet, hPure⟩
    obtain ⟨ha, rfl⟩ := (h _ _ _).mp hGet
    obtain ⟨rfl, rfl⟩ := Reader.run_pure_eq_some.mp hPure
    refine ⟨(hRight a ha).2, ?_⟩
    dsimp only
    rw [(hRight a ha).1]
  · rintro ⟨hx, rfl⟩
    exact ⟨g x, t, h.decode_encode (hLeft x hx).2 t, Reader.run_pure_eq_some.mpr ⟨(hLeft x hx).1, rfl⟩⟩

theorem data (n : Nat) : Exact List.Vector.toList (fun _ => True) (Reader.data n) := by
  intro b w t
  unfold StateT.run Reader.data
  constructor
  · intro h
    split at h
    · cases h
      exact ⟨trivial, (List.take_append_drop n b).symm⟩
    · cases h
  · rintro ⟨-, rfl⟩
    have hLength : w.toList.length = n := w.toList_length
    rw [dif_pos (by simp)]
    simp only [List.take_left' hLength, List.drop_left' hLength]
    rfl

theorem repeated (h : Exact put valid get) (n : Nat) :
    Exact (fun as => as.flatMap put) (fun as => as.length = n ∧ ∀ a ∈ as, valid a)
      (Reader.repeated get n) := by
  induction n with
  | zero =>
    intro b as t
    dsimp only
    rw [Reader.repeated, Reader.run_pure_eq_some, List.length_eq_zero_iff]
    constructor
    · rintro ⟨rfl, rfl⟩
      simp
    · rintro ⟨⟨rfl, -⟩, rfl⟩
      simp
  | succ n ih =>
    intro b as t
    simp only [Reader.repeated, Reader.run_bind_eq_some, Reader.run_pure_eq_some, ih _ _ _, h _ _ _]
    constructor
    · rintro ⟨a, _, ⟨ha, rfl⟩, rest, _, ⟨⟨hLen, hRest⟩, rfl⟩, rfl, rfl⟩
      refine ⟨⟨congrArg (· + 1) hLen, ?_⟩, by simp⟩
      exact List.forall_mem_cons.mpr ⟨ha, hRest⟩
    · rintro ⟨⟨hLen, hAll⟩, rfl⟩
      obtain ⟨a, rest, rfl⟩ := List.exists_cons_of_length_eq_add_one hLen
      rw [List.forall_mem_cons] at hAll
      exact ⟨a, _, ⟨hAll.1, by simp⟩, rest, _, ⟨⟨by simpa using hLen, hAll.2⟩, rfl⟩, rfl, rfl⟩

theorem number (width : Nat) : Exact (putNumber width) (· < 256 ^ width) (Reader.number width) := by
  refine (Exact.data width).map (g := fun v => ⟨putNumber width v, length_putNumber width v⟩)
    (fun w _ => ⟨?_, ?_⟩) fun v hv => ⟨ofDigits_putNumber hv, trivial⟩
  · obtain ⟨b, rfl⟩ := w
    exact Subtype.ext (putNumber_ofDigits b)
  · obtain ⟨b, rfl⟩ := w
    exact ofDigits_lt b

end Exact
end Pbft
