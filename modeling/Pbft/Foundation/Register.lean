import Mathlib.Data.List.Basic

/-! # Registers

A part of a state that every action either overwrites, with a value that the action alone determines,
or leaves as it is. After any actions it holds what the last one to write has written.
-/
namespace Pbft.Register
set_option autoImplicit false

variable {S A V : Type}

/-- What stands in a register that held v before the actions. -/
def lastWrite (write : A → Option V) (v : V) (as : List A) : V := as.foldl (fun v a => (write a).getD v) v

theorem read_foldl {step : S → A → S} (read : S → V) {write : A → Option V}
    (h : ∀ s a, read (step s a) = (write a).getD (read s)) (s : S) (as : List A) :
    read (as.foldl step s) = lastWrite write (read s) as := by
  induction as generalizing s with
  | nil => rfl
  | cons a as ih => rw [List.foldl_cons, ih, h, lastWrite, lastWrite, List.foldl_cons]

/-- Either nothing writes, or one action is the last that does. -/
theorem lastWrite_cases (write : A → Option V) (v : V) (as : List A) :
    ((∀ a ∈ as, write a = none) ∧ lastWrite write v as = v) ∨
    ∃ before a after w, as = before ++ a :: after ∧ write a = some w ∧ (∀ b ∈ after, write b = none) ∧
      lastWrite write v as = w := by
  induction as generalizing v with
  | nil => exact .inl ⟨fun a ha => by simp at ha, rfl⟩
  | cons a as ih =>
    rcases ih ((write a).getD v) with ⟨hSilent, hLast⟩ | ⟨before, b, after, w, rfl, hb, hSilent, hLast⟩
    · cases ha : write a with
      | none =>
        rw [ha] at hLast
        exact .inl ⟨by simpa [ha] using hSilent, by rw [lastWrite, List.foldl_cons, ha]; exact hLast⟩
      | some w =>
        rw [ha] at hLast
        exact .inr ⟨[], a, as, w, rfl, ha, hSilent, by rw [lastWrite, List.foldl_cons, ha]; exact hLast⟩
    · exact .inr ⟨a :: before, b, after, w, rfl, hb, hSilent, hLast⟩

/-- After a write the register holds what that action or a later one has written. -/
theorem lastWrite_of_write {write : A → Option V} {as : List A} {j : Nat} {a : A} {w : V} (ha : as[j]? = some a)
    (hWrite : write a = some w) (v : V) : ∃ i b w', j ≤ i ∧ as[i]? = some b ∧ write b = some w' ∧
      (∀ l, i < l → ∀ c, as[l]? = some c → write c = none) ∧ lastWrite write v as = w' := by
  rcases lastWrite_cases write v as with ⟨hSilent, -⟩ | ⟨before, b, after, w', rfl, hb, hSilent, hLast⟩
  · rw [hSilent a (List.mem_of_getElem? ha)] at hWrite
    cases hWrite
  · have hLater : ∀ l, before.length < l → ∀ c, (before ++ b :: after)[l]? = some c → c ∈ after := by
      intro l hl c hc
      obtain ⟨n, rfl⟩ := Nat.exists_eq_add_of_lt hl
      rw [List.getElem?_append_right (by omega), Nat.add_assoc, Nat.add_sub_cancel_left, List.getElem?_cons_succ] at hc
      exact List.mem_of_getElem? hc
    refine ⟨before.length, b, w', ?_, by simp, hb, fun l hl c hc => hSilent c (hLater l hl c hc), hLast⟩
    by_contra hj
    rw [hSilent a (hLater j (Nat.not_le.mp hj) a ha)] at hWrite
    cases hWrite

end Pbft.Register
