import Pbft.Foundation.Machine
import Mathlib.Algebra.Order.BigOperators.Group.Finset
import Mathlib.Data.Nat.Pairing
import Mathlib.Logic.Encodable.Basic
import Mathlib.Order.Lattice.Nat

/-! # Infinite runs of a machine

At each time a schedule takes one admissible action or lets the time pass. If a bounded number never
falls and rises with every action that matters, only so many actions matter, and from some time on none
does. A schedule may be asked to come back to every offer again and again, and from every state there is
one that does.
-/
namespace Pbft.Machine
set_option autoImplicit false

universe u v w

variable {S : Type u} {A : Type v} {M : Machine S A} {ok : S → A → Prop}

structure Schedule (M : Machine S A) (ok : S → A → Prop) where
  state : Nat → S
  action : Nat → Option A
  step : ∀ i, (action i = none ∧ state (i + 1) = state i) ∨
    ∃ a, action i = some a ∧ ok (state i) a ∧ M.next (state i) a = some (state (i + 1))

namespace Schedule
variable (T : Schedule M ok)

theorem next {i : Nat} {a : A} (h : T.action i = some a) :
    ok (T.state i) a ∧ M.next (T.state i) a = some (T.state (i + 1)) := by
  rcases T.step i with ⟨hIdle, -⟩ | ⟨b, hAction, hStep⟩
  · rw [hIdle] at h
    cases h
  · rw [hAction] at h
    cases h
    exact hStep

theorem invariant {I : S → Prop} (hInit : I (T.state 0))
    (hStep : ∀ s a s', I s → ok s a → M.next s a = some s' → I s') (i : Nat) : I (T.state i) := by
  induction i with
  | zero => exact hInit
  | succ i ih =>
    rcases T.step i with ⟨-, hSame⟩ | ⟨a, -, ha, hn⟩
    · exact hSame ▸ ih
    · exact hStep _ _ _ ih ha hn

/-- What each admissible action does to a number: it is one that does not matter, or the number rises. -/
structure Potential (ok : S → A → Prop) (M : Machine S A) (I : S → Prop) (R : S → S → Prop) (μ : S → Nat)
    (bound : Nat) : Prop where
  refl : ∀ s, R s s
  trans : ∀ s t u, R u t → R t s → R u s
  keeps : ∀ s t, R t s → μ t = μ s
  le : ∀ s, I s → μ s ≤ bound
  step : ∀ s a s', I s → ok s a → M.next s a = some s' → R s' s ∨ μ s < μ s'

variable {T} {I : S → Prop} {R : S → S → Prop} {μ : S → Nat} {bound : Nat}

theorem Potential.next (h : Potential ok M I R μ bound) (hI : ∀ i, I (T.state i)) (i : Nat) :
    R (T.state (i + 1)) (T.state i) ∨ μ (T.state i) < μ (T.state (i + 1)) := by
  rcases T.step i with ⟨-, hSame⟩ | ⟨a, -, ha, hn⟩
  · rw [hSame]
    exact .inl (h.refl _)
  · exact h.step _ _ _ (hI i) ha hn

open Classical in
/-- Each action that matters uses up one of the units that are left. -/
theorem Potential.card_le (h : Potential ok M I R μ bound) (hI : ∀ i, I (T.state i)) (m : Nat) :
    ((Finset.range m).filter fun i => ¬R (T.state (i + 1)) (T.state i)).card ≤ bound := by
  suffices hRises : ((Finset.range m).filter fun i => ¬R (T.state (i + 1)) (T.state i)).card +
      μ (T.state 0) ≤ μ (T.state m) by
    have hLe := h.le _ (hI m)
    omega
  induction m with
  | zero => simp
  | succ m ih =>
    rw [Finset.range_add_one, Finset.filter_insert]
    by_cases hR : R (T.state (m + 1)) (T.state m)
    · rw [if_neg (not_not.mpr hR), h.keeps _ _ hR]
      exact ih
    · rw [if_pos hR, Finset.card_insert_of_notMem (by simp)]
      have hLt := (h.next hI m).resolve_left hR
      omega

theorem Potential.settles (h : Potential ok M I R μ bound) (hI : ∀ i, I (T.state i)) :
    ∃ m, ∀ i, m ≤ i → R (T.state i) (T.state m) := by
  have hBounded : BddAbove (Set.range fun i => μ (T.state i)) := by
    refine ⟨bound, ?_⟩
    rintro _ ⟨i, rfl⟩
    exact h.le _ (hI i)
  obtain ⟨m, hm⟩ := Nat.sSup_mem (Set.range_nonempty fun i => μ (T.state i)) hBounded
  refine ⟨m, fun i hi => ?_⟩
  -- the number is at its maximum, so nothing that follows can raise it
  induction i, hi using Nat.le_induction with
  | base => exact h.refl _
  | succ i _ ih =>
    refine h.trans _ _ _ ((h.next hI i).resolve_right fun hLt => ?_) ih
    have hTop : μ (T.state (i + 1)) ≤ μ (T.state m) := by
      have hMax : μ (T.state m) = sSup (Set.range fun i => μ (T.state i)) := hm
      rw [hMax]
      exact le_csSup hBounded ⟨i + 1, rfl⟩
    rw [h.keeps _ _ ih] at hLt
    omega

end Schedule

section
open Classical

/-- The action is taken if it can be. -/
noncomputable def attempt (M : Machine S A) (ok : S → A → Prop) (s : S) (a : Option A) : Option A × S :=
  match a with
  | some a => if ok s a then ((M.next s a).map fun s' => (some a, s')).getD (none, s) else (none, s)
  | none => (none, s)

noncomputable def states (M : Machine S A) (ok : S → A → Prop) (pick : Nat → S → Option A) (s : S) : Nat → S
  | 0 => s
  | i + 1 => (attempt M ok (states M ok pick s i) (pick i (states M ok pick s i))).2

theorem attempt_cases (M : Machine S A) (ok : S → A → Prop) (s : S) (a : Option A) :
    ((attempt M ok s a).1 = none ∧ (attempt M ok s a).2 = s) ∨
      ∃ b, (attempt M ok s a).1 = some b ∧ ok s b ∧ M.next s b = some (attempt M ok s a).2 := by
  cases a with
  | none => exact .inl ⟨rfl, rfl⟩
  | some a =>
    unfold attempt
    dsimp only
    split
    · rename_i ha
      cases hNext : M.next s a with
      | none => exact .inl ⟨rfl, rfl⟩
      | some s' => exact .inr ⟨a, rfl, ha, hNext⟩
    · exact .inl ⟨rfl, rfl⟩

theorem attempt_of_next {s s' : S} {a : A} (ha : ok s a) (hn : M.next s a = some s') :
    (attempt M ok s (some a)).1 = some a := by
  unfold attempt
  dsimp only
  rw [if_pos ha, hn]
  rfl

noncomputable def Schedule.picking (M : Machine S A) (ok : S → A → Prop) (pick : Nat → S → Option A) (s : S) :
    Schedule M ok where
  state := states M ok pick s
  action i := (attempt M ok (states M ok pick s i) (pick i (states M ok pick s i))).1
  step _ := attempt_cases M ok _ _

/-- Every offer has its turn infinitely often: at time i it is that of the first component of i. -/
theorem Schedule.exists_fair {ι : Type w} [Encodable ι] (M : Machine S A) (ok : S → A → Prop)
    (offer : S → ι → Option A) (s : S) : ∃ T : Schedule M ok, T.state 0 = s ∧
      ∀ c i, ∃ j, i ≤ j ∧ ∀ a s', offer (T.state j) c = some a → ok (T.state j) a →
        M.next (T.state j) a = some s' → T.action j = some a := by
  let pick (i : Nat) (s : S) : Option A := (Encodable.decode i.unpair.1 : Option ι).bind (offer s)
  refine ⟨.picking M ok pick s, rfl, fun c i => ?_⟩
  refine ⟨Nat.pair (Encodable.encode c) i, Nat.right_le_pair _ _, fun a s' hOffer ha hn => ?_⟩
  have hTurn : pick (Nat.pair (Encodable.encode c) i) = fun s => offer s c := by
    funext s
    simp [pick]
  unfold Schedule.picking at hOffer ha hn ⊢
  dsimp only at hOffer ha hn ⊢
  rw [hTurn]
  dsimp only
  rw [hOffer]
  exact attempt_of_next ha hn

end

end Pbft.Machine
