import Mathlib.Data.List.Basic

/-! # Records in one text

Records that are written one after the other, each with a terminator behind it. The text gives them back
if the terminator occurs in none of them.
-/
namespace Pbft.Records
set_option autoImplicit false

variable {α : Type} {c : α}

def join (c : α) (records : List (List α)) : List α := records.flatMap (· ++ [c])

theorem join_cons (c : α) (x : List α) (xs : List (List α)) : join c (x :: xs) = x ++ c :: join c xs := by
  rw [join, List.flatMap_cons, List.append_assoc, List.singleton_append, join]

theorem first_inj {x y s t : List α} (hx : c ∉ x) (hy : c ∉ y) (h : x ++ c :: s = y ++ c :: t) : x = y ∧ s = t := by
  induction x generalizing y with
  | nil =>
    cases y with
    | nil => exact ⟨rfl, (List.cons.inj h).2⟩
    | cons b y => exact absurd ((List.cons.inj h).1 ▸ List.mem_cons_self) hy
  | cons a x ih =>
    cases y with
    | nil => exact absurd ((List.cons.inj h).1 ▸ List.mem_cons_self) hx
    | cons b y =>
      obtain ⟨rfl, hRest⟩ := List.cons.inj h
      obtain ⟨rfl, hTail⟩ := ih (List.not_mem_of_not_mem_cons hx) (List.not_mem_of_not_mem_cons hy) hRest
      exact ⟨rfl, hTail⟩

theorem last_inj {x y s t : List α} (hs : c ∉ s) (ht : c ∉ t) (h : x ++ c :: s = y ++ c :: t) : x = y ∧ s = t := by
  have hReverse := congrArg List.reverse h
  simp only [List.reverse_append, List.reverse_cons, List.append_assoc, List.singleton_append] at hReverse
  obtain ⟨hEnd, hStart⟩ := first_inj (by simpa using hs) (by simpa using ht) hReverse
  exact ⟨List.reverse_injective hStart, List.reverse_injective hEnd⟩

theorem join_inj {xs ys : List (List α)} (hxs : ∀ x ∈ xs, c ∉ x) (hys : ∀ y ∈ ys, c ∉ y) (h : join c xs = join c ys) :
    xs = ys := by
  induction xs generalizing ys with
  | nil =>
    cases ys with
    | nil => rfl
    | cons y ys =>
      rw [join_cons] at h
      exact absurd h.symm (by simp [join])
  | cons x xs ih =>
    cases ys with
    | nil =>
      rw [join_cons] at h
      exact absurd h (by simp [join])
    | cons y ys =>
      rw [join_cons, join_cons] at h
      obtain ⟨rfl, hRest⟩ := first_inj (hxs x (by simp)) (hys y (by simp)) h
      rw [ih (fun x hx => hxs x (by simp [hx])) (fun y hy => hys y (by simp [hy])) hRest]

end Pbft.Records
