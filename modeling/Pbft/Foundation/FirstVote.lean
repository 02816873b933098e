import Mathlib.Data.Finset.Card
import Mathlib.Data.Finset.Dedup

/-! # Counting first votes

Votes come in one after the other, and of several votes of one voter the first one counts. What a
value is supported by only grows, and the next vote adds its voter to one value or to none.
-/
namespace Pbft.FirstVote
set_option autoImplicit false

universe u v

variable {ι : Type u} {α : Type v} [DecidableEq ι]

/-- What i has voted for first, among the votes from the oldest to the latest. -/
def first (votes : List (ι × α)) (i : ι) : Option α := (votes.find? fun vote => vote.1 = i).map Prod.snd

def voters (votes : List (ι × α)) : Finset ι := (votes.map Prod.fst).toFinset

variable {votes : List (ι × α)} {i : ι} {a b : α}

theorem first_eq_none_iff : first votes i = none ↔ i ∉ voters votes := by
  unfold first voters
  rw [Option.map_eq_none_iff, List.find?_eq_none, List.mem_toFinset, List.mem_map]
  constructor
  · rintro h ⟨vote, hVote, rfl⟩
    exact h vote hVote (decide_eq_true rfl)
  · intro h vote hVote hId
    exact h ⟨vote, hVote, of_decide_eq_true hId⟩

theorem first_append (j : ι) :
    first (votes ++ [(i, a)]) j = (first votes j).or (if i = j then some a else none) := by
  unfold first
  rw [List.find?_append, List.find?_singleton, Option.map_or]
  split
  · rename_i hId
    rw [if_pos (of_decide_eq_true hId)]
    rfl
  · rename_i hId
    rw [if_neg fun h => hId (decide_eq_true h)]
    rfl

theorem voters_append : voters (votes ++ [(i, a)]) = insert i (voters votes) := by
  unfold voters
  rw [List.map_append, List.toFinset_append, Finset.union_comm]
  rfl

variable [DecidableEq α]

def support (votes : List (ι × α)) (a : α) : Finset ι := (voters votes).filter fun i => first votes i = some a

theorem mem_support : i ∈ support votes a ↔ first votes i = some a := by
  unfold support
  rw [Finset.mem_filter]
  constructor
  · exact fun h => h.2
  · intro h
    refine ⟨?_, h⟩
    by_contra hNot
    rw [first_eq_none_iff.mpr hNot] at h
    cases h

theorem support_nil : support ([] : List (ι × α)) a = ∅ := rfl

/-- A voter who has voted before changes nothing. -/
theorem support_append_of_mem (h : i ∈ voters votes) : support (votes ++ [(i, a)]) b = support votes b := by
  ext j
  rw [mem_support, mem_support, first_append]
  cases hFirst : first votes j with
  | some x => rfl
  | none =>
    have hNe : i ≠ j := by
      rintro rfl
      exact first_eq_none_iff.mp hFirst h
    rw [if_neg hNe]
    rfl

theorem support_append_of_notMem (h : i ∉ voters votes) :
    support (votes ++ [(i, a)]) b = if a = b then insert i (support votes b) else support votes b := by
  have hFirst := first_eq_none_iff.mpr h
  ext j
  rw [mem_support, first_append]
  by_cases hId : i = j
  · subst hId
    rw [hFirst, if_pos rfl]
    split
    · rename_i hab
      simp [hab]
    · rename_i hab
      rw [mem_support, hFirst]
      simp [hab]
  · have hNe : j ≠ i := fun hji => hId hji.symm
    rw [if_neg hId, Option.or_none, ← mem_support]
    split
    · rw [Finset.mem_insert, or_iff_right hNe]
    · exact Iff.rfl

theorem card_support_append (h : i ∉ voters votes) :
    (support (votes ++ [(i, a)]) b).card = (support votes b).card + if a = b then 1 else 0 := by
  rw [support_append_of_notMem h]
  split
  · refine Finset.card_insert_of_notMem fun hMem => h ?_
    exact (Finset.mem_filter.mp hMem).1
  · rfl

theorem card_support_mono : (support votes b).card ≤ (support (votes ++ [(i, a)]) b).card := by
  by_cases h : i ∈ voters votes
  · rw [support_append_of_mem h]
  · rw [card_support_append h]
    omega

end Pbft.FirstVote
