import Mathlib.Data.Finset.Card
import Std.Data.ExtTreeMap

/-! # Ordered maps with lawful comparison

The library states lookups through the comparison function. Where comparison decides
equality, the same facts hold with equality of keys, which is how a client wants them.
-/
namespace Pbft.TreeMap
set_option autoImplicit false

open Std

universe u v

variable {α : Type u} {β : Type v} {cmp : α → α → Ordering} [TransCmp cmp]
variable {t : ExtTreeMap α β cmp}

theorem getD_of_lookup {a : α} {v fallback : β} (h : t[a]? = some v) : t.getD a fallback = v := by
  simp [ExtTreeMap.getD_eq_getD_getElem?, h]

theorem mem_iff_exists {k : α} : k ∈ t ↔ ∃ v, t[k]? = some v := by
  rw [ExtTreeMap.mem_iff_isSome_getElem?, Option.isSome_iff_exists]

variable [LawfulEqCmp cmp]

theorem lookup_insert [DecidableEq α] (k a : α) (v : β) :
    (t.insert k v)[a]? = if k = a then some v else t[a]? := by
  simp [ExtTreeMap.getElem?_insert]

theorem mem_insert (k a : α) (v : β) : a ∈ t.insert k v ↔ k = a ∨ a ∈ t := by
  simp [ExtTreeMap.mem_insert]

theorem insert_of_lookup {k : α} {v : β} (h : t[k]? = some v) : t.insert k v = t := by
  classical
  refine ExtTreeMap.ext_getElem? fun a => ?_
  rw [lookup_insert]
  split
  · rename_i hka
    rw [← hka, h]
  · rfl

theorem insert_insert (k : α) (v w : β) : (t.insert k w).insert k v = t.insert k v := by
  classical
  refine ExtTreeMap.ext_getElem? fun a => ?_
  simp only [lookup_insert]
  split <;> rfl

theorem getD_insert [DecidableEq α] (k a : α) (v fallback : β) :
    (t.insert k v).getD a fallback = if k = a then v else t.getD a fallback := by
  simp [ExtTreeMap.getD_insert]

theorem lookup_filter (f : α → β → Bool) (k : α) (v : β) :
    (t.filter f)[k]? = some v ↔ t[k]? = some v ∧ f k v = true := by
  rw [ExtTreeMap.getElem?_filter', Option.filter_eq_some_iff]

theorem getD_filter (f : α → Bool) (k : α) (fallback : β) :
    (t.filter fun a _ => f a).getD k fallback = if f k then t.getD k fallback else fallback := by
  rw [ExtTreeMap.getD_eq_getD_getElem?, ExtTreeMap.getElem?_filter',
    ExtTreeMap.getD_eq_getD_getElem?]
  cases t[k]? with
  | none => simp
  | some v => cases f k <;> simp [Option.filter]

theorem mem_map_snd_toList {v : β} : v ∈ t.toList.map Prod.snd ↔ ∃ k : α, t[k]? = some v := by
  rw [List.mem_map]
  constructor
  · rintro ⟨⟨k, w⟩, hMem, rfl⟩
    exact ⟨k, ExtTreeMap.mem_toList_iff_getElem?_eq_some.mp hMem⟩
  · rintro ⟨k, hk⟩
    exact ⟨(k, v), ExtTreeMap.mem_toList_iff_getElem?_eq_some.mpr hk, rfl⟩

theorem size_le_card {γ : Type v} [DecidableEq γ] (g : α → γ) (hg : Function.Injective g)
    (S : Finset γ) (h : ∀ k ∈ t, g k ∈ S) : t.size ≤ S.card := by
  have hNodup : (t.keys.map g).Nodup :=
    (ExtTreeMap.nodup_keys (t := t)).map hg
  have hSub : (t.keys.map g).toFinset ⊆ S := by
    intro x hx
    obtain ⟨k, hk, rfl⟩ := List.mem_map.mp (List.mem_toFinset.mp hx)
    exact h k (ExtTreeMap.mem_keys.mp hk)
  calc
    t.size = (t.keys.map g).length := by rw [List.length_map, ExtTreeMap.length_keys]
    _ = (t.keys.map g).toFinset.card := (List.toFinset_card_of_nodup hNodup).symm
    _ ≤ S.card := Finset.card_le_card hSub

theorem getLast?_keys {k : α} (h : t.keys.getLast? = some k) :
    k ∈ t ∧ ∀ a ∈ t, a = k ∨ cmp a k = .lt := by
  obtain ⟨init, hKeys⟩ := List.getLast?_eq_some_iff.mp h
  have hOrdered := ExtTreeMap.ordered_keys (t := t)
  rw [hKeys, List.pairwise_append] at hOrdered
  refine ⟨ExtTreeMap.mem_keys.mp (by simp [hKeys]), fun a ha => ?_⟩
  have hMem : a ∈ t.keys := ExtTreeMap.mem_keys.mpr ha
  rw [hKeys, List.mem_append, List.mem_singleton] at hMem
  rcases hMem with hInit | rfl
  · exact .inr (hOrdered.2.2 a hInit k (List.mem_singleton.mpr rfl))
  · exact .inl rfl

theorem getLast?_keys_eq_none (h : t.keys.getLast? = none) (k : α) : k ∉ t := by
  intro hk
  rw [List.getLast?_eq_none_iff] at h
  exact (List.ne_nil_of_mem (ExtTreeMap.mem_keys.mpr hk)) h

/-- The pairs are listed in the order of their keys, which leaves one list for them. -/
theorem toList_eq {l : List (α × β)} (hOrder : l.Pairwise fun p q => cmp p.1 q.1 = .lt)
    (hMem : ∀ k v, (k, v) ∈ l ↔ t[k]? = some v) : t.toList = l := by
  have hNodup : ∀ l : List (α × β), l.Pairwise (fun p q => cmp p.1 q.1 = .lt) → l.Nodup := by
    refine fun l h => h.imp fun {p q} hpq hEq => ?_
    have hSelf : cmp q.1 q.1 = .eq := ReflCmp.compare_self
    rw [hEq, hSelf] at hpq
    cases hpq
  have hPerm : t.toList.Perm l := by
    refine (List.perm_ext_iff_of_nodup (hNodup _ ExtTreeMap.ordered_keys_toList) (hNodup _ hOrder)).mpr ?_
    rintro ⟨k, v⟩
    rw [ExtTreeMap.mem_toList_iff_getElem?_eq_some, hMem]
  refine hPerm.eq_of_pairwise (fun p q _ _ hpq hqp => ?_) ExtTreeMap.ordered_keys_toList hOrder
  have hSwap : cmp p.1 q.1 = (cmp q.1 p.1).swap := OrientedCmp.eq_swap
  rw [hSwap, hqp] at hpq
  cases hpq

end Pbft.TreeMap
