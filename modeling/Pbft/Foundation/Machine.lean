import Mathlib.Logic.Relation

/-! # Partial deterministic machines and their admissible runs

A machine takes one action at a time and may fail to answer. What the environment may do is a
relation between the current state and the action, so that assumptions on the environment and
side conditions on single steps are both restrictions of the same kind.
-/
namespace Pbft
set_option autoImplicit false

universe u v

structure Machine (S : Type u) (A : Type v) where
  init : S
  next : S → A → Option S

namespace Machine
variable {S : Type u} {A : Type v} {M : Machine S A} {ok ok' : S → A → Prop}

/-- The states at the end of a finite run whose steps are all admissible. -/
inductive Reach (M : Machine S A) (ok : S → A → Prop) : S → Prop
  | init : Reach M ok M.init
  | step {s s' : S} {a : A} (hs : Reach M ok s) (ha : ok s a) (hn : M.next s a = some s') :
      Reach M ok s'

theorem Reach.mono (h : ∀ s a, Reach M ok s → ok s a → ok' s a) {s : S} (hs : Reach M ok s) :
    Reach M ok' s := by
  induction hs with
  | init => exact .init
  | step hs ha hn ih => exact .step ih (h _ _ hs ha) hn

/-- The invariant rule. The step may use that its source is itself reachable. -/
theorem Reach.invariant {I : S → Prop} (hInit : I M.init)
    (hStep : ∀ s a s', Reach M ok s → I s → ok s a → M.next s a = some s' → I s')
    {s : S} (hs : Reach M ok s) : I s := by
  induction hs with
  | init => exact hInit
  | step hs ha hn ih => exact hStep _ _ _ hs ih ha hn

def run (M : Machine S A) (ok : S → A → Prop) [∀ s a, Decidable (ok s a)] (s : S) :
    List A → Option S
  | [] => some s
  | a :: as => if ok s a then (M.next s a).bind fun s' => run M ok s' as else none

theorem Reach.of_run [∀ s a, Decidable (ok s a)] {s s' : S} {as : List A} (hs : Reach M ok s)
    (hRun : run M ok s as = some s') : Reach M ok s' := by
  induction as generalizing s with
  | nil => exact Option.some.inj hRun ▸ hs
  | cons a as ih =>
    rw [run] at hRun
    split at hRun
    · rename_i ha
      obtain ⟨t, hNext, hRest⟩ := Option.bind_eq_some_iff.mp hRun
      exact ih (.step hs ha hNext) hRest
    · cases hRun

theorem exists_reach (M : Machine S A) (ok : S → A → Prop) [∀ s a, Decidable (ok s a)] (as : List A)
    (p : S → Prop) [DecidablePred p] (h : (run M ok M.init as).any p = true) :
    ∃ s, Reach M ok s ∧ p s := by
  obtain ⟨s, hRun, hp⟩ := (Option.any_eq_true _ _).mp h
  exact ⟨s, .of_run .init hRun, of_decide_eq_true hp⟩

theorem exists_reach_step (M : Machine S A) (ok : S → A → Prop) [∀ s a, Decidable (ok s a)] (as : List A)
    (a : A) (p : S → S → Prop) [∀ s, DecidablePred (p s)]
    (h : (run M ok M.init as).any (fun s => (M.next s a).any (p s ·)) = true) :
    ∃ s s', Reach M ok s ∧ M.next s a = some s' ∧ p s s' := by
  obtain ⟨s, hRun, hs⟩ := (Option.any_eq_true _ _).mp h
  obtain ⟨s', hNext, hp⟩ := (Option.any_eq_true _ _).mp hs
  exact ⟨s, s', .of_run .init hRun, hNext, of_decide_eq_true hp⟩

/-- A run from s on: its calls with the state each of them was made in, and where it has led. -/
inductive Path (M : Machine S A) (ok : S → A → Prop) (s : S) : List (S × A) → S → Prop
  | nil : Path M ok s [] s
  | snoc {calls : List (S × A)} {t t' : S} {a : A} (h : Path M ok s calls t) (ha : ok t a)
      (hn : M.next t a = some t') : Path M ok s (calls ++ [(t, a)]) t'

theorem Path.reach {s t : S} {calls : List (S × A)} (h : Path M ok s calls t) (hs : Reach M ok s) :
    Reach M ok t := by
  induction h with
  | nil => exact hs
  | snoc _ ha hn ih => exact .step ih ha hn

theorem Path.mem {s t : S} {calls : List (S × A)} (h : Path M ok s calls t) (hs : Reach M ok s)
    {c : S × A} (hc : c ∈ calls) : Reach M ok c.1 ∧ ok c.1 c.2 := by
  induction h with
  | nil => cases hc
  | snoc hPath ha _ ih =>
    rcases List.mem_append.mp hc with hc | hc
    · exact ih hc
    · rw [List.mem_singleton.mp hc]
      exact ⟨hPath.reach hs, ha⟩

theorem Path.of_run [∀ s a, Decidable (ok s a)] {s t u : S} {calls : List (S × A)} {as : List A}
    (h : Path M ok s calls t) (hRun : run M ok t as = some u) : ∃ calls', Path M ok s calls' u := by
  induction as generalizing t calls with
  | nil => exact ⟨calls, Option.some.inj hRun ▸ h⟩
  | cons a as ih =>
    rw [run] at hRun
    split at hRun
    · rename_i ha
      obtain ⟨t', hNext, hRest⟩ := Option.bind_eq_some_iff.mp hRun
      exact ih (.snoc h ha hNext) hRest
    · cases hRun

theorem exists_reach_path (M : Machine S A) (ok : S → A → Prop) [∀ s a, Decidable (ok s a)] (as bs : List A)
    (p : S → S → Prop) [∀ s, DecidablePred (p s)]
    (h : (run M ok M.init as).any (fun s => (run M ok s bs).any (p s ·)) = true) :
    ∃ s t calls, Reach M ok s ∧ Path M ok s calls t ∧ p s t := by
  obtain ⟨s, hRun, hs⟩ := (Option.any_eq_true _ _).mp h
  obtain ⟨t, hMore, hp⟩ := (Option.any_eq_true _ _).mp hs
  obtain ⟨calls, hPath⟩ := Path.of_run .nil hMore
  exact ⟨s, t, calls, .of_run .init hRun, hPath, of_decide_eq_true hp⟩

/-- The same machine with its run so far: every action taken, with the state it was taken in. -/
def record (M : Machine S A) : Machine (S × List (S × A)) A where
  init := (M.init, [])
  next x a := (M.next x.1 a).map fun s' => (s', x.2 ++ [(x.1, a)])

theorem Reach.record_invariant {ok : S × List (S × A) → A → Prop} {I : S → List (S × A) → Prop}
    (hInit : I M.init []) (hStep : ∀ s trace a s', I s trace → ok (s, trace) a → M.next s a = some s' →
      I s' (trace ++ [(s, a)]))
    {x : S × List (S × A)} (hx : Reach M.record ok x) : I x.1 x.2 := by
  induction hx with
  | init => exact hInit
  | step _ ha hn ih =>
    obtain ⟨s', hNext, rfl⟩ := Option.map_eq_some_iff.mp hn
    exact hStep _ _ _ _ ih ha hNext

/-- A property that a step keeps exactly under a condition on its source and its action holds all
along a run exactly if all its steps meet the condition. -/
theorem Reach.record_iff {P : S → Prop} {Q : S → A → Prop} (hInit : P M.init)
    (hStep : ∀ s a s', Reach M ok s → ok s a → P s → M.next s a = some s' → (P s' ↔ Q s a))
    {x : S × List (S × A)} (hx : Reach M.record (fun x => ok x.1) x) :
    ((∀ c ∈ x.2, P c.1) ∧ P x.1) ↔ ∀ c ∈ x.2, Q c.1 c.2 := by
  have hBoth : Reach M ok x.1 ∧ (((∀ c ∈ x.2, P c.1) ∧ P x.1) ↔ ∀ c ∈ x.2, Q c.1 c.2) := by
    apply Reach.record_invariant (I := fun s trace => Reach M ok s ∧
      (((∀ c ∈ trace, P c.1) ∧ P s) ↔ ∀ c ∈ trace, Q c.1 c.2)) _ _ hx
    · exact ⟨.init, iff_of_true ⟨List.forall_mem_nil _, hInit⟩ (List.forall_mem_nil _)⟩
    · rintro s trace a s' ⟨hs, ih⟩ ha hNext
      refine ⟨.step hs ha hNext, ?_⟩
      rw [List.forall_mem_append, List.forall_mem_append, List.forall_mem_singleton, List.forall_mem_singleton, ih]
      apply and_congr_right
      intro hBefore
      exact hStep s a s' hs ha (ih.mpr hBefore).2 hNext
  exact hBoth.2

end Machine
end Pbft
