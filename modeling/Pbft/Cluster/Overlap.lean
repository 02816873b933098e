import Pbft.Cluster

/-! # How far two quorums overlap

A replica commits, makes a checkpoint stable and changes the view on 2f + 1 votes, where f is a third
of n - 1 rounded down. That any two such quorums have a correct replica in common needs n = 3f + 1:
each further replica of a cluster with the same f takes one from what they share.
-/
namespace Pbft.Config
set_option autoImplicit false

variable {σ : Type} {cfg : Config σ}

/-- A set of replicas whose votes make the code act. -/
def IsQuorum (cfg : Config σ) (A : Finset UInt32) : Prop :=
  (∀ r ∈ A, r < cfg.n) ∧ cfg.quorum ≤ A.card

-- the members of the set are run through, not all ids
instance (A : Finset UInt32) : Decidable (IsQuorum cfg A) :=
  have : Decidable (∀ r ∈ A, r < cfg.n) := Finset.decidableDforallFinset
  inferInstanceAs (Decidable (_ ∧ _))

theorem isQuorum_iff {A : Finset UInt32} :
    IsQuorum cfg A ↔ A ⊆ cfg.replicas ∧ 2 * cfg.f.toNat + 1 ≤ A.card := by
  rw [IsQuorum, cfg.quorum_eq]
  apply and_congr_left
  intro _
  exact forall₂_congr fun _ _ => mem_replicas.symm

theorem toNat_f (hn : 1 ≤ cfg.n) : cfg.f.toNat = (cfg.n.toNat - 1) / 3 := by
  rw [f, UInt32.toNat_div, UInt32.toNat_sub_of_le _ _ hn]
  rfl

/-- Rounding leaves up to two replicas beyond 3f + 1. -/
theorem size_cases (hn : 1 ≤ cfg.n) : 3 * cfg.f.toNat + 1 ≤ cfg.n.toNat ∧ cfg.n.toNat ≤ 3 * cfg.f.toNat + 3 := by
  have hPos : 1 ≤ cfg.n.toNat := UInt32.le_iff_toNat_le.mp hn
  have hf := toNat_f hn
  omega

theorem isLeast_overlap (hn : 1 ≤ cfg.n) :
    IsLeast {c | ∃ A B, IsQuorum cfg A ∧ IsQuorum cfg B ∧ (A ∩ B).card = c}
      (4 * cfg.f.toNat + 2 - cfg.n.toNat) := by
  have hSize := size_cases hn
  have hLeast := Quorum.isLeast_card_inter (U := cfg.replicas) (q := 2 * cfg.f.toNat + 1)
    (by rw [card_replicas]; omega)
  rw [card_replicas] at hLeast
  constructor
  · obtain ⟨A, hA, B, hB, hCardA, hCardB, hInter⟩ := hLeast.1
    refine ⟨A, B, isQuorum_iff.mpr ⟨hA, hCardA⟩, isQuorum_iff.mpr ⟨hB, hCardB⟩, ?_⟩
    rw [hInter]
    omega
  · rintro c ⟨A, B, hA, hB, hInter⟩
    obtain ⟨hA, hCardA⟩ := isQuorum_iff.mp hA
    obtain ⟨hB, hCardB⟩ := isQuorum_iff.mp hB
    have hBound := hLeast.2 ⟨A, hA, B, hB, hCardA, hCardB, hInter⟩
    omega

/-- Two quorums share 4f + 2 - n replicas at the least, and that is more than f of them exactly in
clusters of 3f + 1. -/
theorem quorums_overlap (cfg : Config σ) (hn : 1 ≤ cfg.n) :
    IsLeast {c | ∃ A B, IsQuorum cfg A ∧ IsQuorum cfg B ∧ (A ∩ B).card = c}
      (4 * cfg.f.toNat + 2 - cfg.n.toNat) ∧
    ((∀ A B, IsQuorum cfg A → IsQuorum cfg B → cfg.f.toNat + 1 ≤ (A ∩ B).card) ↔
      cfg.n.toNat = 3 * cfg.f.toNat + 1) := by
  have hSize := size_cases hn
  have hLeast := isLeast_overlap hn
  refine ⟨hLeast, ?_, ?_⟩
  · intro hAll
    obtain ⟨A, B, hA, hB, hInter⟩ := hLeast.1
    have hShared := hAll A B hA hB
    omega
  · intro hFits A B hA hB
    have hShared := hLeast.2 ⟨A, B, hA, hB, rfl⟩
    omega

theorem quorums_overlap_four : (1 : UInt32) ≤ (Config.sample 4 200 100).n ∧
    ∀ A B, IsQuorum (Config.sample 4 200 100) A → IsQuorum (Config.sample 4 200 100) B → 2 ≤ (A ∩ B).card :=
  ⟨by decide, (quorums_overlap (Config.sample 4 200 100) (by decide)).2.mpr (by decide)⟩

/-- Six replicas, like four, make up for one fault, and two quorums of three have nobody in common. -/
theorem quorums_disjoint : IsQuorum (Config.sample 6 200 100) {0, 1, 2} ∧
    IsQuorum (Config.sample 6 200 100) {3, 4, 5} ∧ ({0, 1, 2} ∩ {3, 4, 5} : Finset UInt32) = ∅ ∧
    ¬∀ A B, IsQuorum (Config.sample 6 200 100) A → IsQuorum (Config.sample 6 200 100) B →
      (Config.sample 6 200 100).f.toNat + 1 ≤ (A ∩ B).card := by
  have hFirst : IsQuorum (Config.sample 6 200 100) {0, 1, 2} := by decide
  have hSecond : IsQuorum (Config.sample 6 200 100) {3, 4, 5} := by decide
  have hNobody : ({0, 1, 2} ∩ {3, 4, 5} : Finset UInt32) = ∅ := by decide
  refine ⟨hFirst, hSecond, hNobody, fun hAll => ?_⟩
  have hShared := hAll _ _ hFirst hSecond
  rw [hNobody] at hShared
  exact absurd hShared (by decide)

end Pbft.Config
