import Pbft.Node.Reissue
import Pbft.Node.Run

/-! # What the O set should contain

The numbers of the O set are right for every V set that the loop can work through. The digest of a
number is taken from the proof with the highest view, provided that this view is not zero: the
search starts from zero and asks for more, so a number with proofs from view zero only is filled
with the null request.
-/
namespace Pbft
set_option autoImplicit false

variable {σ : Type} {cfg : Config σ}

/-- A proof for the number n that no other one for n exceeds in its view. -/
structure Newest (V : List ViewChangeMsg) (n : UInt64) (pr : PrepareProof) : Prop where
  mem : pr ∈ proofs V
  seq : pr.seqNum = n
  highest : ∀ a ∈ proofs V, a.seqNum = n → a.view ≤ pr.view

/-- The O set of V as the protocol has it: one pre-prepare for each number above all stable
checkpoints and not above all proofs, in increasing order. -/
structure OSetSpec (cfg : Config σ) (V : List ViewChangeMsg) (O : List PrePrepareMsg) : Prop where
  ordered : O.Pairwise fun a b => a.seqNum < b.seqNum
  numbers : ∀ n, (∃ pp ∈ O, pp.seqNum = n) ↔
    (∀ vc ∈ V, vc.lastStableCheckpoint < n) ∧ ∃ pr ∈ proofs V, n ≤ pr.seqNum
  digest : ∀ pp ∈ O, (∃ pr, Newest V pp.seqNum pr ∧ pp.reqDigest = pr.digest) ∨
    ((∀ pr ∈ proofs V, pr.seqNum ≠ pp.seqNum) ∧ pp.reqDigest = cfg.emptyHash)

/-- Each number that is re-issued and has a proof at all has one that the search finds, or one that
asks for the null request anyway. -/
def Selectable (cfg : Config σ) (V : List ViewChangeMsg) : Prop :=
  ∀ pr ∈ proofs V, minS V < pr.seqNum → ∃ a ∈ proofs V, a.seqNum = pr.seqNum ∧
    (0 < a.view ∨ a.digest = cfg.emptyHash)

instance (V : List ViewChangeMsg) : Decidable (Selectable cfg V) :=
  inferInstanceAs (Decidable (∀ _ ∈ _, _))

theorem oSet_ordered {nextView : UInt64} {V : List ViewChangeMsg} {O : List PrePrepareMsg}
    (hBounded : Bounded V) (h : oSet cfg nextView V = some O) :
    O.Pairwise fun a b => a.seqNum < b.seqNum := by
  have hNumbers := oSet_numbers h (bounded_iff.mp hBounded).1
  have hRange : (O.map fun pp => pp.seqNum.toNat).Pairwise (· < ·) := by
    rw [hNumbers]
    exact List.pairwise_lt_range' 1
  rw [List.pairwise_map] at hRange
  exact hRange.imp UInt64.lt_iff_toNat_lt.mpr

theorem oSet_range {nextView : UInt64} {V : List ViewChangeMsg} {O : List PrePrepareMsg}
    (hBounded : Bounded V) (h : oSet cfg nextView V = some O) (n : UInt64) :
    (∃ pp ∈ O, pp.seqNum = n) ↔ minS V < n ∧ n ≤ maxS 0 V := by
  have hMin := (bounded_iff.mp hBounded).1
  have hSucc : (minS V + 1).toNat = (minS V).toNat + 1 := by
    rcases Word.toNat_succ_cases (minS V) with hSucc | ⟨hLargest, -⟩
    · exact hSucc
    · omega
  have hNext : ∀ k : UInt64, minS V + 1 ≤ k ↔ minS V < k := by
    intro k
    rw [UInt64.le_iff_toNat_le, hSucc, UInt64.lt_iff_toNat_lt]
    exact Nat.succ_le_iff
  constructor
  · rintro ⟨pp, hpp, rfl⟩
    obtain ⟨k, hLow, hHigh, rfl⟩ := (mem_oSet h pp).mp hpp
    rw [reissue_seqNum]
    exact ⟨(hNext k).mp hLow, hHigh⟩
  · rintro ⟨hLow, hHigh⟩
    refine ⟨reissue cfg nextView V n, (mem_oSet h _).mpr ⟨n, (hNext n).mpr hLow, hHigh, rfl⟩, ?_⟩
    exact reissue_seqNum cfg nextView V n

theorem range_iff {V : List ViewChangeMsg} {n : UInt64} : (minS V < n ∧ n ≤ maxS 0 V) ↔
    (∀ vc ∈ V, vc.lastStableCheckpoint < n) ∧ ∃ pr ∈ proofs V, n ≤ pr.seqNum := by
  rw [minS_lt_iff, le_maxS_iff]
  constructor
  · rintro ⟨⟨hPos, hStable⟩, hZero | hProof⟩
    · exact absurd hPos (UInt64.not_lt.mpr hZero)
    · exact ⟨hStable, hProof⟩
  · rintro ⟨hStable, pr, hpr, hle⟩
    refine ⟨⟨?_, hStable⟩, .inr ⟨pr, hpr, hle⟩⟩
    obtain ⟨vc, hvc, -⟩ := List.mem_flatMap.mp hpr
    exact UInt64.lt_of_le_of_lt (UInt64.le_iff_toNat_le.mpr (Nat.zero_le _)) (hStable vc hvc)

theorem reissue_of_found {nextView n : UInt64} {V : List ViewChangeMsg} {pr : PrepareProof}
    (hpr : pr ∈ proofs V) (hSeq : pr.seqNum = n) (hPos : 0 < pr.view) :
    ∃ a, Newest V n a ∧ (reissue cfg nextView V n).reqDigest = a.digest := by
  have hCovers := selectProof_covers V n
  have hFound := selectProof_found hpr hSeq hPos
  obtain ⟨a, ha, hn, hView, hDigest⟩ := hCovers.found hFound
  refine ⟨a, ⟨ha, hn, fun b hb hbn => hView ▸ hCovers.bound b hb hbn⟩, ?_⟩
  unfold reissue
  simp only [hFound, if_true]
  exact hDigest.symm

/-- Without a proof from a later view than zero the number is given up. -/
theorem reissue_of_zero {nextView n : UInt64} {V : List ViewChangeMsg}
    (hZero : ∀ pr ∈ proofs V, pr.seqNum = n → ¬0 < pr.view) :
    (reissue cfg nextView V n).reqDigest = cfg.emptyHash := by
  have hMissing : (selectProof V n).found = false := by
    by_contra hFound
    rw [Bool.not_eq_false] at hFound
    obtain ⟨pr, hpr, hn, hView, -⟩ := (selectProof_covers V n).found hFound
    exact hZero pr hpr hn (hView ▸ selectProof_pos hFound)
  unfold reissue
  simp [hMissing]

theorem oSetSpec_iff {nextView : UInt64} {V : List ViewChangeMsg} {O : List PrePrepareMsg}
    (hBounded : Bounded V) (h : oSet cfg nextView V = some O) : OSetSpec cfg V O ↔ Selectable cfg V := by
  constructor
  · intro hSpec pr hpr hLow
    obtain ⟨pp, hpp, hSeq⟩ := (oSet_range hBounded h pr.seqNum).mpr ⟨hLow, le_maxS hpr 0⟩
    by_cases hPos : ∃ a ∈ proofs V, a.seqNum = pr.seqNum ∧ 0 < a.view
    · obtain ⟨a, ha, hn, hView⟩ := hPos
      exact ⟨a, ha, hn, .inl hView⟩
    · have hNull : pp.reqDigest = cfg.emptyHash := by
        obtain ⟨k, -, -, rfl⟩ := (mem_oSet h pp).mp hpp
        rw [reissue_seqNum] at hSeq
        subst hSeq
        exact reissue_of_zero fun a ha hn hView => hPos ⟨a, ha, hn, hView⟩
      rcases hSpec.digest pp hpp with ⟨a, hNewest, hDigest⟩ | ⟨hNone, -⟩
      · exact ⟨a, hNewest.mem, hNewest.seq.trans hSeq, .inr (hDigest.symm.trans hNull)⟩
      · exact absurd hSeq.symm (hNone pr hpr)
  · intro hSelectable
    refine ⟨oSet_ordered hBounded h, fun n => (oSet_range hBounded h n).trans range_iff, fun pp hpp => ?_⟩
    have hRange := (oSet_range hBounded h pp.seqNum).mp ⟨pp, hpp, rfl⟩
    obtain ⟨n, -, -, rfl⟩ := (mem_oSet h pp).mp hpp
    rw [reissue_seqNum] at hRange ⊢
    by_cases hPos : ∃ a ∈ proofs V, a.seqNum = n ∧ 0 < a.view
    · obtain ⟨a, ha, hn, hView⟩ := hPos
      exact .inl (reissue_of_found ha hn hView)
    · have hZero : ∀ a ∈ proofs V, a.seqNum = n → ¬0 < a.view := fun a ha hn hView => hPos ⟨a, ha, hn, hView⟩
      have hNull : (reissue cfg nextView V n).reqDigest = cfg.emptyHash := reissue_of_zero hZero
      by_cases hAny : ∃ pr ∈ proofs V, pr.seqNum = n
      · obtain ⟨pr, hpr, hn⟩ := hAny
        obtain ⟨a, ha, han, hOk⟩ := hSelectable pr hpr (hn ▸ hRange.1)
        rw [hn] at han
        have hDigest : a.digest = cfg.emptyHash := hOk.resolve_left (hZero a ha han)
        refine .inl ⟨a, ⟨ha, han, fun b hb hbn => ?_⟩, hNull.trans hDigest.symm⟩
        exact UInt32.le_trans (UInt32.not_lt.mp (hZero b hb hbn)) (UInt32.le_iff_toNat_le.mpr (Nat.zero_le _))
      · exact .inr ⟨fun pr hpr hn => hAny ⟨pr, hpr, hn⟩, hNull⟩

namespace Node

/-- The call that completes a quorum, written out. -/
theorem onViewchange_of_completes {m : ViewChangeMsg} {s : Node σ} {O : List PrePrepareMsg}
    (h : Completes cfg s m) (hO : oSet cfg m.nextView (s.reports m) = some O) :
    s.onViewchange cfg m =
      some ((s.storeViewChange m).installView m.nextView (s.reports m) O).manageTimer := by
  rw [onViewchange_eq h.1 h.2.1, if_pos h.2.2]
  exact Option.map_eq_some_iff.mpr ⟨O, hO, rfl⟩

/-- The O set that on_viewchange broadcasts is the one of the protocol for exactly the V sets in
which the search overlooks nothing. -/
theorem oSet_correct_iff {m : ViewChangeMsg} {s : Node σ} (hCompletes : Completes cfg s m)
    (hBounded : Bounded (s.reports m)) : ∃ O s', s.onViewchange cfg m = some s' ∧
      s'.sent = s.sent ++ [.newView ⟨m.nextView.toUInt32.toUInt64, s.reports m, O⟩] ∧
      (OSetSpec cfg (s.reports m) O ↔ Selectable cfg (s.reports m)) := by
  have hO : ∃ O, oSet cfg m.nextView (s.reports m) = some O := ⟨_, oSet_of_bounded hBounded⟩
  obtain ⟨O, hO⟩ := hO
  refine ⟨O, _, onViewchange_of_completes hCompletes hO, ?_, oSetSpec_iff hBounded hO⟩
  rw [manageTimer_eq]
  rfl

/-- Reports to the primary of view 4 in which one replica has prepared number 1 in view v. -/
def oneProof (v : UInt32) : List ViewChangeMsg := [⟨4, 0, 1, [], [⟨v, 1, 7⟩]⟩, ⟨4, 0, 2, [], []⟩, ⟨4, 0, 3, [], []⟩]

theorem oSet_correct_iff_later : ∃ s s' : Node (List String),
    Reach (Config.sample 4 200 100) false Anything s ∧ s.reports ⟨4, 0, 3, [], []⟩ = oneProof 1 ∧
    s.onViewchange (Config.sample 4 200 100) ⟨4, 0, 3, [], []⟩ = some s' ∧
    ∃ O, Msg.newView ⟨4, oneProof 1, O⟩ ∈ s'.sent ∧ OSetSpec (Config.sample 4 200 100) (oneProof 1) O := by
  obtain ⟨s, hs, hCompletes, hReports⟩ := Machine.exists_reach (machine (Config.sample 4 200 100) false)
    Anything ((oneProof 1).take 2 |>.map fun m => .recv (.viewChange m) m.replicaId.toNat)
    (fun s => Completes (Config.sample 4 200 100) s ⟨4, 0, 3, [], []⟩ ∧
      s.reports ⟨4, 0, 3, [], []⟩ = oneProof 1) (by decide +kernel)
  have hBounded : Bounded (s.reports ⟨4, 0, 3, [], []⟩) := hReports ▸ by decide
  obtain ⟨O, s', hCall, hSent, hIff⟩ := oSet_correct_iff hCompletes hBounded
  rw [hReports] at hSent hIff
  refine ⟨s, s', hs, hReports, hCall, O, ?_, hIff.mpr (by decide)⟩
  rw [hSent]
  exact List.mem_append_right _ List.mem_cons_self

/-- The proof is from view 0, so number 1 is given to the null request. -/
theorem oSet_overlooks_view_zero : ∃ s s' : Node (List String),
    Reach (Config.sample 4 200 100) false Anything s ∧
    Completes (Config.sample 4 200 100) s ⟨4, 0, 3, [], []⟩ ∧ Bounded (s.reports ⟨4, 0, 3, [], []⟩) ∧
    s.handle (Config.sample 4 200 100) (.recv (.viewChange ⟨4, 0, 3, [], []⟩) 3) = some s' ∧
    ∃ O, s'.sent = s.sent ++ [.newView ⟨4, s.reports ⟨4, 0, 3, [], []⟩, O⟩] ∧
      ¬OSetSpec (Config.sample 4 200 100) (s.reports ⟨4, 0, 3, [], []⟩) O := by
  let pp : PrePrepareMsg := ⟨4, 1, 2, ⟨"", 0, 0⟩⟩
  obtain ⟨s, s', hs, hCall, hCompletes, hReports, hSent⟩ := exists_call (Config.sample 4 200 100) false
    Anything ((oneProof 0).take 2 |>.map fun m => .recv (.viewChange m) m.replicaId.toNat)
    (.recv (.viewChange ⟨4, 0, 3, [], []⟩) 3)
    (fun s s' => Completes (Config.sample 4 200 100) s ⟨4, 0, 3, [], []⟩ ∧
      s.reports ⟨4, 0, 3, [], []⟩ = oneProof 0 ∧ s'.sent = s.sent ++ [.newView ⟨4, oneProof 0, [pp]⟩])
    (by decide +kernel)
  refine ⟨s, s', hs, hCompletes, ?_, hCall, [pp], ?_, fun hSpec => ?_⟩
  · rw [hReports]
    decide
  · rw [hReports]
    exact hSent
  · rw [hReports] at hSpec
    rcases hSpec.digest pp List.mem_cons_self with ⟨pr, hNewest, hDigest⟩ | ⟨hNone, -⟩
    · have hAll : ∀ pr ∈ proofs (oneProof 0), pr.digest = 7 := by decide
      rw [hAll pr hNewest.mem] at hDigest
      exact absurd hDigest (by decide)
    · exact absurd hNone (by decide)

end Node
end Pbft
