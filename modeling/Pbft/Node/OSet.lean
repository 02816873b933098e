import Pbft.Node.Step

/-! # The P set and the O set

What the loops of a view change compute. A proof for n is selected by its view, but only if
that view is above the initial value of the accumulator, which is a view that exists.
-/
namespace Pbft
set_option autoImplicit false

variable {σ : Type} {cfg : Config σ}

def proofs (V : List ViewChangeMsg) : List PrepareProof := V.flatMap (·.preparedProofs)

structure Selection.Covers (n : UInt64) (sel : Selection) (seen : List PrepareProof) : Prop where
  bound : ∀ pr ∈ seen, pr.seqNum = n → pr.view ≤ sel.highestView
  found : sel.found = true → ∃ pr ∈ seen, pr.seqNum = n ∧ pr.view = sel.highestView ∧
    pr.digest = sel.reqDigest
  missing : sel.found = false → sel.highestView = 0

theorem Selection.Covers.consider {n : UInt64} {sel : Selection} {seen : List PrepareProof}
    (h : sel.Covers n seen) (pr : PrepareProof) : (sel.consider n pr).Covers n (seen ++ [pr]) := by
  unfold Selection.consider
  split
  · rename_i hBetter
    refine ⟨fun a ha hn => ?_, fun _ => ⟨pr, by simp, hBetter.1, rfl, rfl⟩, fun hMissing => nomatch hMissing⟩
    rcases List.mem_append.mp ha with ha | ha
    · exact UInt32.le_of_lt (UInt32.lt_of_le_of_lt (h.bound a ha hn) hBetter.2)
    · rw [List.mem_singleton.mp ha]
      exact UInt32.le_refl _
  · rename_i hWorse
    constructor
    · intro a ha hn
      rcases List.mem_append.mp ha with ha | ha
      · exact h.bound a ha hn
      · rw [List.mem_singleton.mp ha] at hn ⊢
        exact UInt32.not_lt.mp fun hlt => hWorse ⟨hn, hlt⟩
    · intro hFound
      obtain ⟨a, ha, hRest⟩ := h.found hFound
      exact ⟨a, List.mem_append_left _ ha, hRest⟩
    · exact h.missing

theorem Selection.Covers.foldl {n : UInt64} (l : List PrepareProof) {sel : Selection}
    {seen : List PrepareProof} (h : sel.Covers n seen) :
    (l.foldl (Selection.consider n) sel).Covers n (seen ++ l) := by
  induction l generalizing sel seen with
  | nil => simpa using h
  | cons pr l ih => simpa using ih (h.consider pr)

theorem selectProof_covers (V : List ViewChangeMsg) (n : UInt64) :
    (selectProof V n).Covers n (proofs V) := by
  have hStart : ({} : Selection).Covers n [] := ⟨by simp, by simp, by simp⟩
  have hAll := hStart.foldl (proofs V)
  rwa [proofs, List.foldl_flatMap, List.nil_append] at hAll

theorem selectProof_found {V : List ViewChangeMsg} {n : UInt64} {pr : PrepareProof}
    (hpr : pr ∈ proofs V) (hSeq : pr.seqNum = n) (hPos : 0 < pr.view) : (selectProof V n).found = true := by
  have hCovers := selectProof_covers V n
  by_contra hMissing
  have hBound := hCovers.bound pr hpr hSeq
  rw [hCovers.missing (Bool.eq_false_iff.mpr hMissing)] at hBound
  exact UInt32.lt_irrefl _ (UInt32.lt_of_lt_of_le hPos hBound)

/-- A view is only taken over if it is above the one before, so zero never is. -/
theorem selectProof_pos {V : List ViewChangeMsg} {n : UInt64} (h : (selectProof V n).found = true) :
    0 < (selectProof V n).highestView := by
  have hFold : ∀ (l : List PrepareProof) (sel : Selection), (sel.found = true → 0 < sel.highestView) →
      (l.foldl (Selection.consider n) sel).found = true → 0 < (l.foldl (Selection.consider n) sel).highestView := by
    intro l
    induction l with
    | nil => exact fun sel hSel => hSel
    | cons pr l ih =>
      intro sel hSel
      refine ih _ fun hFound => ?_
      unfold Selection.consider at hFound ⊢
      split
      · rename_i hBetter
        exact UInt32.lt_of_le_of_lt (UInt32.le_iff_toNat_le.mpr (Nat.zero_le _)) hBetter.2
      · rename_i hWorse
        rw [if_neg hWorse] at hFound
        exact hSel hFound
  have hAll := hFold (proofs V) {} (by simp)
  rw [proofs, List.foldl_flatMap] at hAll
  exact hAll h

theorem reissueLoop_mem {nextView last n : UInt64} {V : List ViewChangeMsg} {fuel : Nat}
    {O : List PrePrepareMsg} (h : reissueLoop cfg nextView V last fuel n = some O) {k : UInt64}
    (hn : n ≤ k) (hk : k ≤ last) : reissue cfg nextView V k ∈ O := by
  induction fuel generalizing n O with
  | zero => cases h
  | succ fuel ih =>
    rw [reissueLoop, if_pos (UInt64.le_trans hn hk)] at h
    obtain ⟨O', hRest, rfl⟩ := Option.map_eq_some_iff.mp h
    rcases UInt64.le_iff_lt_or_eq.mp hn with hlt | rfl
    · refine List.mem_cons_of_mem _ (ih hRest ?_)
      rw [UInt64.le_iff_toNat_le, Word.toNat_succ hlt]
      exact UInt64.lt_iff_toNat_lt.mp hlt
    · exact List.mem_cons_self

theorem exists_of_mem_reissueLoop {nextView last n : UInt64} {V : List ViewChangeMsg} {fuel : Nat}
    {O : List PrePrepareMsg} (h : reissueLoop cfg nextView V last fuel n = some O)
    {pp : PrePrepareMsg} (hpp : pp ∈ O) : ∃ k, pp = reissue cfg nextView V k := by
  induction fuel generalizing n O with
  | zero => cases h
  | succ fuel ih =>
    rw [reissueLoop] at h
    split at h
    · obtain ⟨O', hRest, rfl⟩ := Option.map_eq_some_iff.mp h
      rcases List.mem_cons.mp hpp with rfl | hpp
      · exact ⟨n, rfl⟩
      · exact ih hRest hpp
    · cases h
      cases hpp

theorem reissue_digest (cfg : Config σ) (nextView : UInt64) (V : List ViewChangeMsg) (n : UInt64) :
    (reissue cfg nextView V n).reqDigest = cfg.emptyHash ∨
      ∃ pr ∈ proofs V, pr.digest = (reissue cfg nextView V n).reqDigest := by
  unfold reissue
  dsimp only
  split
  · rename_i hFound
    obtain ⟨pr, hpr, -, -, hDigest⟩ := (selectProof_covers V n).found hFound
    exact .inr ⟨pr, hpr, hDigest⟩
  · exact .inl rfl

theorem le_minS {V : List ViewChangeMsg} {vc : ViewChangeMsg} (h : vc ∈ V) :
    vc.lastStableCheckpoint ≤ minS V :=
  (Word.le_foldl_max _ V 0).2 vc h

theorem le_maxS {V : List ViewChangeMsg} {pr : PrepareProof} (h : pr ∈ proofs V) (start : UInt64) :
    pr.seqNum ≤ maxS start V := by
  have hAll := (Word.le_foldl_max (fun pr : PrepareProof => pr.seqNum) (proofs V) start).2 pr h
  rwa [proofs, List.foldl_flatMap] at hAll

def carriers (V : List ViewChangeMsg) (n : UInt64) (digest : Digest) : Finset UInt32 :=
  ((V.filter fun vc => vc.preparedProofs.any fun pr => pr.seqNum == n && pr.digest == digest).map
    (·.replicaId)).toFinset

theorem mem_carriers {V : List ViewChangeMsg} {n : UInt64} {digest : Digest} {r : UInt32} :
    r ∈ carriers V n digest ↔ ∃ vc ∈ V, vc.replicaId = r ∧
      ∃ pr ∈ vc.preparedProofs, pr.seqNum = n ∧ pr.digest = digest := by
  simp [carriers, and_comm, and_left_comm]

/-- A digest with f + 1 carriers has a proof from a view that the search does not pass over. -/
def Visible (cfg : Config σ) (V : List ViewChangeMsg) : Prop :=
  ∀ pr ∈ proofs V, minS V < pr.seqNum → cfg.f.toNat + 1 ≤ (carriers V pr.seqNum pr.digest).card →
    ∃ pr' ∈ proofs V, pr'.seqNum = pr.seqNum ∧ 0 < pr'.view

instance (V : List ViewChangeMsg) : Decidable (Visible cfg V) :=
  inferInstanceAs (Decidable (∀ _ ∈ _, _))

theorem selectProof_of_unique {V : List ViewChangeMsg} {n : UInt64} {digest : Digest}
    {pr : PrepareProof} (hpr : pr ∈ proofs V) (hSeq : pr.seqNum = n) (hPos : 0 < pr.view)
    (hUnique : ∀ a ∈ proofs V, a.seqNum = n → a.digest = digest) :
    (selectProof V n).found = true ∧ (selectProof V n).reqDigest = digest := by
  have hFound := selectProof_found hpr hSeq hPos
  obtain ⟨a, ha, hn, -, hDigest⟩ := (selectProof_covers V n).found hFound
  exact ⟨hFound, hDigest ▸ hUnique a ha hn⟩

theorem oSet_of_visible {nextView n : UInt64} {V : List ViewChangeMsg} {O : List PrePrepareMsg}
    {digest : Digest} (hVisible : Visible cfg V) (hO : oSet cfg nextView V = some O)
    (hMin : minS V < n) (hCarriers : cfg.f.toNat + 1 ≤ (carriers V n digest).card)
    (hUnique : ∀ pr ∈ proofs V, pr.seqNum = n → pr.digest = digest) :
    ∃ pp ∈ O, pp.seqNum = n ∧ pp.reqDigest = digest := by
  obtain ⟨r, hr⟩ := Finset.card_pos.mp (Nat.lt_of_lt_of_le (Nat.succ_pos _) hCarriers)
  obtain ⟨vc, hvc, -, pr, hpr, rfl, rfl⟩ := mem_carriers.mp hr
  have hMem : pr ∈ proofs V := List.mem_flatMap.mpr ⟨vc, hvc, hpr⟩
  obtain ⟨pr', hpr', hSeq, hPos⟩ := hVisible pr hMem hMin hCarriers
  have hSelected := selectProof_of_unique hpr' hSeq hPos hUnique
  have hNext : minS V + 1 ≤ pr.seqNum := by
    rw [UInt64.le_iff_toNat_le, Word.toNat_succ hMin]
    exact UInt64.lt_iff_toNat_lt.mp hMin
  refine ⟨_, reissueLoop_mem hO hNext (le_maxS hMem 0), ?_⟩
  unfold reissue
  simp only [hSelected.1, if_true]
  exact ⟨trivial, hSelected.2⟩

theorem Node.mem_preparedProofs {s : Node σ} {pr : PrepareProof} :
    pr ∈ s.preparedProofs ↔ ∃ (k : UInt64) (e : ReqLogEntry), s.reqlog[k]? = some e ∧ e.stage = .prepared ∧
      pr = ⟨e.view, e.seq, e.digest⟩ := by
  unfold preparedProofs
  rw [List.mem_filterMap]
  constructor
  · rintro ⟨⟨k, e⟩, hMem, hpr⟩
    dsimp only at hpr
    split at hpr
    · rename_i hStage
      exact ⟨k, e, Std.ExtTreeMap.mem_toList_iff_getElem?_eq_some.mp hMem, hStage,
        (Option.some.inj hpr).symm⟩
    · cases hpr
  · rintro ⟨k, e, hLookup, hStage, rfl⟩
    exact ⟨(k, e), Std.ExtTreeMap.mem_toList_iff_getElem?_eq_some.mpr hLookup, if_pos hStage⟩

def Node.Stored (s : Node σ) (view r : UInt32) (m : ViewChangeMsg) : Prop :=
  ∃ vcs, s.viewChangeStore[view]? = some vcs ∧ vcs[r]? = some m

theorem Node.stored_storeViewChange {s : Node σ} {m m' : ViewChangeMsg} {view r : UInt32}
    (h : (s.storeViewChange m).Stored view r m') :
    (m' = m ∧ view = m.nextView.toUInt32 ∧ r = m.replicaId) ∨ s.Stored view r m' := by
  obtain ⟨vcs, hView, hr⟩ := h
  rw [storeViewChange, TreeMap.lookup_insert] at hView
  split at hView
  · rename_i hSame
    rw [← Option.some.inj hView, storedWith, TreeMap.lookup_insert] at hr
    split at hr
    · rename_i hId
      exact .inl ⟨(Option.some.inj hr).symm, hSame.symm, hId.symm⟩
    · cases hOld : s.viewChangeStore[m.nextView.toUInt32]? with
      | none => simp [Std.ExtTreeMap.getD_eq_getD_getElem?, hOld] at hr
      | some old => exact .inr ⟨old, hSame ▸ hOld, by rwa [TreeMap.getD_of_lookup hOld] at hr⟩
  · exact .inr ⟨vcs, hView, hr⟩

theorem Node.stored_of_mem {s : Node σ} {view : UInt32} {vcs : Std.ExtTreeMap UInt32 ViewChangeMsg}
    (hView : s.viewChangeStore[view]? = some vcs) {m : ViewChangeMsg}
    (hm : m ∈ vcs.toList.map Prod.snd) : ∃ r, s.Stored view r m := by
  obtain ⟨r, hr⟩ := TreeMap.mem_map_snd_toList.mp hm
  exact ⟨r, vcs, hView, hr⟩

end Pbft
