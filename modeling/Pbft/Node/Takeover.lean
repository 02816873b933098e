import Pbft.Node.Contiguous

/-! # The first numbers of a new view

A replica takes over with the O set, whose numbers follow the stable checkpoint, and with the
counter at its end if the condition holds. Nothing has been issued in the view before, because the
views of a replica only go up.
-/
namespace Pbft.Node
set_option autoImplicit false

variable {σ : Type} {cfg : Config σ}

def StableNarrow (s : Node σ) : Prop :=
  ∀ view r m, s.Stored view r m → m.lastStableCheckpoint.toNat < 2 ^ 32

theorem stableNarrow_store {m : ViewChangeMsg} {s : Node σ} (hStable : m.lastStableCheckpoint.toNat < 2 ^ 32)
    (w : StableNarrow s) : StableNarrow (s.storeViewChange m) := by
  intro view r m' hm'
  rcases stored_storeViewChange hm' with ⟨rfl, -⟩ | hOld
  · exact hStable
  · exact w view r m' hOld

theorem minS_reports {m : ViewChangeMsg} {s : Node σ} (hStable : m.lastStableCheckpoint.toNat < 2 ^ 32)
    (w : StableNarrow s) : minS (s.reports m) < 0x100000000 := by
  refine minS_lt_iff.mpr ⟨by decide, fun vc hvc => ?_⟩
  have hLookup : (s.storeViewChange m).viewChangeStore[m.nextView.toUInt32]? = some (s.storedWith m) :=
    Std.ExtTreeMap.getElem?_insert_self
  obtain ⟨r, hStored⟩ := stored_of_mem hLookup hvc
  exact stableNarrow_store hStable w _ r vc hStored

theorem proposalInv_installView {m : ViewChangeMsg} {O : List PrePrepareMsg} {s : Node σ}
    (hLater : s.view < m.nextView.toUInt32) (hO : oSet cfg m.nextView (s.reports m) = some O)
    (hStable : minS (s.reports m) < 0x100000000)
    (hTop : s.recomputeHighestSequence = max (minS (s.reports m)) (maxS 0 (s.reports m)))
    (w : ProposalInv cfg s) :
    ProposalInv cfg ((s.storeViewChange m).installView m.nextView (s.reports m) O) := by
  let v := m.nextView.toUInt32
  let nv : NewViewMsg := ⟨v.toUInt64, s.reports m, O⟩
  let t := (s.storeViewChange m).installView m.nextView (s.reports m) O
  have hView : nv.nextView.toUInt32 = v := UInt32.toUInt32_toUInt64 v
  have hSent : t.sent = s.sent ++ [.newView nv] := rfl
  have hSeq : t.seqNum = s.recomputeHighestSequence := rfl
  have hNew : t.issued v = O.map (·.seqNum) := by
    rw [issued_append hSent, w.past v hLater, List.nil_append, Msg.numbers, if_pos hView]
  have hOther : ∀ a, a ≠ v → t.issued a = s.issued a := by
    intro a ha
    rw [issued_append hSent, Msg.numbers, if_neg (hView ▸ Ne.symm ha), List.append_nil]
  have hBound : (minS (s.reports m)).toNat < 2 ^ 32 := UInt64.lt_iff_toNat_lt.mp hStable
  have hRange := oSet_numbers hO (by omega)
  have hLength : O.length = (maxS 0 (s.reports m)).toNat - (minS (s.reports m)).toNat := by
    simpa using congrArg List.length hRange
  have hHere : Continues t v nv := by
    refine ⟨?_, hView, ?_⟩
    · rw [hSent]
      exact List.mem_append_right _ List.mem_cons_self
    · rw [hNew, List.map_map, List.length_map, hLength]
      exact hRange
  refine w.extend (fun _ => List.mem_append_left _) (UInt32.le_of_lt hLater) hOther (fun _ => ?_) fun _ => ?_
  · refine ⟨nv, hHere, ?_⟩
    change t.seqNum.toNat = (minS (s.reports m)).toNat + (t.issued v).length
    rw [hSeq, hTop, Word.toNat_max, hNew, List.length_map, hLength]
    omega
  · refine ⟨last_le_recomputeHighestSequence s, low_le_recomputeHighestSequence s, fun k hk => ?_⟩
    exact le_recomputeHighestSequence (s := s) hk

theorem proposalInv_onViewchange {m : ViewChangeMsg} {s s' : Node σ} (hNarrow : m.nextView.toNat < 2 ^ 32)
    (hStable : m.lastStableCheckpoint.toNat < 2 ^ 32) (hStored : StableNarrow s)
    (hInstalls : Completes cfg s m → s.view.toUInt64 < m.nextView ∧
      s.recomputeHighestSequence = max (minS (s.reports m)) (maxS 0 (s.reports m)))
    (w : ProposalInv cfg s) (hCall : s.onViewchange cfg m = some s') : ProposalInv cfg s' := by
  rcases onViewchange_cases hCall with rfl | ⟨rfl, -⟩ | ⟨hCompletes, O, hO, rfl⟩
  · exact w
  · exact w.keep (fun _ h => h) rfl rfl id fun _ => ⟨rfl, fun c => ⟨c.last, c.low, c.keys⟩⟩
  · obtain ⟨hView, hTop⟩ := hInstalls hCompletes
    have hLater : s.view < m.nextView.toUInt32 := by
      rw [UInt64.lt_iff_toNat_lt, UInt32.toNat_toUInt64] at hView
      rw [UInt32.lt_iff_toNat_lt, toNat_toUInt32 hNarrow]
      exact hView
    have hInstalled := proposalInv_installView hLater hO (minS_reports hStable hStored) hTop w
    rw [manageTimer_eq]
    exact hInstalled.keep (fun _ h => h) rfl rfl id fun _ => ⟨rfl, fun c => ⟨c.last, c.low, c.keys⟩⟩

theorem seqNum_of_completes {i : Input} {m : ViewChangeMsg} {s s' : Node σ} (hm : m ∈ offered? cfg s i)
    (hCompletes : Completes cfg s m) (hCall : s.handle cfg i = some s') :
    s'.seqNum = s.recomputeHighestSequence := by
  have hOffers := offers_of_mem_offered? hm
  rw [handle_offered hOffers] at hCall
  have hInstall : ∀ t : Node σ, Completes cfg t m → t.onViewchange cfg m = some s' →
      s'.seqNum = t.recomputeHighestSequence := by
    intro t ht hCall
    rw [onViewchange_eq ht.1 ht.2.1, if_pos ht.2.2] at hCall
    obtain ⟨O, -, rfl⟩ := Option.map_eq_some_iff.mp hCall
    rw [manageTimer_eq]
    rfl
  rcases hOffers with ⟨conn, rfl⟩ | ⟨rfl, rfl⟩
  · exact hInstall s hCompletes hCall
  · have hBegun : Completes cfg (s.beginViewChange cfg) (s.viewChangeMsg cfg) := by
      rw [beginViewChange_eq]
      exact hCompletes
    have hSeq := hInstall (s.beginViewChange cfg) hBegun hCall
    rw [beginViewChange_eq] at hSeq
    exact hSeq

/-- What correct senders promise about a call: no wide numbers in view changes, and votes only on what
the primary of the view has issued. -/
structure Sincere (cfg : Config σ) (s₀ : Node σ) (i : Input) : Prop where
  narrow : NarrowInput cfg s₀ i
  stable : ∀ m, Offers cfg s₀ i m → m.lastStableCheckpoint.toNat < 2 ^ 32
  votes : ∀ m conn v k, i = .recv m conn → m.slot? = some (v, k) → cfg.id = v % cfg.n → k ∈ s₀.issued v

theorem proposalInv_slot {m : Msg} {conn : Conn} {v : UInt32} {k : UInt64} {s s' : Node σ}
    (hm : m.slot? = some (v, k)) (hVotes : cfg.id = v % cfg.n → k ∈ s.issued v)
    (hIgnored : v ≠ s.view → s' = s) (w : ProposalInv cfg s)
    (hCall : s.handle cfg (.recv m conn) = some s') : ProposalInv cfg s' := by
  obtain ⟨hView, hChanging, hSeq, hCapped⟩ := slot_handle hm hCall
  have hIssued : s'.issued = s.issued := by
    refine issued_handle ?_ (fun m' h => ?_) hCall
    · cases m <;> first | rfl | cases hm
    · rcases h with ⟨_, h⟩ | ⟨h, -⟩
      · cases h
        cases hm
      · cases h
  refine w.keep (fun _ => sent_handle hCall) hIssued hView (hChanging ▸ id) fun h => ⟨hSeq, ?_⟩
  by_cases hCurrent : v = s.view
  · subst hCurrent
    exact hCapped (w.issued_le h (hVotes h.primary))
  · rw [hIgnored hCurrent]
    exact id

theorem proposalInv_startViewChange {s s' : Node σ} (hIn : Sincere cfg s .timeout)
    (hOrderly : Orderly cfg s .timeout) (hStored : StableNarrow s) (w : ProposalInv cfg s)
    (hCall : s.startViewChange cfg = some s') : ProposalInv cfg s' := by
  have hOffers : Offers cfg s .timeout (s.viewChangeMsg cfg) := .inr ⟨rfl, rfl⟩
  have hBegun : ProposalInv cfg (s.beginViewChange cfg) := by
    rw [beginViewChange_eq]
    refine w.keep (fun _ => List.mem_append_left _) (issued_silent rfl fun _ => rfl) rfl (fun h => ?_) fun _ => ?_
    · cases h
    · exact ⟨rfl, fun c => ⟨c.last, c.low, c.keys⟩⟩
  refine proposalInv_onViewchange (hIn.narrow.viewChange _ hOffers) (hIn.stable _ hOffers) ?_ ?_ hBegun hCall
  · rw [beginViewChange_eq]
    exact hStored
  · rw [beginViewChange_eq]
    exact hOrderly.installs (s.viewChangeMsg cfg) rfl

theorem proposalInv_handle {s s' : Node σ} {i : Input} (hUnaliased : Unaliased cfg s)
    (hAccounted : s.Accounted s.seqNum) (hStored : StableNarrow s) (hIn : Sincere cfg s i)
    (hOrderly : Orderly cfg s i) (w : ProposalInv cfg s) (hCall : s.handle cfg i = some s') :
    ProposalInv cfg s' := by
  have hHandler := hCall
  unfold handle at hCall
  split at hCall
  · cases hCall
    exact w.keep (fun _ h => h) rfl rfl id fun _ => ⟨rfl, fun c => ⟨c.last, c.low, c.keys⟩⟩
  · cases hCall
    exact proposalInv_onRequest w
  · cases hCall
    exact proposalInv_onPreprepare hUnaliased w
  · rename_i m conn
    refine proposalInv_slot rfl (hIn.votes _ conn _ _ rfl rfl) (fun hView => ?_) w hHandler
    cases hCall
    exact (onPrepare_cases cfg m conn s).resolve_right fun h => hView h.2.1.2.1
  · rename_i m conn
    refine proposalInv_slot rfl (hIn.votes _ conn _ _ rfl rfl) (fun hView => ?_) w hHandler
    cases hCall
    exact (onCommit_cases cfg m s).resolve_right fun h => hView h.2.1
  · cases hCall
    exact proposalInv_onCheckpoint hAccounted (hOrderly.stable _ rfl) w
  · rename_i m conn
    have hOffers : Offers cfg s (.recv (.viewChange m) conn) m := .inl ⟨conn, rfl⟩
    exact proposalInv_onViewchange (hIn.narrow.viewChange m hOffers) (hIn.stable m hOffers) hStored
      (hOrderly.installs m rfl) w hCall
  · rename_i m conn
    cases hCall
    exact proposalInv_onNewview hUnaliased (hIn.narrow.newView m conn rfl) w
  · exact proposalInv_startViewChange hIn hOrderly hStored w hCall

theorem stableNarrow_step {s₀ s s' : Node σ} {i : Input}
    (hStable : ∀ m, Offers cfg s₀ i m → m.lastStableCheckpoint.toNat < 2 ^ 32) (w : StableNarrow s)
    (hStep : Step cfg s₀ i s s') : StableNarrow s' := by
  cases hStep with
  | storeViewChange hi => exact stableNarrow_store (hStable _ hi) w
  | execute =>
    rw [executeEntry_eq]
    exact w
  | beginViewChange =>
    rw [beginViewChange_eq]
    exact w
  | _ => exact w

end Pbft.Node
