import Pbft.Node.Window

/-! # The store of checkpoint votes

The votes for the stable checkpoint are the proof that a view change sends along, so they have
to outlive garbage collection. A replica's own vote is stored without any look at the
watermark; that it is never below is a consequence of the log window.
-/
namespace Pbft
set_option autoImplicit false

variable {σ : Type} {cfg : Config σ}

theorem CheckpointVotes.addVote_getD (cp : CheckpointVotes) (digest a : Digest) (r : UInt32) :
    (cp.addVote digest r).votes.getD a ∅ =
      if digest = a then insert r (cp.votes.getD digest ∅) else cp.votes.getD a ∅ :=
  TreeMap.getD_insert digest a _ ∅

theorem CheckpointVotes.addVote_of_mem {cp : CheckpointVotes} {digest : Digest} {r : UInt32}
    (h : r ∈ cp.votes.getD digest ∅) : cp.addVote digest r = cp := by
  cases hVotes : cp.votes[digest]? with
  | none => simp [Std.ExtTreeMap.getD_eq_getD_getElem?, hVotes] at h
  | some voters =>
    rw [TreeMap.getD_of_lookup hVotes] at h
    unfold addVote
    rw [TreeMap.getD_of_lookup hVotes, Finset.insert_eq_of_mem h, TreeMap.insert_of_lookup hVotes]

theorem CheckpointVotes.subset_addVote (cp : CheckpointVotes) (digest a : Digest) (r : UInt32) :
    cp.votes.getD a ∅ ⊆ (cp.addVote digest r).votes.getD a ∅ := by
  rw [addVote_getD]
  split
  · rename_i hEq
    exact hEq ▸ Finset.subset_insert _ _
  · exact Finset.Subset.rfl

namespace Node

structure Store (cfg : Config σ) (h : UInt64) (stableDigest : Digest)
    (checkpoints : Std.ExtTreeMap UInt64 CheckpointVotes) : Prop where
  low : ∀ k cp, checkpoints[k]? = some cp → h ≤ k
  stable : ∀ k cp, checkpoints[k]? = some cp → cp.stable = true → k = h
  proof : 0 < h → ∃ cp, checkpoints[h]? = some cp ∧ cp.stable = true ∧
    cfg.quorum ≤ (cp.votes.getD stableDigest ∅).card

abbrev StoreInv (cfg : Config σ) (s : Node σ) : Prop :=
  Store cfg s.h s.lastStableDigest s.checkpoints

section
variable {h : UInt64} {stableDigest : Digest} {store : Std.ExtTreeMap UInt64 CheckpointVotes}

theorem Store.vote (w : Store cfg h stableDigest store) {k : UInt64} (hLow : h ≤ k)
    (digest : Digest) (r : UInt32) :
    Store cfg h stableDigest (store.insert k ((store.getD k {}).addVote digest r)) where
  low a cp ha := by
    rw [TreeMap.lookup_insert] at ha
    split at ha
    · rename_i hka
      exact hka ▸ hLow
    · exact w.low a cp ha
  stable a cp ha hStable := by
    rw [TreeMap.lookup_insert] at ha
    split at ha
    · rename_i hka
      subst hka
      rw [← Option.some.inj ha] at hStable
      cases hOld : store[k]? with
      | none => simp [CheckpointVotes.addVote, Std.ExtTreeMap.getD_eq_getD_getElem?, hOld] at hStable
      | some old =>
        rw [TreeMap.getD_of_lookup hOld] at hStable
        exact w.stable k old hOld hStable
    · exact w.stable a cp ha hStable
  proof hPos := by
    obtain ⟨cp, hcp, hStable, hQuorum⟩ := w.proof hPos
    rw [TreeMap.lookup_insert]
    split
    · rename_i hka
      subst hka
      refine ⟨_, rfl, ?_, ?_⟩
      · rwa [TreeMap.getD_of_lookup hcp]
      · rw [TreeMap.getD_of_lookup hcp]
        exact hQuorum.trans (Finset.card_le_card (cp.subset_addVote _ _ _))
    · exact ⟨cp, hcp, hStable, hQuorum⟩

theorem Store.advance (w : Store cfg h stableDigest store) {k : UInt64} (hLow : h ≤ k)
    {cp : CheckpointVotes} {digest : Digest}
    (hQuorum : cfg.quorum ≤ (cp.votes.getD digest ∅).card) :
    Store cfg k digest ((store.insert k { cp with stable := true }).filter fun a _ => !decide (a < k)) where
  low a v ha := by
    have hKept := ((TreeMap.lookup_filter _ a v).mp ha).2
    simpa using hKept
  stable a v ha hStable := by
    obtain ⟨hIn, hKept⟩ := (TreeMap.lookup_filter _ a v).mp ha
    rw [TreeMap.lookup_insert] at hIn
    split at hIn
    · rename_i hka
      exact hka.symm
    · have hOld : a = h := w.stable a v hIn hStable
      have hNew : k ≤ a := by simpa using hKept
      exact UInt64.le_antisymm (hOld ▸ hLow) hNew
  proof _ := by
    refine ⟨{ cp with stable := true }, (TreeMap.lookup_filter _ k _).mpr ⟨?_, ?_⟩, rfl, hQuorum⟩
    · rw [TreeMap.lookup_insert, if_pos rfl]
    · simp

end

theorem storeInv_init (t : Bool) : StoreInv cfg (Node.init cfg t) where
  low k cp hk := by simp [Node.init] at hk
  stable k cp hk := by simp [Node.init] at hk
  proof hPos := absurd hPos (UInt64.lt_irrefl 0)

theorem storeInv_step {s₀ s s' : Node σ} {i : Input} (hWindow : WindowInv cfg s) (w : StoreInv cfg s)
    (hStep : Step cfg s₀ i s s') : StoreInv cfg s' := by
  cases hStep with
  | execute hEntry =>
    rw [executeEntry_eq]
    by_cases hDue : s.checkpointDue cfg
    · have hLow := hWindow.low _ (TreeMap.mem_iff_exists.mpr ⟨_, hEntry⟩)
      simpa only [if_pos hDue] using w.vote hLow _ cfg.id
    · simpa only [if_neg hDue] using w
  | voteCheckpoint _ hLow => exact w.vote hLow _ _
  | stabilize _ hLow _ _ hQuorum => exact w.advance hLow hQuorum
  | beginViewChange =>
    rw [beginViewChange_eq]
    exact w
  | _ => exact w

theorem storeInv_reach {t : Bool} {ok : Node σ → Input → Prop} {s : Node σ}
    (hs : Reach cfg t ok s) : StoreInv cfg s :=
  (Reach.invariant (I := fun s => WindowInv cfg s ∧ StoreInv cfg s) ⟨windowInv_init t, storeInv_init t⟩
    (fun _ _ _ _ _ _ h hStep => ⟨windowInv_step h.1 hStep, storeInv_step h.1 h.2 hStep⟩) hs).2

theorem stableDigest_step {s₀ s s' : Node σ} {i : Input} (w : StoreInv cfg s) (hPos : 0 < s.h)
    (hStep : Step cfg s₀ i s s') (hSame : s'.h = s.h) : s'.lastStableDigest = s.lastStableDigest := by
  cases hStep with
  | @stabilize _ m _ _ _ _ hVotes hUnstable =>
    obtain ⟨cp, hcp, hStable, -⟩ := w.proof hPos
    have hKey : m.seqNum = s.h := hSame
    rw [← hKey, hVotes] at hcp
    cases hcp
    exact absurd hStable (by simp [hUnstable])
  | execute => rw [executeEntry_eq]
  | beginViewChange => rw [beginViewChange_eq]
  | _ => rfl

theorem stableDigest_handle {i : Input} {s s' : Node σ} (hWindow : WindowInv cfg s)
    (w : StoreInv cfg s) (hPos : 0 < s.h) (h : s.handle cfg i = some s') (hSame : s'.h = s.h) :
    s'.lastStableDigest = s.lastStableDigest := by
  have hAll : WindowInv cfg s' ∧ StoreInv cfg s' ∧ s.h ≤ s'.h ∧
      (s'.h = s.h → s'.lastStableDigest = s.lastStableDigest) := by
    refine handle_invariant (I := fun t => WindowInv cfg t ∧ StoreInv cfg t ∧ s.h ≤ t.h ∧
        (t.h = s.h → t.lastStableDigest = s.lastStableDigest))
      (fun t t' ht hStep => ?_) ⟨hWindow, w, UInt64.le_refl _, fun _ => rfl⟩ h
    obtain ⟨hWindow, w, hLow, hDigest⟩ := ht
    have hMono := (watermarks_step hWindow hStep).1
    refine ⟨windowInv_step hWindow hStep, storeInv_step hWindow w hStep,
      UInt64.le_trans hLow hMono, fun hEq => ?_⟩
    have hBefore : t.h = s.h := UInt64.le_antisymm (hEq ▸ hMono) hLow
    rw [stableDigest_step w (hBefore ▸ hPos) hStep (hEq.trans hBefore.symm)]
    exact hDigest hBefore
  exact hAll.2.2.2 hSame

/-- The store of checkpoint votes under arbitrary inputs: nothing below the watermark, nothing
stable but the checkpoint at the watermark, and for that one a quorum that lasts, under the same
digest, for as long as the watermark stays. -/
theorem checkpoint_store {t : Bool} {s : Node σ} (hs : Reach cfg t Anything s) :
    (∀ k cp, s.checkpoints[k]? = some cp → s.h ≤ k ∧ (cp.stable = true → k = s.h)) ∧
    (0 < s.h → ∃ cp, s.checkpoints[s.h]? = some cp ∧ cp.stable = true ∧
      2 * cfg.f.toNat + 1 ≤ (cp.votes.getD s.lastStableDigest ∅).card) ∧
    (0 < s.h → ∀ i s', s.handle cfg i = some s' → s'.h = s.h →
      s'.lastStableDigest = s.lastStableDigest) := by
  have w := storeInv_reach hs
  refine ⟨fun k cp hk => ⟨w.low k cp hk, w.stable k cp hk⟩, ?_, fun hPos i s' hCall =>
    stableDigest_handle (windowInv_reach hs) w hPos hCall⟩
  rw [← cfg.quorum_eq]
  exact w.proof

theorem checkpoint_store_ahead : ∃ s, Reach (Config.sample 4 200 100) false Anything s ∧
    s.h = 100 ∧ s.lastExec = 0 ∧ ∃ cp, s.checkpoints[s.h]? = some cp ∧ cp.stable = true ∧
      3 ≤ (cp.votes.getD s.lastStableDigest ∅).card := by
  obtain ⟨s, hs, hLow, hExec⟩ := Machine.exists_reach (machine (Config.sample 4 200 100) false) Anything
    ([1, 2, 3].map fun r => .recv (.checkpoint ⟨100, 7, r⟩) 0) (fun s => s.h = 100 ∧ s.lastExec = 0)
    (by decide +kernel)
  have hPos : 0 < s.h := by simp [hLow]
  exact ⟨s, hs, hLow, hExec, (checkpoint_store hs).2.1 hPos⟩

end Node
end Pbft
