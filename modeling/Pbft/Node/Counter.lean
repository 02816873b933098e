import Pbft.Node.Window

/-! # The counter of sequence numbers

The counter is recomputed from the last executed number, the low watermark and the highest key
of the log, while garbage collection erases keys. It never falls behind, because whatever it has
counted is executed, covered by the watermark or still a key.
-/
namespace Pbft.Node
set_option autoImplicit false

variable {σ : Type} {cfg : Config σ}

theorem recomputeHighestSequence_cases (s : Node σ) :
    s.recomputeHighestSequence = s.lastExec ∨ s.recomputeHighestSequence = s.h ∨
      s.recomputeHighestSequence ∈ s.reqlog := by
  have hMax : ∀ a b : UInt64, max a b = a ∨ max a b = b := fun a b => by
    simp only [← UInt64.toNat_inj, Word.toNat_max]
    omega
  unfold recomputeHighestSequence
  cases hLast : s.reqlog.keys.getLast? with
  | none =>
    rcases hMax s.lastExec s.h with h | h
    · exact .inl h
    · exact .inr (.inl h)
  | some k =>
    dsimp only
    rcases hMax (max s.lastExec s.h) k with h | h
    · rw [h]
      rcases hMax s.lastExec s.h with h | h
      · exact .inl h
      · exact .inr (.inl h)
    · rw [h]
      exact .inr (.inr (TreeMap.getLast?_keys hLast).1)

theorem recomputeHighestSequence_le {s : Node σ} {b : Nat} (hLast : s.lastExec.toNat ≤ b)
    (hLow : s.h.toNat ≤ b) (hKeys : ∀ k ∈ s.reqlog, k.toNat ≤ b) :
    s.recomputeHighestSequence.toNat ≤ b := by
  rcases recomputeHighestSequence_cases s with h | h | h
  · rwa [h]
  · rwa [h]
  · exact hKeys _ h

theorem last_le_recomputeHighestSequence (s : Node σ) : s.lastExec ≤ s.recomputeHighestSequence := by
  rw [UInt64.le_iff_toNat_le]
  unfold recomputeHighestSequence
  cases s.reqlog.keys.getLast? <;> simp only [Word.toNat_max] <;> omega

theorem low_le_recomputeHighestSequence (s : Node σ) : s.h ≤ s.recomputeHighestSequence := by
  rw [UInt64.le_iff_toNat_le]
  unfold recomputeHighestSequence
  cases s.reqlog.keys.getLast? <;> simp only [Word.toNat_max] <;> omega

theorem le_recompute {s : Node σ} (k : UInt64) (hk : (s.entry k).hasPreprepare = true) :
    k ≤ s.recomputeHighestSequence :=
  le_recomputeHighestSequence (mem_of_hasPreprepare hk)

def Accounted (s : Node σ) (k : UInt64) : Prop := k ≤ s.lastExec ∨ k ≤ s.h ∨ k ∈ s.reqlog

theorem accounted_recompute (s : Node σ) : s.Accounted s.recomputeHighestSequence := by
  rcases recomputeHighestSequence_cases s with h | h | h
  · exact .inl (h ▸ UInt64.le_refl _)
  · exact .inr (.inl (h ▸ UInt64.le_refl _))
  · exact .inr (.inr h)

theorem Accounted.le_recompute {s : Node σ} {k : UInt64} (h : s.Accounted k) :
    k ≤ s.recomputeHighestSequence := by
  rcases h with h | h | h
  · exact UInt64.le_trans h (last_le_recomputeHighestSequence s)
  · exact UInt64.le_trans h (low_le_recomputeHighestSequence s)
  · exact le_recomputeHighestSequence h

theorem Accounted.mono {s t : Node σ} {k : UInt64} (h : s.Accounted k) (hLast : s.lastExec ≤ t.lastExec)
    (hLow : s.h ≤ t.h) (hKeys : k ∈ s.reqlog → k ∈ t.reqlog) : t.Accounted k := by
  rcases h with h | h | h
  · exact .inl (UInt64.le_trans h hLast)
  · exact .inr (.inl (UInt64.le_trans h hLow))
  · exact .inr (.inr (hKeys h))

theorem Accounted.insert {s t : Node σ} {k a : UInt64} {e : ReqLogEntry} (h : s.Accounted a)
    (hLog : t.reqlog = s.reqlog.insert k e) (hLast : t.lastExec = s.lastExec) (hLow : t.h = s.h) :
    t.Accounted a := by
  refine h.mono (hLast ▸ UInt64.le_refl _) (hLow ▸ UInt64.le_refl _) fun ha => ?_
  rw [hLog]
  exact Std.ExtTreeMap.mem_insert.mpr (.inr ha)

/-- What the collection erases is covered by the watermark that it goes by. -/
theorem Accounted.garbageCollect {s : Node σ} {k : UInt64} (h : s.Accounted k) :
    s.garbageCollect.Accounted k := by
  rcases h with h | h | h
  · exact .inl h
  · exact .inr (.inl h)
  · by_cases hk : k ≤ s.h
    · exact .inr (.inl hk)
    · obtain ⟨e, he⟩ := TreeMap.mem_iff_exists.mp h
      refine .inr (.inr (TreeMap.mem_iff_exists.mpr ⟨e, ?_⟩))
      exact (TreeMap.lookup_filter _ _ _).mpr ⟨he, by simpa using hk⟩

/-- The replica in the middle of stabilize, when the counter is recomputed. -/
def raised (cfg : Config σ) (m : CheckpointMsg) (cp : CheckpointVotes) (s : Node σ) : Node σ :=
  advanceWatermarks cfg { s with
    checkpoints := s.checkpoints.insert m.seqNum { cp with stable := true }
    lastStableDigest := m.stateDigest } m.seqNum

theorem stabilize_seqNum (m : CheckpointMsg) (cp : CheckpointVotes) (s : Node σ) :
    (s.stabilize cfg m cp).seqNum = (s.raised cfg m cp).recomputeHighestSequence := rfl

theorem accounted_step {s₀ s s' : Node σ} {i : Input} (w : WindowInv cfg s)
    (h : s.Accounted s.seqNum) (hStep : Step cfg s₀ i s s') :
    s'.Accounted s'.seqNum ∧ s.seqNum ≤ s'.seqNum := by
  cases hStep with
  | propose _ hProposes =>
    refine ⟨.inr (.inr Std.ExtTreeMap.mem_insert_self), ?_⟩
    show s₀.seqNum ≤ s₀.seqNum + 1
    rw [UInt64.le_iff_toNat_le, Word.toNat_succ hProposes.high]
    omega
  | accept | votePrepare | markPrepared | touch | voteCommit | markCommitted =>
    exact ⟨h.insert rfl rfl rfl, UInt64.le_refl _⟩
  | execute hEntry hStage =>
    have hPass : Step cfg s₀ i s (s.executeEntry cfg _) := .execute hEntry hStage
    have hMono := (watermarks_step w hPass).2
    rw [executeEntry_eq] at hMono ⊢
    exact ⟨h.mono hMono (UInt64.le_refl _) id, UInt64.le_refl _⟩
  | @stabilize _ m _ cp _ hLow =>
    have hRaised : (s.raised cfg m cp).Accounted s.seqNum := h.mono (UInt64.le_refl _) hLow id
    exact ⟨(accounted_recompute (s.raised cfg m cp)).garbageCollect, hRaised.le_recompute⟩
  | beginViewChange =>
    rw [beginViewChange_eq]
    exact ⟨h, UInt64.le_refl _⟩
  | @installView _ m vcs O =>
    let t : Node σ := { s with
      sent := s.sent ++ [Msg.newView ⟨m.nextView.toUInt32.toUInt64, vcs.toList.map Prod.snd, O⟩]
      viewChanging := false
      view := m.nextView.toUInt32
      viewChangeTimeoutCount := 0 }
    have hSame : t.Accounted s.seqNum := h
    exact ⟨accounted_recompute t, hSame.le_recompute⟩
  | recompute => exact ⟨accounted_recompute s, h.le_recompute⟩
  | handshake | timer | resend | forward | voteCheckpoint | storeViewChange | enterView =>
    exact ⟨h, UInt64.le_refl _⟩

theorem seqNum_handle {s s' : Node σ} {i : Input} (w : WindowInv cfg s) (h : s.Accounted s.seqNum)
    (hCall : s.handle cfg i = some s') : s.seqNum ≤ s'.seqNum := by
  have hAll : WindowInv cfg s' ∧ s'.Accounted s'.seqNum ∧ s.seqNum ≤ s'.seqNum := by
    refine handle_invariant
      (I := fun t => WindowInv cfg t ∧ t.Accounted t.seqNum ∧ s.seqNum ≤ t.seqNum)
      (fun t t' ht hStep => ?_) ⟨w, h, UInt64.le_refl _⟩ hCall
    have hNext := accounted_step ht.1 ht.2.1 hStep
    exact ⟨windowInv_step ht.1 hStep, hNext.1, UInt64.le_trans ht.2.2 hNext.2⟩
  exact hAll.2.2

end Pbft.Node
