import Pbft.Node.LogEntry
import Pbft.Node.OSet

/-! # Digests that a replica hands on

No replica invents the digest of a fresh entry: what it logs, stores and broadcasts is a hash
or came in with a message.
-/
namespace Pbft
set_option autoImplicit false

variable {σ : Type}

def Msg.digests : Msg → List Digest
  | .prePrepare m => [m.reqDigest]
  | .viewChange m => m.preparedProofs.map (·.digest)
  | .newView m => m.prePrepares.map (·.reqDigest)
  | _ => []

namespace Node

structure HashInv (s : Node σ) : Prop where
  sent : ∀ m ∈ s.sent, 0 ∉ m.digests
  entries : ∀ k, (s.entry k).hasPreprepare = true → (s.entry k).digest ≠ 0
  store : ∀ v r m, s.Stored v r m → 0 ∉ (Msg.viewChange m).digests

theorem hashInv_init (cfg : Config σ) (t : Bool) : HashInv (Node.init cfg t) where
  sent m hm := by simp [Node.init] at hm
  entries k hk := by simp [Node.init, entry] at hk
  store v r m h := by simp [Node.init, Stored] at h

variable {cfg : Config σ}

theorem HashInv.write {s t : Node σ} {k : UInt64} {e : ReqLogEntry} (w : HashInv s)
    (hLog : t.reqlog = s.reqlog.insert k e) (hStore : t.viewChangeStore = s.viewChangeStore)
    (hSent : ∀ m ∈ t.sent, m ∈ s.sent ∨ 0 ∉ m.digests)
    (he : e.hasPreprepare = true → e.digest ≠ 0) : HashInv t where
  sent m hm := (hSent m hm).elim (w.sent m) id
  entries a := by
    rw [entry_of_insert hLog]
    split
    · exact he
    · exact w.entries a
  store v r m := by
    unfold Stored
    rw [hStore]
    exact w.store v r m

theorem HashInv.congr {s t : Node σ} (w : HashInv s) (hLog : t.reqlog = s.reqlog)
    (hStore : t.viewChangeStore = s.viewChangeStore)
    (hSent : ∀ m ∈ t.sent, m ∈ s.sent ∨ 0 ∉ m.digests) : HashInv t where
  sent m hm := (hSent m hm).elim (w.sent m) id
  entries a := by
    rw [entry_congr hLog]
    exact w.entries a
  store v r m := by
    unfold Stored
    rw [hStore]
    exact w.store v r m

theorem preparedProofs_nonzero {s : Node σ} (hLog : LogInv cfg s) (w : HashInv s) :
    0 ∉ (Msg.viewChange (s.viewChangeMsg cfg)).digests := by
  intro hZero
  obtain ⟨pr, hpr, hDigest⟩ := List.mem_map.mp hZero
  obtain ⟨k, e, hLookup, hStage, rfl⟩ := mem_preparedProofs.mp hpr
  have hEntry := entry_of_lookup hLookup
  have hPre := (hEntry ▸ hLog.entries k).hasPreprepare (by simp [hStage])
  exact (hEntry ▸ w.entries k) hPre hDigest

theorem oSet_nonzero {s : Node σ} {nextView : UInt64} {view : UInt32}
    {vcs : Std.ExtTreeMap UInt32 ViewChangeMsg} {O : List PrePrepareMsg} (hEmpty : cfg.emptyHash ≠ 0)
    (w : HashInv s) (hStored : s.viewChangeStore[view]? = some vcs)
    (hO : oSet cfg nextView (vcs.toList.map Prod.snd) = some O) : 0 ∉ O.map (·.reqDigest) := by
  intro hZero
  obtain ⟨pp, hpp, hDigest⟩ := List.mem_map.mp hZero
  obtain ⟨k, rfl⟩ := exists_of_mem_reissueLoop hO hpp
  rcases reissue_digest cfg nextView (vcs.toList.map Prod.snd) k with hNull | ⟨pr, hpr, hSame⟩
  · exact hEmpty (hNull.symm.trans hDigest)
  · obtain ⟨m, hm, hpr⟩ := List.mem_flatMap.mp hpr
    obtain ⟨r, hr⟩ := stored_of_mem hStored hm
    exact w.store _ r m hr (List.mem_map.mpr ⟨pr, hpr, hSame.trans hDigest⟩)

theorem exists_of_mem_prePrepares {i : Input} {m : PrePrepareMsg} (hm : m ∈ prePrepares i) :
    ∃ msg conn, i = .recv msg conn ∧ m.reqDigest ∈ msg.digests := by
  unfold prePrepares at hm
  split at hm
  · cases List.mem_singleton.mp hm
    exact ⟨_, _, rfl, List.mem_singleton.mpr rfl⟩
  · exact ⟨_, _, rfl, List.mem_map.mpr ⟨m, hm, rfl⟩⟩
  · cases hm

theorem hashInv_step {s₀ s s' : Node σ} {i : Input} (hHash : ∀ m, cfg.getHash m ≠ 0)
    (hEmpty : cfg.emptyHash ≠ 0) (hIn : ∀ m conn, i = .recv m conn → 0 ∉ m.digests)
    (hLog : LogInv cfg s) (w : HashInv s) (hStep : Step cfg s₀ i s s') : HashInv s' := by
  cases hStep with
  | propose =>
    refine w.write rfl rfl (sent_or_of_append ?_) fun _ => hHash _
    simpa [Msg.digests] using (hHash _).symm
  | @accept _ m conn hi =>
    have hNonzero : m.reqDigest ≠ 0 := by
      rcases hi with hi | ⟨nv, hi, hMem⟩
      · exact fun h => hIn _ _ hi (List.mem_singleton.mpr h.symm)
      · exact fun h => hIn _ _ hi (List.mem_map.mpr ⟨m, hMem, h⟩)
    exact w.write rfl rfl (sent_or_of_append (by simp [Msg.digests])) fun _ => hNonzero
  | votePrepare | touch | voteCommit | markCommitted =>
    exact w.write rfl rfl (fun _ => .inl) (w.entries _)
  | markPrepared => exact w.write rfl rfl (sent_or_of_append (by simp [Msg.digests])) (w.entries _)
  | execute =>
    rw [executeEntry_eq]
    exact w.congr rfl rfl (sent_or_of_due (by simp [Msg.digests]))
  | stabilize =>
    refine ⟨w.sent, fun k => ?_, w.store⟩
    rw [entry_of_stabilize]
    split
    · intro h
      cases h
    · exact w.entries k
  | beginViewChange =>
    rw [beginViewChange_eq]
    exact w.congr rfl rfl (sent_or_of_append (preparedProofs_nonzero hLog w))
  | @storeViewChange _ m hi hSent =>
    refine ⟨w.sent, w.entries, fun v r m' h => ?_⟩
    rcases stored_storeViewChange h with ⟨rfl, -, -⟩ | hOld
    · rcases hi with ⟨conn, hi⟩ | ⟨hi, -⟩
      · exact hIn _ _ hi
      · exact w.sent _ (hSent hi)
    · exact w.store v r m' hOld
  | installView _ _ _ _ _ hStored _ hO =>
    exact w.congr rfl rfl (sent_or_of_append (oSet_nonzero hEmpty w hStored hO))
  | _ => exact w.congr rfl rfl fun _ => .inl

end Node

end Pbft
