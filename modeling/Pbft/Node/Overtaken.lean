import Pbft.Node.Execution

/-! # A replica that a checkpoint has overtaken

A checkpoint can become stable at a replica that has not executed so far. Its log starts at the new
watermark then, execution goes on only in turn, and no handler brings the state of the service up to the
checkpoint.
-/
namespace Pbft.Node
set_option autoImplicit false

variable {σ : Type} {cfg : Config σ}

def Overtaken (s : Node σ) : Prop := s.lastExec.toNat + 1 < s.h.toNat

/-- Nothing has been executed between s and t; what the replica has answered since was in its cache. -/
structure Halted (s t : Node σ) : Prop where
  service : t.service = s.service
  executed : t.executed = s.executed
  last : t.lastExec = s.lastExec
  low : s.h ≤ t.h
  cached : t.lastReplies = s.lastReplies
  replies : ∀ m ∈ t.replies, m ∈ s.replies ∨ ∃ info, s.lastReplies[m.clientId]? = some info ∧
    info.timestamp = m.timestamp ∧ info.result = m.result
  checkpoints : ∀ m, Msg.checkpoint m ∈ t.sent → Msg.checkpoint m ∈ s.sent

theorem Halted.refl (s : Node σ) : Halted s s :=
  ⟨rfl, rfl, rfl, UInt64.le_refl _, rfl, fun _ => .inl, fun _ => id⟩

theorem Halted.congr {s t u : Node σ} (h : Halted s t) (hService : u.service = t.service)
    (hExecuted : u.executed = t.executed) (hLast : u.lastExec = t.lastExec) (hLow : t.h ≤ u.h)
    (hCached : u.lastReplies = t.lastReplies) (hReplies : u.replies = t.replies)
    (hSent : ∀ m, Msg.checkpoint m ∈ u.sent → Msg.checkpoint m ∈ t.sent) : Halted s u where
  service := hService.trans h.service
  executed := hExecuted.trans h.executed
  last := hLast.trans h.last
  low := UInt64.le_trans h.low hLow
  cached := hCached.trans h.cached
  replies := hReplies ▸ h.replies
  checkpoints m hm := h.checkpoints m (hSent m hm)

theorem halted_step {s₀ s t t' : Node σ} {i : Input} (hBehind : Overtaken s) (hWindow : WindowInv cfg t)
    (h : Halted s t) (hStep : Step cfg s₀ i t t') : Halted s t' := by
  cases hStep with
  | execute hEntry =>
    -- the next number is below the watermark, and there the log has nothing
    have hLow := hWindow.low _ (TreeMap.mem_iff_exists.mpr ⟨_, hEntry⟩)
    have hSucc := hWindow.succ hEntry
    have hRise := UInt64.le_iff_toNat_le.mp h.low
    rw [UInt64.le_iff_toNat_le, hSucc, h.last] at hLow
    unfold Overtaken at hBehind
    omega
  | @resend _ m _ info _ hInfo hTime =>
    refine ⟨h.service, h.executed, h.last, h.low, h.cached, fun a ha => ?_, h.checkpoints⟩
    rcases List.mem_append.mp ha with ha | ha
    · exact h.replies a ha
    · cases List.mem_singleton.mp ha
      exact .inr ⟨info, h.cached ▸ hInfo, hTime, rfl⟩
  | propose | accept | markPrepared | installView =>
    exact h.congr rfl rfl rfl (UInt64.le_refl _) rfl rfl fun m hm => sent_of_append hm nofun
  | beginViewChange =>
    rw [beginViewChange_eq]
    exact h.congr rfl rfl rfl (UInt64.le_refl _) rfl rfl fun m hm => sent_of_append hm nofun
  | stabilize _ hLow => exact h.congr rfl rfl rfl hLow rfl rfl fun _ => id
  | _ => exact h.congr rfl rfl rfl (UInt64.le_refl _) rfl rfl fun _ => id

theorem halted_handle {s t t' : Node σ} {i : Input} (hBehind : Overtaken s) (hWindow : WindowInv cfg t)
    (h : Halted s t) (hCall : t.handle cfg i = some t') : Halted s t' := by
  have hAll := handle_invariant (I := fun u => WindowInv cfg u ∧ Halted s u)
    (fun _ _ hu hStep => ⟨windowInv_step hu.1 hStep, halted_step hBehind hu.1 hu.2 hStep⟩) ⟨hWindow, h⟩ hCall
  exact hAll.2

/-- Once the watermark is more than one number ahead of a replica, no messages and no timer firings make
it execute anything again: it makes no checkpoint, and it answers only what it has answered before. -/
theorem overtaken_for_good {t : Bool} {s s' : Node σ} (hs : Reach cfg t Anything s) (hBehind : Overtaken s)
    {calls : List (Node σ × Input)} (hPath : Machine.Path (machine cfg t) Anything s calls s') :
    Halted s s' ∧ Overtaken s' := by
  have hHalted : Halted s s' := by
    induction hPath with
    | nil => exact .refl s
    | snoc hPath _ hNext ih => exact halted_handle hBehind (windowInv_reach (hPath.reach hs)) ih hNext
  refine ⟨hHalted, ?_⟩
  have hRise := UInt64.le_iff_toNat_le.mp hHalted.low
  unfold Overtaken at hBehind ⊢
  rw [hHalted.last]
  omega

instance (s : Node σ) : Decidable (Overtaken s) := inferInstanceAs (Decidable (_ < _))

/-- Replica 1 gets the votes for the checkpoint at 100 before anything else. What would have made it
execute number 1 leaves no trace then, and number 100 it still takes part in. -/
theorem overtaken_for_good_hundred : ∃ s s' : Node (List String), Halted s s' ∧ s.h = 100 ∧
    (s'.entry 100).stage = .committed ∧ s'.executed = [] ∧ Overtaken s' := by
  let order (k : UInt64) : List Input := [.recv (.prePrepare ⟨0, k, 7, {}⟩) 0, .recv (.prepare ⟨0, k, 7, 2⟩) 2,
    .recv (.commit ⟨0, k, 7, 2⟩) 2, .recv (.commit ⟨0, k, 7, 3⟩) 3]
  obtain ⟨s, s', calls, hs, hPath, hLow, hBehind, hStage, hNone⟩ := Machine.exists_reach_path
    (machine { Config.sample 4 200 100 with id := 1 } false) Anything
    (.recv (.handshake ⟨0⟩) 0 :: [1, 2, 3].map fun r => .recv (.checkpoint ⟨100, 7, r⟩) 0) (order 1 ++ order 100)
    (fun s s' => s.h = 100 ∧ Overtaken s ∧ (s'.entry 100).stage = .committed ∧ s.executed = []) (by decide +kernel)
  obtain ⟨hHalted, hStill⟩ := overtaken_for_good hs hBehind hPath
  exact ⟨s, s', hHalted, hLow, hStage, hHalted.executed.trans hNone, hStill⟩

end Pbft.Node
