import Pbft.Node.Changing
import Pbft.Node.Views

/-! # After an announced view change

A replica that has broadcast VIEW-CHANGE for a view should not order anything in an older one.
It is silent while the change is in progress, so the promise depends on the view in which the
change ends. The handlers compare that view with the current one in two different ways, and
neither comparison is with the view that was announced.
-/
namespace Pbft
set_option autoImplicit false

variable {σ : Type} {cfg : Config σ}

/-- The view of a message that orders a request. -/
def Msg.orderingView? : Msg → Option UInt32
  | .prePrepare m => some m.view
  | .prepare m => some m.view
  | .commit m => some m.view
  | _ => none

namespace Node

/-- The call does not go back, and it does not end a change in the view that the replica wants
to leave. -/
def Forward (cfg : Config σ) (s₀ : Node σ) (i : Input) : Prop :=
  ∀ v ∈ installs? cfg s₀ i, s₀.view ≤ v.toUInt32 ∧ (s₀.viewChanging = true → s₀.view < v.toUInt32)

instance (s₀ : Node σ) (i : Input) : Decidable (Forward cfg s₀ i) :=
  Option.decidableForallMem (installs? cfg s₀ i)

structure Ahead (s : Node σ) : Prop where
  ahead : ∀ vc, Msg.viewChange vc ∈ s.sent → vc.nextView.toNat ≤ s.view.toNat + 1
  settled : s.viewChanging = false → ∀ vc, Msg.viewChange vc ∈ s.sent →
    vc.nextView.toNat ≤ s.view.toNat

theorem Ahead.congr {s t : Node σ} (w : Ahead s) (hView : t.view = s.view)
    (hChanging : t.viewChanging = s.viewChanging)
    (hSent : ∀ vc, Msg.viewChange vc ∈ t.sent → Msg.viewChange vc ∈ s.sent) : Ahead t := by
  constructor
  · intro vc h
    rw [hView]
    exact w.ahead vc (hSent vc h)
  · intro hIdle vc h
    rw [hView]
    exact w.settled (hChanging ▸ hIdle) vc (hSent vc h)

theorem Ahead.install {s t : Node σ} (w : Ahead s) (hLe : s.view ≤ t.view)
    (hLt : s.viewChanging = true → s.view < t.view)
    (hSent : ∀ vc, Msg.viewChange vc ∈ t.sent → Msg.viewChange vc ∈ s.sent) : Ahead t := by
  have hAnnounced : ∀ vc, Msg.viewChange vc ∈ t.sent → vc.nextView.toNat ≤ t.view.toNat := by
    intro vc h
    cases hIdle : s.viewChanging with
    | false => exact (w.settled hIdle vc (hSent vc h)).trans (UInt32.le_iff_toNat_le.mp hLe)
    | true => exact (w.ahead vc (hSent vc h)).trans (UInt32.lt_iff_toNat_lt.mp (hLt hIdle))
  exact ⟨fun vc h => (hAnnounced vc h).trans (Nat.le_succ _), fun _ => hAnnounced⟩

theorem ahead_beginViewChange {s : Node σ} (w : Ahead s) : Ahead (s.beginViewChange cfg) := by
  rw [beginViewChange_eq]
  constructor
  · intro vc h
    rcases List.mem_append.mp h with h | h
    · exact w.ahead vc h
    · cases List.mem_singleton.mp h
      show (s.view + 1).toUInt64.toNat ≤ s.view.toNat + 1
      rw [UInt32.toNat_toUInt64, UInt32.toNat_add]
      exact Nat.mod_le _ _
  · intro hIdle
    cases hIdle

theorem ahead_step {s₀ s s' : Node σ} {i : Input} (hForward : Forward cfg s₀ i) (w : Ahead s)
    (hStep : Step cfg s₀ i s s') : Ahead s' := by
  cases hStep with
  | propose | accept | markPrepared => exact w.congr rfl rfl fun vc h => sent_of_append h nofun
  | execute =>
    rw [executeEntry_eq]
    refine w.congr rfl rfl fun vc h => ?_
    dsimp only at h
    split at h
    · exact sent_of_append h nofun
    · exact h
  | beginViewChange => exact ahead_beginViewChange w
  | @installView _ m _ _ hi hView hSame hMine hWith _ hQuorum =>
    have hCompletes : Completes cfg s₀ m := ⟨hSame.1 ▸ hView, hMine, hWith ▸ hQuorum⟩
    obtain ⟨hLe, hLt⟩ := hForward _ (mem_installs?_of_completes hi hCompletes)
    rw [← hSame.1] at hLe hLt
    refine w.install hLe (fun hChanging => ?_) fun vc h => sent_of_append h nofun
    rcases hSame.2 with hSame | hTimeout
    · exact hLt (hSame ▸ hChanging)
    · -- a timer asks for the next view, which is another one whatever it is
      refine UInt32.lt_of_le_of_ne hLe fun hEq => ?_
      rcases hi with ⟨conn, hi⟩ | ⟨-, rfl⟩
      · cases hi.symm.trans hTimeout
      · have hNext : (s₀.viewChangeMsg cfg).nextView.toUInt32 = s₀.view + 1 := UInt32.toUInt32_toUInt64 _
        rw [hSame.1] at hEq
        exact succ_toUInt64_ne s₀.view (congrArg UInt32.toUInt64 (hEq.trans hNext).symm)
  | @enterView m conn hi hAccepts =>
    subst hi
    obtain ⟨hLe, hLt⟩ := hForward _ (mem_installs?_of_accepts hAccepts)
    exact w.install hLe hLt fun _ => id
  | _ => exact w.congr rfl rfl fun _ => id

theorem ahead_init (cfg : Config σ) (t : Bool) : Ahead (Node.init cfg t) where
  ahead vc h := by simp [Node.init] at h
  settled _ vc h := by simp [Node.init] at h

theorem sent_cases {s₀ s s' : Node σ} {i : Input} (hStep : Step cfg s₀ i s s') :
    s'.sent = s.sent ∨ ∃ m, s'.sent = s.sent ++ [m] ∧
      (m.orderingView? = none ∨ m.orderingView? = some s.view ∧ s.viewChanging = false) := by
  cases hStep with
  | propose _ hProposes => exact .inr ⟨_, rfl, .inr ⟨rfl, hProposes.changing⟩⟩
  | accept _ _ hCurrent => exact .inr ⟨_, rfl, .inr ⟨rfl, hCurrent.1⟩⟩
  | markPrepared _ _ _ hChanging => exact .inr ⟨_, rfl, .inr ⟨rfl, hChanging⟩⟩
  | execute =>
    rw [executeEntry_eq]
    dsimp only
    split
    · exact .inr ⟨_, rfl, .inl rfl⟩
    · exact .inl rfl
  | beginViewChange =>
    rw [beginViewChange_eq]
    exact .inr ⟨_, rfl, .inl rfl⟩
  | installView => exact .inr ⟨_, rfl, .inl rfl⟩
  | _ => exact .inl rfl

def Keeps (m m' : Msg) : Prop :=
  ∀ vc, m = .viewChange vc → ∀ v ∈ m'.orderingView?, vc.nextView.toNat ≤ v.toNat

theorem keeps_step {s₀ s s' : Node σ} {i : Input} (w : Ahead s) (h : s.sent.Pairwise Keeps)
    (hStep : Step cfg s₀ i s s') : s'.sent.Pairwise Keeps := by
  rcases sent_cases hStep with hSame | ⟨m, hSent, hOrders⟩
  · rwa [hSame]
  · rw [hSent, List.pairwise_append]
    refine ⟨h, List.pairwise_singleton _ _, fun a ha b hb vc hvc v hv => ?_⟩
    cases List.mem_singleton.mp hb
    subst hvc
    rcases hOrders with hNone | ⟨hView, hIdle⟩
    · rw [hNone] at hv
      cases hv
    · rw [hView] at hv
      cases hv
      exact w.settled hIdle vc ha

/-- In a run whose calls all go forward, nothing that a replica broadcasts after a VIEW-CHANGE
orders a request in a view before the announced one. -/
theorem viewchange_promise {t : Bool} {s : Node σ} (hs : Reach cfg t (Forward cfg) s)
    {before after : List Msg} {vc : ViewChangeMsg} (hSent : s.sent = before ++ .viewChange vc :: after)
    {m : Msg} (hm : m ∈ after) {v : UInt32} (hv : m.orderingView? = some v) :
    vc.nextView.toNat ≤ v.toNat := by
  have hKeeps : Ahead s ∧ s.sent.Pairwise Keeps :=
    Reach.invariant (I := fun s => Ahead s ∧ s.sent.Pairwise Keeps) ⟨ahead_init cfg t, List.Pairwise.nil⟩
      (fun _ _ _ hForward _ _ h hStep => ⟨ahead_step hForward h.1 hStep, keeps_step h.1 h.2 hStep⟩) hs
  have hLater := hKeeps.2
  rw [hSent, List.pairwise_append, List.pairwise_cons] at hLater
  exact hLater.2.1.1 m hm vc rfl v hv

theorem viewchange_promise_kept : ∃ s, Reach (Config.sample 4 200 100) false
    (Forward (Config.sample 4 200 100)) s ∧ ∃ before vc after pp,
      s.sent = before ++ .viewChange vc :: after ∧ vc.nextView = 5 ∧ .prePrepare pp ∈ after ∧
        vc.nextView.toNat ≤ pp.view.toNat := by
  let cfg := Config.sample 4 200 100
  let pp : PrePrepareMsg := ⟨8, 1, cfg.getHash ⟨"A", 1, 9⟩, ⟨"A", 1, 9⟩⟩
  obtain ⟨s, hs, hSent⟩ := Machine.exists_reach (machine cfg false) (Forward cfg)
    (viewChanges 4 ++ [.timeout] ++ viewChanges 8 ++ [.recv (.request ⟨"A", 1, 9⟩) 9])
    (fun s => s.sent = [.newView ⟨4, quorumFor 4, []⟩] ++
      .viewChange ⟨5, 0, 0, [], []⟩ :: [.newView ⟨8, quorumFor 8, []⟩, .prePrepare pp]) (by decide +kernel)
  have hAfter : Msg.prePrepare pp ∈ [.newView ⟨8, quorumFor 8, []⟩, .prePrepare pp] := by simp
  exact ⟨s, hs, _, _, _, pp, hSent, rfl, hAfter, viewchange_promise hs hSent hAfter rfl⟩

/-- Replica 1 becomes the primary of view 1 with a request that is not executed, so its timer runs on, and
fires. A late VIEW-CHANGE for view 1 ends the change to the next view. -/
theorem viewchange_promise_broken : ∃ s, Reach { Config.sample 4 200 100 with id := 1 } false Fires s ∧
    ∃ before vc after pp, s.sent = before ++ .viewChange vc :: after ∧ Msg.prePrepare pp ∈ after ∧
      pp.view.toNat < vc.nextView.toNat := by
  let cfg := { Config.sample 4 200 100 with id := 1 }
  let quorum : List ViewChangeMsg := [0, 2, 3].map (⟨1, 0, ·, [], []⟩)
  let pp : PrePrepareMsg := ⟨1, 2, cfg.getHash ⟨"B", 2, 9⟩, ⟨"B", 2, 9⟩⟩
  obtain ⟨s, hs, hSent⟩ := Machine.exists_reach (machine cfg false) Fires
    ([.recv (.handshake ⟨0⟩) 0, .recv (.prePrepare ⟨0, 1, 7, ⟨"A", 1, 9⟩⟩) 0] ++
      quorum.map (fun m => .recv (.viewChange m) m.replicaId.toNat) ++
      [.timeout, .recv (.viewChange ⟨1, 0, 3, [], []⟩) 3, .recv (.request ⟨"B", 2, 9⟩) 9])
    (fun s => s.sent = [.prepare ⟨0, 1, 7, 1⟩, .newView ⟨1, quorum, []⟩] ++
      .viewChange ⟨2, 0, 1, [], []⟩ :: [.newView ⟨1, quorum, []⟩, .prePrepare pp]) (by decide +kernel)
  exact ⟨s, hs, _, _, _, pp, hSent, by simp, by decide⟩

end Node
end Pbft
