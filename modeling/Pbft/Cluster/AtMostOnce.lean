import Pbft.Cluster
import Pbft.Node.OSet
import Pbft.Node.Repeat

/-! # At-most-once execution

The replicas of a cluster without faults execute a request under one sequence number as long as
no primary numbers and no backup accepts a request a second time. The null requests with which a
new primary fills its O set all look alike, so they are left out.
-/
namespace Pbft.Cluster
set_option autoImplicit false

open Node

variable {σ : Type} {C : Cluster σ}

/-- A null request that some replica has issued for the number in a NEW-VIEW. -/
def IsNull (G : World σ) (k : UInt64) (req : RequestMsg) : Prop :=
  req = ⟨"", 0, 0⟩ ∧ ∃ p nv, Msg.newView nv ∈ (G p).sent ∧ ∃ pp ∈ nv.prePrepares, pp.seqNum = k

theorem reissue_req (cfg : Config σ) (nextView : UInt64) (V : List ViewChangeMsg) (n : UInt64) :
    (reissue cfg nextView V n).req = ⟨"", 0, 0⟩ := by
  unfold reissue
  dsimp only
  split <;> rfl

theorem nullRequests_step {cfg : Config σ} {s₀ s s' : Node σ} {i : Input}
    (w : ∀ nv, Msg.newView nv ∈ s.sent → ∀ pp ∈ nv.prePrepares, pp.req = ⟨"", 0, 0⟩)
    (hStep : Step cfg s₀ i s s') :
    ∀ nv, Msg.newView nv ∈ s'.sent → ∀ pp ∈ nv.prePrepares, pp.req = ⟨"", 0, 0⟩ := by
  intro nv hnv
  cases hStep with
  | propose | accept | markPrepared => exact w nv (sent_of_append hnv nofun)
  | execute =>
    rw [executeEntry_eq] at hnv
    dsimp only at hnv
    split at hnv
    · exact w nv (sent_of_append hnv nofun)
    · exact w nv hnv
  | beginViewChange =>
    rw [beginViewChange_eq] at hnv
    exact w nv (sent_of_append hnv nofun)
  | installView _ _ _ _ _ _ _ hO =>
    rcases List.mem_append.mp hnv with hnv | hnv
    · exact w nv hnv
    · cases List.mem_singleton.mp hnv
      intro pp hpp
      obtain ⟨k, rfl⟩ := exists_of_mem_reissueLoop hO hpp
      exact reissue_req _ _ _ _
  | _ => exact w nv hnv

theorem nullRequests_reach {ok : World σ → UInt32 → Input → Prop} {G : World σ} (hs : C.Reach ok G)
    (p : UInt32) : ∀ nv, Msg.newView nv ∈ (G p).sent → ∀ pp ∈ nv.prePrepares, pp.req = ⟨"", 0, 0⟩ :=
  Node.Reach.invariant (I := fun s => ∀ nv, Msg.newView nv ∈ s.sent → ∀ pp ∈ nv.prePrepares,
      pp.req = ⟨"", 0, 0⟩)
    (fun nv hnv => by simp [Node.init] at hnv) (fun _ _ _ _ _ _ => nullRequests_step) (hs.anything p)

/-- No replica executes two requests with the same client and timestamp under different sequence
numbers, in a run in which no request is logged under a second number. -/
theorem at_most_once (hFaulty : C.faulty = ∅) {G : World σ}
    (hs : C.Reach (fun G r i => C.Network G r i ∧ NoRepeat (C.cfg r) (G r) i) G) {r : UInt32} {x y : Execution}
    (hx : x ∈ (G r).executed) (hy : y ∈ (G r).executed) (hSame : SameRequest x.entry.req y.entry.req) :
    x.key = y.key ∨ IsNull G x.key x.entry.req ∨ IsNull G y.key y.entry.req := by
  have hNode : Node.Reach (C.cfg r) (C.timerRunning r)
      (fun s i => NullIn (IsNull G) i ∧ NoRepeat (C.cfg r) s i) (G r) := by
    refine hs.node (fun r s i => NullIn (IsNull G) i ∧ NoRepeat (C.cfg r) s i) (fun G' r i hOk hSent => ?_) r
    refine ⟨fun nv conn hi pp hpp => ?_, hOk.2⟩
    subst hi
    rcases hOk.1.exists_sender hFaulty with ⟨_, h⟩ | ⟨_, h⟩ | ⟨p, hnv⟩
    · cases h
    · cases h
    · have hnv := hSent p _ hnv
      exact ⟨nullRequests_reach hs p nv hnv pp hpp, p, nv, hnv, pp, hpp, rfl⟩
  exact single_reach hNode _ _ _ _ (.executed hx) (.executed hy) hSame

/-- A cluster that makes a checkpoint after every request. -/
def eager : Cluster (List String) := { sample 4 ∅ with base := Config.sample 4 200 1 }

/-- The primary of view 0 gets a request, and replicas 1, 2 and 3 order it under the number k. -/
def orderAt (m : RequestMsg) (k : UInt64) : List (UInt32 × Input) :=
  (0, .recv (.request m) 9) :: ordering ⟨0, k, eager.base.getHash m, m⟩ 0 [1, 2, 3]

theorem at_most_once_two_requests : ∃ G, eager.Reach
    (fun G r i => eager.Network G r i ∧ NoRepeat (eager.cfg r) (G r) i) G ∧
    (G 1).executed.map (·.key) = [1, 2] ∧ ∀ x ∈ (G 1).executed, ∀ y ∈ (G 1).executed,
      SameRequest x.entry.req y.entry.req →
        x.key = y.key ∨ IsNull G x.key x.entry.req ∨ IsNull G y.key y.entry.req := by
  obtain ⟨G, hs, hKeys⟩ := Machine.exists_reach eager.machine
    (fun G a => eager.Network G a.1 a.2 ∧ NoRepeat (eager.cfg a.1) (G a.1) a.2)
    (orderAt ⟨"INC", 1, 9⟩ 1 ++ orderAt ⟨"INC", 2, 9⟩ 2 ++ [(0, .recv (.request ⟨"INC", 1, 9⟩) 9)])
    (fun G => (G 1).executed.map (·.key) = [1, 2]) (by decide +kernel)
  exact ⟨G, hs, hKeys, fun x hx y hy => at_most_once rfl hs hx hy⟩

/-- A request that comes again after its checkpoint has become stable at the primary. -/
theorem executed_twice : ∃ G, eager.Reach eager.Network G ∧ ∃ r, ∃ x ∈ (G r).executed, ∃ y ∈ (G r).executed,
    SameRequest x.entry.req y.entry.req ∧ x.key ≠ y.key ∧ ¬IsNull G x.key x.entry.req ∧
      ¬IsNull G y.key y.entry.req := by
  let m : RequestMsg := ⟨"INC", 1, 9⟩
  obtain ⟨G, hs, ⟨x, hx, hxKey, hxReq⟩, y, hy, hyKey, hyReq⟩ := Machine.exists_reach eager.machine
    (fun G a => eager.Network G a.1 a.2)
    (orderAt m 1 ++ [1, 2, 3].map (fun p => deliver (.checkpoint ⟨1, 3, p⟩) p 0) ++ orderAt m 2)
    (fun G => (∃ x ∈ (G 1).executed, x.key = 1 ∧ x.entry.req = m) ∧
      ∃ y ∈ (G 1).executed, y.key = 2 ∧ y.entry.req = m) (by decide +kernel)
  refine ⟨G, hs, 1, x, hx, y, hy, ?_, ?_, ?_, ?_⟩
  · rw [hxReq, hyReq]
    exact ⟨rfl, rfl⟩
  · rw [hxKey, hyKey]
    decide
  · rw [hxReq]
    exact fun h => absurd h.1 (by decide)
  · rw [hyReq]
    exact fun h => absurd h.1 (by decide)

end Pbft.Cluster
