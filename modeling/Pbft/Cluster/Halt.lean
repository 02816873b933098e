import Pbft.Cluster
import Pbft.Node.OSet

/-! # Two silent primaries

A replica that has given up on its primary waits for the next one without a timer, and it never asks for a
view after that one. If the primaries of views 0 and 1 both keep silent, the correct replicas stay in view 0
for good, although two faults are within what seven replicas should tolerate.
-/
namespace Pbft
set_option autoImplicit false

open Node

variable {σ : Type}

/-- An entry that no pre-prepare has reached. -/
def ReqLogEntry.Bare (e : ReqLogEntry) : Prop := e.hasPreprepare = false ∧ e.stage = .none

namespace Cluster
variable {C : Cluster σ} {G : World σ} {r : UInt32}

/-- Faulty replicas send what they like under their own ids, but no PRE-PREPARE and no NEW-VIEW. -/
def FromCorrectPrimary (C : Cluster σ) (r : UInt32) : Input → Prop
  | .recv (.prePrepare _) conn | .recv (.newView _) conn => ∀ p ∈ C.peer r conn, p ∉ C.faulty
  | _ => True

def Deserted (C : Cluster σ) (G : World σ) (r : UInt32) (i : Input) : Prop :=
  C.Network G r i ∧ C.FromCorrectPrimary r i

instance (r : UInt32) : (i : Input) → Decidable (C.FromCorrectPrimary r i)
  | .recv (.prePrepare _) conn | .recv (.newView _) conn => Option.decidableForallMem (C.peer r conn)
  | .recv (.handshake _) _ | .recv (.request _) _ | .recv (.prepare _) _ | .recv (.commit _) _
  | .recv (.checkpoint _) _ | .recv (.viewChange _) _ | .timeout => .isTrue trivial

instance (G : World σ) (r : UInt32) (i : Input) : Decidable (C.Deserted G r i) :=
  inferInstanceAs (Decidable (_ ∧ _))

/-- Asks for view 1, which is all that a waiting replica ever says. -/
def AsksForNext (m : Msg) : Prop := ∃ vc, m = .viewChange vc ∧ vc.nextView = 1

/-- A replica that waits: it has logged nothing, and no correct replica's VIEW-CHANGE is kept by it. -/
structure Waits (C : Cluster σ) (s : Node σ) : Prop where
  view : s.view = 0
  bare : ∀ k, (s.entry k).Bare
  executed : s.executed = []
  sent : ∀ m ∈ s.sent, AsksForNext m
  store : ∀ view p m, s.Stored view p m → p ∈ C.faulty

theorem waits_init (r : UInt32) : Waits C (Node.init (C.cfg r) (C.timerRunning r)) where
  view := rfl
  bare k := by simp [Node.init, entry, ReqLogEntry.Bare]
  executed := rfl
  sent m hm := by simp [Node.init] at hm
  store view p m h := by simp [Node.init, Stored] at h

theorem Waits.write {s t : Node σ} {k : UInt64} {e : ReqLogEntry} (w : Waits C s)
    (hLog : t.reqlog = s.reqlog.insert k e) (hEntry : e.Bare) (hView : t.view = s.view)
    (hExecuted : t.executed = s.executed) (hSent : t.sent = s.sent)
    (hStore : t.viewChangeStore = s.viewChangeStore) : Waits C t where
  view := hView.trans w.view
  bare a := by
    rw [entry_of_insert hLog]
    split
    · exact hEntry
    · exact w.bare a
  executed := hExecuted.trans w.executed
  sent := hSent ▸ w.sent
  store := by
    unfold Stored
    rw [hStore]
    exact w.store

/-- The number of replicas is not too small for view 1 to have a primary of its own. -/
theorem eq_one_of_mine (hSize : 1 < C.base.n) (h : (1 : UInt64) % C.base.n.toUInt64 = r.toUInt64) : r = 1 := by
  rw [UInt32.lt_iff_toNat_lt] at hSize
  have hNat := congrArg UInt64.toNat h
  rw [UInt64.toNat_mod, UInt32.toNat_toUInt64, UInt32.toNat_toUInt64] at hNat
  rw [← UInt32.toNat_inj, ← hNat]
  exact Nat.mod_eq_of_lt hSize

/-- A quorum has a correct member, so none is kept. -/
theorem Waits.card_lt {s : Node σ} (w : Waits C s) (hFew : C.faulty.card < C.base.quorum) {view : UInt32}
    {vcs : Std.ExtTreeMap UInt32 ViewChangeMsg} (hStored : s.viewChangeStore[view]? = some vcs) :
    vcs.size < C.base.quorum := by
  refine Nat.lt_of_le_of_lt (TreeMap.size_le_card id Function.injective_id C.faulty fun p hp => ?_) hFew
  obtain ⟨m, hm⟩ := TreeMap.mem_iff_exists.mp hp
  exact w.store view p m ⟨vcs, hStored, hm⟩

section
variable (hZero : 0 ∈ C.faulty) (hOne : 1 ∈ C.faulty) (hSize : 1 < C.base.n) (hFew : C.faulty.card < C.base.quorum)
  {i : Input} (hOk : C.Deserted G r i) (hAll : ∀ p, Waits C (G p))

include hOk hAll

/-- Correct replicas have sent no proposals, and the other ones do not reach a replica. -/
theorem no_proposal (conn : Conn) : (∀ m, i ≠ .recv (.prePrepare m) conn) ∧ ∀ m, i ≠ .recv (.newView m) conn := by
  constructor
  · rintro m rfl
    obtain ⟨p, hPeer, hSent⟩ := hOk.1.conn
    obtain ⟨vc, hEq, -⟩ := (hAll p).sent _ (hSent.2.2 (hOk.2 p hPeer))
    cases hEq
  · rintro m rfl
    obtain ⟨p, hPeer, hSent⟩ := hOk.1.conn
    obtain ⟨vc, hEq, -⟩ := (hAll p).sent _ (hSent.2.2 (hOk.2 p hPeer))
    cases hEq

include hOne hSize

/-- A correct replica asks for view 1, whose primary it is not. -/
theorem faulty_of_offers {m : ViewChangeMsg} (hOffers : Offers (C.cfg r) (G r) i m)
    (hMine : m.nextView % C.base.n.toUInt64 = r.toUInt64) : m.replicaId ∈ C.faulty := by
  have hNext : m.nextView = 1 → r ∈ C.faulty := fun hView => by
    rw [hView] at hMine
    exact eq_one_of_mine hSize hMine ▸ hOne
  by_contra hCorrect
  rcases hOffers with ⟨conn, rfl⟩ | ⟨-, rfl⟩
  · obtain ⟨-, -, hSent⟩ := hOk.1.id m.replicaId rfl
    obtain ⟨vc, hEq, hView⟩ := (hAll m.replicaId).sent _ (hSent hCorrect)
    cases hEq
    exact hOk.1.correct.2 (hNext hView)
  · refine hOk.1.correct.2 (hNext ?_)
    rw [viewChangeMsg, (hAll r).view]
    rfl

include hZero hFew

theorem waits_step {s s' : Node σ} (w : Waits C s) (hStep : Step (C.cfg r) (G r) i s s') : Waits C s' := by
  cases hStep with
  | propose _ hProposes =>
    have hPrimary : r = (G r).view % C.base.n := hProposes.primary
    rw [(hAll r).view, UInt32.zero_mod] at hPrimary
    exact absurd (hPrimary ▸ hZero) hOk.1.correct.2
  | @accept _ m conn hi =>
    rcases hi with hi | ⟨nv, hi, -⟩
    · exact absurd hi ((no_proposal hOk hAll conn).1 m)
    · exact absurd hi ((no_proposal hOk hAll conn).2 nv)
  | enterView hi | recompute hi => exact absurd hi ((no_proposal hOk hAll _).2 _)
  | votePrepare | voteCommit | touch => exact w.write rfl (w.bare _) rfl rfl rfl rfl
  | markPrepared _ hPre =>
    rw [(w.bare _).1] at hPre
    cases hPre
  | markCommitted hStage =>
    rw [(w.bare _).2] at hStage
    cases hStage
  | execute hEntry hStage =>
    rw [← entry_of_lookup hEntry, (w.bare _).2] at hStage
    cases hStage
  | stabilize =>
    refine ⟨w.view, fun k => ?_, w.executed, w.sent, w.store⟩
    rw [entry_of_stabilize]
    split
    · exact ⟨rfl, rfl⟩
    · exact w.bare k
  | beginViewChange =>
    rw [beginViewChange_eq]
    refine ⟨w.view, w.bare, w.executed, fun m hm => ?_, w.store⟩
    rcases List.mem_append.mp hm with hm | hm
    · exact w.sent m hm
    · rw [List.mem_singleton.mp hm]
      refine ⟨_, rfl, ?_⟩
      rw [viewChangeMsg, w.view]
      rfl
  | storeViewChange hi _ _ hMine =>
    refine ⟨w.view, w.bare, w.executed, w.sent, fun view p m h => ?_⟩
    rcases stored_storeViewChange h with ⟨rfl, -, rfl⟩ | h
    · exact faulty_of_offers hOne hSize hOk hAll hi hMine
    · exact w.store view p m h
  | installView _ _ _ _ _ hStored hQuorum => exact absurd hQuorum (Nat.not_le.mpr (w.card_lt hFew hStored))
  | handshake | timer | resend | forward | voteCheckpoint => exact ⟨w.view, w.bare, w.executed, w.sent, w.store⟩

end

/-- With the primaries of views 0 and 1 among the faulty replicas, and no proposals of faulty ones, no correct
replica ever executes a request or leaves view 0, however often timers fire and whatever is sent. -/
theorem silent_primaries_halt (hZero : 0 ∈ C.faulty) (hOne : 1 ∈ C.faulty) (hSize : 1 < C.base.n)
    (hFew : C.faulty.card < C.base.quorum) (hs : C.Reach C.Deserted G) (r : UInt32) :
    (G r).view = 0 ∧ (G r).executed = [] ∧ ∀ m ∈ (G r).sent, AsksForNext m := by
  have hWaits : ∀ r, Waits C (G r) := fun r => hs.pointwise (J := fun _ => Waits C) waits_init
    (fun G r i _ hOk hAll s s' w hStep => waits_step hZero hOne hSize hFew hOk hAll w hStep) r
  exact ⟨(hWaits r).view, (hWaits r).executed, (hWaits r).sent⟩

theorem silent_primaries_halt_seven : (sample 7 {0, 1}).Resilient ∧
    ∃ G, (sample 7 {0, 1}).Reach (sample 7 {0, 1}).Deserted G ∧ (G 2).viewChanging = true ∧ (G 6).viewChanging = true ∧
      (G 2).executed = [] ∧ (G 2).view = 0 := by
  let correct : List UInt32 := [2, 3, 4, 5, 6]
  obtain ⟨G, hs, h2, h6⟩ := Machine.exists_reach (sample 7 {0, 1}).machine
    (fun G a => (sample 7 {0, 1}).Deserted G a.1 a.2)
    (correct.map (fun r => (r, .recv (.request ⟨"INC", 1, 9⟩) 9)) ++ correct.map (fun r => (r, .timeout)) ++
      correct.flatMap fun r => (correct.filter (· ≠ r)).map fun p => deliver (.viewChange ⟨1, 0, p, [], []⟩) p r)
    (fun G => (G 2).viewChanging = true ∧ (G 6).viewChanging = true) (by decide +kernel)
  obtain ⟨hView, hNone, -⟩ := silent_primaries_halt (by decide) (by decide) (by decide) (by decide) hs 2
  exact ⟨sample_resilient (by decide) (by decide), G, hs, h2, h6, hNone, hView⟩

end Cluster
end Pbft
