import Pbft.Node.Views

/-! # What a new primary announces

The V set of a NEW-VIEW is whatever is stored for the view at that moment and the O set is
computed from it. The quorum test is repeated for every later VIEW-CHANGE of the same view, so
two announcements agree as long as nothing is added to a set that has been announced.
-/
namespace Pbft
set_option autoImplicit false

variable {σ : Type} {cfg : Config σ}

theorem reissue_congr {nextView nextView' : UInt64} (h : nextView.toUInt32 = nextView'.toUInt32)
    (V : List ViewChangeMsg) (n : UInt64) : reissue cfg nextView V n = reissue cfg nextView' V n := by
  unfold reissue
  rw [h]

theorem reissueLoop_congr {nextView nextView' : UInt64} (h : nextView.toUInt32 = nextView'.toUInt32)
    (V : List ViewChangeMsg) (last : UInt64) (fuel : Nat) (n : UInt64) :
    reissueLoop cfg nextView V last fuel n = reissueLoop cfg nextView' V last fuel n := by
  induction fuel generalizing n with
  | zero => rfl
  | succ fuel ih => rw [reissueLoop, reissueLoop, ih, reissue_congr h]

theorem oSet_congr {nextView nextView' : UInt64} (h : nextView.toUInt32 = nextView'.toUInt32)
    (V : List ViewChangeMsg) : oSet cfg nextView V = oSet cfg nextView' V :=
  reissueLoop_congr h V _ _ _

namespace Node

/-- The replica that the message of the call is handed to: a timer has announced it before. -/
def announced (cfg : Config σ) (s : Node σ) : Input → Node σ
  | .timeout => s.beginViewChange cfg
  | _ => s

theorem handle_offered {s : Node σ} {i : Input} {m : ViewChangeMsg} (h : Offers cfg s i m) :
    s.handle cfg i = (announced cfg s i).onViewchange cfg m := by
  rcases h with ⟨conn, rfl⟩ | ⟨rfl, rfl⟩
  · rfl
  · rfl

def storedFor (s : Node σ) (m : ViewChangeMsg) : Std.ExtTreeMap UInt32 ViewChangeMsg :=
  s.viewChangeStore.getD m.nextView.toUInt32 ∅

/-- A VIEW-CHANGE for a view that has its quorum already is the one that is stored. -/
def Closed (cfg : Config σ) (s₀ : Node σ) (i : Input) : Prop :=
  ∀ m ∈ offered? cfg s₀ i, Completes cfg s₀ m → cfg.quorum ≤ (s₀.storedFor m).size →
    (s₀.storedFor m)[m.replicaId]? = some m

instance (s₀ : Node σ) (i : Input) : Decidable (Closed cfg s₀ i) :=
  Option.decidableForallMem (offered? cfg s₀ i)

theorem storedWith_of_stored {s : Node σ} {m : ViewChangeMsg}
    (h : (s.storedFor m)[m.replicaId]? = some m) : s.storedWith m = s.storedFor m :=
  TreeMap.insert_of_lookup h

/-- nv is what a primary with the messages vcs announces for a view. -/
structure Announces (cfg : Config σ) (vcs : Std.ExtTreeMap UInt32 ViewChangeMsg) (nv : NewViewMsg) :
    Prop where
  quorum : cfg.quorum ≤ vcs.size
  proof : nv.viewChanges = vcs.toList.map Prod.snd
  orders : oSet cfg nv.nextView nv.viewChanges = some nv.prePrepares

def NewViewInv (cfg : Config σ) (s : Node σ) : Prop :=
  ∀ nv, Msg.newView nv ∈ s.sent → ∃ v : UInt32, nv.nextView = v.toUInt64 ∧
    ∃ vcs, s.viewChangeStore[v]? = some vcs ∧ Announces cfg vcs nv

theorem NewViewInv.congr {s t : Node σ} (w : NewViewInv cfg s)
    (hStore : t.viewChangeStore = s.viewChangeStore)
    (hSent : ∀ nv, Msg.newView nv ∈ t.sent → Msg.newView nv ∈ s.sent) : NewViewInv cfg t := by
  intro nv hnv
  rw [hStore]
  exact w nv (hSent nv hnv)

/-- Storing m keeps what has been announced, if it adds nothing to it. -/
theorem NewViewInv.store {s : Node σ} {m : ViewChangeMsg} (w : NewViewInv cfg s)
    (hSame : cfg.quorum ≤ (s.storedFor m).size → s.storedWith m = s.storedFor m) :
    NewViewInv cfg (s.storeViewChange m) := by
  intro nv hnv
  obtain ⟨v, hView, vcs, hStored, hAnnounces⟩ := w nv hnv
  refine ⟨v, hView, vcs, ?_, hAnnounces⟩
  rw [storeViewChange, TreeMap.lookup_insert]
  split
  · rename_i hv
    subst hv
    have hFor : s.storedFor m = vcs := TreeMap.getD_of_lookup hStored
    rw [hSame (hFor ▸ hAnnounces.quorum), hFor]
  · exact hStored

theorem newViewInv_installView {s : Node σ} {m : ViewChangeMsg} {O : List PrePrepareMsg}
    (w : NewViewInv cfg (s.storeViewChange m)) (hQuorum : cfg.quorum ≤ (s.storedWith m).size)
    (hO : oSet cfg m.nextView ((s.storedWith m).toList.map Prod.snd) = some O) :
    NewViewInv cfg ((s.storeViewChange m).installView m.nextView
      ((s.storedWith m).toList.map Prod.snd) O) := by
  intro nv hnv
  rcases List.mem_append.mp hnv with hnv | hnv
  · exact w nv hnv
  · cases List.mem_singleton.mp hnv
    refine ⟨m.nextView.toUInt32, rfl, s.storedWith m, ?_, hQuorum, rfl, ?_⟩
    · exact Std.ExtTreeMap.getElem?_insert_self
    · exact (oSet_congr (UInt32.toUInt32_toUInt64 _) _).trans hO

theorem newViewInv_onViewchange {s s' : Node σ} {m : ViewChangeMsg} (w : NewViewInv cfg s)
    (hClosed : Completes cfg s m → cfg.quorum ≤ (s.storedFor m).size →
      (s.storedFor m)[m.replicaId]? = some m)
    (hCall : s.onViewchange cfg m = some s') : NewViewInv cfg s' := by
  rcases onViewchange_cases hCall with rfl | ⟨rfl, hFew, -⟩ | ⟨hCompletes, O, hO, rfl⟩
  · exact w
  · -- a set that was announced has a quorum and does not shrink
    refine w.store fun hQuorum => absurd hFew (Nat.not_lt.mpr (hQuorum.trans ?_))
    exact Std.ExtTreeMap.size_le_size_insert
  · rw [manageTimer_eq]
    exact newViewInv_installView (w.store fun hQuorum => storedWith_of_stored (hClosed hCompletes hQuorum))
      hCompletes.2.2 hO

theorem store_step {s₀ s s' : Node σ} {i : Input} (hOffered : ∀ m, ¬Offers cfg s₀ i m)
    (hStep : Step cfg s₀ i s s') : s'.viewChangeStore = s.viewChangeStore ∧
      ∀ nv, Msg.newView nv ∈ s'.sent → Msg.newView nv ∈ s.sent := by
  cases hStep with
  | propose | accept | markPrepared => exact ⟨rfl, fun nv h => sent_of_append h nofun⟩
  | execute =>
    rw [executeEntry_eq]
    refine ⟨rfl, fun nv h => ?_⟩
    dsimp only at h
    split at h
    · exact sent_of_append h nofun
    · exact h
  | beginViewChange hi => exact absurd (.inr ⟨hi, rfl⟩) (hOffered (s₀.viewChangeMsg cfg))
  | storeViewChange hi | installView hi => exact absurd hi (hOffered _)
  | _ => exact ⟨rfl, fun _ => id⟩

theorem newViewInv_handle {s s' : Node σ} {i : Input} (hClosed : Closed cfg s i) (w : NewViewInv cfg s)
    (hCall : s.handle cfg i = some s') : NewViewInv cfg s' := by
  by_cases hOffers : ∃ m, Offers cfg s i m
  · obtain ⟨m, hi⟩ := hOffers
    have hm := hClosed m (mem_offered?_of_offers hi)
    rw [handle_offered hi] at hCall
    unfold announced at hCall
    split at hCall
    · rw [beginViewChange_eq] at hCall
      refine newViewInv_onViewchange (w.congr ?_ fun nv h => ?_) ?_ hCall
      · rfl
      · exact sent_of_append h nofun
      · exact hm
    · exact newViewInv_onViewchange w hm hCall
  · refine handle_invariant (fun t t' ht hStep => ?_) w hCall
    have hSame := store_step (not_exists.mp hOffers) hStep
    exact ht.congr hSame.1 hSame.2

/-- All NEW-VIEW messages that a replica broadcasts for one view have equal V and O sets, in a
run in which no VIEW-CHANGE is added to a view that has its quorum already. -/
theorem newView_unique {t : Bool} {s : Node σ} (hs : Reach cfg t (Closed cfg) s) {nv nv' : NewViewMsg}
    (h : Msg.newView nv ∈ s.sent) (h' : Msg.newView nv' ∈ s.sent) (hView : nv.nextView = nv'.nextView) :
    nv.viewChanges = nv'.viewChanges ∧ nv.prePrepares = nv'.prePrepares := by
  have w : NewViewInv cfg s := Machine.Reach.invariant (I := NewViewInv cfg)
    (fun nv hnv => by simp [machine, Node.init] at hnv)
    (fun _ _ _ _ w hClosed hCall => newViewInv_handle hClosed w hCall) hs
  obtain ⟨v, hv, vcs, hStored, hAnnounces⟩ := w nv h
  obtain ⟨v', hv', vcs', hStored', hAnnounces'⟩ := w nv' h'
  have hSame : v = v' := by
    rw [hv, hv'] at hView
    exact UInt32.toUInt64_inj.mp hView
  subst hSame
  cases hStored.symm.trans hStored'
  have hV : nv.viewChanges = nv'.viewChanges := hAnnounces.proof.trans hAnnounces'.proof.symm
  refine ⟨hV, Option.some.inj ?_⟩
  rw [← hAnnounces.orders, ← hAnnounces'.orders, hView, hV]

theorem newView_unique_repeated : ∃ s, Reach (Config.sample 4 200 100) false
    (Closed (Config.sample 4 200 100)) s ∧ ∃ nv nv' before, s.sent = before ++ [.newView nv, .newView nv'] ∧
      nv.nextView = 4 ∧ nv'.nextView = 4 ∧ nv.viewChanges = nv'.viewChanges := by
  obtain ⟨s, hs, hSent⟩ := Machine.exists_reach (machine (Config.sample 4 200 100) false)
    (Closed (Config.sample 4 200 100)) (viewChanges 4 ++ (viewChanges 4).drop 2)
    (fun s => s.sent = [] ++ [.newView ⟨4, quorumFor 4, []⟩, .newView ⟨4, quorumFor 4, []⟩])
    (by decide +kernel)
  exact ⟨s, hs, _, _, _, hSent, rfl, rfl,
    (newView_unique hs (by rw [hSent]; exact .head _) (by rw [hSent]; exact .tail _ (.head _)) rfl).1⟩

/-- One VIEW-CHANGE more than a quorum, from a replica that has prepared a request in view 1: the
primary of view 7 announces its view a second time, and with another O set. -/
theorem newView_not_unique : ∃ s, Reach (Config.sample 7 200 100) false Anything s ∧
    ∃ nv nv', Msg.newView nv ∈ s.sent ∧ Msg.newView nv' ∈ s.sent ∧ nv.nextView = nv'.nextView ∧
      nv.viewChanges ≠ nv'.viewChanges ∧ nv.prePrepares ≠ nv'.prePrepares := by
  let quorum : List ViewChangeMsg := [1, 2, 3, 4, 5].map (⟨7, 0, ·, [], []⟩)
  let late : ViewChangeMsg := ⟨7, 0, 6, [], [⟨1, 1, 9⟩]⟩
  let nv : NewViewMsg := ⟨7, quorum, []⟩
  let nv' : NewViewMsg := ⟨7, quorum ++ [late], [⟨7, 1, 9, ⟨"", 0, 0⟩⟩]⟩
  obtain ⟨s, hs, hSent⟩ := Machine.exists_reach (machine (Config.sample 7 200 100) false) Anything
    ((quorum ++ [late]).map fun m => .recv (.viewChange m) m.replicaId.toNat)
    (fun s => s.sent = [.newView nv, .newView nv']) (by decide +kernel)
  refine ⟨s, hs, nv, nv', ?_, ?_, rfl, ?_, ?_⟩
  · rw [hSent]
    exact .head _
  · rw [hSent]
    exact .tail _ (.head _)
  · decide
  · decide

end Node
end Pbft
