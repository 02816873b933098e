import Pbft.Node.OSet
import Pbft.Node.Run

/-! # Views and announcements of one replica

A late VIEW-CHANGE for the current view ends a change that the replica has announced, and the P
set leaves out entries by their stage. The conditions under which neither does harm are stated
here for one call. Views are 64 bits wide on the wire and 32 bits in a replica; what a correct
replica names always fits.
-/
namespace Pbft
set_option autoImplicit false

variable {σ : Type}

def Msg.Narrow : Msg → Prop
  | .viewChange m => m.nextView.toNat < 2 ^ 32
  | .newView m => m.nextView.toNat < 2 ^ 32
  | _ => True

namespace Node
variable {cfg : Config σ}

/-- What the code does not see to. When the timer fires, the low watermark fits into 32 bits and
all that the replica has voted for is still in the stage that the P set looks for; the current
view is not installed again in the middle of a change; and the O set is computed from proofs
that the selection by view does not pass over. -/
structure Careful (cfg : Config σ) (s₀ : Node σ) (i : Input) : Prop where
  stable : i = .timeout → s₀.h.toNat < 2 ^ 32
  prepared : i = .timeout → ∀ x ∈ s₀.reqlog.toList, s₀.h < x.1 → cfg.id ∈ x.2.commits →
    x.2.stage = .prepared
  late : ∀ m ∈ offered? cfg s₀ i, Completes cfg s₀ m → s₀.viewChanging = true →
    m.nextView ≠ s₀.view.toUInt64
  visible : ∀ m ∈ offered? cfg s₀ i, Completes cfg s₀ m →
    Visible cfg ((s₀.storedWith m).toList.map Prod.snd)

instance (s₀ : Node σ) (i : Input) : Decidable (Careful cfg s₀ i) :=
  decidable_of_iff (_ ∧ _ ∧ _ ∧ _) ⟨fun h => ⟨h.1, h.2.1, h.2.2.1, h.2.2.2⟩,
    fun h => ⟨h.stable, h.prepared, h.late, h.visible⟩⟩

theorem narrow_toUInt64 (view : UInt32) : view.toUInt64.toNat < 2 ^ 32 := by
  rw [UInt32.toNat_toUInt64]
  exact view.toNat_lt

theorem narrow_step {s₀ s s' : Node σ} {i : Input} (w : ∀ m ∈ s.sent, m.Narrow)
    (hStep : Step cfg s₀ i s s') : ∀ m ∈ s'.sent, m.Narrow := by
  have hAppend : ∀ m' : Msg, m'.Narrow → ∀ m ∈ s.sent ++ [m'], m.Narrow := by
    intro m' hNew m hm
    rcases List.mem_append.mp hm with hm | hm
    · exact w m hm
    · exact List.mem_singleton.mp hm ▸ hNew
  cases hStep with
  | propose | accept | markPrepared => exact hAppend _ trivial
  | execute =>
    rw [executeEntry_eq]
    dsimp only
    split
    · exact hAppend _ trivial
    · exact w
  | beginViewChange =>
    rw [beginViewChange_eq]
    exact hAppend _ (narrow_toUInt64 _)
  | installView => exact hAppend _ (narrow_toUInt64 _)
  | _ => exact w

theorem narrow_reach {t : Bool} {ok : Node σ → Input → Prop} {s : Node σ} (hs : Reach cfg t ok s) :
    ∀ m ∈ s.sent, m.Narrow :=
  Reach.invariant (I := fun s : Node σ => ∀ m ∈ s.sent, m.Narrow)
    (fun m hm => by simp [Node.init] at hm) (fun _ _ _ _ _ _ => narrow_step) hs

structure NarrowInput (cfg : Config σ) (s₀ : Node σ) (i : Input) : Prop where
  viewChange : ∀ m, Offers cfg s₀ i m → m.nextView.toNat < 2 ^ 32
  newView : ∀ m conn, i = .recv (.newView m) conn → m.nextView.toNat < 2 ^ 32

theorem toNat_toUInt32 {view : UInt64} (h : view.toNat < 2 ^ 32) :
    view.toUInt32.toNat = view.toNat := by
  rw [UInt64.toNat_toUInt32, Nat.mod_eq_of_lt h]

theorem succ_toUInt64_ne (view : UInt32) : (view + 1).toUInt64 ≠ view.toUInt64 := by
  intro h
  rw [← UInt64.toNat_inj, UInt32.toNat_toUInt64, UInt32.toNat_toUInt64, UInt32.toNat_add] at h
  have hLt := view.toNat_lt
  simp only [UInt32.reduceToNat] at h
  omega

theorem view_step {s₀ s s' : Node σ} {i : Input} (hNarrow : NarrowInput cfg s₀ i)
    (hStep : Step cfg s₀ i s s') : s.view ≤ s'.view := by
  cases hStep with
  | @installView _ m _ _ hi hView =>
    have hFits := toNat_toUInt32 (hNarrow.viewChange m hi)
    rw [UInt64.le_iff_toNat_le, UInt32.toNat_toUInt64] at hView
    exact UInt32.le_iff_toNat_le.mpr (hFits ▸ hView)
  | @enterView m conn hi hAccepts =>
    have hFits := toNat_toUInt32 (hNarrow.newView m conn hi)
    have hLater := hAccepts.2.1
    rw [not_or, UInt64.not_le, UInt64.lt_iff_toNat_lt, UInt32.toNat_toUInt64] at hLater
    exact UInt32.le_iff_toNat_le.mpr (hFits ▸ hLater.2.le)
  | execute =>
    rw [executeEntry_eq]
    exact UInt32.le_refl _
  | beginViewChange =>
    rw [beginViewChange_eq]
    exact UInt32.le_refl _
  | _ => exact UInt32.le_refl _

end Node

end Pbft
