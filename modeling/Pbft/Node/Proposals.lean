import Pbft.Node.Announcement
import Pbft.Node.NewView
import Pbft.Node.Reissue
import Pbft.Node.Sequence

/-! # The numbers that a primary issues in a view

In a new view the numbers come from two places, the O set, which is computed from what other
replicas report, and the counter, which is recomputed from the log of the new primary. Where both
agree the numbers of the view form one range: a primary that is in its view has a counter that
stands at the last number it has issued, and nothing it knows of is above the counter.
-/
namespace Pbft
set_option autoImplicit false

variable {σ : Type} {cfg : Config σ}

/-- The numbers that a message issues pre-prepares for in the view. -/
def Msg.numbers (v : UInt32) : Msg → List UInt64
  | .prePrepare m => if m.view = v then [m.seqNum] else []
  | .newView nv => if nv.nextView.toUInt32 = v then nv.prePrepares.map (·.seqNum) else []
  | _ => []

namespace Node

/-- The numbers of all pre-prepares issued in the view, oldest first. -/
def issued (s : Node σ) (v : UInt32) : List UInt64 := s.sent.flatMap (Msg.numbers v)

structure Presides (cfg : Config σ) (s : Node σ) : Prop where
  idle : s.viewChanging = false
  later : s.view ≠ 0
  primary : cfg.id = s.view % cfg.n

instance (s : Node σ) : Decidable (Presides cfg s) :=
  decidable_of_iff (_ ∧ _ ∧ _) ⟨fun h => ⟨h.1, h.2.1, h.2.2⟩, fun h => ⟨h.idle, h.later, h.primary⟩⟩

def checkpoint? : Input → Option CheckpointMsg
  | .recv (.checkpoint m) _ => some m
  | _ => none

/-- What the code does not see to. The log of the new primary ends where the reports end, and the
view is not the one it is in already; and a checkpoint that becomes stable at a primary in its view
is not above its counter. -/
structure Orderly (cfg : Config σ) (s₀ : Node σ) (i : Input) : Prop where
  installs : ∀ m ∈ offered? cfg s₀ i, Completes cfg s₀ m → s₀.view.toUInt64 < m.nextView ∧
    s₀.recomputeHighestSequence = max (minS (s₀.reports m)) (maxS 0 (s₀.reports m))
  stable : ∀ m ∈ checkpoint? i, Stabilizes cfg s₀ m → Presides cfg s₀ → m.seqNum ≤ s₀.seqNum

instance (s₀ : Node σ) (i : Input) : Decidable (Orderly cfg s₀ i) :=
  decidable_of_iff
    ((∀ m ∈ offered? cfg s₀ i, Completes cfg s₀ m → s₀.view.toUInt64 < m.nextView ∧
      s₀.recomputeHighestSequence = max (minS (s₀.reports m)) (maxS 0 (s₀.reports m))) ∧
      ∀ m ∈ checkpoint? i, Stabilizes cfg s₀ m → Presides cfg s₀ → m.seqNum ≤ s₀.seqNum)
    ⟨fun h => ⟨h.1, h.2⟩, fun h => ⟨h.installs, h.stable⟩⟩

/-- The numbers of the view follow each other from the stable checkpoint of the NEW-VIEW on. -/
def Continues (s : Node σ) (v : UInt32) (nv : NewViewMsg) : Prop :=
  Msg.newView nv ∈ s.sent ∧ nv.nextView.toUInt32 = v ∧
    (s.issued v).map UInt64.toNat = List.range' ((minS nv.viewChanges).toNat + 1) (s.issued v).length

def Contiguous (s : Node σ) (v : UInt32) : Prop := s.issued v = [] ∨ ∃ nv, Continues s v nv

structure Capped (s : Node σ) : Prop where
  last : s.lastExec ≤ s.seqNum
  low : s.h ≤ s.seqNum
  keys : ∀ k ∈ s.reqlog, k ≤ s.seqNum

structure ProposalInv (cfg : Config σ) (s : Node σ) : Prop where
  past : ∀ v, s.view < v → s.issued v = []
  contiguous : ∀ v, v ≠ 0 → Contiguous s v
  counter : Presides cfg s → ∃ nv, Continues s s.view nv ∧
    s.seqNum.toNat = (minS nv.viewChanges).toNat + (s.issued s.view).length
  capped : Presides cfg s → Capped s

theorem proposalInv_init (t : Bool) : ProposalInv cfg (Node.init cfg t) where
  past _ _ := rfl
  contiguous _ _ := .inl rfl
  counter h := absurd rfl h.later
  capped h := absurd rfl h.later

theorem issued_append {s t : Node σ} {m : Msg} (h : t.sent = s.sent ++ [m]) (v : UInt32) :
    t.issued v = s.issued v ++ m.numbers v := by
  unfold issued
  rw [h, List.flatMap_append, List.flatMap_singleton]

theorem issued_silent {s t : Node σ} {m : Msg} (h : t.sent = s.sent ++ [m]) (hSilent : ∀ v, m.numbers v = []) :
    t.issued = s.issued := by
  funext v
  rw [issued_append h, hSilent, List.append_nil]

theorem Continues.congr {s t : Node σ} {v : UInt32} {nv : NewViewMsg} (h : Continues s v nv)
    (hSent : ∀ m ∈ s.sent, m ∈ t.sent) (hIssued : t.issued v = s.issued v) : Continues t v nv := by
  refine ⟨hSent _ h.1, h.2.1, ?_⟩
  rw [hIssued]
  exact h.2.2

theorem Contiguous.congr {s t : Node σ} {v : UInt32} (h : Contiguous s v)
    (hSent : ∀ m ∈ s.sent, m ∈ t.sent) (hIssued : t.issued v = s.issued v) : Contiguous t v := by
  rcases h with hNone | ⟨nv, hNv⟩
  · left
    rw [hIssued]
    exact hNone
  · exact .inr ⟨nv, hNv.congr hSent hIssued⟩

/-- A call that issues nothing; what it does to the counter matters only to a primary. -/
theorem ProposalInv.congr {s t : Node σ} (w : ProposalInv cfg s) (hSent : ∀ m ∈ s.sent, m ∈ t.sent)
    (hIssued : t.issued = s.issued) (hView : s.view ≤ t.view)
    (hPresides : Presides cfg t → Presides cfg s ∧ t.view = s.view ∧ t.seqNum = s.seqNum ∧ Capped t) :
    ProposalInv cfg t where
  past v hv := by
    rw [hIssued]
    exact w.past v (UInt32.lt_of_le_of_lt hView hv)
  contiguous v hv := (w.contiguous v hv).congr hSent (congrFun hIssued v)
  counter h := by
    obtain ⟨hBefore, hSame, hSeq, -⟩ := hPresides h
    obtain ⟨nv, hNv, hCount⟩ := w.counter hBefore
    rw [hSame, hSeq]
    refine ⟨nv, hNv.congr hSent (congrFun hIssued _), ?_⟩
    rw [hIssued]
    exact hCount
  capped h := (hPresides h).2.2.2

/-- A call that issues numbers in the view in which it ends. -/
theorem ProposalInv.extend {s t : Node σ} (w : ProposalInv cfg s) (hSent : ∀ m ∈ s.sent, m ∈ t.sent)
    (hView : s.view ≤ t.view) (hOther : ∀ v, v ≠ t.view → t.issued v = s.issued v)
    (hHere : t.view ≠ 0 → ∃ nv, Continues t t.view nv ∧
      t.seqNum.toNat = (minS nv.viewChanges).toNat + (t.issued t.view).length)
    (hCapped : Presides cfg t → Capped t) : ProposalInv cfg t where
  past v hv := by
    rw [hOther v fun hEq => UInt32.lt_irrefl _ (hEq ▸ hv)]
    exact w.past v (UInt32.lt_of_le_of_lt hView hv)
  contiguous v hv := by
    by_cases hNow : v = t.view
    · subst hNow
      obtain ⟨nv, hNv, -⟩ := hHere hv
      exact .inr ⟨nv, hNv⟩
    · exact (w.contiguous v hv).congr hSent (hOther v hNow)
  counter h := hHere h.later
  capped := hCapped

theorem mem_issued {s : Node σ} {v : UInt32} {k : UInt64} :
    k ∈ s.issued v ↔ ∃ m ∈ s.sent, k ∈ m.numbers v := by
  rw [issued, List.mem_flatMap]

theorem ProposalInv.issued_le {s : Node σ} (w : ProposalInv cfg s) (h : Presides cfg s) {k : UInt64}
    (hk : k ∈ s.issued s.view) : k ≤ s.seqNum := by
  obtain ⟨nv, ⟨-, -, hRange⟩, hCount⟩ := w.counter h
  have hMem : k.toNat ∈ (s.issued s.view).map UInt64.toNat := List.mem_map_of_mem hk
  rw [hRange, List.mem_range'_1] at hMem
  rw [UInt64.le_iff_toNat_le]
  omega

theorem issued_step {s₀ s s' : Node σ} {i : Input} (hRequest : request? i = none)
    (hOffers : ∀ m, ¬Offers cfg s₀ i m) (hStep : Step cfg s₀ i s s') : s'.issued = s.issued := by
  cases hStep with
  | propose hi =>
    rw [hi] at hRequest
    cases hRequest
  | accept | markPrepared => exact issued_silent rfl fun _ => rfl
  | execute =>
    rw [executeEntry_eq]
    by_cases hDue : s.checkpointDue cfg
    · exact issued_silent (if_pos hDue) fun _ => rfl
    · unfold issued
      dsimp only
      rw [if_neg hDue]
  | beginViewChange =>
    rw [beginViewChange_eq]
    exact issued_silent rfl fun _ => rfl
  | installView hi => exact absurd hi (hOffers _)
  | _ => rfl

theorem issued_handle {s s' : Node σ} {i : Input} (hRequest : request? i = none)
    (hOffers : ∀ m, ¬Offers cfg s i m) (hCall : s.handle cfg i = some s') : s'.issued = s.issued :=
  handle_invariant (I := fun t => t.issued = s.issued)
    (fun _ _ ht hStep => (issued_step hRequest hOffers hStep).trans ht) rfl hCall

/-- The call has kept the view and the counter, and the cap if there is one. -/
theorem ProposalInv.keep {s t : Node σ} (w : ProposalInv cfg s) (hSent : ∀ m ∈ s.sent, m ∈ t.sent)
    (hIssued : t.issued = s.issued) (hView : t.view = s.view)
    (hChanging : t.viewChanging = false → s.viewChanging = false)
    (hTop : Presides cfg s → t.seqNum = s.seqNum ∧ (Capped s → Capped t)) : ProposalInv cfg t := by
  refine w.congr hSent hIssued (hView ▸ UInt32.le_refl _) fun h => ?_
  have hBefore : Presides cfg s := ⟨hChanging h.idle, hView ▸ h.later, hView ▸ h.primary⟩
  exact ⟨hBefore, hView, (hTop hBefore).1, (hTop hBefore).2 (w.capped hBefore)⟩

end Node
end Pbft
