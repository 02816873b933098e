import Pbft.Foundation.Machine
import Pbft.Node.Decompose

/-! # Runs of one replica

A replica as a machine whose actions are handler calls, and the form of the invariant rule
that all its invariants use.
-/
namespace Pbft
set_option autoImplicit false

variable {σ : Type}

namespace Node

def machine (cfg : Config σ) (timerRunning : Bool) : Machine (Node σ) Input where
  init := Node.init cfg timerRunning
  next s i := s.handle cfg i

abbrev Reach (cfg : Config σ) (timerRunning : Bool) (ok : Node σ → Input → Prop) : Node σ → Prop :=
  Machine.Reach (machine cfg timerRunning) ok

/-- Arbitrary messages on arbitrary connections, and timer firings at any time. -/
abbrev Anything (_ : Node σ) (_ : Input) : Prop := True

theorem Reach.invariant {cfg : Config σ} {t : Bool} {ok : Node σ → Input → Prop}
    {I : Node σ → Prop} (hInit : I (Node.init cfg t))
    (hStep : ∀ s₀ i, Reach cfg t ok s₀ → ok s₀ i → ∀ s s', I s → Step cfg s₀ i s s' → I s')
    {s : Node σ} (hs : Reach cfg t ok s) : I s :=
  Machine.Reach.invariant hInit (fun s₀ i _ hs₀ hI hok hn =>
    handle_invariant (hStep s₀ i hs₀ hok) hI hn) hs

theorem sent_step {cfg : Config σ} {s₀ s s' : Node σ} {i : Input} {m : Msg} (hm : m ∈ s.sent)
    (hStep : Step cfg s₀ i s s') : m ∈ s'.sent := by
  cases hStep with
  | propose | accept | markPrepared | installView => exact List.mem_append_left _ hm
  | execute =>
    rw [executeEntry_eq]
    dsimp only
    split
    · exact List.mem_append_left _ hm
    · exact hm
  | beginViewChange =>
    rw [beginViewChange_eq]
    exact List.mem_append_left _ hm
  | _ => exact hm

theorem sent_handle {cfg : Config σ} {s s' : Node σ} {i : Input} (hCall : s.handle cfg i = some s')
    {m : Msg} (hm : m ∈ s.sent) : m ∈ s'.sent :=
  handle_invariant (I := fun s => m ∈ s.sent) (fun _ _ => sent_step) hm hCall

theorem exists_call (cfg : Config σ) (t : Bool) (ok : Node σ → Input → Prop)
    [∀ s i, Decidable (ok s i)] (is : List Input) (i : Input) (p : Node σ → Node σ → Prop)
    [∀ s, DecidablePred (p s)]
    (h : (Machine.run (machine cfg t) ok (Node.init cfg t) is).any
      (fun s => (s.handle cfg i).any (p s ·)) = true) :
    ∃ s s', Reach cfg t ok s ∧ s.handle cfg i = some s' ∧ p s s' :=
  Machine.exists_reach_step (machine cfg t) ok is i p h

end Node

/-- The service whose state is the list of the operations it has executed. -/
def Service.recorder : Service (List String) where
  initial := []
  execute ops op := (ops ++ [op], "OK")
  getCheckpointDigest ops := BitVec.ofNat 256 (2 * ops.length + 1)

/-- A configuration to evaluate the model with. Its hash packs the bytes of a request into an
odd number, so that it is neither zero nor the hash of the empty string. -/
def Config.sample (n L K : UInt32) : Config (List String) where
  id := 0
  n := n
  L := L
  K := K
  service := .recorder
  getHash m := BitVec.ofNat 256 (2 * m.operation.toList.foldl (fun acc c => acc * 256 + c.toNat)
    (m.timestamp.toNat * 2 ^ 32 + m.clientId.toNat) + 1)
  emptyHash := 2
  visit votes := votes.toList
  visit_perm _ := .refl _

theorem Config.sample_getHash (n L K : UInt32) (m : RequestMsg) :
    (Config.sample n L K).getHash m ≠ 0 := by
  intro h
  have hOdd := congrArg BitVec.toNat h
  rw [Config.sample, BitVec.toNat_ofNat] at hOdd
  simp only [BitVec.ofNat_eq_ofNat, BitVec.toNat_zero] at hOdd
  omega

end Pbft
