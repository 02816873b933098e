import Pbft.Node.Ordering

/-! # View changes

VIEW-CHANGE and NEW-VIEW carry 64-bit views, everything else 32-bit ones; every conversion
of the source is written out. The loop that fills the O set may run forever, in which case
the handler does not return: handlers of this module are therefore partial.
-/
namespace Pbft
set_option autoImplicit false

variable {σ : Type}

def minS (V : List ViewChangeMsg) : UInt64 :=
  V.foldl (fun acc vc => max acc vc.lastStableCheckpoint) 0

/-- max_s, from the value that the accumulator starts with: 0 in on_viewchange, min_s in
on_newview. -/
def maxS (start : UInt64) (V : List ViewChangeMsg) : UInt64 :=
  V.foldl (fun acc vc => vc.preparedProofs.foldl (fun acc prep => max acc prep.seqNum) acc) start

structure Selection where
  highestView : UInt32 := 0
  reqDigest : Digest := 0
  found : Bool := false

def Selection.consider (n : UInt64) (sel : Selection) (prep : PrepareProof) : Selection :=
  if prep.seqNum = n ∧ prep.view > sel.highestView then ⟨prep.view, prep.digest, true⟩ else sel

def selectProof (V : List ViewChangeMsg) (n : UInt64) : Selection :=
  V.foldl (fun sel vc => vc.preparedProofs.foldl (Selection.consider n) sel) {}

/-- The re-issued pre-prepare for n. It never carries the request that belongs to the digest. -/
def reissue (cfg : Config σ) (nextView : UInt64) (V : List ViewChangeMsg) (n : UInt64) :
    PrePrepareMsg :=
  let sel := selectProof V n
  if sel.found then ⟨nextView.toUInt32, n, sel.reqDigest, ⟨"", 0, 0⟩⟩
  else ⟨nextView.toUInt32, n, cfg.emptyHash, ⟨"", 0, 0⟩⟩

/-- The loop over n up to max_s in 64-bit arithmetic, given up after fuel passes. -/
def reissueLoop (cfg : Config σ) (nextView : UInt64) (V : List ViewChangeMsg) (last : UInt64) :
    Nat → UInt64 → Option (List PrePrepareMsg)
  | 0, _ => none
  | fuel + 1, n =>
    if n ≤ last then
      (reissueLoop cfg nextView V last fuel (n + 1)).map (reissue cfg nextView V n :: ·)
    else some []

/-- The O set. A loop that has not ended after 2^64 passes has seen every value of n. -/
def oSet (cfg : Config σ) (nextView : UInt64) (V : List ViewChangeMsg) :
    Option (List PrePrepareMsg) :=
  reissueLoop cfg nextView V (maxS 0 V) (2 ^ 64 + 1) (minS V + 1)

namespace Node

def ascending (ids : Finset UInt32) : List UInt32 :=
  ((ids.image UInt32.toNat).sort (· ≤ ·)).map UInt32.ofNat

/-- The C set: votes for the checkpoint at the low watermark, digest by digest until one has
a quorum. The watermark has gone through a 32-bit local by then. -/
def checkpointProof (cfg : Config σ) (s : Node σ) : List CheckpointMsg :=
  let lastStableCheckpoint := s.h.toUInt32.toUInt64
  match s.checkpoints[lastStableCheckpoint]? with
  | none => []
  | some cp =>
    let digests := cfg.visit cp.votes
    let skipped := digests.takeWhile fun d => decide (d.2.card < cfg.quorum)
    let visited := digests.take (skipped.length + 1)
    visited.flatMap fun d => (ascending d.2).map fun rid => ⟨lastStableCheckpoint, d.1, rid⟩

def preparedProofs (s : Node σ) : List PrepareProof :=
  s.reqlog.toList.filterMap fun (_, e) =>
    if e.stage = .prepared then some ⟨e.view, e.seq, e.digest⟩ else none

/-- The VIEW-CHANGE that start_view_change broadcasts. view_ + 1 is a 32-bit sum. -/
def viewChangeMsg (cfg : Config σ) (s : Node σ) : ViewChangeMsg where
  nextView := (s.view + 1).toUInt64
  lastStableCheckpoint := s.h.toUInt32.toUInt64
  replicaId := cfg.id
  checkpointProof := s.checkpointProof cfg
  preparedProofs := s.preparedProofs

/-- The messages stored for the view of m once m is stored. The key is 32 bits wide. -/
def storedWith (s : Node σ) (m : ViewChangeMsg) : Std.ExtTreeMap UInt32 ViewChangeMsg :=
  (s.viewChangeStore.getD m.nextView.toUInt32 ∅).insert m.replicaId m

def storeViewChange (m : ViewChangeMsg) (s : Node σ) : Node σ :=
  { s with viewChangeStore := s.viewChangeStore.insert m.nextView.toUInt32 (s.storedWith m) }

/-- The new primary announces and enters the view; it does not process the O set itself. -/
def installView (nextView : UInt64) (V : List ViewChangeMsg) (O : List PrePrepareMsg)
    (s : Node σ) : Node σ :=
  let s := s.broadcast (.newView ⟨nextView.toUInt32.toUInt64, V, O⟩)
  let s := { s with viewChanging := false, view := nextView.toUInt32, viewChangeTimeoutCount := 0 }
  { s with seqNum := s.recomputeHighestSequence }

def onViewchange (cfg : Config σ) (m : ViewChangeMsg) (s : Node σ) : Option (Node σ) :=
  if m.nextView < s.view.toUInt64 then some s
  else if m.nextView % cfg.n.toUInt64 ≠ cfg.id.toUInt64 then some s
  else
    let vcs := s.storedWith m
    let s := s.storeViewChange m
    if vcs.size ≥ cfg.quorum then
      let V := vcs.toList.map Prod.snd
      (oSet cfg m.nextView V).map fun O => (s.installView m.nextView V O).manageTimer
    else some s

/-- Nothing that start_view_change writes before the broadcast is read for the message. -/
def beginViewChange (cfg : Config σ) (s : Node σ) : Node σ :=
  let vc := s.viewChangeMsg cfg
  let s := { s with viewChanging := true, viewChangeTimeoutCount := s.viewChangeTimeoutCount + 1 }
  let s := s.stopTimer
  s.broadcast (.viewChange vc)

def startViewChange (cfg : Config σ) (s : Node σ) : Option (Node σ) :=
  (s.beginViewChange cfg).onViewchange cfg (s.viewChangeMsg cfg)

def acceptsNewview (cfg : Config σ) (m : NewViewMsg) (conn : Conn) (s : Node σ) : Prop :=
  s.comesFromPrimary cfg conn m.nextView.toUInt32 = true ∧
  ¬(s.viewChanging = false ∨ m.nextView ≤ s.view.toUInt64) ∧
  ¬m.viewChanges.length < cfg.quorum ∧
  m.prePrepares.length = (maxS (minS m.viewChanges) m.viewChanges - minS m.viewChanges).toNat

instance (cfg : Config σ) (m : NewViewMsg) (conn : Conn) (s : Node σ) :
    Decidable (s.acceptsNewview cfg m conn) :=
  inferInstanceAs (Decidable (_ ∧ _))

def enterView (m : NewViewMsg) (s : Node σ) : Node σ :=
  { s with viewChanging := false, view := m.nextView.toUInt32, viewChangeTimeoutCount := 0 }

def onNewview (cfg : Config σ) (m : NewViewMsg) (conn : Conn) (s : Node σ) : Node σ :=
  if ¬s.acceptsNewview cfg m conn then s
  else
    let s := s.enterView m
    let s := m.prePrepares.foldl (fun s pp => s.onPreprepareImpl cfg pp conn true) s
    let s := { s with seqNum := s.recomputeHighestSequence }
    s.manageTimer

end Node

inductive Input where
  | recv (m : Msg) (conn : Conn)
  | timeout
deriving DecidableEq

namespace Node

def onHandshake (m : HandshakeMsg) (conn : Conn) (s : Node σ) : Node σ :=
  { s with connToPeer := s.connToPeer.insert conn m.id }

/-- One handler call; none when the handler does not return. -/
def handle (cfg : Config σ) (s : Node σ) : Input → Option (Node σ)
  | .recv (.handshake m) conn => some (s.onHandshake m conn)
  | .recv (.request m) _ => some (s.onRequest cfg m)
  | .recv (.prePrepare m) conn => some (s.onPreprepare cfg m conn)
  | .recv (.prepare m) conn => some (s.onPrepare cfg m conn)
  | .recv (.commit m) _ => some (s.onCommit cfg m)
  | .recv (.checkpoint m) _ => some (s.onCheckpoint cfg m)
  | .recv (.viewChange m) _ => s.onViewchange cfg m
  | .recv (.newView m) conn => some (s.onNewview cfg m conn)
  | .timeout => s.startViewChange cfg

end Node
end Pbft
