import Pbft.Foundation.Machine
import Pbft.Foundation.Quorum
import Pbft.Node.Run
import Mathlib.Logic.Function.Basic

/-! # Replicas connected by an unreliable network

A world is the state of every replica. Since a replica's history keeps all it has broadcast,
a message may be delivered in any order, any number of times or never, simply because
delivery only asks that the message is in the history of its sender.
-/
namespace Pbft
set_option autoImplicit false

variable {σ : Type}

/-- A cluster under one configuration, in which the id is that of the replica at hand. peer
says which replica holds the other end of a connection; none stands for a client. -/
structure Cluster (σ : Type) where
  base : Config σ
  faulty : Finset UInt32
  peer : UInt32 → Conn → Option UInt32
  timerRunning : UInt32 → Bool

/-- The ids of a cluster of n replicas. -/
def Config.replicas (cfg : Config σ) : Finset UInt32 := (Finset.range cfg.n.toNat).image UInt32.ofNat

theorem Config.mem_replicas {cfg : Config σ} {r : UInt32} : r ∈ cfg.replicas ↔ r < cfg.n := by
  unfold replicas
  rw [Finset.mem_image, UInt32.lt_iff_toNat_lt]
  constructor
  · rintro ⟨k, hk, rfl⟩
    have hk : k < cfg.n.toNat := Finset.mem_range.mp hk
    rwa [UInt32.toNat_ofNat_of_lt' (hk.trans cfg.n.toNat_lt)]
  · intro h
    exact ⟨r.toNat, Finset.mem_range.mpr h, UInt32.ofNat_toNat⟩

theorem Config.card_replicas (cfg : Config σ) : cfg.replicas.card = cfg.n.toNat := by
  have hInj : Set.InjOn UInt32.ofNat (Finset.range cfg.n.toNat) := by
    intro a ha b hb hEq
    have ha : a < 2 ^ 32 := (Finset.mem_range.mp ha).trans cfg.n.toNat_lt
    have hb : b < 2 ^ 32 := (Finset.mem_range.mp hb).trans cfg.n.toNat_lt
    rw [← UInt32.toNat_ofNat_of_lt' ha, ← UInt32.toNat_ofNat_of_lt' hb, hEq]
  exact (Finset.card_image_of_injOn hInj).trans (Finset.card_range _)

abbrev World (σ : Type) := UInt32 → Node σ

abbrev Traffic := UInt32 → Msg → Prop

def World.sent (G : World σ) : Traffic := fun p m => m ∈ (G p).sent

instance (G : World σ) (p : UInt32) (m : Msg) : Decidable (G.sent p m) :=
  inferInstanceAs (Decidable (_ ∈ _))

namespace Cluster
variable (C : Cluster σ)

def cfg (r : UInt32) : Config σ := { C.base with id := r }

def Correct (r : UInt32) : Prop := r < C.base.n ∧ r ∉ C.faulty

instance (r : UInt32) : Decidable (C.Correct r) := inferInstanceAs (Decidable (_ ∧ _))

/-- The number of replicas fits the number of faults, and there are no more faults than that. -/
structure Resilient : Prop where
  size : C.base.n.toNat = 3 * C.base.f.toNat + 1
  faulty : C.faulty.card ≤ C.base.f.toNat

def machine : Machine (World σ) (UInt32 × Input) where
  init r := Node.init (C.cfg r) (C.timerRunning r)
  next G a := ((G a.1).handle (C.cfg a.1) a.2).map (Function.update G a.1)

abbrev Reach (ok : World σ → UInt32 → Input → Prop) : World σ → Prop :=
  Machine.Reach C.machine fun G a => ok G a.1 a.2

section
variable (S : Traffic) (r : UInt32)

/-- A sender other than the receiver may have produced m: a faulty replica sends anything. -/
def MayHaveSent (p : UInt32) (m : Msg) : Prop :=
  p < C.base.n ∧ p ≠ r ∧ (p ∉ C.faulty → S p m)

/-- The replica_id of a vote names its true sender. -/
def IdTrue : Input → Prop
  | .recv m _ => ∀ p ∈ m.replicaId?, C.MayHaveSent S r p m
  | .timeout => True

/-- A handshake tells the id of the other end, and PRE-PREPARE and NEW-VIEW come from the
other end. -/
def ConnTrue : Input → Prop
  | .recv (.handshake m) conn => m.id ≠ r ∧ C.peer r conn = some m.id
  | .recv (.prePrepare m) conn => ∃ p ∈ C.peer r conn, C.MayHaveSent S r p (.prePrepare m)
  | .recv (.newView m) conn => ∃ p ∈ C.peer r conn, C.MayHaveSent S r p (.newView m)
  | _ => True

end

section
variable (G : World σ) (r : UInt32)

instance (p : UInt32) (m : Msg) : Decidable (C.MayHaveSent G.sent r p m) :=
  inferInstanceAs (Decidable (_ ∧ _))

-- by the one element that the option may have, not by going through all ids
instance : (i : Input) → Decidable (C.IdTrue G.sent r i)
  | .recv m _ => Option.decidableForallMem m.replicaId?
  | .timeout => .isTrue trivial

instance : (i : Input) → Decidable (C.ConnTrue G.sent r i)
  | .recv (.handshake _) _ => inferInstanceAs (Decidable (_ ∧ _))
  | .recv (.prePrepare _) conn | .recv (.newView _) conn => Option.decidableExistsMem (C.peer r conn)
  | .recv (.request _) _ | .recv (.prepare _) _ | .recv (.commit _) _ | .recv (.checkpoint _) _
  | .recv (.viewChange _) _ | .timeout => .isTrue trivial

end

/-- Only correct replicas run the handlers; whatever a faulty one does is a message. -/
structure Network (G : World σ) (r : UInt32) (i : Input) : Prop where
  correct : C.Correct r
  id : C.IdTrue G.sent r i
  conn : C.ConnTrue G.sent r i

instance (G : World σ) (r : UInt32) (i : Input) : Decidable (C.Network G r i) :=
  decidable_of_iff (_ ∧ _ ∧ _) ⟨fun h => ⟨h.1, h.2.1, h.2.2⟩, fun h => ⟨h.correct, h.id, h.conn⟩⟩

variable {C} {S S' : Traffic} {r : UInt32}

theorem Network.exists_sender (hFaulty : C.faulty = ∅) {G : World σ} {m : Msg} {conn : Conn}
    (h : C.Network G r (.recv m conn)) :
    (∃ hs, m = .handshake hs) ∨ (∃ q, m = .request q) ∨ ∃ p, m ∈ (G p).sent := by
  have hNone : ∀ p, p ∉ C.faulty := by simp [hFaulty]
  have hVote : ∀ p ∈ m.replicaId?, ∃ p, m ∈ (G p).sent := fun p hp => ⟨p, (h.id p hp).2.2 (hNone p)⟩
  cases m with
  | handshake m => exact .inl ⟨m, rfl⟩
  | request m => exact .inr (.inl ⟨m, rfl⟩)
  | prePrepare m =>
    obtain ⟨p, -, hSent⟩ := h.conn
    exact .inr (.inr ⟨p, hSent.2.2 (hNone p)⟩)
  | newView m =>
    obtain ⟨p, -, hSent⟩ := h.conn
    exact .inr (.inr ⟨p, hSent.2.2 (hNone p)⟩)
  | prepare m | commit m | checkpoint m | viewChange m => exact .inr (.inr (hVote m.replicaId rfl))

theorem Network.peer {G : World σ} {i : Input} (h : C.Network G r i) (m : HandshakeMsg) (conn : Conn)
    (hi : i = .recv (.handshake m) conn) : m.id ≠ (C.cfg r).id := by
  have hConn := h.conn
  rw [hi] at hConn
  exact hConn.1

theorem MayHaveSent.mono (hS : ∀ p m, S p m → S' p m) {p : UInt32} {m : Msg}
    (h : C.MayHaveSent S r p m) : C.MayHaveSent S' r p m :=
  ⟨h.1, h.2.1, fun hCorrect => hS p m (h.2.2 hCorrect)⟩

theorem IdTrue.mono (hS : ∀ p m, S p m → S' p m) {i : Input} (h : C.IdTrue S r i) :
    C.IdTrue S' r i := by
  cases i with
  | recv m conn => exact fun p hp => (h p hp).mono hS
  | timeout => trivial

variable {ok : World σ → UInt32 → Input → Prop} {G G' : World σ}

theorem next_eq {a : UInt32 × Input} (h : C.machine.next G a = some G') :
    ∃ s', (G a.1).handle (C.cfg a.1) a.2 = some s' ∧ G' = Function.update G a.1 s' := by
  obtain ⟨s', hCall, hEq⟩ := Option.map_eq_some_iff.mp h
  exact ⟨s', hCall, hEq.symm⟩

theorem sent_next {a : UInt32 × Input} (h : C.machine.next G a = some G') {p : UInt32} {m : Msg}
    (hm : G.sent p m) : G'.sent p m := by
  obtain ⟨s', hCall, rfl⟩ := next_eq h
  unfold World.sent at hm ⊢
  by_cases hp : p = a.1
  · subst hp
    rw [Function.update_self]
    exact Node.sent_handle hCall hm
  · rwa [Function.update_of_ne hp]

theorem Reach.node_of_traffic {okNode : UInt32 → Node σ → Input → Prop} {S : Traffic}
    (hs : C.Reach ok G) (hS : ∀ p m, G.sent p m → S p m)
    (hOk : ∀ G' r i, ok G' r i → (∀ p m, G'.sent p m → S p m) → okNode r (G' r) i) (r : UInt32) :
    Node.Reach (C.cfg r) (C.timerRunning r) (okNode r) (G r) := by
  induction hs with
  | init => exact .init
  | @step G G' a hs ha hn ih =>
    have hBefore : ∀ p m, G.sent p m → S p m := fun p m hm => hS p m (sent_next hn hm)
    obtain ⟨s', hCall, rfl⟩ := next_eq hn
    by_cases hr : r = a.1
    · subst hr
      rw [Function.update_self]
      exact .step (ih hBefore) (hOk G _ _ ha hBefore) hCall
    · rw [Function.update_of_ne hr]
      exact ih hBefore

/-- What one replica does in a run of the cluster is a run of that replica alone, in an
environment that may use anything broadcast by the end. Broadcasts only accumulate, so facts of
the form "if this was received then that was sent" need no other view of the run. -/
theorem Reach.node (hs : C.Reach ok G) (okNode : UInt32 → Node σ → Input → Prop)
    (hOk : ∀ G' r i, ok G' r i → (∀ p m, G'.sent p m → G.sent p m) → okNode r (G' r) i)
    (r : UInt32) : Node.Reach (C.cfg r) (C.timerRunning r) (okNode r) (G r) :=
  hs.node_of_traffic (fun _ _ hm => hm) hOk r

theorem Reach.anything (hs : C.Reach ok G) (r : UInt32) :
    Node.Reach (C.cfg r) (C.timerRunning r) Node.Anything (G r) :=
  hs.node (fun _ => Node.Anything) (fun _ _ _ _ _ => trivial) r

/-- An invariant of every replica at once: a call may use it for the senders of what it gets. -/
theorem Reach.pointwise_call {J : UInt32 → Node σ → Prop}
    (hInit : ∀ r, J r (Node.init (C.cfg r) (C.timerRunning r)))
    (hCall : ∀ G r i s', C.Reach ok G → ok G r i → (∀ p, J p (G p)) →
      (G r).handle (C.cfg r) i = some s' → J r s')
    (hs : C.Reach ok G) (r : UInt32) : J r (G r) := by
  refine Machine.Reach.invariant (I := fun G => ∀ r, J r (G r)) hInit (fun G a G' hs hJ ha hn r => ?_) hs r
  obtain ⟨s', hNext, rfl⟩ := next_eq hn
  by_cases hr : r = a.1
  · subst hr
    rw [Function.update_self]
    exact hCall G a.1 a.2 s' hs ha hJ hNext
  · rw [Function.update_of_ne hr]
    exact hJ r

theorem Reach.pointwise {J : UInt32 → Node σ → Prop}
    (hInit : ∀ r, J r (Node.init (C.cfg r) (C.timerRunning r)))
    (hStep : ∀ G r i, C.Reach ok G → ok G r i → (∀ p, J p (G p)) →
      ∀ s s', J r s → Node.Step (C.cfg r) (G r) i s s' → J r s')
    (hs : C.Reach ok G) (r : UInt32) : J r (G r) :=
  hs.pointwise_call hInit (fun G r i _ hs ha hJ hNext =>
    Node.handle_invariant (hStep G r i hs ha hJ) (hJ r) hNext) r

theorem card_union_le {A B : Finset UInt32} (hA : ∀ p ∈ A, p < C.base.n) (hB : ∀ p ∈ B, p < C.base.n) :
    (A ∪ B).card ≤ C.base.n.toNat := by
  rw [← C.base.card_replicas]
  apply Finset.card_le_card
  apply Finset.union_subset
  · exact fun p hp => Config.mem_replicas.mpr (hA p hp)
  · exact fun p hp => Config.mem_replicas.mpr (hB p hp)

theorem Resilient.exists_common (hC : C.Resilient) {A B : Finset UInt32}
    (hA : ∀ p ∈ A, p < C.base.n) (hB : ∀ p ∈ B, p < C.base.n)
    (hQA : C.base.quorum ≤ A.card) (hQB : C.base.quorum ≤ B.card) :
    ∃ p ∈ A, p ∈ B ∧ C.Correct p := by
  have hSize := hC.size
  have hFaulty := hC.faulty
  rw [Config.quorum_eq] at hQA hQB
  obtain ⟨p, hpA, hpB, hCorrect⟩ := Quorum.exists_common (F := C.faulty) (card_union_le hA hB) (by omega)
  exact ⟨p, hpA, hpB, hA p hpA, hCorrect⟩

/-- Connection p of every replica leads to replica p, and higher numbers to clients. -/
def sample (n : UInt32) (faulty : Finset UInt32) : Cluster (List String) where
  base := Config.sample n 200 100
  faulty := faulty
  peer _ conn := if conn < n.toNat then some (UInt32.ofNat conn) else none
  timerRunning _ := false

def deliver (m : Msg) (p r : UInt32) : UInt32 × Input := (r, .recv m p.toNat)

/-- One pre-prepare reaches all of rs, and then all votes of rs reach each other. -/
def ordering (pp : PrePrepareMsg) (primary : UInt32) (rs : List UInt32) : List (UInt32 × Input) :=
  let votes (m : UInt32 → Msg) := rs.flatMap fun r => (rs.filter (· ≠ r)).map fun p => deliver (m p) p r
  rs.map (deliver (.handshake ⟨primary⟩) primary) ++ rs.map (deliver (.prePrepare pp) primary) ++
    votes (fun p => .prepare ⟨pp.view, pp.seqNum, pp.reqDigest, p⟩) ++
    votes (fun p => .commit ⟨pp.view, pp.seqNum, pp.reqDigest, p⟩)

theorem sample_correct {r : UInt32} (h : (sample 4 {0}).Correct r) : r = 1 ∨ r = 2 ∨ r = 3 := by
  have hlt : r.toNat < 4 := UInt32.lt_iff_toNat_lt.mp h.1
  have hNe : r.toNat ≠ 0 := fun h0 => h.2 (Finset.mem_singleton.mpr (UInt32.toNat_inj.mp h0))
  simp only [← UInt32.toNat_inj, UInt32.reduceToNat]
  omega

theorem sample_resilient {n : UInt32} {faulty : Finset UInt32}
    (hSize : n.toNat = 3 * ((n - 1) / 3).toNat + 1) (hFaulty : faulty.card ≤ ((n - 1) / 3).toNat) :
    (sample n faulty).Resilient :=
  ⟨hSize, hFaulty⟩

end Cluster
end Pbft
