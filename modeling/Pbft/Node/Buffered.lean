import Pbft.Node.Authentic

/-! # Prepares that arrive before their pre-prepare

A prepare is counted for an entry that has no pre-prepare yet, and then only its sender is kept. When
the pre-prepare arrives nothing tells which digest the sender has named, so that the prepares of an
entry are for its digest only as far as the early ones happen to be.
-/
namespace Pbft.Node
set_option autoImplicit false

variable {σ : Type} {cfg : Config σ}

/-- The message of a call if its handler has accepted it. -/
def accepted? (cfg : Config σ) (s : Node σ) : Input → Option Msg
  | .recv m conn => if Counts cfg s conn m then some m else none
  | .timeout => none

/-- A message with the property P has been accepted on the way. -/
def Received (cfg : Config σ) (trace : List (Node σ × Input)) (P : Msg → Prop) : Prop :=
  ∃ c ∈ trace, ∃ m ∈ accepted? cfg c.1 c.2, P m

instance (trace : List (Node σ × Input)) (P : Msg → Prop) [DecidablePred P] : Decidable (Received cfg trace P) :=
  List.decidableBEx _ _

theorem Received.mono {trace : List (Node σ × Input)} {P : Msg → Prop} (h : Received cfg trace P)
    (c : Node σ × Input) : Received cfg (trace ++ [c]) P := by
  obtain ⟨c', hc', hRest⟩ := h
  exact ⟨c', List.mem_append_left _ hc', hRest⟩

theorem received_of_counts {trace : List (Node σ × Input)} {P : Msg → Prop} {s : Node σ} {m : Msg} {conn : Conn}
    (hCounts : Counts cfg s conn m) (hP : P m) : Received cfg (trace ++ [(s, .recv m conn)]) P :=
  ⟨(s, .recv m conn), List.mem_append_right _ (List.mem_singleton.mpr rfl), m, if_pos hCounts, hP⟩

/-- The message is a prepare of r for the digest at k. -/
def Seconds (k : UInt64) (digest : Digest) (r : UInt32) : Msg → Prop
  | .prepare m => m.seqNum = k ∧ m.reqDigest = digest ∧ m.replicaId = r
  | _ => False

instance (k : UInt64) (digest : Digest) (r : UInt32) : DecidablePred (Seconds k digest r)
  | .prepare _ => inferInstanceAs (Decidable (_ ∧ _))
  | .handshake _ | .request _ | .prePrepare _ | .commit _ | .checkpoint _ | .viewChange _ | .newView _ =>
    .isFalse id

/-- Everybody else in ids has sent a prepare for the digest at k that was accepted. -/
def AllSecond (cfg : Config σ) (trace : List (Node σ × Input)) (k : UInt64) (digest : Digest)
    (ids : Finset UInt32) : Prop :=
  ∀ r ∈ ids, r ≠ cfg.id → Received cfg trace (Seconds k digest r)

instance (trace : List (Node σ × Input)) (k : UInt64) (digest : Digest) (ids : Finset UInt32) :
    Decidable (AllSecond cfg trace k digest ids) :=
  Finset.decidableDforallFinset

theorem AllSecond.mono {trace : List (Node σ × Input)} {k : UInt64} {digest : Digest} {ids : Finset UInt32}
    (h : AllSecond cfg trace k digest ids) (c : Node σ × Input) :
    AllSecond cfg (trace ++ [c]) k digest ids :=
  fun r hr hOther => (h r hr hOther).mono c

/-- What the code does not see to: the prepares that a call finds where it logs its first digest are
for that digest. A proposal overwrites whatever is there. -/
structure Foreseen (cfg : Config σ) (trace : List (Node σ × Input)) (s : Node σ) (i : Input) : Prop where
  accepted : ∀ m ∈ prePrepares i, Accepts cfg s i m → (s.entry m.seqNum).hasPreprepare = false →
    AllSecond cfg trace m.seqNum m.reqDigest (s.entry m.seqNum).prepares
  proposed : ∀ m ∈ request? i, Proposes cfg s m →
    AllSecond cfg trace (s.seqNum + 1) (cfg.getHash m) (s.entry (s.seqNum + 1)).prepares

instance (trace : List (Node σ × Input)) (s : Node σ) (i : Input) : Decidable (Foreseen cfg trace s i) :=
  have : Decidable (∀ m ∈ request? i, Proposes cfg s m →
      AllSecond cfg trace (s.seqNum + 1) (cfg.getHash m) (s.entry (s.seqNum + 1)).prepares) :=
    Option.decidableForallMem _
  decidable_of_iff (_ ∧ _) ⟨fun h => ⟨h.1, h.2⟩, fun h => ⟨h.accepted, h.proposed⟩⟩

/-- The prepares of an entry with a pre-prepare are for its digest. -/
def SecondedInv (cfg : Config σ) (s : Node σ) (trace : List (Node σ × Input)) : Prop :=
  ∀ k, (s.entry k).hasPreprepare = true → AllSecond cfg trace k (s.entry k).digest (s.entry k).prepares

theorem SecondedInv.write {s t : Node σ} {trace : List (Node σ × Input)} {k : UInt64} {e : ReqLogEntry}
    (w : SecondedInv cfg s trace) (hLog : t.reqlog = s.reqlog.insert k e)
    (he : e.hasPreprepare = true → AllSecond cfg trace k e.digest e.prepares) : SecondedInv cfg t trace := by
  intro a
  rw [entry_of_insert hLog]
  split
  · rename_i hka
    exact hka ▸ he
  · exact w a

theorem allSecond_insert {trace : List (Node σ × Input)} {k : UInt64} {digest : Digest} {ids : Finset UInt32}
    {r : UInt32} (h : AllSecond cfg trace k digest ids)
    (hr : r ≠ cfg.id → Received cfg trace (Seconds k digest r)) : AllSecond cfg trace k digest (insert r ids) := by
  intro p hp hOther
  rcases Finset.mem_insert.mp hp with rfl | hOld
  · exact hr hOther
  · exact h p hOld hOther

theorem secondedInv_step {s₀ s s' : Node σ} {i : Input} {trace : List (Node σ × Input)}
    (hForeseen : Foreseen cfg trace s₀ i) (hBefore : SecondedInv cfg s₀ trace)
    (hCounts : ∀ m conn, i = .recv (.prepare m) conn → Counts cfg s₀ conn (.prepare m))
    (w : SecondedInv cfg s (trace ++ [(s₀, i)])) (hStep : Step cfg s₀ i s s') :
    SecondedInv cfg s' (trace ++ [(s₀, i)]) := by
  cases hStep with
  | propose hi hProposes =>
    refine w.write rfl fun _ => allSecond_insert ?_ fun hOwn => absurd rfl hOwn
    exact (hForeseen.proposed _ (by simp [hi, request?]) hProposes).mono _
  | @accept _ m _ _ _ _ hDigest _ hAccepts hEarly =>
    refine w.write rfl fun _ => allSecond_insert ?_ fun hOwn => absurd rfl hOwn
    cases hPre : (s.entry m.seqNum).hasPreprepare with
    | true => exact hDigest hPre ▸ w m.seqNum hPre
    | false =>
      rw [hEarly hPre]
      cases hPre₀ : (s₀.entry m.seqNum).hasPreprepare with
      | true => exact hAccepts.2.1.2 hPre₀ ▸ (hBefore m.seqNum hPre₀).mono _
      | false => exact (hForeseen.accepted m hAccepts.1 hAccepts hPre₀).mono _
  | @votePrepare _ m conn hi _ _ hDigest =>
    refine w.write rfl fun hPre => allSecond_insert (w m.seqNum hPre) fun _ => ?_
    have hAccepted := hCounts m conn hi
    subst hi
    exact received_of_counts hAccepted ⟨rfl, (hDigest hPre).symm, rfl⟩
  | markPrepared | touch | voteCommit | markCommitted => exact w.write rfl (w _)
  | execute =>
    rw [executeEntry_eq]
    exact w
  | stabilize =>
    intro k
    rw [entry_of_stabilize]
    split
    · intro hPre
      cases hPre
    · exact w k
  | beginViewChange =>
    rw [beginViewChange_eq]
    exact w
  | _ => exact w

theorem secondedInv_handle {s s' : Node σ} {i : Input} {trace : List (Node σ × Input)}
    (w : SecondedInv cfg s trace) (hForeseen : Foreseen cfg trace s i) (hCall : s.handle cfg i = some s') :
    SecondedInv cfg s' (trace ++ [(s, i)]) := by
  have hMono : SecondedInv cfg s (trace ++ [(s, i)]) := fun k hPre => (w k hPre).mono _
  by_cases hCounts : ∀ m conn, i = .recv (.prepare m) conn → Counts cfg s conn (.prepare m)
  · exact handle_invariant (I := fun t => SecondedInv cfg t (trace ++ [(s, i)]))
      (fun _ _ => secondedInv_step hForeseen w hCounts) hMono hCall
  · -- a prepare that is not accepted changes nothing
    push Not at hCounts
    obtain ⟨m, conn, rfl, hNot⟩ := hCounts
    cases hCall
    rcases onPrepare_cases cfg m conn s with hSame | hGuard
    · rwa [hSame]
    · exact absurd hGuard hNot

/-- In a run in which the early prepares are for the digest that is logged later, whoever is counted
for an entry with a pre-prepare has sent a prepare for its digest. -/
theorem prepares_match {t : Bool} {s : Node σ} {trace : List (Node σ × Input)}
    (hs : Machine.Reach (machine cfg t).record (fun x => Foreseen cfg x.2 x.1) (s, trace)) {k : UInt64}
    (hPre : (s.entry k).hasPreprepare = true) :
    ∀ r ∈ (s.entry k).prepares, r ≠ cfg.id → Received cfg trace (Seconds k (s.entry k).digest r) := by
  have hInv : SecondedInv cfg s trace := Machine.Reach.record_invariant
    (fun k hPre => by simp [machine, Node.init, entry] at hPre)
    (fun _ _ _ _ w hForeseen hCall => secondedInv_handle w hForeseen hCall) hs
  exact hInv k hPre

/-- Replica 1 gets a prepare of replica 2 for a digest at number 1, and then the pre-prepare for 7. -/
def earlyPrepare (digest : Digest) : List Input :=
  [.recv (.handshake ⟨0⟩) 0, .recv (.prepare ⟨0, 1, digest, 2⟩) 2, .recv (.prePrepare ⟨0, 1, 7, {}⟩) 0]

theorem prepares_match_two : ∃ x : Node (List String) × List (Node (List String) × Input),
    Machine.Reach (machine { Config.sample 4 200 100 with id := 1 } false).record
      (fun x => Foreseen { Config.sample 4 200 100 with id := 1 } x.2 x.1) x ∧
    (x.1.entry 1).hasPreprepare = true ∧ 2 ∈ (x.1.entry 1).prepares ∧
    Received { Config.sample 4 200 100 with id := 1 } x.2 (Seconds 1 7 2) := by
  obtain ⟨x, hx, hPre, hDigest, hMem⟩ := Machine.exists_reach
    (machine { Config.sample 4 200 100 with id := 1 } false).record
    (fun x => Foreseen { Config.sample 4 200 100 with id := 1 } x.2 x.1) (earlyPrepare 7)
    (fun x => (x.1.entry 1).hasPreprepare = true ∧ (x.1.entry 1).digest = 7 ∧ 2 ∈ (x.1.entry 1).prepares)
    (by decide +kernel)
  have hReceived := prepares_match hx hPre 2 hMem (by decide)
  rw [hDigest] at hReceived
  exact ⟨x, hx, hPre, hMem, hReceived⟩

/-- The early prepare is for another digest. It is counted all the same, and the replica commits to a
request that nobody else has prepared. -/
theorem prepares_mismatch : ∃ x : Node (List String) × List (Node (List String) × Input),
    Machine.Reach (machine { Config.sample 4 200 100 with id := 1 } false).record (fun x => Anything x.1) x ∧
    (∀ c ∈ x.2, c.1.view = 0) ∧ x.1.view = 0 ∧
    (x.1.entry 1).hasPreprepare = true ∧ (x.1.entry 1).digest = 7 ∧ (x.1.entry 1).stage = .prepared ∧
    2 ∈ (x.1.entry 1).prepares ∧ ¬Received { Config.sample 4 200 100 with id := 1 } x.2 (Seconds 1 7 2) :=
  Machine.exists_reach (machine { Config.sample 4 200 100 with id := 1 } false).record
    (fun x => Anything x.1) (earlyPrepare 9) _ (by decide +kernel)

end Pbft.Node
