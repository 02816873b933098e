import Pbft.Node.Counter

/-! # The sequence numbers of a primary

A primary assigns the number after its counter, so that the numbers it has assigned increase.
Backups do not keep the counter up to date: it bounds the pre-prepared entries only in views of
which the replica is the primary, and there the next number is fresh.
-/
namespace Pbft
set_option autoImplicit false

variable {σ : Type} {cfg : Config σ}

def Msg.prePrepare? : Msg → Option PrePrepareMsg
  | .prePrepare m => some m
  | _ => none

/-- The pre-prepares a replica has issued in on_request, oldest first. -/
def Node.proposals (s : Node σ) : List PrePrepareMsg := s.sent.filterMap Msg.prePrepare?

namespace Node

structure Assigned (s : Node σ) : Prop where
  accounted : s.Accounted s.seqNum
  bound : ∀ pp ∈ s.proposals, pp.seqNum ≤ s.seqNum
  increasing : (s.proposals.map (·.seqNum)).Pairwise (· < ·)

theorem proposals_of_append {s : Node σ} {m : Msg} (h : m.prePrepare? = none) :
    (s.sent ++ [m]).filterMap Msg.prePrepare? = s.proposals := by
  simp [proposals, h]

theorem proposals_propose (m : RequestMsg) (s : Node σ) : (s.propose cfg m).proposals =
    s.proposals ++ [⟨s.view, s.seqNum + 1, cfg.getHash m, m⟩] := by
  simp [proposals, propose, Msg.prePrepare?]

theorem proposals_step {s₀ s s' : Node σ} {i : Input} (hStep : Step cfg s₀ i s s') :
    s'.proposals = s.proposals ∨ ∃ m ∈ request? i, Proposes cfg s₀ m ∧ s = s₀ ∧ s' = s₀.propose cfg m := by
  cases hStep with
  | propose hi hProposes => exact .inr ⟨_, by simp [hi, request?], hProposes, rfl, rfl⟩
  | accept | markPrepared | installView => exact .inl (proposals_of_append rfl)
  | execute =>
    left
    rw [executeEntry_eq]
    unfold proposals
    dsimp only
    split
    · exact proposals_of_append rfl
    · rfl
  | beginViewChange =>
    rw [beginViewChange_eq]
    exact .inl (proposals_of_append rfl)
  | _ => exact .inl rfl

theorem Assigned.propose {s : Node σ} {m : RequestMsg} (h : Assigned s) (hProposes : Proposes cfg s m)
    (hAccounted : (s.propose cfg m).Accounted (s.propose cfg m).seqNum) : Assigned (s.propose cfg m) := by
  have hNext : ∀ k, k ≤ s.seqNum → k < s.seqNum + 1 := by
    intro k hk
    rw [UInt64.le_iff_toNat_le] at hk
    rw [UInt64.lt_iff_toNat_lt, Word.toNat_succ hProposes.high]
    omega
  refine ⟨hAccounted, fun pp hpp => ?_, ?_⟩
  · rw [proposals_propose, List.mem_append, List.mem_singleton] at hpp
    rcases hpp with hpp | rfl
    · exact UInt64.le_of_lt (hNext _ (h.bound pp hpp))
    · exact UInt64.le_refl _
  · rw [proposals_propose, List.map_append, List.pairwise_append]
    refine ⟨h.increasing, List.pairwise_singleton _ _, fun k hk k' hk' => ?_⟩
    obtain ⟨pp, hpp, rfl⟩ := List.mem_map.mp hk
    rw [List.mem_singleton.mp hk']
    exact hNext _ (h.bound pp hpp)

theorem assigned_step {s₀ s s' : Node σ} {i : Input} (w : WindowInv cfg s) (h : Assigned s)
    (hStep : Step cfg s₀ i s s') : Assigned s' := by
  have hNext := accounted_step w h.accounted hStep
  rcases proposals_step hStep with hSame | ⟨m, -, hProposes, rfl, rfl⟩
  · constructor
    · exact hNext.1
    · intro pp hpp
      exact UInt64.le_trans (h.bound pp (hSame ▸ hpp)) hNext.2
    · rw [hSame]
      exact h.increasing
  · exact h.propose hProposes hNext.1

theorem assigned_init (cfg : Config σ) (t : Bool) : Assigned (Node.init cfg t) where
  accounted := .inl (UInt64.le_refl _)
  bound pp hpp := by simp [Node.init, proposals] at hpp
  increasing := by simp [Node.init, proposals]

theorem assigned_reach {t : Bool} {ok : Node σ → Input → Prop} {s : Node σ} (hs : Reach cfg t ok s) :
    WindowInv cfg s ∧ Assigned s :=
  Reach.invariant (I := fun s => WindowInv cfg s ∧ Assigned s) ⟨windowInv_init t, assigned_init cfg t⟩
    (fun _ _ _ _ _ _ h hStep => ⟨windowInv_step h.1 hStep, assigned_step h.1 h.2 hStep⟩) hs

/-- No connection leads back to the replica itself. -/
def Unaliased (cfg : Config σ) (s : Node σ) : Prop := ∀ conn : Conn, s.connToPeer[conn]? ≠ some cfg.id

theorem unaliased_iff {s : Node σ} : (∀ x ∈ s.connToPeer.toList, x.2 ≠ cfg.id) ↔ Unaliased cfg s := by
  constructor
  · intro h conn hConn
    exact h (conn, cfg.id) (Std.ExtTreeMap.mem_toList_iff_getElem?_eq_some.mpr hConn) rfl
  · rintro h ⟨conn, p⟩ hx rfl
    exact h conn (Std.ExtTreeMap.mem_toList_iff_getElem?_eq_some.mp hx)

instance (s : Node σ) : Decidable (Unaliased cfg s) := decidable_of_iff _ unaliased_iff

def Topped (cfg : Config σ) (s : Node σ) : Prop :=
  s.view % cfg.n = cfg.id → ∀ k, (s.entry k).hasPreprepare = true → k ≤ s.seqNum

theorem Topped.write {s t : Node σ} {k : UInt64} {e : ReqLogEntry} (w : Topped cfg s)
    (hLog : t.reqlog = s.reqlog.insert k e) (hView : t.view = s.view) (hSeq : s.seqNum ≤ t.seqNum)
    (hNew : s.view % cfg.n = cfg.id → e.hasPreprepare = true → k ≤ t.seqNum) : Topped cfg t := by
  intro hPrimary a
  rw [hView] at hPrimary
  rw [entry_of_insert hLog]
  split
  · rename_i hka
    exact hka ▸ hNew hPrimary
  · exact fun hPre => UInt64.le_trans (w hPrimary a hPre) hSeq

theorem topped_step {s₀ s s' : Node σ} {i : Input} (hUnaliased : Unaliased cfg s) (w : Topped cfg s)
    (hStep : Step cfg s₀ i s s') : Topped cfg s' := by
  cases hStep with
  | propose _ hProposes =>
    refine w.write rfl rfl ?_ fun _ _ => UInt64.le_refl _
    show s₀.seqNum ≤ s₀.seqNum + 1
    rw [UInt64.le_iff_toNat_le, Word.toNat_succ hProposes.high]
    omega
  | accept _ hFrom =>
    -- a replica never accepts a pre-prepare in a view whose primary it is
    refine w.write rfl rfl (UInt64.le_refl _) fun hPrimary => ?_
    exact absurd (hPrimary ▸ hFrom) (hUnaliased _)
  | votePrepare | markPrepared | touch | voteCommit | markCommitted =>
    exact w.write rfl rfl (UInt64.le_refl _) fun hPrimary => w hPrimary _
  | execute =>
    rw [executeEntry_eq]
    exact w
  | @stabilize _ m _ cp =>
    intro _ k hk
    rw [entry_of_stabilize] at hk
    split at hk
    · cases hk
    · exact le_recompute (s := s.raised cfg m cp) k hk
  | beginViewChange =>
    rw [beginViewChange_eq]
    exact w
  | installView => exact fun _ => le_recompute
  | enterView _ hAccepts =>
    -- the view comes from its primary, so it is not one of the replica's own
    intro hPrimary
    have hFrom := hAccepts.1
    rw [comesFromPrimary, beq_iff_eq] at hFrom
    exact absurd (hPrimary ▸ hFrom) (hUnaliased _)
  | recompute => exact fun _ => le_recompute
  | handshake | timer | resend | forward | voteCheckpoint | storeViewChange => exact w

theorem unaliased_step {s₀ s s' : Node σ} {i : Input} (h : Unaliased cfg s)
    (hHandshake : ∀ m conn, i = .recv (.handshake m) conn → m.id ≠ cfg.id)
    (hStep : Step cfg s₀ i s s') : Unaliased cfg s' := by
  cases hStep with
  | @handshake _ m conn hi =>
    intro a
    unfold onHandshake
    rw [TreeMap.lookup_insert]
    split
    · exact fun hId => hHandshake m conn hi (Option.some.inj hId)
    · exact h a
  | execute =>
    rw [executeEntry_eq]
    exact h
  | beginViewChange =>
    rw [beginViewChange_eq]
    exact h
  | _ => exact h

theorem topped_handle {s s' : Node σ} {i : Input} (hUnaliased : Unaliased cfg s) (w : Topped cfg s)
    (hCall : s.handle cfg i = some s') : Topped cfg s' := by
  by_cases hHandshake : ∃ m conn, i = .recv (.handshake m) conn
  · obtain ⟨m, conn, rfl⟩ := hHandshake
    cases hCall
    exact w
  · have hAll : Unaliased cfg s' ∧ Topped cfg s' := by
      refine handle_invariant (I := fun t => Unaliased cfg t ∧ Topped cfg t) (fun t t' ht hStep => ?_)
        ⟨hUnaliased, w⟩ hCall
      refine ⟨unaliased_step ht.1 (fun m conn hi => ?_) hStep, topped_step ht.1 ht.2 hStep⟩
      exact absurd ⟨m, conn, hi⟩ hHandshake
    exact hAll.2

theorem topped_init (cfg : Config σ) (t : Bool) : Topped cfg (Node.init cfg t) :=
  fun _ k hk => by simp [Node.init, entry] at hk

theorem topped_reach {t : Bool} {s : Node σ} (hs : Reach cfg t (fun s _ => Unaliased cfg s) s) :
    Topped cfg s :=
  Machine.Reach.invariant (I := Topped cfg) (topped_init cfg t)
    (fun _ _ _ _ w h hCall => topped_handle h w hCall) hs

theorem propose_fresh {s : Node σ} {m : RequestMsg} (w : Topped cfg s) (hProposes : Proposes cfg s m) :
    (s.entry (s.seqNum + 1)).hasPreprepare = false := by
  by_contra hPre
  have hTop := w hProposes.primary.symm _ (Bool.not_eq_false _ ▸ hPre)
  rw [UInt64.le_iff_toNat_le, Word.toNat_succ hProposes.high] at hTop
  omega

/-- No sequence number is reused by on_request: the counter never decreases, the numbers that
have been assigned increase over all views, and unless a connection is mapped to the replica
itself, the number that a request gets is that of an entry without a pre-prepare. -/
theorem sequence_never_reused (cfg : Config σ) (t : Bool) :
    (∀ s, Reach cfg t Anything s →
      (∀ i s', s.handle cfg i = some s' → s.seqNum ≤ s'.seqNum) ∧
      (s.proposals.map (·.seqNum)).Pairwise (· < ·)) ∧
    ∀ s, Reach cfg t (fun s _ => Unaliased cfg s) s → ∀ m,
      (∀ pp ∈ (s.onRequest cfg m).proposals, pp ∉ s.proposals →
        (s.entry pp.seqNum).hasPreprepare = false) ∧
      ∀ k, (s.entry k).hasPreprepare = true → (s.onRequest cfg m).entry k = s.entry k := by
  refine ⟨fun s hs => ?_, fun s hs m => ?_⟩
  · obtain ⟨w, hAssigned⟩ := assigned_reach hs
    exact ⟨fun i s' => seqNum_handle w hAssigned.accounted, hAssigned.increasing⟩
  · rcases onRequest_cases cfg m s with ⟨hProposes, hCall⟩ | ⟨-, _, _, _, hCall⟩ <;> rw [hCall]
    · have hFresh := propose_fresh (topped_reach hs) hProposes
      refine ⟨fun pp hpp hNew => ?_, fun k hPre => ?_⟩
      · rw [proposals_propose, List.mem_append, List.mem_singleton] at hpp
        rcases hpp with hpp | rfl
        · exact absurd hpp hNew
        · exact hFresh
      · rw [entry_of_insert rfl, if_neg]
        rintro rfl
        rw [hFresh] at hPre
        cases hPre
    · exact ⟨fun pp hpp hNew => absurd hpp hNew, fun _ _ => rfl⟩

theorem sequence_never_reused_two_requests :
    ∃ s, Reach (Config.sample 4 200 100) false (fun s _ => Unaliased (Config.sample 4 200 100) s) s ∧
      s.proposals.map (·.seqNum) = [1, 2] ∧ Proposes (Config.sample 4 200 100) s ⟨"C", 3, 9⟩ ∧
      (s.entry 3).hasPreprepare = false := by
  let cfg := Config.sample 4 200 100
  have hTheorem := sequence_never_reused cfg false
  obtain ⟨s, hs, hNumbers, hProposes, hNew⟩ := Machine.exists_reach (machine cfg false)
    (fun s _ => Unaliased cfg s)
    [.recv (.handshake ⟨1⟩) 1, .recv (.request ⟨"A", 1, 9⟩) 9, .recv (.request ⟨"B", 2, 9⟩) 9,
      .recv (.prepare ⟨0, 3, 7, 1⟩) 1]
    (fun s => s.proposals.map (·.seqNum) = [1, 2] ∧ Proposes cfg s ⟨"C", 3, 9⟩ ∧
      (⟨0, 3, cfg.getHash ⟨"C", 3, 9⟩, ⟨"C", 3, 9⟩⟩ : PrePrepareMsg) ∈
        (s.onRequest cfg ⟨"C", 3, 9⟩).proposals ∧
      (⟨0, 3, cfg.getHash ⟨"C", 3, 9⟩, ⟨"C", 3, 9⟩⟩ : PrePrepareMsg) ∉ s.proposals) (by decide +kernel)
  exact ⟨s, hs, hNumbers, hProposes, (hTheorem.2 s hs ⟨"C", 3, 9⟩).1 _ hNew.1 hNew.2⟩

end Node
end Pbft
