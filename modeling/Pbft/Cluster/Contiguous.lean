import Pbft.Cluster.Promise
import Pbft.Node.Authentic
import Pbft.Node.Changing
import Pbft.Node.Takeover

/-! # Contiguous proposals in a cluster

Without faults a replica votes only on what the primary of the view has issued, so that a primary
hears of no number above its counter. With that, the numbers of a view form one range as long as
the log of a new primary ends where the reports to it end.
-/
namespace Pbft.Cluster
set_option autoImplicit false

open Node

variable {σ : Type} {C : Cluster σ} {ok : World σ → UInt32 → Input → Prop} {G : World σ}

theorem connToPeer_true (hNet : ∀ G r i, ok G r i → C.Network G r i) (hs : C.Reach ok G) (r : UInt32) :
    ∀ conn p, (G r).connToPeer[conn]? = some p → C.peer r conn = some p := by
  refine hs.pointwise_call (J := fun r s => ∀ conn p, s.connToPeer[conn]? = some p → C.peer r conn = some p)
    (fun r conn p h => by simp [Node.init] at h) (fun G r i s' _ hOk hJ hCall conn p h => ?_) r
  rcases connToPeer_handle hCall h with hOld | hNew
  · exact hJ r conn p hOld
  · have hConn := (hNet G r i hOk).conn
    unfold handshake? at hNew
    split at hNew
    · cases hNew
      exact hConn.2
    · cases hNew

theorem issued_mono {G' : World σ} {a : UInt32 × Input} (hn : C.machine.next G a = some G') {p v : UInt32}
    {k : UInt64} (hk : k ∈ (G p).issued v) : k ∈ (G' p).issued v := by
  obtain ⟨m, hm, hNumber⟩ := mem_issued.mp hk
  exact mem_issued.mpr ⟨m, sent_next hn hm, hNumber⟩

theorem issued_of_fromPrimary (hFaulty : C.faulty = ∅) {r : UInt32} {i : Input} (hNet : C.Network G r i)
    (hConn : ∀ conn p, (G r).connToPeer[conn]? = some p → C.peer r conn = some p) {v : UInt32} {k : UInt64}
    (h : FromPrimary (C.cfg r) (G r) i v k) : k ∈ (G (v % C.base.n)).issued v := by
  obtain ⟨pp, conn, hCarries, rfl, rfl, hFrom, hView⟩ := h
  have hPeer := hConn conn _ hFrom
  have hNone : ∀ p, p ∉ C.faulty := by simp [hFaulty]
  rcases hCarries with rfl | ⟨nv, rfl, hpp⟩
  · obtain ⟨p, hp, -, -, hSent⟩ := hNet.conn
    rw [hPeer] at hp
    cases hp
    refine mem_issued.mpr ⟨_, hSent (hNone _), ?_⟩
    simp [Msg.numbers]
  · obtain ⟨p, hp, -, -, hSent⟩ := hNet.conn
    rw [hPeer] at hp
    cases hp
    refine mem_issued.mpr ⟨_, hSent (hNone _), ?_⟩
    rw [Msg.numbers, if_pos (hView nv rfl)]
    exact List.mem_map_of_mem hpp

theorem voted_issued (hFaulty : C.faulty = ∅) (hNet : ∀ G r i, ok G r i → C.Network G r i)
    (hs : C.Reach ok G) : ∀ r v k, (v, k) ∈ (G r).voted → k ∈ (G (v % C.base.n)).issued v := by
  refine Machine.Reach.invariant (I := fun G : World σ => ∀ r v k, (v, k) ∈ (G r).voted →
    k ∈ (G (v % C.base.n)).issued v) (fun r v k h => by cases h) (fun G a G' hs hI hOk hn r v k h => ?_) hs
  refine issued_mono hn ?_
  obtain ⟨s', hCall, rfl⟩ := next_eq hn
  have hNetwork := hNet G a.1 a.2 hOk
  by_cases hr : r = a.1
  · subst hr
    rw [Function.update_self] at h
    have hLog := (logInv_reach (Reach.anything hs a.1)).2
    rcases voted_handle (fun k => (hLog.entries k).seq) hCall h with hOld | hFrom | ⟨m, conn, hi, rfl, rfl⟩
    · exact hI _ _ _ hOld
    · exact issued_of_fromPrimary hFaulty hNetwork (connToPeer_true hNet hs _) hFrom
    · rw [hi] at hNetwork
      rcases hNetwork.exists_sender hFaulty with ⟨_, h⟩ | ⟨_, h⟩ | ⟨p, hSent⟩
      · cases h
      · cases h
      · exact hI p _ _ (List.mem_filterMap.mpr ⟨_, hSent, rfl⟩)
  · rw [Function.update_of_ne hr] at h
    exact hI r v k h

theorem viewChange_stable_step {cfg : Config σ} {s₀ s s' : Node σ} {i : Input}
    (w : ∀ vc, Msg.viewChange vc ∈ s.sent → vc.lastStableCheckpoint.toNat < 2 ^ 32)
    (hStep : Step cfg s₀ i s s') :
    ∀ vc, Msg.viewChange vc ∈ s'.sent → vc.lastStableCheckpoint.toNat < 2 ^ 32 := by
  intro vc hvc
  cases hStep with
  | propose | accept | markPrepared | installView => exact w vc (sent_of_append hvc (by simp))
  | execute =>
    rw [executeEntry_eq] at hvc
    dsimp only at hvc
    split at hvc
    · exact w vc (sent_of_append hvc (by simp))
    · exact w vc hvc
  | beginViewChange =>
    rw [beginViewChange_eq] at hvc
    rcases List.mem_append.mp hvc with hvc | hvc
    · exact w vc hvc
    · cases List.mem_singleton.mp hvc
      exact narrow_toUInt64 _
  | _ => exact w vc hvc

theorem sincere_of_network (hFaulty : C.faulty = ∅) (hNet : ∀ G r i, ok G r i → C.Network G r i)
    (hs : C.Reach ok G) {r : UInt32} {i : Input} (hOk : ok G r i) : Sincere (C.cfg r) (G r) i := by
  have hNetwork := hNet G r i hOk
  constructor
  · exact hNetwork.narrow hFaulty fun p => narrow_reach (hs.anything p)
  · intro m hi
    rcases hi with ⟨conn, rfl⟩ | ⟨-, rfl⟩
    · rcases hNetwork.exists_sender hFaulty with ⟨_, h⟩ | ⟨_, h⟩ | ⟨p, hSent⟩
      · cases h
      · cases h
      · exact Node.Reach.invariant (I := fun s => ∀ vc, Msg.viewChange vc ∈ s.sent →
          vc.lastStableCheckpoint.toNat < 2 ^ 32) (fun vc h => by simp [Node.init] at h)
          (fun _ _ _ _ _ _ => viewChange_stable_step) (hs.anything p) m hSent
    · exact narrow_toUInt64 _
  · intro m conn v k hi hm hPrimary
    subst hi
    rcases hNetwork.exists_sender hFaulty with ⟨_, rfl⟩ | ⟨_, rfl⟩ | ⟨p, hSent⟩
    · cases hm
    · cases hm
    · have hIssued := voted_issued hFaulty hNet hs p v k (List.mem_filterMap.mpr ⟨_, hSent, hm⟩)
      have hSame : v % C.base.n = r := hPrimary.symm
      rwa [hSame] at hIssued

theorem unaliased_of_network (hNet : ∀ G r i, ok G r i → C.Network G r i) (hs : C.Reach ok G) (r : UInt32) :
    Unaliased (C.cfg r) (G r) :=
  hs.pointwise (J := fun r => Unaliased (C.cfg r)) (fun r conn => by simp [Node.init])
    (fun G r i _ hOk _ _ _ h hStep => unaliased_step h (hNet G r i hOk).peer hStep) r

theorem proposalInv_of_reach (hFaulty : C.faulty = ∅) (hNet : ∀ G r i, ok G r i → C.Network G r i)
    (hOrderly : ∀ G r i, ok G r i → Orderly (C.cfg r) (G r) i) (hs : C.Reach ok G) (r : UInt32) :
    StableNarrow (G r) ∧ ProposalInv (C.cfg r) (G r) := by
  refine hs.pointwise_call (J := fun r s => StableNarrow s ∧ ProposalInv (C.cfg r) s)
    (fun r => ⟨?_, proposalInv_init _⟩) (fun G r i s' hs hOk hJ hCall => ?_) r
  · rintro view r m ⟨vcs, hView, -⟩
    simp [Node.init] at hView
  · have hIn := sincere_of_network hFaulty hNet hs hOk
    have hAccounted := (assigned_reach (hs.anything r)).2.accounted
    refine ⟨handle_invariant (fun _ _ => stableNarrow_step hIn.stable) (hJ r).1 hCall, ?_⟩
    exact proposalInv_handle (unaliased_of_network hNet hs r) hAccounted (hJ r).1 hIn (hOrderly G r i hOk)
      (hJ r).2 hCall

/-- In every view after the first the numbers that its primary issues, first in the O set and then for
requests, follow each other from the stable checkpoint on; and the view is installed with the counter
at the end of the O set. -/
theorem proposals_contiguous (hFaulty : C.faulty = ∅)
    (hs : C.Reach (fun G r i => C.Network G r i ∧ Orderly (C.cfg r) (G r) i) G) :
    (∀ v, v ≠ 0 → Contiguous (G (v % C.base.n)) v) ∧
    ∀ r i s', Orderly (C.cfg r) (G r) i → (G r).handle (C.cfg r) i = some s' →
      ∀ m ∈ offered? (C.cfg r) (G r) i, Completes (C.cfg r) (G r) m →
        s'.seqNum = max (minS ((G r).reports m)) (maxS 0 ((G r).reports m)) := by
  constructor
  · intro v hv
    have w := proposalInv_of_reach hFaulty (fun _ _ _ h => h.1) (fun _ _ _ h => h.2) hs (v % C.base.n)
    exact w.2.contiguous v hv
  · intro r i s' hOrderly hCall m hm hCompletes
    rw [← (hOrderly.installs m hm hCompletes).2]
    exact seqNum_of_completes hm hCompletes hCall

/-- Replicas 2 and 3 have prepared the number 1 when the primary of view 1 takes over, which has accepted
the pre-prepare in one run and has not got it in the other. -/
def takeOver (rs : List UInt32) (m m' : RequestMsg) : List (UInt32 × Input) :=
  let d := (Config.sample 4 200 100).getHash m
  let vc (r : UInt32) : Msg := .viewChange ⟨1, 0, r, [], [⟨0, 1, d⟩]⟩
  [(0, .recv (.request m) 9), (1, .recv (.request m) 9)] ++ rs.map (deliver (.handshake ⟨0⟩) 0) ++
    rs.map (deliver (.prePrepare ⟨0, 1, d, m⟩) 0) ++
    [deliver (.prepare ⟨0, 1, d, 2⟩) 2 3, deliver (.prepare ⟨0, 1, d, 3⟩) 3 2, (1, .timeout), (2, .timeout),
      (3, .timeout), deliver (vc 2) 2 1, deliver (vc 3) 3 1, (1, .recv (.request m') 9)]

theorem proposals_contiguous_prepared : ∃ G, (sample 4 ∅).Reach
    (fun G r i => (sample 4 ∅).Network G r i ∧ Orderly ((sample 4 ∅).cfg r) (G r) i) G ∧
    (G 1).issued 1 = [1, 2] ∧ Contiguous (G 1) 1 := by
  obtain ⟨G, hs, hIssued⟩ := Machine.exists_reach (sample 4 ∅).machine
    (fun G a => (sample 4 ∅).Network G a.1 a.2 ∧ Orderly ((sample 4 ∅).cfg a.1) (G a.1) a.2)
    (takeOver [1, 2, 3] ⟨"A", 1, 9⟩ ⟨"B", 2, 9⟩) (fun G => (G 1).issued 1 = [1, 2]) (by decide +kernel)
  exact ⟨G, hs, hIssued, (proposals_contiguous rfl hs).1 1 (by decide)⟩

/-- The new primary counts from its own empty log and issues the number 1 of its O set again. -/
theorem proposals_repeated : ∃ G, (sample 4 ∅).Reach
    (fun G r i => (sample 4 ∅).Network G r i ∧ Fires (G r) i) G ∧
    (G 1).issued 1 = [1, 1] ∧ ¬Contiguous (G (1 % (sample 4 ∅).base.n)) 1 := by
  obtain ⟨G, hs, hIssued⟩ := Machine.exists_reach (sample 4 ∅).machine
    (fun G a => (sample 4 ∅).Network G a.1 a.2 ∧ Fires (G a.1) a.2)
    (takeOver [2, 3] ⟨"A", 1, 9⟩ ⟨"B", 2, 9⟩) (fun G => (G 1).issued 1 = [1, 1]) (by decide +kernel)
  refine ⟨G, hs, hIssued, ?_⟩
  change ¬Contiguous (G 1) 1
  rintro (hNone | ⟨nv, -, -, hRange⟩)
  · rw [hIssued] at hNone
    cases hNone
  · rw [hIssued] at hRange
    simp [List.range'_succ] at hRange

end Pbft.Cluster
