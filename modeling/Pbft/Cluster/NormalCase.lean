import Pbft.Cluster
import Pbft.Node.Follow

/-! # The normal case refines a list of requests

With no faults and no timer, the cluster does what one list would do: the first primary appends
requests to it, and every replica executes a prefix of it.
-/
namespace Pbft
set_option autoImplicit false

open Node

variable {σ : Type}

namespace Cluster
variable {C : Cluster σ} {G : World σ}

def Untimed (C : Cluster σ) (G : World σ) (r : UInt32) (i : Input) : Prop :=
  C.Network G r i ∧ i ≠ .timeout

instance (G : World σ) (r : UInt32) (i : Input) : Decidable (C.Untimed G r i) :=
  inferInstanceAs (Decidable (_ ∧ _))

structure NormalInv (G : World σ) : Prop where
  leads : Leads (G 0)
  follows : ∀ r, Follows (G 0).proposals (G r)

theorem ordinary_of_untimed (hFaulty : C.faulty = ∅) (w : NormalInv G) {r : UInt32} {i : Input}
    (h : C.Untimed G r i) : Ordinary (G 0).proposals i := by
  refine ⟨h.2, ?_⟩
  rintro m conn rfl
  rcases h.1.exists_sender hFaulty with ⟨hs, rfl⟩ | ⟨q, rfl⟩ | ⟨p, hp⟩
  · trivial
  · trivial
  · exact (w.follows p).sent m hp

theorem normalInv_primary (hFaulty : C.faulty = ∅) (hs : C.Reach C.Untimed G) (w : NormalInv G)
    {i : Input} (hOk : C.Untimed G 0 i) {s' : Node σ} (hCall : (G 0).handle (C.cfg 0) i = some s') :
    Leads s' ∧ (G 0).proposals <+: s'.proposals ∧ Follows s'.proposals s' := by
  have hIn := ordinary_of_untimed hFaulty w hOk
  obtain ⟨hWindow, hLog⟩ := logInv_reach (hs.anything 0)
  have hAll : (WindowInv (C.cfg 0) s' ∧ LogInv (C.cfg 0) s') ∧ Leads s' ∧
      (G 0).proposals <+: s'.proposals ∧ Follows s'.proposals s' := by
    refine handle_invariant (I := fun s => (WindowInv (C.cfg 0) s ∧ LogInv (C.cfg 0) s) ∧ Leads s ∧
      (G 0).proposals <+: s.proposals ∧ Follows s.proposals s) (fun s s' h hStep => ?_)
      ⟨⟨hWindow, hLog⟩, w.leads, List.prefix_rfl, w.follows 0⟩ hCall
    obtain ⟨⟨hWindow, hLog⟩, hLeads, hPrefix, hFollows⟩ := h
    have hIn' : Ordinary s.proposals i := ⟨hIn.noTimeout, fun m conn hi => (hIn.within m conn hi).mono hPrefix⟩
    obtain ⟨hLeads', hPrefix', hFollows'⟩ := leads_step hIn' hWindow hLog hLeads hFollows hStep
    exact ⟨⟨windowInv_step hWindow hStep, logInv_step hWindow hLog hStep⟩, hLeads',
      hPrefix.trans hPrefix', hFollows'⟩
  exact hAll.2

theorem normalInv_backup (hFaulty : C.faulty = ∅) (hs : C.Reach C.Untimed G) (w : NormalInv G)
    {r : UInt32} (hr : r ≠ 0) {i : Input} (hOk : C.Untimed G r i) {s' : Node σ}
    (hCall : (G r).handle (C.cfg r) i = some s') : Follows (G 0).proposals s' := by
  have hIn := ordinary_of_untimed hFaulty w hOk
  obtain ⟨hWindow, hLog⟩ := logInv_reach (hs.anything r)
  have hAll : (WindowInv (C.cfg r) s' ∧ LogInv (C.cfg r) s') ∧ Follows (G 0).proposals s' := by
    refine handle_invariant (I := fun s => (WindowInv (C.cfg r) s ∧ LogInv (C.cfg r) s) ∧
      Follows (G 0).proposals s) (fun s s' h hStep => ?_) ⟨⟨hWindow, hLog⟩, w.follows r⟩ hCall
    obtain ⟨⟨hWindow, hLog⟩, hFollows⟩ := h
    refine ⟨⟨windowInv_step hWindow hStep, logInv_step hWindow hLog hStep⟩, ?_⟩
    rcases follows_step w.leads.numbered hIn hWindow hLog hFollows hStep with hFollows' | ⟨m, hProposes, -⟩
    · exact hFollows'
    · -- only the primary of view 0 proposes
      have hPrimary := hProposes.primary
      rw [(w.follows r).view, UInt32.zero_mod] at hPrimary
      exact absurd hPrimary hr
  exact hAll.2

theorem normalInv_of_reach (hFaulty : C.faulty = ∅) (hs : C.Reach C.Untimed G) : NormalInv G := by
  refine Machine.Reach.invariant ?_ (fun G a G' hs w hOk hn => ?_) hs
  · exact ⟨leads_init (C.cfg 0) _, fun r => follows_init (C.cfg r) _⟩
  · obtain ⟨r, i⟩ := a
    obtain ⟨s', hCall, rfl⟩ := next_eq hn
    by_cases hr : r = 0
    · subst hr
      obtain ⟨hLeads, hPrefix, hFollows⟩ := normalInv_primary hFaulty hs w hOk hCall
      refine ⟨by rwa [Function.update_self], fun p => ?_⟩
      rw [Function.update_self]
      by_cases hp : p = 0
      · subst hp
        rwa [Function.update_self]
      · rw [Function.update_of_ne hp]
        exact (w.follows p).mono hPrefix
    · have hBackup := normalInv_backup hFaulty hs w hr hOk hCall
      have hPrimary : Function.update G r s' 0 = G 0 := Function.update_of_ne (Ne.symm hr) _ _
      refine ⟨hPrimary ▸ w.leads, fun p => ?_⟩
      rw [hPrimary]
      by_cases hp : p = r
      · subst hp
        rwa [Function.update_self]
      · rw [Function.update_of_ne hp]
        exact w.follows p

theorem operations_eq_take {P : List PrePrepareMsg} {cfg : Config σ} {s : Node σ} (hLog : LogInv cfg s)
    (w : Follows P s) : s.operations = (P.map (·.req.operation)).take s.lastExec.toNat := by
  have hLength := hLog.length
  refine List.ext_getElem? fun j => ?_
  rw [operations, List.getElem?_map, List.getElem?_take]
  split
  · rename_i hj
    have hx := List.getElem?_eq_getElem (hLength ▸ hj : j < s.executed.length)
    obtain ⟨pp, hpp, hReq⟩ := w.executed j _ hx
    rw [List.getElem?_map, hx, hpp, Option.map_some, Option.map_some, hReq]
  · rename_i hj
    rw [List.getElem?_eq_none (by omega), Option.map_none]

/-- Every replica has executed a prefix of the requests that the primary of view 0 numbered
1, 2, 3 and so on; replicas that have executed equally many have the same service state. -/
theorem normal_case (hFaulty : C.faulty = ∅) (hs : C.Reach C.Untimed G) :
    (G 0).proposals.map (fun pp => pp.seqNum.toNat) = (List.range (G 0).proposals.length).map (· + 1) ∧
    (∀ r, (G r).operations = ((G 0).proposals.map (·.req.operation)).take (G r).lastExec.toNat) ∧
    ∀ p q, (G p).lastExec = (G q).lastExec → (G p).service = (G q).service := by
  have w := normalInv_of_reach hFaulty hs
  have hOps := fun r => operations_eq_take (serviceInv_reach (hs.anything r)).1 (w.follows r)
  refine ⟨List.ext_getElem? fun j => ?_, hOps, fun p q hLast => ?_⟩
  · rw [List.getElem?_map, List.getElem?_map]
    rcases Nat.lt_or_ge j (G 0).proposals.length with hj | hj
    · have hpp := List.getElem?_eq_getElem hj
      rw [hpp, List.getElem?_range hj, Option.map_some, Option.map_some, w.leads.numbered j _ hpp]
    · rw [List.getElem?_eq_none hj, List.getElem?_eq_none (by simpa using hj)]
      rfl
  · rw [(serviceInv_reach (hs.anything p)).2.service, (serviceInv_reach (hs.anything q)).2.service,
      stateAfter_eq_foldl, stateAfter_eq_foldl, ← operations, ← operations, hOps p, hOps q, hLast]
    rfl

theorem normal_case_sample : ∃ G, (sample 4 ∅).Reach (sample 4 ∅).Untimed G ∧
    (G 1).operations = ["INC"] ∧ (G 3).operations = [] ∧ (G 1).service = (G 2).service := by
  let m : RequestMsg := ⟨"INC", 1, 9⟩
  let digest := (sample 4 ∅).base.getHash m
  let commit (r : UInt32) : Msg := .commit ⟨0, 1, digest, r⟩
  obtain ⟨G, hs, hFirst, hThird, hLast⟩ := Machine.exists_reach (sample 4 ∅).machine
    (fun G a => (sample 4 ∅).Untimed G a.1 a.2)
    ([(0, .recv (.request m) 9)] ++ ordering ⟨0, 1, digest, m⟩ 0 [1, 2] ++
      [deliver (.prepare ⟨0, 1, digest, 1⟩) 1 0, deliver (commit 0) 0 1, deliver (commit 0) 0 2])
    (fun G => (G 1).operations = ["INC"] ∧ (G 3).operations = [] ∧ (G 1).lastExec = (G 2).lastExec)
    (by decide +kernel)
  exact ⟨G, hs, hFirst, hThird, (normal_case rfl hs).2.2 1 2 hLast⟩

end Cluster
end Pbft
