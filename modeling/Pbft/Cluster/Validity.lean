import Pbft.Client
import Pbft.Cluster
import Pbft.Node.Execution

/-! # What a client is told was executed

A client and the replicas together. A result is accepted on f + 1 replies with distinct replica
ids, so one of them is from a correct replica, whose every reply repeats the result of some
execution. Replicas may receive anything at all here.
-/
namespace Pbft
set_option autoImplicit false

open Node

variable {σ : Type}

/-- One replica calls a handler, the client invokes an operation, or the client gets a reply. -/
inductive Event where
  | node (r : UInt32) (i : Input)
  | invoke (operation : String)
  | reply (m : ReplyMsg)

namespace Cluster
variable (C : Cluster σ) (cfg : ClientConfig)

def withClient (timestamp : UInt64) : Machine (World σ × Client) Event where
  init := (C.machine.init, Client.init timestamp)
  next s
    | .node r i => (C.machine.next s.1 (r, i)).map fun G => (G, s.2)
    | .invoke operation => some (s.1, s.2.invokeAsync cfg operation)
    | .reply m => some (s.1, s.2.onReply cfg m)

/-- Correct replicas run the handlers on any input, and the replica_id of a reply names its true
sender. -/
def RepliesTrue (s : World σ × Client) : Event → Prop
  | .node r _ => C.Correct r
  | .invoke _ => True
  | .reply m => m.replicaId < C.base.n ∧ (m.replicaId ∉ C.faulty → m ∈ (s.1 m.replicaId).replies)

instance (s : World σ × Client) : (a : Event) → Decidable (C.RepliesTrue s a)
  | .node r _ => inferInstanceAs (Decidable (C.Correct r))
  | .invoke _ => inferInstanceAs (Decidable True)
  | .reply _ => inferInstanceAs (Decidable (_ ∧ _))

variable {C cfg} {timestamp : UInt64} {s : World σ × Client}

theorem reach_of_withClient (hs : Machine.Reach (C.withClient cfg timestamp) C.RepliesTrue s) :
    C.Reach (fun _ _ _ => True) s.1 := by
  induction hs with
  | init => exact .init
  | @step s s' a _ _ hn ih =>
    cases a with
    | node r i =>
      obtain ⟨G, hG, rfl⟩ := Option.map_eq_some_iff.mp hn
      exact .step ih trivial hG
    | invoke operation =>
      cases hn
      exact ih
    | reply m =>
      cases hn
      exact ih

theorem answered_next {G G' : World σ} {a : UInt32 × Input} (h : C.machine.next G a = some G')
    {p : UInt32} {c : UInt32} {ts : UInt64} {result : String} (hp : (G p).Answered c ts result) :
    (G' p).Answered c ts result := by
  obtain ⟨s', hCall, rfl⟩ := next_eq h
  by_cases hpa : p = a.1
  · subst hpa
    rw [Function.update_self]
    obtain ⟨x, hx, hRest⟩ := hp
    refine ⟨x, ?_, hRest⟩
    refine handle_invariant (I := fun s => x ∈ s.executed) (fun s t hx hStep => ?_) hx hCall
    cases hStep with
    | execute =>
      rw [executeEntry_eq]
      exact List.mem_append_left _ hx
    | beginViewChange => rwa [beginViewChange_eq]
    | _ => exact hx
  · rwa [Function.update_of_ne hpa]

/-- The counters are those of an assignment of one result to each replica seen, and correct
replicas have executed a request with the result assigned to them. -/
def Tally (C : Cluster σ) (cfg : ClientConfig) (G : World σ) (ts : UInt64) (request : InflightRequest) :
    Prop :=
  ∃ result : UInt32 → String,
    (∀ r, request.resultCounts.getD r 0 = (request.seenReplicas.filter (result · = r)).card) ∧
    ∀ p ∈ request.seenReplicas, p < C.base.n ∧
      (p ∉ C.faulty → (G p).Answered cfg.id ts (result p))

structure ClientInv (C : Cluster σ) (cfg : ClientConfig) (s : World σ × Client) : Prop where
  inflight : ∀ ts request, s.2.inflightRequests[ts]? = some request → C.Tally cfg s.1 ts request
  fulfilled : ∀ x ∈ s.2.fulfilled, ∃ p, C.Correct p ∧ (s.1 p).Answered cfg.id x.1 x.2

theorem tally_new (G : World σ) (ts : UInt64) : C.Tally cfg G ts { timestamp := ts } :=
  ⟨fun _ => "", by simp, by simp⟩

theorem Tally.count {G : World σ} {ts : UInt64} {request : InflightRequest} {p : UInt32} {r : String}
    (h : C.Tally cfg G ts request) (hNew : p ∉ request.seenReplicas) (hId : p < C.base.n)
    (hReply : p ∉ C.faulty → (G p).Answered cfg.id ts r) :
    C.Tally cfg G ts { request with
      seenReplicas := insert p request.seenReplicas
      resultCounts := request.resultCounts.insert r (request.resultCounts.getD r 0 + 1) } := by
  obtain ⟨result, hCounts, hSeen⟩ := h
  have hSame : ∀ q ∈ request.seenReplicas, Function.update result p r q = result q := by
    intro q hq
    have hNe : q ≠ p := fun hqp => hNew (hqp ▸ hq)
    exact Function.update_of_ne hNe _ _
  refine ⟨Function.update result p r, fun a => ?_, fun q hq => ?_⟩
  · have hOld : request.seenReplicas.filter (Function.update result p r · = a) =
        request.seenReplicas.filter (result · = a) :=
      Finset.filter_congr fun q hq => by rw [hSame q hq]
    dsimp only
    rw [TreeMap.getD_insert, Finset.filter_insert, Function.update_self, hOld]
    split
    · rename_i hra
      subst hra
      rw [Finset.card_insert_of_notMem (fun hp => hNew (Finset.mem_filter.mp hp).1), hCounts]
    · exact hCounts a
  · rcases Finset.mem_insert.mp hq with rfl | hq
    · rw [Function.update_self]
      exact ⟨hId, hReply⟩
    · rw [hSame q hq]
      exact hSeen q hq

theorem Tally.exists_correct {G : World σ} {ts : UInt64} {request : InflightRequest} {r : String}
    (h : C.Tally cfg G ts request) (hCount : C.faulty.card < request.resultCounts.getD r 0) :
    ∃ p, C.Correct p ∧ (G p).Answered cfg.id ts r := by
  obtain ⟨result, hCounts, hSeen⟩ := h
  rw [hCounts] at hCount
  obtain ⟨p, hp, hCorrect⟩ := Finset.exists_mem_notMem_of_card_lt_card hCount
  obtain ⟨hp, hResult⟩ := Finset.mem_filter.mp hp
  exact ⟨p, ⟨(hSeen p hp).1, hCorrect⟩, hResult ▸ (hSeen p hp).2 hCorrect⟩

theorem ClientInv.mono {G G' : World σ} {c : Client} (w : C.ClientInv cfg (G, c))
    (h : ∀ p ts r, (G p).Answered cfg.id ts r → (G' p).Answered cfg.id ts r) :
    C.ClientInv cfg (G', c) where
  inflight ts request hLookup := by
    obtain ⟨result, hCounts, hSeen⟩ := w.inflight ts request hLookup
    exact ⟨result, hCounts, fun p hp => ⟨(hSeen p hp).1, fun hCorrect => h p _ _ ((hSeen p hp).2 hCorrect)⟩⟩
  fulfilled x hx := by
    obtain ⟨p, hCorrect, hAnswered⟩ := w.fulfilled x hx
    exact ⟨p, hCorrect, h p _ _ hAnswered⟩

theorem clientInv_invokeAsync {G : World σ} {c : Client} (w : C.ClientInv cfg (G, c)) (op : String) :
    C.ClientInv cfg (G, c.invokeAsync cfg op) where
  inflight ts request hLookup := by
    dsimp only [Client.invokeAsync] at hLookup
    rw [Std.ExtTreeMap.getElem?_insertIfNew] at hLookup
    split at hLookup
    · rename_i hNew
      have hTs : c.timestamp + 1 = ts := Std.LawfulEqCmp.eq_of_compare hNew.1
      rw [← Option.some.inj hLookup, hTs]
      exact tally_new G ts
    · exact w.inflight ts request hLookup
  fulfilled := w.fulfilled

theorem clientInv_onReply {G : World σ} {c : Client} (hFaulty : C.faulty.card ≤ cfg.f.toNat)
    (w : C.ClientInv cfg (G, c)) {m : ReplyMsg} (hId : m.replicaId < C.base.n)
    (hReply : m.replicaId ∉ C.faulty → (G m.replicaId).Answered m.clientId m.timestamp m.result) :
    C.ClientInv cfg (G, c.onReply cfg m) := by
  unfold Client.onReply
  split
  · exact w
  rename_i hMine
  rw [not_not] at hMine
  rw [hMine] at hReply
  dsimp only
  split
  · exact ⟨w.inflight, w.fulfilled⟩
  rename_i request hLookup
  split
  · exact ⟨w.inflight, w.fulfilled⟩
  rename_i hNew
  have hTally := (w.inflight m.timestamp request hLookup).count hNew hId hReply
  have hBound := cfg.toNat_threshold
  split
  · rename_i hCount
    constructor
    · intro ts r hr
      dsimp only at hr
      rw [Std.ExtTreeMap.getElem?_erase] at hr
      split at hr
      · cases hr
      · exact w.inflight ts r hr
    · intro x hx
      rcases List.mem_append.mp hx with hx | hx
      · exact w.fulfilled x hx
      · rw [List.mem_singleton.mp hx]
        refine hTally.exists_correct ?_
        dsimp only
        rw [TreeMap.getD_insert, if_pos rfl]
        omega
  · refine ⟨fun ts r hr => ?_, w.fulfilled⟩
    dsimp only at hr
    rw [TreeMap.lookup_insert] at hr
    split at hr
    · rename_i hTs
      rw [← Option.some.inj hr, ← hTs]
      exact hTally
    · exact w.inflight ts r hr

theorem clientInv_of_reach (hFaulty : C.faulty.card ≤ cfg.f.toNat)
    (hs : Machine.Reach (C.withClient cfg timestamp) C.RepliesTrue s) : C.ClientInv cfg s := by
  refine Machine.Reach.invariant ?_ (fun s a s' hs w hOk hn => ?_) hs
  · exact ⟨fun ts r h => by simp [withClient, Client.init] at h,
      fun x hx => by simp [withClient, Client.init] at hx⟩
  · cases a with
    | node r i =>
      obtain ⟨G, hG, rfl⟩ := Option.map_eq_some_iff.mp hn
      exact w.mono fun _ _ _ => answered_next hG
    | invoke operation =>
      cases hn
      exact clientInv_invokeAsync w operation
    | reply m =>
      cases hn
      refine clientInv_onReply hFaulty w hOk.1 fun hCorrect => ?_
      have hNode := (reach_of_withClient hs).anything m.replicaId
      exact (replyInv_reach hNode).replies m (hOk.2 hCorrect)

/-- Whatever a client's promise is fulfilled with, a correct replica got from the service for
a logged request of that client with that time stamp. -/
theorem client_validity (hClient : cfg.n = C.base.n) (hFaulty : C.faulty.card ≤ C.base.f.toNat)
    (hs : Machine.Reach (C.withClient cfg timestamp) C.RepliesTrue s) {ts : UInt64} {r : String}
    (hFulfilled : (ts, r) ∈ s.2.fulfilled) :
    ∃ p, C.Correct p ∧ ∃ (j : Nat) (x : Execution), (s.1 p).executed[j]? = some x ∧
      x.entry.req.clientId = cfg.id ∧ x.entry.req.timestamp = ts ∧
      (C.base.service.execute (stateAfter C.base ((s.1 p).executed.take j))
        x.entry.req.operation).2 = r := by
  have hBound : C.faulty.card ≤ cfg.f.toNat := by
    rw [ClientConfig.f, hClient]
    exact hFaulty
  obtain ⟨p, hCorrect, x, hx, hId, hTs, hResult⟩ := (clientInv_of_reach hBound hs).fulfilled _ hFulfilled
  obtain ⟨j, hj⟩ := List.mem_iff_getElem?.mp hx
  have hNode := (reach_of_withClient hs).anything p
  refine ⟨p, hCorrect, j, x, hj, hId, hTs, ?_⟩
  exact ((serviceInv_reach hNode).2.results j x hj).symm.trans hResult

theorem client_validity_sample : ∃ s, Machine.Reach ((sample 4 {0}).withClient ⟨9, 4, {1, 2, 3}⟩ 0)
    (sample 4 {0}).RepliesTrue s ∧ (1, "OK") ∈ s.2.fulfilled ∧
    ∃ p, (sample 4 {0}).Correct p ∧ ∃ x ∈ (s.1 p).executed, x.entry.req.timestamp = 1 := by
  obtain ⟨s, hs, hFulfilled⟩ := Machine.exists_reach ((sample 4 {0}).withClient ⟨9, 4, {1, 2, 3}⟩ 0)
    (sample 4 {0}).RepliesTrue
    ([.invoke "INC"] ++ (ordering ⟨0, 1, 7, ⟨"INC", 1, 9⟩⟩ 0 [1, 2, 3]).map (fun a => .node a.1 a.2) ++
      [.reply ⟨0, 1, 9, 1, "OK"⟩, .reply ⟨0, 1, 9, 2, "OK"⟩])
    (fun s => (1, "OK") ∈ s.2.fulfilled) (by decide +kernel)
  obtain ⟨p, hCorrect, j, x, hx, -, hTs, -⟩ := client_validity rfl (by decide) hs hFulfilled
  exact ⟨s, hs, hFulfilled, p, hCorrect, x, List.mem_of_getElem? hx, hTs⟩

end Cluster
end Pbft
