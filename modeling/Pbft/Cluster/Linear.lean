import Pbft.Cluster.Clients

/-! # Answers in the order of the primary

Without faults and timers all answers fit one order, the one in which the primary has numbered the
requests, and each takes effect between the call of the client and its answer. A request that is sent
again may be numbered again; the answer is then that of one of its executions.
-/
namespace Pbft
set_option autoImplicit false

open Node

variable {σ : Type}

/-- What the service answers to the operation at place j of the list. -/
def Service.answerAt (service : Service σ) (operations : List String) (j : Nat) (operation : String) : String :=
  (service.execute ((operations.take j).foldl (fun st op => (service.execute st op).1) service.initial) operation).2

namespace Cluster
variable {C : Cluster σ} {connected : UInt32 → Finset UInt32} {first : UInt32 → UInt64} {s s₁ t : Site σ}

def ordered (G : World σ) : List String := (G 0).proposals.map (·.req.operation)

/-- A request that client c has sent with this time stamp stands at place j, and r is what the service
answers there. -/
def Places (C : Cluster σ) (G : World σ) (c : UInt32) (ts : UInt64) (r : String) (j : Nat) : Prop :=
  ∃ pp, (G 0).proposals[j]? = some pp ∧ pp.req.clientId = c ∧ pp.req.timestamp = ts ∧
    r = C.base.service.answerAt (ordered G) j pp.req.operation

/-- A replica answers with what the service answers at the place of the request in the order. -/
theorem exists_place (hFaulty : C.faulty = ∅) {G : World σ} (hs : C.Reach C.Untimed G) {p c : UInt32} {ts : UInt64}
    {r : String} (h : (G p).Answered c ts r) : ∃ j, C.Places G c ts r j := by
  obtain ⟨x, hx, hId, hTs, hResult⟩ := h
  obtain ⟨j, hj⟩ := List.mem_iff_getElem?.mp hx
  have hFollows := (normalInv_of_reach hFaulty hs).follows p
  obtain ⟨hLog, hService⟩ := serviceInv_reach (hs.anything p)
  obtain ⟨pp, hpp, hReq⟩ := hFollows.executed j x hj
  refine ⟨j, pp, hpp, hReq ▸ hId, hReq ▸ hTs, ?_⟩
  have hIndex : j < (G p).lastExec.toNat := by
    rw [← hLog.length]
    exact (List.getElem?_eq_some_iff.mp hj).1
  have hBefore : ((G p).executed.take j).map (·.entry.req.operation) = (ordered G).take j := by
    rw [List.map_take]
    change (G p).operations.take j = _
    rw [operations_eq_take hLog hFollows, List.take_take, Nat.min_eq_left hIndex.le]
    rfl
  refine hResult.symm.trans ((hService.results j x hj).trans ?_)
  rw [stateAfter_eq_foldl, hBefore, hReq]
  rfl

/-- The order of the primary and the requests of the clients have only grown. -/
structure Extends (s t : Site σ) : Prop where
  proposals : (s.world 0).proposals <+: (t.world 0).proposals
  sent : ∀ c, (s.clients c).sent <+: (t.clients c).sent

theorem Extends.refl (s : Site σ) : Extends s s := ⟨List.prefix_rfl, fun _ => List.prefix_rfl⟩

theorem Extends.trans {u : Site σ} (h : Extends s t) (h' : Extends t u) : Extends s u :=
  ⟨h.proposals.trans h'.proposals, fun c => (h.sent c).trans (h'.sent c)⟩

theorem extends_next {a : Call} (hn : (C.withClients connected first).next s a = some t) : Extends s t := by
  have hClient : ∀ (c : UInt32) (x : Client), (s.clients c).sent <+: x.sent →
      Extends s { s with clients := Function.update s.clients c x } := by
    refine fun c x hx => ⟨List.prefix_rfl, fun a => ?_⟩
    dsimp only
    by_cases ha : a = c
    · subst ha
      rwa [Function.update_self]
    · rw [Function.update_of_ne ha]
  cases a with
  | node r i =>
    obtain ⟨G, hG, rfl⟩ := Option.map_eq_some_iff.mp hn
    obtain ⟨s', hCall, rfl⟩ := next_eq hG
    refine ⟨?_, fun _ => List.prefix_rfl⟩
    dsimp only at hCall ⊢
    by_cases hr : r = 0
    · subst hr
      rw [Function.update_self]
      refine handle_invariant (I := fun u => (s.world 0).proposals <+: u.proposals) (fun u u' hu hStep => ?_)
        List.prefix_rfl hCall
      rcases proposals_step hStep with hSame | ⟨m, -, -, rfl, rfl⟩
      · exact hSame ▸ hu
      · rw [proposals_propose]
        exact List.prefix_append _ _
    · rw [Function.update_of_ne (Ne.symm hr)]
  | invoke c operation =>
    cases hn
    refine hClient c _ ?_
    rw [Client.sent_invokeAsync]
    exact List.prefix_append _ _
  | reply c m =>
    cases hn
    refine hClient c _ ?_
    rw [(Client.onReply_unchanged _ m (s.clients c)).1]

theorem extends_path {calls : List (Site σ × Call)}
    (h : Machine.Path (C.withClients connected first) C.Served s calls t) : Extends s t := by
  induction h with
  | nil => exact .refl s
  | snoc _ _ hn ih => exact ih.trans (extends_next hn)

/-- A client calls an operation in state s, and in state t it has the answer r. -/
structure Returns (C : Cluster σ) (connected : UInt32 → Finset UInt32) (first : UInt32 → UInt64) (s t : Site σ)
    (c : UInt32) (operation r : String) : Prop where
  reach : C.SiteReach connected first s
  path : ∃ s₁ calls, (C.withClients connected first).next s (.invoke c operation) = some s₁ ∧
    Machine.Path (C.withClients connected first) C.Served s₁ calls t
  answer : ((s.clients c).timestamp + 1, r) ∈ (t.clients c).fulfilled
  room : (t.clients c).sent.length < 2 ^ 64

/-- An operation takes effect at one place of the order, which the primary has filled between the call
and the answer, and the answer is that of the service at this place. -/
structure TakesEffect (C : Cluster σ) (s t : Site σ) (c : UInt32) (operation r : String) (j : Nat) : Prop where
  called : (s.world 0).proposals.length ≤ j
  place : ∃ pp, (t.world 0).proposals[j]? = some pp ∧ pp.req = ⟨operation, (s.clients c).timestamp + 1, c⟩
  answer : r = C.base.service.answerAt (ordered t.world) j operation

theorem takesEffect (hFaulty : C.faulty = ∅) {c : UInt32} {operation r : String}
    (h : Returns C connected first s t c operation r) : ∃ j, TakesEffect C s t c operation r j := by
  obtain ⟨hs, ⟨s₁, calls, hn, hPath⟩, hAnswer, hRoom⟩ := h
  have hs₁ : C.SiteReach connected first s₁ := .step (a := .invoke c operation) hs trivial hn
  have ht := hPath.reach hs₁
  have w := siteInv_of_reach hFaulty hs
  have w' := siteInv_of_reach hFaulty ht
  obtain ⟨p, -, hAnswered⟩ := (w'.told c).fulfilled _ hAnswer
  have hPlace : ∃ j, C.Places t.world c ((s.clients c).timestamp + 1) r j :=
    exists_place hFaulty (reach_of_withClients ht) hAnswered
  obtain ⟨j, pp, hpp, hId, hTs, hResult⟩ := hPlace
  -- the request is the only one of the client with this time stamp
  have hExtends := extends_path hPath
  have hCall : ((t.clients c).sent)[(s.clients c).sent.length]? =
      some ⟨operation, (s.clients c).timestamp + 1, c⟩ := by
    obtain ⟨rest, hRest⟩ := hExtends.sent c
    have hSent : (s₁.clients c).sent = (s.clients c).sent ++ [⟨operation, (s.clients c).timestamp + 1, c⟩] := by
      cases hn
      dsimp only
      rw [Function.update_self]
      exact Client.sent_invokeAsync _ _ _
    rw [← hRest, hSent, List.append_assoc, List.getElem?_append_right (Nat.le_refl _), Nat.sub_self]
    rfl
  obtain ⟨i, hi⟩ := List.mem_iff_getElem?.mp (hId ▸ w'.authentic pp (List.mem_of_getElem? hpp))
  have hIndex := (w'.stamped c).index_eq hRoom hi hCall hTs
  rw [hIndex, hCall, Option.some.injEq] at hi
  refine ⟨j, ?_, ⟨pp, hpp, hi.symm⟩, ?_⟩
  · -- a place that was filled before the call would hold an earlier request of the client
    by_contra hBefore
    have hAll := (extends_next hn).trans hExtends
    obtain ⟨rest, hRest⟩ := hAll.proposals
    rw [← hRest, List.getElem?_append_left (Nat.not_le.mp hBefore)] at hpp
    obtain ⟨i', hi'⟩ := List.mem_iff_getElem?.mp (hId ▸ w.authentic pp (List.mem_of_getElem? hpp))
    have hlt := (List.getElem?_eq_some_iff.mp hi').1
    obtain ⟨rest', hRest'⟩ := hAll.sent c
    have hEarlier : (t.clients c).sent[i']? = some pp.req := by
      rw [← hRest', List.getElem?_append_left hlt, hi']
    have hSame := (w'.stamped c).index_eq hRoom hEarlier hCall hTs
    omega
  · rw [hResult, ← hi]

theorem TakesEffect.lt {c : UInt32} {operation r : String} {j : Nat} (h : TakesEffect C s t c operation r j) :
    j < (t.world 0).proposals.length := by
  obtain ⟨pp, hpp, -⟩ := h.place
  exact (List.getElem?_eq_some_iff.mp hpp).1

/-- It stays where it is as the order grows. -/
theorem TakesEffect.mono {v : Site σ} {c : UInt32} {operation r : String} {j : Nat}
    (h : TakesEffect C s t c operation r j) (hExtends : Extends t v) : TakesEffect C s v c operation r j := by
  have hlt := h.lt
  obtain ⟨rest, hRest⟩ := hExtends.proposals
  obtain ⟨pp, hpp, hReq⟩ := h.place
  refine ⟨h.called, ⟨pp, ?_, hReq⟩, h.answer.trans ?_⟩
  · rwa [← hRest, List.getElem?_append_left hlt]
  · rw [Service.answerAt, Service.answerAt, ordered, ordered, ← hRest, List.map_append,
      List.take_append_of_le_length (by simpa using hlt.le)]

/-- An operation that is called when another one has its answer takes effect later in the order. -/
theorem TakesEffect.before {u v : Site σ} {c d : UInt32} {op op' r r' : String} {j k : Nat}
    (hj : TakesEffect C s t c op r j) (h : Returns C connected first u v d op' r')
    (hk : TakesEffect C u v d op' r' k)
    (hOrder : ∃ calls, Machine.Path (C.withClients connected first) C.Served t calls u) :
    j < k ∧ TakesEffect C s v c op r j := by
  obtain ⟨calls, hBetween⟩ := hOrder
  obtain ⟨u₁, calls', hn, hPath⟩ := h.path
  have hFirst := extends_path hBetween
  refine ⟨?_, hj.mono (hFirst.trans ((extends_next hn).trans (extends_path hPath)))⟩
  calc
    j < (t.world 0).proposals.length := hj.lt
    _ ≤ (u.world 0).proposals.length := hFirst.proposals.length_le
    _ ≤ k := hk.called

/-- Everything after the call, until the client has the replies of replicas 1 and 2. -/
def round (C : Cluster σ) (k : UInt64) (m : RequestMsg) (result : String) : List Call :=
  let digest := C.base.getHash m
  let commit : Msg := .commit ⟨0, k, digest, 0⟩
  let calls := [(0, .recv (.request m) 9)] ++ ordering ⟨0, k, digest, m⟩ 0 [1, 2] ++
    [deliver (.prepare ⟨0, k, digest, 1⟩) 1 0, deliver commit 0 1, deliver commit 0 2]
  calls.map (fun a => .node a.1 a.2) ++
    [.reply m.clientId ⟨0, m.timestamp, m.clientId, 1, result⟩,
      .reply m.clientId ⟨0, m.timestamp, m.clientId, 2, result⟩]

def invoked (C : Cluster σ) (connected : UInt32 → Finset UInt32) (s : Site σ) (c : UInt32) (operation : String) :
    Site σ :=
  { s with clients := Function.update s.clients c ((s.clients c).invokeAsync (C.clientConfig connected c) operation) }

def hasAnswer (s t : Site σ) (c : UInt32) (r : String) : Prop :=
  ((s.clients c).timestamp + 1, r) ∈ (t.clients c).fulfilled ∧ (t.clients c).sent.length < 2 ^ 64

instance (s t : Site σ) (c : UInt32) (r : String) : Decidable (hasAnswer s t c r) :=
  inferInstanceAs (Decidable (_ ∧ _))

/-- Calls that lead from a state to one with the answer. -/
theorem exists_returns (c : UInt32) (operation r : String) (as : List Call) (p : Site σ → Bool)
    (hs : C.SiteReach connected first s) (h : (Machine.run (C.withClients connected first) C.Served
      (invoked C connected s c operation) as).any (fun t => decide (hasAnswer s t c r) && p t) = true) :
    ∃ t, Returns C connected first s t c operation r ∧ C.SiteReach connected first t ∧ p t = true := by
  obtain ⟨t, hRun, ht⟩ := (Option.any_eq_true _ _).mp h
  rw [Bool.and_eq_true, decide_eq_true_eq] at ht
  obtain ⟨calls, hPath⟩ := Machine.Path.of_run .nil hRun
  have hn : (C.withClients connected first).next s (.invoke c operation) =
      some (invoked C connected s c operation) := rfl
  exact ⟨t, ⟨hs, ⟨_, calls, hn, hPath⟩, ht.1.1, ht.1.2⟩,
    hPath.reach (.step (a := .invoke c operation) hs trivial hn), ht.2⟩

end Cluster
end Pbft
