import Pbft.Client.Tally
import Pbft.Cluster.Linear
import Pbft.Cluster.Quiescence

/-! # No client is left waiting

What is at rest has served everybody. When a client has been sent the replies there are, and its request
has been sent to the primary once more, it has the answer. The one exception is a request that was
numbered more than once with different results, where the replies that count need not agree.
-/
namespace Pbft
set_option autoImplicit false

open Node

variable {σ : Type}

namespace Node

def Replied (cfg : Config σ) (s : Node σ) : Prop :=
  ∀ x ∈ s.executed, ∃ m ∈ s.replies, m.replicaId = cfg.id ∧ m.clientId = x.entry.req.clientId ∧
    m.timestamp = x.entry.req.timestamp

theorem replied_step {cfg : Config σ} {s₀ s s' : Node σ} {i : Input} (w : Replied cfg s)
    (hStep : Step cfg s₀ i s s') : Replied cfg s' := by
  cases hStep with
  | resend =>
    intro x hx
    obtain ⟨m, hm, hRest⟩ := w x hx
    exact ⟨m, List.mem_append_left _ hm, hRest⟩
  | @execute _ e =>
    rw [executeEntry_eq]
    intro x hx
    rcases List.mem_append.mp hx with hx | hx
    · obtain ⟨m, hm, hRest⟩ := w x hx
      exact ⟨m, List.mem_append_left _ hm, hRest⟩
    · cases List.mem_singleton.mp hx
      exact ⟨_, List.mem_append_right _ (List.mem_singleton.mpr rfl), rfl, rfl, rfl⟩
  | beginViewChange => rwa [beginViewChange_eq]
  | _ => exact w

theorem replied_reach {cfg : Config σ} {t : Bool} {ok : Node σ → Input → Prop} {s : Node σ}
    (hs : Reach cfg t ok s) : Replied cfg s :=
  Reach.invariant (I := Replied cfg) (fun x hx => by simp [Node.init] at hx) (fun _ _ _ _ _ _ => replied_step) hs

end Node

namespace Client
variable {cfg : ClientConfig} {c : Client} {m : ReplyMsg} {request : InflightRequest}

/-- What is not answered is in flight, and no result of it has been counted often enough. -/
structure Keeps (cfg : ClientConfig) (c : Client) : Prop where
  sent : ∀ m ∈ c.sent, m.timestamp ∈ c.inflightRequests ∨ ∃ r, (m.timestamp, r) ∈ c.fulfilled
  few : ∀ (ts : UInt64) (request : InflightRequest), c.inflightRequests[ts]? = some request →
    ∀ r, request.resultCounts.getD r 0 ≤ cfg.f.toNat

theorem keeps_init (cfg : ClientConfig) (first : UInt64) : Keeps cfg (Client.init first) where
  sent m hm := by simp [Client.init, Client.sent] at hm
  few ts request h := by simp [Client.init] at h

theorem keeps_invokeAsync (w : Keeps cfg c) (operation : String) : Keeps cfg (c.invokeAsync cfg operation) where
  sent a ha := by
    rw [sent_invokeAsync] at ha
    unfold invokeAsync
    dsimp only
    rw [Std.ExtTreeMap.mem_insertIfNew]
    rcases List.mem_append.mp ha with ha | ha
    · exact (w.sent a ha).imp_left .inr
    · cases List.mem_singleton.mp ha
      exact .inl (.inl Std.ReflCmp.compare_self)
  few ts request h := by
    unfold invokeAsync at h
    dsimp only at h
    rw [Std.ExtTreeMap.getElem?_insertIfNew] at h
    split at h
    · cases h
      simp
    · exact w.few ts request h

theorem keeps_onReply (w : Keeps cfg c) (m : ReplyMsg) : Keeps cfg (c.onReply cfg m) := by
  obtain ⟨hSent, -⟩ := onReply_unchanged cfg m c
  cases (onReply_outcome cfg m c).1 with
  | ignored hLog hDone =>
    constructor
    · rw [hSent, hLog, hDone]
      exact w.sent
    · rw [hLog]
      exact w.few
  | counted request _ hLookup _ hFew hLog hDone =>
    constructor
    · rw [hSent, hLog, hDone]
      intro a ha
      exact (w.sent a ha).imp_left fun h => (TreeMap.mem_insert _ _ _).mpr (.inr h)
    · rw [hLog]
      intro ts a ha r
      rw [TreeMap.lookup_insert] at ha
      split at ha
      · cases ha
        dsimp only
        rw [TreeMap.getD_insert]
        split
        · exact Nat.le_of_lt_succ hFew
        · exact w.few _ _ hLookup r
      · exact w.few ts a ha r
  | accepted request _ _ _ _ hLog hDone =>
    constructor
    · rw [hSent, hLog, hDone]
      intro a ha
      by_cases hTs : a.timestamp = m.timestamp
      · exact .inr ⟨m.result, List.mem_append_right _ (hTs ▸ List.mem_singleton.mpr rfl)⟩
      · refine (w.sent a ha).imp (fun h => ?_) fun ⟨r, hr⟩ => ⟨r, List.mem_append_left _ hr⟩
        rw [Std.ExtTreeMap.mem_erase]
        exact ⟨fun hEq => hTs (Std.LawfulEqCmp.eq_of_compare hEq).symm, h⟩
    · rw [hLog]
      intro ts a ha
      rw [Std.ExtTreeMap.getElem?_erase] at ha
      split at ha
      · cases ha
      · exact w.few ts a ha

/-- A reply that does not change the client has been counted. -/
theorem seen_of_onReply_eq (h : c.onReply cfg m = c) (hMine : m.clientId = cfg.id)
    (hLookup : c.inflightRequests[m.timestamp]? = some request) : m.replicaId ∈ request.seenReplicas := by
  have hOutcome := (onReply_outcome cfg m c).1
  rw [h] at hOutcome
  cases hOutcome with
  | ignored _ _ hWhy =>
    rcases hWhy with hOther | hNone | ⟨a, ha, hSeen⟩
    · exact absurd hMine hOther
    · cases hLookup.symm.trans hNone
    · cases hLookup.symm.trans ha
      exact hSeen
  | counted a _ ha _ _ hLog =>
    have hAgain := congrArg (·[m.timestamp]?) hLog
    rw [TreeMap.lookup_insert, if_pos rfl, hLookup] at hAgain
    cases hAgain
    exact Finset.mem_insert_self _ _
  | accepted a _ ha _ _ hLog =>
    have hAgain := congrArg (·[m.timestamp]?) hLog
    rw [Std.ExtTreeMap.getElem?_erase, if_pos Std.ReflCmp.compare_self, hLookup] at hAgain
    cases hAgain

end Client

namespace Cluster
variable {C : Cluster σ} {connected : UInt32 → Finset UInt32} {first : UInt32 → UInt64} {s : Site σ}
  {link : UInt32 → UInt32 → Conn} {G : World σ}

theorem keeps_of_reach (hs : C.SiteReach connected first s) (c : UInt32) :
    Client.Keeps (C.clientConfig connected c) (s.clients c) := by
  refine Machine.Reach.invariant (I := fun s : Site σ => ∀ c, Client.Keeps (C.clientConfig connected c) (s.clients c))
    (fun c => Client.keeps_init _ (first c)) (fun s a s' _ w _ hn => ?_) hs c
  have hUpdate : ∀ (b : UInt32) (x : Client), Client.Keeps (C.clientConfig connected b) x →
      ∀ c, Client.Keeps (C.clientConfig connected c) (Function.update s.clients b x c) := by
    intro b x hx c
    by_cases hc : c = b
    · subst hc
      rwa [Function.update_self]
    · rw [Function.update_of_ne hc]
      exact w c
  cases a with
  | node r i =>
    obtain ⟨G, -, rfl⟩ := Option.map_eq_some_iff.mp hn
    exact w
  | invoke b operation =>
    cases hn
    exact hUpdate b _ (Client.keeps_invokeAsync (w b) operation)
  | reply b m =>
    cases hn
    exact hUpdate b _ (Client.keeps_onReply (w b) m)

/-- The primary has numbered a request that it ignores. -/
theorem AtRest.exists_place (h : AtRest C link G) (hNone : ∀ r < C.base.n, (G r).h ≤ (G r).lastExec)
    (hPos : 0 < C.base.K) (hLe : C.base.K ≤ C.base.L) {m : RequestMsg}
    (hAsked : Same ((G 0).onRequest (C.cfg 0) m) (G 0)) : ∃ r j, C.Places G m.clientId m.timestamp r j := by
  have hFollows := h.normal.follows 0
  by_cases hReply : (G 0).lastReplies[m.clientId]?.filter (·.timestamp == m.timestamp) = none
  · have hKnown : (G 0).alreadyInProgress m = true := by
      by_contra hNew
      obtain ⟨hLow, hHigh⟩ := h.window hNone hPos hLe
      have hProposes : Proposes (C.cfg 0) (G 0) m := by
        refine ⟨hReply, (h.spoken 0).idle, ?_, hLow, hHigh, Bool.eq_false_iff.mpr hNew⟩
        rw [hFollows.view, UInt32.zero_mod]
        rfl
      have hEq := ((onRequest_cases (C.cfg 0) m (G 0)).resolve_right fun hOther => hOther.1 hProposes).2
      -- it would give the request a number
      have hSame := hAsked.seqNum
      rw [hEq] at hSame
      exact absurd (UInt64.add_eq_left.mp hSame) (by decide)
    obtain ⟨⟨k, e⟩, hMem, hTest⟩ := List.any_eq_true.mp hKnown
    simp only [Bool.and_eq_true, beq_iff_eq] at hTest
    have hEntry := entry_of_lookup (Std.ExtTreeMap.mem_toList_iff_getElem?_eq_some.mp hMem)
    obtain ⟨pp, hpp, -, hReq⟩ := hFollows.entries k (hEntry ▸ hTest.1.1)
    rw [hEntry] at hReq
    obtain ⟨j, hj⟩ := List.mem_iff_getElem?.mp hpp
    exact ⟨_, j, pp, hj, hReq ▸ hTest.1.2, hReq ▸ hTest.2, rfl⟩
  · obtain ⟨info, hInfo⟩ := Option.ne_none_iff_exists'.mp hReply
    obtain ⟨hLookup, hTime⟩ := Option.filter_eq_some_iff.mp hInfo
    have hAnswered := (replyInv_reach (h.reach.anything 0)).cached _ info hLookup
    rw [beq_iff_eq.mp hTime] at hAnswered
    exact ⟨info.result, Cluster.exists_place h.faultless h.reach hAnswered⟩

/-- Every replica has replied to what stands in the order. -/
theorem AtRest.exists_reply (h : AtRest C link G) (hNone : ∀ r < C.base.n, (G r).h ≤ (G r).lastExec) {c : UInt32}
    {ts : UInt64} {r : String} {j : Nat} (hPlace : C.Places G c ts r j) {p : UInt32} (hp : p < C.base.n) :
    ∃ a ∈ (G p).replies, a.replicaId = p ∧ a.clientId = c ∧ a.timestamp = ts := by
  obtain ⟨pp, hpp, rfl, rfl, -⟩ := hPlace
  have hIndex : j < (G p).executed.length := by
    rw [(h.log p).2.length, h.lastExec_eq_of_le hp (hNone p hp), h.normal.leads.count]
    exact (List.getElem?_eq_some_iff.mp hpp).1
  have hx := List.getElem?_eq_getElem hIndex
  obtain ⟨pp', hpp', hReq⟩ := (h.normal.follows p).executed j _ hx
  cases hpp.symm.trans hpp'
  obtain ⟨a, ha, hId, hClient, hTime⟩ := replied_reach (h.reach.anything p) _ (List.mem_of_getElem? hx)
  exact ⟨a, ha, hId, hClient.trans (hReq ▸ rfl), hTime.trans (hReq ▸ rfl)⟩

/-- A client that has got the replies to its request from everybody has the answer, unless the request
stands in the order twice, with different results. -/
theorem answered_at_rest (hFaulty : C.faulty = ∅) (hs : C.SiteReach connected first s) (hSize : 4 ≤ C.base.n)
    (hLinked : C.Linked link s.world) (hRoom : (s.world 0).seqNum.toNat + C.base.L.toNat < 2 ^ 64)
    (hQuiet : C.Quiescent link s.world) (hNone : ∀ r < C.base.n, (s.world r).h ≤ (s.world r).lastExec)
    (hPos : 0 < C.base.K) (hLe : C.base.K ≤ C.base.L) {c : UInt32} {m : RequestMsg} (hm : m ∈ (s.clients c).sent)
    (hAsked : m.timestamp ∈ (s.clients c).inflightRequests → Same ((s.world 0).onRequest (C.cfg 0) m) (s.world 0))
    (hTold : ∀ p < C.base.n, ∀ a ∈ (s.world p).replies, a.clientId = c →
      (s.clients c).onReply (C.clientConfig connected c) a = s.clients c) :
    (∃ r, (m.timestamp, r) ∈ (s.clients c).fulfilled) ∨
      ∃ j k r r', C.Places s.world c m.timestamp r j ∧ C.Places s.world c m.timestamp r' k ∧ r ≠ r' := by
  have h := AtRest.of_quiescent hFaulty (reach_of_withClients hs) hSize hLinked hRoom hQuiet
  have w := siteInv_of_reach hFaulty hs
  obtain ⟨i, hi⟩ := List.mem_iff_getElem?.mp hm
  have hId : m.clientId = c := ((w.stamped c).requests i m hi).1
  refine ((keeps_of_reach hs c).sent m hm).symm.imp_right fun hWaits => ?_
  obtain ⟨request, hLookup⟩ := TreeMap.mem_iff_exists.mp hWaits
  by_contra hNever
  have hAlike : ∀ j k r r', C.Places s.world c m.timestamp r j → C.Places s.world c m.timestamp r' k → r = r' :=
    fun j k r r' hj hk => by_contra fun hNe => hNever ⟨j, k, r, r', hj, hk, hNe⟩
  obtain ⟨r, j, hPlace⟩ := h.exists_place hNone hPos hLe (hAsked hWaits)
  rw [hId] at hPlace
  obtain ⟨result, hCounts, hSeen⟩ := (w.told c).inflight m.timestamp request hLookup
  -- all replicas have been counted, and for the same result
  have hAll : C.base.replicas ⊆ request.seenReplicas.filter (result · = r) := by
    intro p hp
    have hp := Config.mem_replicas.mp hp
    obtain ⟨a, ha, rfl, hClient, hTime⟩ := h.exists_reply hNone hPlace hp
    have hCounted := Client.seen_of_onReply_eq (hTold _ hp a ha hClient) hClient (hTime ▸ hLookup)
    obtain ⟨-, hAnswered⟩ := hSeen a.replicaId hCounted
    obtain ⟨k, hk⟩ := Cluster.exists_place hFaulty h.reach (hAnswered (by simp [hFaulty]))
    exact Finset.mem_filter.mpr ⟨hCounted, hAlike k j _ _ hk hPlace⟩
  have hMany := Finset.card_le_card hAll
  rw [Config.card_replicas, ← hCounts] at hMany
  have hFew := (keeps_of_reach hs c).few m.timestamp request hLookup r
  have hThird := h.toNat_size.1
  have hf : (C.clientConfig connected c).f.toNat = C.base.f.toNat := rfl
  omega

/-- The call, everything about the request, and the replies of all. -/
def servedAtRest : List Call :=
  [.invoke 9 "INC"] ++ toRest.map (fun a => .node a.1 a.2) ++ [0, 1, 2, 3].map fun p => .reply 9 ⟨0, 1, 9, p, "OK"⟩

/-- Replica p has no reply that the client 9 would take notice of. -/
def hasNothingFor (s : Site (List String)) (p : UInt32) : Bool :=
  (s.world p).replies.all fun a =>
    decide (a.view ≤ (s.clients 9).currentView) && (s.clients 9).inflightRequests[a.timestamp]?.isNone

theorem onReply_of_answered {cfg : ClientConfig} {c : Client} {a : ReplyMsg} (hView : a.view ≤ c.currentView)
    (hNone : c.inflightRequests[a.timestamp]? = none) : c.onReply cfg a = c := by
  unfold Client.onReply
  split
  · rfl
  · simp [hNone, UInt32.not_lt.mpr hView]

theorem answered_at_rest_one : ∃ s, checkpointing.SiteReach (fun _ => {0}) (fun _ => 0) s ∧
    (s.clients 9).sent = [⟨"INC", 1, 9⟩] ∧ ∃ r, (1, r) ∈ (s.clients 9).fulfilled := by
  obtain ⟨s, hs, hSeq, hLength, hSent, hLinks, hHeard, hNone, hIdle, hDone⟩ := Machine.exists_reach
    (checkpointing.withClients (fun _ => {0}) fun _ => 0) checkpointing.Served servedAtRest
    (fun s => (s.world 0).seqNum = 1 ∧ (s.world 0).proposals.length = 1 ∧ (s.clients 9).sent = [⟨"INC", 1, 9⟩] ∧
      allPairs (hasLink s.world) = true ∧ allPairs (hasHeard s.world) = true ∧
      allPairs (fun r _ => decide ((s.world r).h ≤ (s.world r).lastExec)) = true ∧
      allPairs (fun r _ => hasNothingFor s r) = true ∧ 1 ∉ (s.clients 9).inflightRequests) (by decide +kernel)
  have hRoom : (s.world 0).seqNum.toNat + checkpointing.base.L.toNat < 2 ^ 64 := by
    rw [hSeq]
    decide
  have hm : ⟨"INC", 1, 9⟩ ∈ (s.clients 9).sent := hSent ▸ List.mem_singleton.mpr rfl
  refine ⟨s, hs, hSent, ?_⟩
  rcases answered_at_rest rfl hs (by decide) (fun r p hr hp hNe => of_decide_eq_true (of_allPairs hLinks hr hp hNe))
    hRoom (quiescent_of_hasHeard hHeard) (fun r hr => of_decide_eq_true (of_allPairs_left hNone hr)) (by decide)
    (by decide) hm (fun hWaits => absurd hWaits hDone) fun p hp a ha _ => by
      have hNothing := List.all_eq_true.mp (of_allPairs_left hIdle hp) a ha
      rw [Bool.and_eq_true, Option.isNone_iff_eq_none] at hNothing
      exact onReply_of_answered (of_decide_eq_true hNothing.1) hNothing.2 with
    hAnswer | ⟨j, k, r, r', ⟨pp, hj, -, -, rfl⟩, ⟨pp', hk, -, -, rfl⟩, hNe⟩
  · exact hAnswer
  · -- there is one place only
    have hj' := (List.getElem?_eq_some_iff.mp hj).1
    have hk' := (List.getElem?_eq_some_iff.mp hk).1
    obtain rfl : j = k := by omega
    cases hj.symm.trans hk
    exact absurd rfl hNe

end Cluster
end Pbft
