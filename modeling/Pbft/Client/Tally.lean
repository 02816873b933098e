import Pbft.Client
import Pbft.Foundation.FirstVote
import Pbft.Foundation.TreeMap

/-! # What a client counts

For every request in flight a client keeps the replicas it has heard of and a counter for each
result. Together they are the first replies to the request since it was made, so that a promise is
fulfilled when the first f + 1 replicas have answered alike, and never again.
-/
namespace Pbft
set_option autoImplicit false

inductive ClientEvent where
  | invoke (operation : String)
  | reply (m : ReplyMsg)

namespace Client

open FirstVote

variable {cfg : ClientConfig} {ts : UInt64} {h : List ClientEvent}

def step (cfg : ClientConfig) (c : Client) : ClientEvent → Client
  | .invoke operation => c.invokeAsync cfg operation
  | .reply m => c.onReply cfg m

/-- The client after some calls, the latest of which is the head of the list. -/
def after (cfg : ClientConfig) : List ClientEvent → Client
  | [] => init 0
  | e :: h => (after cfg h).step cfg e

def invokes : List ClientEvent → Nat
  | [] => 0
  | .invoke _ :: h => invokes h + 1
  | .reply _ :: h => invokes h

def Registered (ts : UInt64) (h : List ClientEvent) : Prop := 0 < ts.toNat ∧ ts.toNat ≤ invokes h

instance (ts : UInt64) (h : List ClientEvent) : Decidable (Registered ts h) :=
  inferInstanceAs (Decidable (_ ∧ _))

/-- The replies to the request since it was registered, the oldest first. -/
def answers (cfg : ClientConfig) (ts : UInt64) : List ClientEvent → List (UInt32 × String)
  | [] => []
  | .invoke _ :: h => answers cfg ts h
  | .reply m :: h =>
    if m.clientId = cfg.id ∧ m.timestamp = ts ∧ Registered ts h then
      answers cfg ts h ++ [(m.replicaId, m.result)]
    else answers cfg ts h

/-- f + 1 replicas have r as their first answer. -/
def Decided (cfg : ClientConfig) (ts : UInt64) (h : List ClientEvent) (r : String) : Prop :=
  cfg.f.toNat + 1 ≤ (support (answers cfg ts h) r).card

instance (r : String) : Decidable (Decided cfg ts h r) := inferInstanceAs (Decidable (_ ≤ _))

def Undecided (cfg : ClientConfig) (ts : UInt64) (h : List ClientEvent) : Prop := ∀ r, ¬Decided cfg ts h r

theorem answers_of_not_registered (hNot : ¬Registered ts h) : answers cfg ts h = [] := by
  induction h with
  | nil => rfl
  | cons e h ih =>
    cases e with
    | invoke operation =>
      exact ih fun hReg => hNot ⟨hReg.1, Nat.le_succ_of_le hReg.2⟩
    | reply m =>
      rw [answers, if_neg fun hAnswer => hNot hAnswer.2.2]
      exact ih hNot

theorem Decided.cons {r : String} (hDecided : Decided cfg ts h r) (e : ClientEvent) :
    Decided cfg ts (e :: h) r := by
  cases e with
  | invoke operation => exact hDecided
  | reply m =>
    unfold Decided
    rw [answers]
    split
    · exact hDecided.trans card_support_mono
    · exact hDecided

theorem Undecided.of_cons {e : ClientEvent} (hOpen : Undecided cfg ts (e :: h)) : Undecided cfg ts h :=
  fun r hDecided => hOpen r (hDecided.cons e)

theorem undecided_of_not_registered (hNot : ¬Registered ts h) : Undecided cfg ts h := by
  intro r hDecided
  rw [Decided, answers_of_not_registered hNot, support_nil] at hDecided
  cases hDecided

/-- What on_reply does: nothing but to note the view, or to count the reply, or to accept it. -/
inductive Outcome (cfg : ClientConfig) (c : Client) (m : ReplyMsg) (c' : Client) : Prop
  | ignored (hLog : c'.inflightRequests = c.inflightRequests) (hDone : c'.fulfilled = c.fulfilled)
      (hWhy : m.clientId ≠ cfg.id ∨ c.inflightRequests[m.timestamp]? = none ∨
        ∃ request, c.inflightRequests[m.timestamp]? = some request ∧ m.replicaId ∈ request.seenReplicas)
  | counted (request : InflightRequest) (hId : m.clientId = cfg.id)
      (hLookup : c.inflightRequests[m.timestamp]? = some request) (hNew : m.replicaId ∉ request.seenReplicas)
      (hFew : request.resultCounts.getD m.result 0 + 1 < cfg.f.toNat + 1)
      (hLog : c'.inflightRequests = c.inflightRequests.insert m.timestamp { request with
        seenReplicas := insert m.replicaId request.seenReplicas
        resultCounts := request.resultCounts.insert m.result (request.resultCounts.getD m.result 0 + 1) })
      (hDone : c'.fulfilled = c.fulfilled)
  | accepted (request : InflightRequest) (hId : m.clientId = cfg.id)
      (hLookup : c.inflightRequests[m.timestamp]? = some request) (hNew : m.replicaId ∉ request.seenReplicas)
      (hEnough : cfg.f.toNat + 1 ≤ request.resultCounts.getD m.result 0 + 1)
      (hLog : c'.inflightRequests = c.inflightRequests.erase m.timestamp)
      (hDone : c'.fulfilled = c.fulfilled ++ [(m.timestamp, m.result)])

theorem onReply_outcome (cfg : ClientConfig) (m : ReplyMsg) (c : Client) :
    Outcome cfg c m (c.onReply cfg m) ∧ (c.onReply cfg m).timestamp = c.timestamp := by
  unfold onReply
  split
  · rename_i hOther
    exact ⟨.ignored rfl rfl (.inl hOther), rfl⟩
  rename_i hId
  rw [not_not] at hId
  dsimp only
  split
  · rename_i hNone
    exact ⟨.ignored rfl rfl (.inr (.inl hNone)), rfl⟩
  rename_i request hLookup
  split
  · rename_i hSeen
    exact ⟨.ignored rfl rfl (.inr (.inr ⟨request, hLookup, hSeen⟩)), rfl⟩
  rename_i hNew
  have hThreshold := cfg.toNat_threshold
  split
  · rename_i hEnough
    exact ⟨.accepted request hId hLookup hNew (hThreshold ▸ hEnough) rfl rfl, rfl⟩
  · rename_i hFew
    exact ⟨.counted request hId hLookup hNew (hThreshold ▸ Nat.lt_of_not_le hFew) rfl rfl, rfl⟩

/-- The two tables of a request against the replies that it has got. -/
structure Counted (votes : List (UInt32 × String)) (request : InflightRequest) : Prop where
  seen : request.seenReplicas = voters votes
  counts : ∀ x, request.resultCounts.getD x 0 = (support votes x).card

structure TallyInv (cfg : ClientConfig) (h : List ClientEvent) (c : Client) : Prop where
  clock : c.timestamp.toNat = invokes h
  inflight : ∀ ts, Registered ts h → Undecided cfg ts h →
    ∃ request, c.inflightRequests[ts]? = some request ∧ Counted (answers cfg ts h) request
  gone : ∀ ts, ¬(Registered ts h ∧ Undecided cfg ts h) → c.inflightRequests[ts]? = none

theorem counted_nil : Counted [] { timestamp := ts } :=
  ⟨rfl, fun x => by simp [support_nil]⟩

theorem Counted.add {votes : List (UInt32 × String)} {request : InflightRequest} {p : UInt32} {r : String}
    (w : Counted votes request) (hNew : p ∉ request.seenReplicas) :
    Counted (votes ++ [(p, r)]) { request with
      seenReplicas := insert p request.seenReplicas
      resultCounts := request.resultCounts.insert r (request.resultCounts.getD r 0 + 1) } := by
  rw [w.seen] at hNew
  refine ⟨?_, fun x => ?_⟩
  · dsimp only
    rw [w.seen, voters_append]
  · dsimp only
    rw [TreeMap.getD_insert, card_support_append hNew]
    split
    · rename_i hrx
      rw [hrx, w.counts]
    · exact w.counts x

theorem Counted.again {votes : List (UInt32 × String)} {request : InflightRequest} {p : UInt32} {r : String}
    (w : Counted votes request) (hSeen : p ∈ request.seenReplicas) :
    Counted (votes ++ [(p, r)]) request := by
  refine ⟨?_, fun x => ?_⟩
  · rw [voters_append, ← w.seen, Finset.insert_eq_of_mem hSeen]
  · rw [support_append_of_mem (w.seen ▸ hSeen)]
    exact w.counts x

theorem tallyInv_init : TallyInv cfg [] (init 0) where
  clock := rfl
  inflight ts hReg := by
    have hPos := hReg.1
    have hNone := hReg.2
    rw [invokes] at hNone
    omega
  gone ts _ := by simp [init]

/-- A new request has no replies, whatever came before with its time stamp. -/
theorem tallyInv_invoke {c : Client} (operation : String) (hWrap : invokes h + 1 < 2 ^ 64)
    (w : TallyInv cfg h c) : TallyInv cfg (.invoke operation :: h) (c.invokeAsync cfg operation) := by
  have hClock : (c.timestamp + 1).toNat = invokes h + 1 := by
    rcases Word.toNat_succ_cases c.timestamp with hSucc | ⟨hLargest, -⟩
    · rw [hSucc, w.clock]
    · rw [w.clock] at hLargest
      omega
  have hNotYet : ¬Registered (c.timestamp + 1) h := by
    intro hReg
    have hle := hReg.2
    omega
  have hLookup : ∀ ts, (c.invokeAsync cfg operation).inflightRequests[ts]? =
      if c.timestamp + 1 = ts then some { timestamp := c.timestamp + 1 } else c.inflightRequests[ts]? := by
    intro ts
    dsimp only [invokeAsync]
    rw [Std.ExtTreeMap.getElem?_insertIfNew]
    by_cases hTs : c.timestamp + 1 = ts
    · have hFresh := w.gone (c.timestamp + 1) fun hReg => hNotYet hReg.1
      have hAbsent : c.timestamp + 1 ∉ c.inflightRequests := by
        rw [Std.ExtTreeMap.mem_iff_isSome_getElem?, hFresh]
        exact Bool.false_ne_true
      rw [if_pos hTs, if_pos ⟨by simp [hTs], hAbsent⟩]
    · rw [if_neg hTs, if_neg fun hNew => hTs (Std.LawfulEqCmp.eq_of_compare hNew.1)]
  have hOther : ∀ ts, c.timestamp + 1 ≠ ts → (Registered ts (.invoke operation :: h) ↔ Registered ts h) := by
    intro ts hTs
    have hNe : invokes h + 1 ≠ ts.toNat := by
      rw [← hClock]
      exact fun hEq => hTs (UInt64.toNat_inj.mp hEq)
    unfold Registered
    rw [invokes]
    omega
  refine ⟨hClock, fun ts hReg hOpen => ?_, fun ts hNot => ?_⟩
  · rw [hLookup]
    split
    · rename_i hTs
      refine ⟨_, rfl, ?_⟩
      rw [← hTs, answers, answers_of_not_registered hNotYet]
      exact counted_nil
    · rename_i hTs
      exact w.inflight ts ((hOther ts hTs).mp hReg) hOpen
  · rw [hLookup]
    split
    · rename_i hTs
      have hOpen : Undecided cfg (c.timestamp + 1) h := undecided_of_not_registered hNotYet
      rw [← hTs] at hNot
      exact absurd ⟨⟨by omega, hClock.le⟩, hOpen⟩ hNot
    · rename_i hTs
      exact w.gone ts fun hBoth => hNot ⟨(hOther ts hTs).mpr hBoth.1, hBoth.2⟩

section Reply
variable {c : Client} {m : ReplyMsg} {request : InflightRequest}

theorem TallyInv.lookup (w : TallyInv cfg h c) (hLookup : c.inflightRequests[ts]? = some request) :
    Registered ts h ∧ Undecided cfg ts h ∧ Counted (answers cfg ts h) request := by
  have hBoth : Registered ts h ∧ Undecided cfg ts h := by
    by_contra hNot
    rw [w.gone ts hNot] at hLookup
    cases hLookup
  obtain ⟨request', hSome, hCounted⟩ := w.inflight ts hBoth.1 hBoth.2
  rw [hLookup] at hSome
  cases hSome
  exact ⟨hBoth.1, hBoth.2, hCounted⟩

/-- The reply that decides a request is the one that on_reply accepts. -/
theorem decides_iff (w : TallyInv cfg h c) (r : String) :
    (Undecided cfg ts h ∧ Decided cfg ts (.reply m :: h) r) ↔
      m.clientId = cfg.id ∧ m.timestamp = ts ∧ m.result = r ∧ ∃ request,
        c.inflightRequests[m.timestamp]? = some request ∧ m.replicaId ∉ request.seenReplicas ∧
        cfg.f.toNat + 1 ≤ request.resultCounts.getD m.result 0 + 1 := by
  constructor
  · rintro ⟨hOpen, hDecided⟩
    unfold Decided at hDecided
    rw [answers] at hDecided
    split at hDecided
    · rename_i hAnswer
      obtain ⟨hId, rfl, hReg⟩ := hAnswer
      obtain ⟨request, hLookup, hCounted⟩ := w.inflight _ hReg hOpen
      have hNew : m.replicaId ∉ request.seenReplicas := by
        intro hSeen
        rw [support_append_of_mem (hCounted.seen ▸ hSeen)] at hDecided
        exact hOpen r hDecided
      rw [card_support_append (hCounted.seen ▸ hNew)] at hDecided
      split at hDecided
      · rename_i hResult
        refine ⟨hId, rfl, hResult, request, hLookup, hNew, ?_⟩
        rw [hResult, hCounted.counts]
        exact hDecided
      · exact absurd hDecided (hOpen r)
    · exact absurd hDecided (hOpen r)
  · rintro ⟨hId, rfl, rfl, request, hLookup, hNew, hEnough⟩
    obtain ⟨hReg, hOpen, hCounted⟩ := w.lookup hLookup
    refine ⟨hOpen, ?_⟩
    unfold Decided
    rw [answers, if_pos ⟨hId, rfl, hReg⟩, card_support_append (hCounted.seen ▸ hNew), if_pos rfl,
      ← hCounted.counts]
    exact hEnough

/-- A reply to a request in flight is ignored only if the replica has answered it before. -/
theorem seen_of_ignored {request : InflightRequest}
    (hWhy : m.clientId ≠ cfg.id ∨ c.inflightRequests[m.timestamp]? = none ∨
      ∃ request, c.inflightRequests[m.timestamp]? = some request ∧ m.replicaId ∈ request.seenReplicas)
    (hId : m.clientId = cfg.id) (hLookup : c.inflightRequests[m.timestamp]? = some request) :
    m.replicaId ∈ request.seenReplicas := by
  rcases hWhy with hOther | hNone | ⟨request', hSome, hSeen⟩
  · exact absurd hId hOther
  · rw [hLookup] at hNone
    cases hNone
  · rw [hLookup] at hSome
    cases hSome
    exact hSeen

theorem lookup_onReply_of_ne (hTs : m.timestamp ≠ ts) :
    (c.onReply cfg m).inflightRequests[ts]? = c.inflightRequests[ts]? := by
  cases (onReply_outcome cfg m c).1 with
  | ignored hLog => rw [hLog]
  | counted request _ _ _ _ hLog => rw [hLog, TreeMap.lookup_insert, if_neg hTs]
  | accepted request _ _ _ _ hLog =>
    rw [hLog, Std.ExtTreeMap.getElem?_erase, if_neg fun hEq => hTs (Std.LawfulEqCmp.eq_of_compare hEq)]

theorem tallyInv_reply (m : ReplyMsg) (w : TallyInv cfg h c) :
    TallyInv cfg (.reply m :: h) (c.onReply cfg m) := by
  obtain ⟨hOutcome, hClock⟩ := onReply_outcome cfg m c
  refine ⟨hClock ▸ w.clock, fun ts hReg hOpen => ?_, fun ts hNot => ?_⟩
  · obtain ⟨request, hLookup, hCounted⟩ := w.inflight ts hReg hOpen.of_cons
    rw [answers]
    by_cases hTs : m.timestamp = ts
    · subst hTs
      cases hOutcome with
      | ignored hLog _ hWhy =>
        rw [hLog]
        refine ⟨request, hLookup, ?_⟩
        split
        · rename_i hAnswer
          exact hCounted.again (seen_of_ignored hWhy hAnswer.1 hLookup)
        · exact hCounted
      | counted request' hId hSome hNew _ hLog =>
        rw [hLookup] at hSome
        cases hSome
        rw [hLog, TreeMap.lookup_insert, if_pos rfl, if_pos ⟨hId, rfl, hReg⟩]
        exact ⟨_, rfl, hCounted.add hNew⟩
      | accepted request' hId hSome hNew hEnough =>
        have hDecides := (decides_iff w m.result).mpr ⟨hId, rfl, rfl, request', hSome, hNew, hEnough⟩
        exact absurd hDecides.2 (hOpen m.result)
    · rw [lookup_onReply_of_ne hTs, if_neg fun hAnswer => hTs hAnswer.2.1]
      exact ⟨request, hLookup, hCounted⟩
  · by_cases hBefore : Registered ts h ∧ Undecided cfg ts h
    · -- the request was in flight, so this reply has decided it
      have hSome : ∃ r, Decided cfg ts (.reply m :: h) r := by
        by_contra hNone
        exact hNot ⟨hBefore.1, fun r hr => hNone ⟨r, hr⟩⟩
      obtain ⟨r, hr⟩ := hSome
      obtain ⟨hId, rfl, rfl, request, hLookup, hNew, hEnough⟩ := (decides_iff w r).mp ⟨hBefore.2, hr⟩
      cases hOutcome with
      | ignored _ _ hWhy => exact absurd (seen_of_ignored hWhy hId hLookup) hNew
      | counted request' _ hSome _ hFew =>
        rw [hLookup] at hSome
        cases hSome
        omega
      | accepted _ _ _ _ _ hLog =>
        rw [hLog, Std.ExtTreeMap.getElem?_erase, if_pos (by simp)]
    · have hNone := w.gone ts hBefore
      by_cases hTs : m.timestamp = ts
      · subst hTs
        cases hOutcome with
        | ignored hLog => rwa [hLog]
        | counted _ _ hSome =>
          rw [hNone] at hSome
          cases hSome
        | accepted _ _ hSome =>
          rw [hNone] at hSome
          cases hSome
      · rw [lookup_onReply_of_ne hTs]
        exact hNone

end Reply

theorem invokes_le_cons (e : ClientEvent) (h : List ClientEvent) : invokes h ≤ invokes (e :: h) := by
  cases e with
  | invoke operation => exact Nat.le_succ _
  | reply m => exact Nat.le_refl _

theorem tallyInv_after (hWrap : invokes h < 2 ^ 64) : TallyInv cfg h (after cfg h) := by
  induction h with
  | nil => exact tallyInv_init
  | cons e h ih =>
    have w := ih (Nat.lt_of_le_of_lt (invokes_le_cons e h) hWrap)
    cases e with
    | invoke operation => exact tallyInv_invoke operation hWrap w
    | reply m => exact tallyInv_reply m w

/-- A call fulfils at most one promise, and it fulfils exactly those that it has decided. -/
theorem fulfilled_step {c : Client} (e : ClientEvent) (w : TallyInv cfg h c) :
    ∃ l, (c.step cfg e).fulfilled = c.fulfilled ++ l ∧ l.length ≤ 1 ∧
      ∀ ts r, (ts, r) ∈ l ↔ Undecided cfg ts h ∧ Decided cfg ts (e :: h) r := by
  have hNothing (hDone : (c.step cfg e).fulfilled = c.fulfilled)
      (hNone : ∀ ts r, Undecided cfg ts h → ¬Decided cfg ts (e :: h) r) :
      ∃ l, (c.step cfg e).fulfilled = c.fulfilled ++ l ∧ l.length ≤ 1 ∧
        ∀ ts r, (ts, r) ∈ l ↔ Undecided cfg ts h ∧ Decided cfg ts (e :: h) r := by
    refine ⟨[], by rw [hDone, List.append_nil], Nat.zero_le _, fun ts r => ?_⟩
    simpa using hNone ts r
  cases e with
  | invoke operation => exact hNothing rfl fun ts r hOpen => hOpen r
  | reply m =>
    cases (onReply_outcome cfg m c).1 with
    | ignored _ hDone hWhy =>
      refine hNothing hDone fun ts r hOpen hDecided => ?_
      obtain ⟨hId, -, -, request, hLookup, hUnseen, -⟩ := (decides_iff w r).mp ⟨hOpen, hDecided⟩
      exact absurd (seen_of_ignored hWhy hId hLookup) hUnseen
    | counted request _ hSome _ hFew _ hDone =>
      refine hNothing hDone fun ts r hOpen hDecided => ?_
      obtain ⟨-, -, -, request', hLookup, -, hEnough⟩ := (decides_iff w r).mp ⟨hOpen, hDecided⟩
      rw [hSome] at hLookup
      cases hLookup
      omega
    | accepted request hId hSome hUnseen hEnough _ hDone =>
      refine ⟨[(m.timestamp, m.result)], hDone, Nat.le_refl _, fun ts r => ?_⟩
      rw [decides_iff w r, List.mem_singleton, Prod.mk.injEq]
      constructor
      · rintro ⟨rfl, rfl⟩
        exact ⟨hId, rfl, rfl, request, hSome, hUnseen, hEnough⟩
      · rintro ⟨-, rfl, rfl, -⟩
        exact ⟨rfl, rfl⟩

def promises (ts : UInt64) (done : List (UInt64 × String)) : List (UInt64 × String) :=
  done.filter fun x => x.1 == ts

theorem promises_append (done l : List (UInt64 × String)) :
    promises ts (done ++ l) = promises ts done ++ promises ts l :=
  List.filter_append done l

theorem promises_eq_nil {l : List (UInt64 × String)} (h : ∀ r, (ts, r) ∉ l) : promises ts l = [] := by
  unfold promises
  rw [List.filter_eq_nil_iff]
  rintro ⟨ts', r⟩ hMem hTs
  rw [← beq_iff_eq.mp hTs] at h
  exact h r hMem

/-- Nothing is fulfilled before it is decided, and nothing twice after that. -/
theorem promises_after (hWrap : invokes h < 2 ^ 64) :
    (promises ts (after cfg h).fulfilled).length ≤ 1 ∧
      (Undecided cfg ts h → promises ts (after cfg h).fulfilled = []) := by
  induction h with
  | nil => exact ⟨Nat.zero_le _, fun _ => rfl⟩
  | cons e h ih =>
    have hBefore := Nat.lt_of_le_of_lt (invokes_le_cons e h) hWrap
    obtain ⟨hOnce, hNone⟩ := ih hBefore
    have w : TallyInv cfg h (after cfg h) := tallyInv_after hBefore
    obtain ⟨l, hDone, hLength, hl⟩ := fulfilled_step e w
    rw [after, hDone, promises_append]
    by_cases hOpen : Undecided cfg ts h
    · rw [hNone hOpen, List.nil_append]
      refine ⟨(List.length_filter_le _ _).trans hLength, fun hStill => promises_eq_nil fun r hMem => ?_⟩
      exact hStill r ((hl ts r).mp hMem).2
    · rw [promises_eq_nil fun r hMem => hOpen ((hl ts r).mp hMem).1, List.append_nil]
      exact ⟨hOnce, fun hStill => absurd hStill.of_cons hOpen⟩

/-- The client against its specification, after any calls and for any time stamp. A promise is kept at
most once, and by the call after which f + 1 replicas have the result as their first answer; until
then the counters are the numbers of first answers; and a reply to one request leaves the others alone. -/
theorem tally_refines (cfg : ClientConfig) (h : List ClientEvent) (hWrap : invokes h < 2 ^ 64) (ts : UInt64) :
    (promises ts (after cfg h).fulfilled).length ≤ 1 ∧
    (∀ e, ∃ l, (after cfg (e :: h)).fulfilled = (after cfg h).fulfilled ++ l ∧
      ∀ r, (ts, r) ∈ l ↔ Undecided cfg ts h ∧ Decided cfg ts (e :: h) r) ∧
    (Registered ts h → Undecided cfg ts h → ∃ request, (after cfg h).inflightRequests[ts]? = some request ∧
      request.seenReplicas = voters (answers cfg ts h) ∧ ∀ x, request.resultCounts.getD x 0 ≤ cfg.f.toNat ∧
        request.resultCounts.getD x 0 =
          (request.seenReplicas.filter fun p => first (answers cfg ts h) p = some x).card) ∧
    ∀ m : ReplyMsg, m.timestamp ≠ ts →
      (after cfg (.reply m :: h)).inflightRequests[ts]? = (after cfg h).inflightRequests[ts]? ∧
      promises ts (after cfg (.reply m :: h)).fulfilled = promises ts (after cfg h).fulfilled := by
  have w : TallyInv cfg h (after cfg h) := tallyInv_after hWrap
  refine ⟨(promises_after hWrap).1, fun e => ?_, fun hReg hOpen => ?_, fun m hTs => ⟨?_, ?_⟩⟩
  · obtain ⟨l, hDone, -, hl⟩ := fulfilled_step e w
    exact ⟨l, hDone, hl ts⟩
  · obtain ⟨request, hLookup, hCounted⟩ := w.inflight ts hReg hOpen
    refine ⟨request, hLookup, hCounted.seen, fun x => ⟨?_, ?_⟩⟩
    · have hFew := hOpen x
      rw [Decided, ← hCounted.counts] at hFew
      omega
    · rw [hCounted.counts, hCounted.seen]
      rfl
  · exact lookup_onReply_of_ne hTs
  · obtain ⟨l, hDone, -, hl⟩ := fulfilled_step (.reply m) w
    have hNothing : promises ts l = [] :=
      promises_eq_nil fun r hMem => hTs ((decides_iff w r).mp ((hl ts r).mp hMem)).2.1
    rw [after, hDone, promises_append, hNothing, List.append_nil]

/-- Replica 0 answers twice and replica 1 once: the third reply is the second one that counts. -/
theorem tally_refines_second_answer :
    ∃ l, (after ⟨9, 4, ∅⟩ [.reply ⟨0, 1, 9, 1, "OK"⟩, .reply ⟨0, 1, 9, 0, "NO"⟩, .reply ⟨0, 1, 9, 0, "OK"⟩,
        .invoke "A"]).fulfilled = (after ⟨9, 4, ∅⟩ [.reply ⟨0, 1, 9, 0, "NO"⟩, .reply ⟨0, 1, 9, 0, "OK"⟩,
        .invoke "A"]).fulfilled ++ l ∧ (1, "OK") ∈ l ∧ (1, "NO") ∉ l := by
  have hWrap : invokes [.reply ⟨0, 1, 9, 0, "NO"⟩, .reply ⟨0, 1, 9, 0, "OK"⟩, .invoke "A"] < 2 ^ 64 := by
    decide
  obtain ⟨-, hExact, hBefore, -⟩ := tally_refines ⟨9, 4, ∅⟩ _ hWrap 1
  obtain ⟨l, hDone, hl⟩ := hExact (.reply ⟨0, 1, 9, 1, "OK"⟩)
  have hOpen : Undecided ⟨9, 4, ∅⟩ 1 [.reply ⟨0, 1, 9, 0, "NO"⟩, .reply ⟨0, 1, 9, 0, "OK"⟩, .invoke "A"] := by
    intro r hDecided
    have hOne : (voters (answers ⟨9, 4, ∅⟩ 1 [.reply ⟨0, 1, 9, 0, "NO"⟩, .reply ⟨0, 1, 9, 0, "OK"⟩,
      .invoke "A"])).card = 1 := by decide
    have hTwo : (1 : Nat) + 1 ≤ _ := hDecided.trans (Finset.card_filter_le _ _)
    omega
  refine ⟨l, hDone, (hl "OK").mpr ⟨hOpen, by decide⟩, fun hNo => ?_⟩
  exact absurd ((hl "NO").mp hNo).2 (by decide)

end Client
end Pbft
