import Pbft.Node.Changing
import Pbft.Node.Execution

/-! # Null requests and the reply cache

The pre-prepare that fills a gap carries a request of client 0 with time stamp 0, and the execution loop
takes it for one: its result goes into the cache as the last reply to client 0, which may be a real one.
-/
namespace Pbft
set_option autoImplicit false

variable {σ : Type} {cfg : Config σ}

/-- The request of the pre-prepares that on_viewchange creates. -/
def nullReq : RequestMsg := ⟨"", 0, 0⟩

/-- The pre-prepare is for a number that no report has a proof for. -/
def FillsGap (cfg : Config σ) (m : PrePrepareMsg) : Prop :=
  ∃ nextView V, (selectProof V m.seqNum).found = false ∧ m = reissue cfg nextView V m.seqNum

theorem FillsGap.req {m : PrePrepareMsg} (h : FillsGap cfg m) : m.req = nullReq := by
  obtain ⟨nextView, V, hNone, hm⟩ := h
  have hReq := congrArg PrePrepareMsg.req hm
  rw [reissue, hNone] at hReq
  exact hReq

namespace Node

/-- A null request moves last_exec_ on, and it leaves the cache alone exactly if the cache has that very
reply for client 0 already. -/
theorem executeEntry_null {e : ReqLogEntry} (hReq : e.req = nullReq) (s : Node σ) :
    (s.executeEntry cfg e).lastExec = s.lastExec + 1 ∧
    ((s.executeEntry cfg e).lastReplies = s.lastReplies ↔
      s.lastReplies[(0 : UInt32)]? = some ⟨0, cfg.id, (cfg.service.execute s.service "").2⟩) := by
  rw [executeEntry_eq, hReq]
  refine ⟨rfl, ?_⟩
  constructor
  · intro hSame
    rw [← hSame]
    exact Std.ExtTreeMap.getElem?_insert_self
  · intro hCached
    exact TreeMap.insert_of_lookup hCached

def ofClient (xs : List Execution) (c : UInt32) : List Execution :=
  xs.filter fun x => x.entry.req.clientId == c

/-- The reply to the last execution of a client. -/
def replyAfter (cfg : Config σ) (xs : List Execution) (c : UInt32) : Option ClientReplyInfo :=
  (ofClient xs c).getLast?.map fun x => ⟨x.entry.req.timestamp, cfg.id, x.result⟩

theorem replyAfter_snoc (xs : List Execution) (x : Execution) (c : UInt32) :
    replyAfter cfg (xs ++ [x]) c = if x.entry.req.clientId = c then
      some ⟨x.entry.req.timestamp, cfg.id, x.result⟩ else replyAfter cfg xs c := by
  unfold replyAfter ofClient
  rw [List.filter_append]
  by_cases hc : x.entry.req.clientId = c
  · simp [hc]
  · simp [hc]

structure CacheInv (cfg : Config σ) (s : Node σ) : Prop where
  cached : ∀ c, s.lastReplies[c]? = replyAfter cfg s.executed c

theorem cacheInv_step {s₀ s s' : Node σ} {i : Input} (w : CacheInv cfg s) (hStep : Step cfg s₀ i s s') :
    CacheInv cfg s' := by
  cases hStep with
  | execute =>
    rw [executeEntry_eq]
    refine ⟨fun c => ?_⟩
    dsimp only
    rw [replyAfter_snoc, TreeMap.lookup_insert, w.cached]
  | beginViewChange =>
    rw [beginViewChange_eq]
    exact ⟨w.cached⟩
  | _ => exact ⟨w.cached⟩

theorem cacheInv_init (t : Bool) : CacheInv cfg (Node.init cfg t) :=
  ⟨fun c => by simp [Node.init, replyAfter, ofClient]⟩

theorem executed_step {s₀ s s' : Node σ} {i : Input} {x : Execution} (hx : x ∈ s.executed)
    (hStep : Step cfg s₀ i s s') : x ∈ s'.executed := by
  cases hStep with
  | execute =>
    rw [executeEntry_eq]
    exact List.mem_append_left _ hx
  | beginViewChange =>
    rw [beginViewChange_eq]
    exact hx
  | _ => exact hx

/-- The real requests of each client are executed in the order of their time stamps. -/
def InOrder (xs : List Execution) : Prop :=
  xs.Pairwise fun x y => x.entry.req.clientId = y.entry.req.clientId → x.entry.req ≠ nullReq →
    y.entry.req ≠ nullReq → x.entry.req.timestamp < y.entry.req.timestamp

/-- Each null request finds its own reply in the cache when it is executed. -/
def NullCached (cfg : Config σ) (xs : List Execution) : Prop :=
  ∀ l x r, xs = l ++ x :: r → x.entry.req = nullReq → replyAfter cfg l 0 = some ⟨0, cfg.id, x.result⟩

def Ascending (xs : List Execution) : Prop :=
  xs.Pairwise fun x y => x.entry.req.timestamp ≤ y.entry.req.timestamp

theorem Ascending.le_last {xs : List Execution} {y : Execution} (h : Ascending xs) (hLast : xs.getLast? = some y) :
    ∀ x ∈ xs, x.entry.req.timestamp ≤ y.entry.req.timestamp := by
  obtain ⟨l, rfl⟩ := List.getLast?_eq_some_iff.mp hLast
  intro x hx
  rcases List.mem_append.mp hx with hOld | hNew
  · exact (List.pairwise_append.mp h).2.2 x hOld y (List.mem_singleton.mpr rfl)
  · rw [List.mem_singleton.mp hNew]
    exact UInt64.le_refl _

theorem ascending_ofClient {xs : List Execution} (hOrder : InOrder xs) (hNull : NullCached cfg xs) (c : UInt32) :
    Ascending (ofClient xs c) := by
  induction xs using List.reverseRecOn with
  | nil => exact .nil
  | append_singleton xs x ih =>
    obtain ⟨hBefore, -, hNew⟩ := List.pairwise_append.mp hOrder
    have hAscending := ih hBefore fun l y r hEq => hNull l y (r ++ [x]) (by rw [hEq]; simp)
    rw [ofClient, List.filter_append]
    refine List.pairwise_append.mpr ⟨hAscending, ?_, fun a ha b hb => ?_⟩
    · exact (List.pairwise_singleton _ _).filter _
    · obtain ⟨hbx, hbc⟩ := List.mem_filter.mp hb
      obtain ⟨hax, hac⟩ := List.mem_filter.mp ha
      rw [beq_iff_eq] at hac hbc
      rw [List.mem_singleton.mp hbx] at hbc ⊢
      by_cases hxNull : x.entry.req = nullReq
      · -- the last reply to client 0 has time stamp 0, so all earlier ones have
        rw [hxNull] at hbc ⊢
        subst hbc
        obtain ⟨y, hLast, hInfo⟩ := Option.map_eq_some_iff.mp (hNull xs x [] rfl hxNull)
        have hZero : y.entry.req.timestamp = 0 := congrArg ClientReplyInfo.timestamp hInfo
        have hLe := hAscending.le_last hLast a ha
        rwa [hZero] at hLe
      · by_cases haNull : a.entry.req = nullReq
        · rw [haNull]
          exact UInt64.zero_le
        · exact UInt64.le_of_lt (hNew a hax x (List.mem_singleton.mpr rfl) (hac.trans hbc.symm) haNull hxNull)

/-- What was in the cache of a client has been replaced, if at all, by a later execution. -/
theorem stamp_le_of_subset {s u : Node σ} (w : CacheInv cfg s) (w' : CacheInv cfg u)
    (hGrown : ∀ x ∈ u.executed, x ∈ s.executed) {c : UInt32} (h : Ascending (ofClient s.executed c))
    {info : ClientReplyInfo} (hInfo : u.lastReplies[c]? = some info) :
    ∃ info', s.lastReplies[c]? = some info' ∧ info.timestamp ≤ info'.timestamp := by
  rw [w'.cached] at hInfo
  obtain ⟨x, hLast, rfl⟩ := Option.map_eq_some_iff.mp hInfo
  have hx : x ∈ ofClient s.executed c := by
    obtain ⟨hx, hc⟩ := List.mem_filter.mp (List.mem_of_getLast? hLast)
    exact List.mem_filter.mpr ⟨hGrown x hx, hc⟩
  obtain ⟨y, hy⟩ := Option.isSome_iff_exists.mp (List.getLast?_isSome.mpr (List.ne_nil_of_mem hx))
  refine ⟨⟨y.entry.req.timestamp, cfg.id, y.result⟩, ?_, h.le_last hy x hx⟩
  rw [w.cached, replyAfter, hy]
  rfl

theorem cacheInv_trace {t : Bool} {s : Node σ} {trace : List (Node σ × Input)}
    (hs : Machine.Reach (machine cfg t).record (fun x => Anything x.1) (s, trace)) :
    CacheInv cfg s ∧ ∀ c ∈ trace, CacheInv cfg c.1 ∧ ∀ x ∈ c.1.executed, x ∈ s.executed := by
  refine Machine.Reach.record_invariant (M := machine cfg t) (I := fun s trace => CacheInv cfg s ∧
    ∀ c ∈ trace, CacheInv cfg c.1 ∧ ∀ x ∈ c.1.executed, x ∈ s.executed) ⟨cacheInv_init t, List.forall_mem_nil _⟩ ?_ hs
  rintro s trace i s' ⟨w, hTrace⟩ - hCall
  have hGrown : ∀ x ∈ s.executed, x ∈ s'.executed := fun x hx =>
    handle_invariant (I := fun t => x ∈ t.executed) (fun _ _ => executed_step) hx hCall
  refine ⟨handle_invariant (fun _ _ => cacheInv_step) w hCall, fun c hc => ?_⟩
  rcases List.mem_append.mp hc with hOld | hNew
  · exact ⟨(hTrace c hOld).1, fun x hx => hGrown x ((hTrace c hOld).2 x hx)⟩
  · rw [List.mem_singleton.mp hNew]
    exact ⟨w, hGrown⟩

/-- Executing the entry of a null pre-prepare moves last_exec_ on, and it leaves the cache alone exactly
if client 0 has that very reply there already. In a run in which this is so, and in which the real
requests of each client are executed in the order of their time stamps, no time stamp in the cache ever
decreases. -/
theorem null_request_iff {t : Bool} {s : Node σ} {trace : List (Node σ × Input)}
    (hs : Machine.Reach (machine cfg t).record (fun x => Anything x.1) (s, trace)) :
    (∀ m, FillsGap cfg m → ∀ e : ReqLogEntry, e.req = m.req → ∀ u : Node σ,
      (u.executeEntry cfg e).lastExec = u.lastExec + 1 ∧
      ((u.executeEntry cfg e).lastReplies = u.lastReplies ↔
        u.lastReplies[(0 : UInt32)]? = some ⟨0, cfg.id, (cfg.service.execute u.service "").2⟩)) ∧
    (InOrder s.executed → NullCached cfg s.executed → ∀ u i, (u, i) ∈ trace →
      ∀ (c : UInt32) (info : ClientReplyInfo), u.lastReplies[c]? = some info →
        ∃ info', s.lastReplies[c]? = some info' ∧ info.timestamp ≤ info'.timestamp) := by
  obtain ⟨w, hTrace⟩ := cacheInv_trace hs
  constructor
  · intro m hm e hReq u
    exact executeEntry_null (hReq.trans hm.req) u
  · intro hOrder hNull u i hCall c info hInfo
    obtain ⟨w', hGrown⟩ := hTrace (u, i) hCall
    exact stamp_le_of_subset w w' hGrown (ascending_ofClient hOrder hNull c) hInfo

/-- The reports from which the primary of view 1 fills the gap at number 2. -/
def gapReports : List ViewChangeMsg := [⟨1, 0, 0, [], []⟩, ⟨1, 0, 1, [], [⟨0, 3, 9⟩]⟩, ⟨1, 0, 3, [], []⟩]

def filler (cfg : Config σ) : PrePrepareMsg := reissue cfg 1 gapReports 2

theorem fillsGap_filler : FillsGap cfg (filler cfg) := ⟨1, gapReports, rfl, rfl⟩

/-- Replica 2 executes a request at number 1, waits for another one, changes to view 1, and executes the
null request at number 2. -/
def throughGap (cfg : Config σ) (req : RequestMsg) : List Input :=
  [.recv (.handshake ⟨0⟩) 0, .recv (.handshake ⟨1⟩) 1, .recv (.prePrepare ⟨0, 1, 7, req⟩) 0,
    .recv (.prepare ⟨0, 1, 7, 3⟩) 3, .recv (.commit ⟨0, 1, 7, 1⟩) 1, .recv (.commit ⟨0, 1, 7, 3⟩) 3,
    .recv (.request ⟨"DEC", 6, 0⟩) 9, .timeout,
    .recv (.newView ⟨1, gapReports, [1, 2, 3].map (reissue cfg 1 gapReports)⟩) 1,
    .recv (.prepare ⟨1, 2, cfg.emptyHash, 3⟩) 3, .recv (.commit ⟨1, 2, cfg.emptyHash, 0⟩) 0,
    .recv (.commit ⟨1, 2, cfg.emptyHash, 3⟩) 3]

/-- The reply that the null request puts into the cache is the one that is there. -/
theorem null_request_iff_zero : ∃ x : Node (List String) × List (Node (List String) × Input),
    Machine.Reach (machine { Config.sample 4 200 100 with id := 2 } false).record (fun x => Anything x.1) x ∧
    (∃ m, FillsGap { Config.sample 4 200 100 with id := 2 } m ∧
      x.1.executed.map (·.entry.req) = [⟨"INC", 0, 0⟩, m.req]) ∧
    ∃ c ∈ x.2, ∃ info info', c.1.lastExec = 1 ∧ c.1.lastReplies[(0 : UInt32)]? = some info ∧
      x.1.lastReplies[(0 : UInt32)]? = some info' ∧ info.timestamp ≤ info'.timestamp := by
  let cfg := { Config.sample 4 200 100 with id := 2 }
  obtain ⟨x, hx, hExecuted, c, hc, hLast, hInfo⟩ := Machine.exists_reach (machine cfg false).record
    (fun x => Anything x.1) (throughGap cfg ⟨"INC", 0, 0⟩)
    (fun x => x.1.executed.map (fun y => (y.entry.req, y.result)) = [(⟨"INC", 0, 0⟩, "OK"), (nullReq, "OK")] ∧
      ∃ c ∈ x.2, c.1.lastExec = 1 ∧ c.1.lastReplies[(0 : UInt32)]? = some ⟨0, 2, "OK"⟩) (by decide +kernel)
  obtain ⟨a, as, hAll, ha, hRest⟩ := List.map_eq_cons_iff.mp hExecuted
  obtain ⟨b, bs, rfl, hb, hNil⟩ := List.map_eq_cons_iff.mp hRest
  rw [List.map_eq_nil_iff.mp hNil] at hAll
  obtain ⟨haReq, haResult⟩ := Prod.mk.inj ha
  obtain ⟨hbReq, hbResult⟩ := Prod.mk.inj hb
  have hOrder : InOrder x.1.executed := by
    rw [hAll]
    exact List.pairwise_pair.mpr fun _ _ hReal => absurd hbReq hReal
  have hNull : NullCached cfg x.1.executed := by
    intro l y r hEq hyNull
    rw [hAll] at hEq
    rcases l with _ | ⟨a', _ | ⟨b', l⟩⟩
    · cases hEq
      rw [haReq] at hyNull
      exact absurd hyNull (by decide)
    · cases hEq
      have hReply : replyAfter cfg ([] ++ [a]) 0 = _ := replyAfter_snoc [] a 0
      rw [haReq, if_pos rfl, haResult] at hReply
      rw [hbResult]
      exact hReply
    · simp at hEq
  obtain ⟨info', hInfo', hLe⟩ := (null_request_iff hx).2 hOrder hNull c.1 c.2 hc 0 _ hInfo
  refine ⟨x, hx, ⟨filler cfg, fillsGap_filler, ?_⟩, c, hc, _, info', hLast, hInfo, hInfo', hLe⟩
  rw [hAll, List.map_cons, List.map_cons, haReq, hbReq]
  rfl

/-- The last reply to client 0 was that to its request with time stamp 5. The null request puts time stamp 0
in its place. -/
theorem null_request_overwrites : ∃ x : Node (List String) × List (Node (List String) × Input),
    Machine.Reach (machine { Config.sample 4 200 100 with id := 2 } false).record (fun x => Fires x.1) x ∧
    (∃ m, FillsGap { Config.sample 4 200 100 with id := 2 } m ∧
      x.1.executed.map (·.entry.req) = [⟨"INC", 5, 0⟩, m.req]) ∧
    (∃ c ∈ x.2, c.1.lastExec = 1 ∧ c.1.lastReplies[(0 : UInt32)]? = some ⟨5, 2, "OK"⟩) ∧
    x.1.lastExec = 2 ∧ x.1.lastReplies[(0 : UInt32)]? = some ⟨0, 2, "OK"⟩ := by
  let cfg := { Config.sample 4 200 100 with id := 2 }
  obtain ⟨x, hx, hExecuted, hRest⟩ := Machine.exists_reach (machine cfg false).record (fun x => Fires x.1)
    (throughGap cfg ⟨"INC", 5, 0⟩)
    (fun x => x.1.executed.map (·.entry.req) = [⟨"INC", 5, 0⟩, (filler cfg).req] ∧
      (∃ c ∈ x.2, c.1.lastExec = 1 ∧ c.1.lastReplies[(0 : UInt32)]? = some ⟨5, 2, "OK"⟩) ∧
      x.1.lastExec = 2 ∧ x.1.lastReplies[(0 : UInt32)]? = some ⟨0, 2, "OK"⟩) (by decide +kernel)
  exact ⟨x, hx, ⟨filler cfg, fillsGap_filler, hExecuted⟩, hRest⟩

end Node
end Pbft
