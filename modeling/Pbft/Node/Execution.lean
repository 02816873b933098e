import Pbft.Node.LogEntry

/-! # What a replica tells others about its executions

The state of the service, each result, each broadcast checkpoint and each reply, whether fresh
or resent from the cache, are functions of the executed history.
-/
namespace Pbft
set_option autoImplicit false

variable {σ : Type} {cfg : Config σ}

def stateAfter (cfg : Config σ) (xs : List Execution) : σ :=
  xs.foldl (fun st x => (cfg.service.execute st x.entry.req.operation).1) cfg.service.initial

theorem stateAfter_eq_foldl (cfg : Config σ) (xs : List Execution) : stateAfter cfg xs =
    (xs.map (·.entry.req.operation)).foldl (fun st op => (cfg.service.execute st op).1)
      cfg.service.initial := by
  rw [stateAfter, List.foldl_map]

namespace Node

def operations (s : Node σ) : List String := s.executed.map (·.entry.req.operation)

/-- What a broadcast checkpoint says about the replica that broadcast it. -/
structure Attests (cfg : Config σ) (s : Node σ) (m : CheckpointMsg) : Prop where
  multiple : cfg.K.toNat ∣ m.seqNum.toNat
  pos : 0 < m.seqNum
  reached : m.seqNum ≤ s.lastExec
  digest : m.stateDigest = cfg.service.getCheckpointDigest
    (stateAfter cfg (s.executed.take m.seqNum.toNat))

structure ServiceInv (cfg : Config σ) (s : Node σ) : Prop where
  service : s.service = stateAfter cfg s.executed
  results : ∀ (j : Nat) x, s.executed[j]? = some x →
    x.result = (cfg.service.execute (stateAfter cfg (s.executed.take j)) x.entry.req.operation).2
  checkpoints : ∀ m, Msg.checkpoint m ∈ s.sent → Attests cfg s m

theorem serviceInv_init (t : Bool) : ServiceInv cfg (Node.init cfg t) where
  service := rfl
  results j x hx := by simp [Node.init] at hx
  checkpoints m hm := by simp [Node.init] at hm

theorem LogInv.length {s : Node σ} (h : LogInv cfg s) : s.executed.length = s.lastExec.toNat := by
  simpa using congrArg List.length h.keys

theorem ServiceInv.congr {s t : Node σ} (w : ServiceInv cfg s) (hService : t.service = s.service)
    (hExecuted : t.executed = s.executed) (hLast : t.lastExec = s.lastExec)
    (hSent : ∀ m, Msg.checkpoint m ∈ t.sent → Msg.checkpoint m ∈ s.sent) : ServiceInv cfg t where
  service := by rw [hService, hExecuted, w.service]
  results := hExecuted ▸ w.results
  checkpoints m hm := by
    obtain ⟨hMultiple, hPos, hReached, hDigest⟩ := w.checkpoints m (hSent m hm)
    exact ⟨hMultiple, hPos, hLast ▸ hReached, hExecuted ▸ hDigest⟩

theorem Attests.extend {s t : Node σ} {m : CheckpointMsg} (h : Attests cfg s m) (hLog : LogInv cfg s)
    (hLast : s.lastExec ≤ t.lastExec) {xs : List Execution} (hExecuted : t.executed = s.executed ++ xs) :
    Attests cfg t m where
  multiple := h.multiple
  pos := h.pos
  reached := UInt64.le_trans h.reached hLast
  digest := by
    have hReached := UInt64.le_iff_toNat_le.mp h.reached
    rw [hExecuted, List.take_append_of_le_length (hLog.length ▸ hReached)]
    exact h.digest

theorem serviceInv_execute {s : Node σ} {e : ReqLogEntry} (hWindow : WindowInv cfg s)
    (hLog : LogInv cfg s) (w : ServiceInv cfg s) (hEntry : s.reqlog[s.lastExec + 1]? = some e) :
    ServiceInv cfg (s.executeEntry cfg e) := by
  have hSucc := hWindow.succ hEntry
  have hLength := hLog.length
  rw [executeEntry_eq]
  let x := Execution.mk (s.lastExec + 1) e (cfg.service.execute s.service e.req.operation).2
  have hService : (cfg.service.execute s.service e.req.operation).1 =
      stateAfter cfg (s.executed ++ [x]) := by
    rw [w.service, stateAfter, stateAfter, List.foldl_append]
    rfl
  have hLast : s.lastExec ≤ s.lastExec + 1 := by
    rw [UInt64.le_iff_toNat_le]
    omega
  refine ⟨hService, fun j y hy => ?_, fun m hm => ?_⟩
  · rcases getElem?_append_singleton hy with hy | ⟨rfl, rfl⟩
    · have hj := (List.getElem?_eq_some_iff.mp hy).1
      rw [List.take_append_of_le_length hj.le]
      exact w.results j y hy
    · rw [List.take_append_of_le_length (Nat.le_refl _), List.take_of_length_le (Nat.le_refl _), ← w.service]
  dsimp only at hm
  split at hm
  · rename_i hDue
    rcases List.mem_append.mp hm with hm | hm
    · exact (w.checkpoints m hm).extend hLog hLast rfl
    · cases List.mem_singleton.mp hm
      have hMod := congrArg UInt64.toNat hDue
      rw [UInt64.toNat_mod, UInt32.toNat_toUInt64] at hMod
      refine ⟨Nat.dvd_of_mod_eq_zero hMod, ?_, UInt64.le_refl _, ?_⟩
      · rw [UInt64.lt_iff_toNat_lt]
        exact hSucc ▸ Nat.succ_pos _
      · dsimp only
        rw [List.take_of_length_le (by simp [hLength, hSucc]), hService]
  · exact (w.checkpoints m hm).extend hLog hLast rfl

theorem serviceInv_step {s₀ s s' : Node σ} {i : Input} (hWindow : WindowInv cfg s)
    (hLog : LogInv cfg s) (w : ServiceInv cfg s) (hStep : Step cfg s₀ i s s') : ServiceInv cfg s' := by
  cases hStep with
  | propose | accept | markPrepared | installView =>
    exact w.congr rfl rfl rfl fun m hm => sent_of_append hm nofun
  | execute hEntry => exact serviceInv_execute hWindow hLog w hEntry
  | beginViewChange =>
    rw [beginViewChange_eq]
    exact w.congr rfl rfl rfl fun m hm => sent_of_append hm nofun
  | _ => exact w.congr rfl rfl rfl fun _ => id

theorem serviceInv_reach {t : Bool} {ok : Node σ → Input → Prop} {s : Node σ}
    (hs : Reach cfg t ok s) : LogInv cfg s ∧ ServiceInv cfg s :=
  (Reach.invariant (I := fun s => WindowInv cfg s ∧ LogInv cfg s ∧ ServiceInv cfg s)
    ⟨windowInv_init t, logInv_init t, serviceInv_init t⟩
    (fun _ _ _ _ _ _ h hStep => ⟨windowInv_step h.1 hStep, logInv_step h.1 h.2.1 hStep,
      serviceInv_step h.1 h.2.1 h.2.2 hStep⟩) hs).2

/-- Some execution of s answers the request of a client with a time stamp. -/
def Answered (s : Node σ) (clientId : UInt32) (timestamp : UInt64) (result : String) : Prop :=
  ∃ x ∈ s.executed, x.entry.req.clientId = clientId ∧ x.entry.req.timestamp = timestamp ∧
    x.result = result

structure ReplyInv (s : Node σ) : Prop where
  cached : ∀ c info, s.lastReplies[c]? = some info → s.Answered c info.timestamp info.result
  replies : ∀ m ∈ s.replies, s.Answered m.clientId m.timestamp m.result

theorem replyInv_init (cfg : Config σ) (t : Bool) : ReplyInv (Node.init cfg t) where
  cached c info h := by simp [Node.init] at h
  replies m hm := by simp [Node.init] at hm

theorem replyInv_execute {s : Node σ} (e : ReqLogEntry) (w : ReplyInv s) :
    ReplyInv (s.executeEntry cfg e) := by
  rw [executeEntry_eq]
  let r := cfg.service.execute s.service e.req.operation
  let x := Execution.mk (s.lastExec + 1) e r.2
  have hOld : ∀ {c ts res}, s.Answered c ts res → ∃ y ∈ s.executed ++ [x],
      y.entry.req.clientId = c ∧ y.entry.req.timestamp = ts ∧ y.result = res := by
    rintro c ts res ⟨y, hy, hRest⟩
    exact ⟨y, List.mem_append_left _ hy, hRest⟩
  have hNew : x ∈ s.executed ++ [x] := List.mem_append_right _ (List.mem_singleton.mpr rfl)
  constructor
  · intro c info h
    dsimp only at h
    rw [TreeMap.lookup_insert] at h
    split at h
    · rename_i hc
      cases h
      exact ⟨x, hNew, hc, rfl, rfl⟩
    · exact hOld (w.cached c info h)
  · intro m hm
    rcases List.mem_append.mp hm with hm | hm
    · exact hOld (w.replies m hm)
    · cases List.mem_singleton.mp hm
      exact ⟨x, hNew, rfl, rfl, rfl⟩

theorem replyInv_step {s₀ s s' : Node σ} {i : Input} (w : ReplyInv s) (hStep : Step cfg s₀ i s s') :
    ReplyInv s' := by
  cases hStep with
  | @resend _ m _ info _ hInfo hTime =>
    refine ⟨w.cached, fun a ha => ?_⟩
    rcases List.mem_append.mp ha with ha | ha
    · exact w.replies a ha
    · cases List.mem_singleton.mp ha
      exact hTime ▸ w.cached m.clientId info hInfo
  | execute => exact replyInv_execute _ w
  | beginViewChange =>
    rw [beginViewChange_eq]
    exact ⟨w.cached, w.replies⟩
  | _ => exact ⟨w.cached, w.replies⟩

theorem replyInv_reach {t : Bool} {ok : Node σ → Input → Prop} {s : Node σ}
    (hs : Reach cfg t ok s) : ReplyInv s :=
  Reach.invariant (replyInv_init cfg t) (fun _ _ _ _ _ _ => replyInv_step) hs

end Node
end Pbft
