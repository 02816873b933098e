import Pbft.Node.Pledge

/-! # Digests stand for operations

Nothing in a handler compares a request with its digest. Where the environment only ever
brings pre-prepares whose operation is the one that belongs to the digest, the log keeps
operation and digest together, and so does the history of executions.
-/
namespace Pbft.Node
set_option autoImplicit false

variable {σ : Type} {cfg : Config σ} {β : UInt64 → Digest → String}

/-- What the code does not check: β gives the operation that belongs to a digest, and an entry
at the low watermark is not filled again once a checkpoint is stable. -/
structure Fits (β : UInt64 → Digest → String) (cfg : Config σ) (s₀ : Node σ) (i : Input) : Prop where
  accepted : ∀ m ∈ prePrepares i, Accepts cfg s₀ i m →
    m.req.operation = β m.seqNum m.reqDigest ∧ (s₀.h = 0 ∨ m.seqNum ≠ s₀.h)
  proposed : ∀ m ∈ request? i, Proposes cfg s₀ m → m.operation = β (s₀.seqNum + 1) (cfg.getHash m)

instance (s₀ : Node σ) (i : Input) : Decidable (Fits β cfg s₀ i) :=
  decidable_of_iff (_ ∧ _) ⟨fun h => ⟨h.1, h.2⟩, fun h => ⟨h.accepted, h.proposed⟩⟩

theorem Fits.unfilled {s₀ : Node σ} {i : Input} (h : Fits β cfg s₀ i) : Unfilled cfg s₀ i :=
  fun m hm hAccepts => (h.accepted m hm hAccepts).2

structure BodyInv (β : UInt64 → Digest → String) (s : Node σ) : Prop where
  body : ∀ k, (s.entry k).hasPreprepare = true → (s.entry k).req.operation = β k (s.entry k).digest
  executed : ∀ x ∈ s.executed, x.entry.req.operation = β x.key x.entry.digest

theorem bodyInv_init (cfg : Config σ) (t : Bool) : BodyInv β (Node.init cfg t) where
  body k hk := by simp [Node.init, entry] at hk
  executed x hx := by simp [Node.init] at hx

theorem BodyInv.write {s t : Node σ} {k : UInt64} {e : ReqLogEntry} (w : BodyInv β s)
    (hLog : t.reqlog = s.reqlog.insert k e) (hExecuted : t.executed = s.executed)
    (hBody : e.hasPreprepare = true → e.req.operation = β k e.digest) : BodyInv β t where
  body a := by
    rw [entry_of_insert hLog]
    split
    · rename_i hka
      exact hka ▸ hBody
    · exact w.body a
  executed := hExecuted ▸ w.executed

theorem bodyInv_execute {s : Node σ} {e : ReqLogEntry} (hReplica : ReplicaInv cfg s) (w : BodyInv β s)
    (hEntry : s.reqlog[s.lastExec + 1]? = some e) (hStage : e.stage = .committed) :
    BodyInv β (s.executeEntry cfg e) := by
  have hAt := entry_of_lookup hEntry
  have hPre := (hAt ▸ hReplica.log.entries (s.lastExec + 1)).hasPreprepare (by simp [hStage])
  have hBody := hAt ▸ w.body (s.lastExec + 1) (hAt ▸ hPre)
  rw [executeEntry_eq]
  refine ⟨w.body, fun x hx => ?_⟩
  rcases List.mem_append.mp hx with hOld | hNew
  · exact w.executed x hOld
  · rw [List.mem_singleton.mp hNew]
    exact hBody

theorem bodyInv_step {s₀ s s' : Node σ} {i : Input} (hFits : Fits β cfg s₀ i)
    (hReplica : ReplicaInv cfg s) (w : BodyInv β s) (hStep : Step cfg s₀ i s s') : BodyInv β s' := by
  cases hStep with
  | propose hi hProposes => exact w.write rfl rfl fun _ => hFits.proposed _ (by simp [hi, request?]) hProposes
  | accept _ _ _ _ _ hAccepts => exact w.write rfl rfl fun _ => (hFits.accepted _ hAccepts.1 hAccepts).1
  | votePrepare | touch | voteCommit | markPrepared | markCommitted => exact w.write rfl rfl (w.body _)
  | execute hEntry hStage => exact bodyInv_execute hReplica w hEntry hStage
  | stabilize =>
    refine ⟨fun k => ?_, w.executed⟩
    rw [entry_of_stabilize]
    split
    · intro h
      cases h
    · exact w.body k
  | beginViewChange =>
    rw [beginViewChange_eq]
    exact ⟨w.body, w.executed⟩
  | _ => exact ⟨w.body, w.executed⟩

end Pbft.Node
