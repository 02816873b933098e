import Pbft.Node.LogEntry

/-! # Requests under one sequence number each

Duplicates are looked for in two places, the last reply of each client and the log, and only by
the primary that numbers a request. Neither place keeps all that has been executed. Where a
request is never logged under a second number, except for the null requests N of a NEW-VIEW, it is
executed under one number only.
-/
namespace Pbft
set_option autoImplicit false

variable {σ : Type} {cfg : Config σ} {N : UInt64 → RequestMsg → Prop}

/-- The identity of a request as on_request looks for it. -/
def SameRequest (a b : RequestMsg) : Prop := a.clientId = b.clientId ∧ a.timestamp = b.timestamp

instance (a b : RequestMsg) : Decidable (SameRequest a b) := inferInstanceAs (Decidable (_ ∧ _))

theorem SameRequest.symm {a b : RequestMsg} (h : SameRequest a b) : SameRequest b a :=
  ⟨h.1.symm, h.2.symm⟩

namespace Node

/-- The replica has executed or logged the request under another number. -/
def Repeats (s : Node σ) (k : UInt64) (req : RequestMsg) : Prop :=
  (∃ x ∈ s.executed, SameRequest x.entry.req req ∧ x.key ≠ k) ∨
    ∃ p ∈ s.reqlog.toList, p.2.hasPreprepare = true ∧ SameRequest p.2.req req ∧ p.1 ≠ k

instance (s : Node σ) (k : UInt64) (req : RequestMsg) : Decidable (Repeats s k req) :=
  inferInstanceAs (Decidable (_ ∨ _))

def direct? : Input → Option PrePrepareMsg
  | .recv (.prePrepare m) _ => some m
  | _ => none

structure NoRepeat (cfg : Config σ) (s₀ : Node σ) (i : Input) : Prop where
  accepted : ∀ m ∈ direct? i, Accepts cfg s₀ i m → ¬Repeats s₀ m.seqNum m.req
  proposed : ∀ m ∈ request? i, Proposes cfg s₀ m → ¬Repeats s₀ (s₀.seqNum + 1) m

instance (s₀ : Node σ) (i : Input) : Decidable (NoRepeat cfg s₀ i) :=
  decidable_of_iff ((∀ m ∈ direct? i, Accepts cfg s₀ i m → ¬Repeats s₀ m.seqNum m.req) ∧
      ∀ m ∈ request? i, Proposes cfg s₀ m → ¬Repeats s₀ (s₀.seqNum + 1) m)
    ⟨fun h => ⟨h.1, h.2⟩, fun h => ⟨h.accepted, h.proposed⟩⟩

/-- What stands under a number, in the log or in the history. -/
inductive Holds (s : Node σ) : UInt64 → RequestMsg → Prop
  | logged {k : UInt64} (hPre : (s.entry k).hasPreprepare = true) : Holds s k (s.entry k).req
  | executed {x : Execution} (hx : x ∈ s.executed) : Holds s x.key x.entry.req

theorem not_repeats_iff {s : Node σ} {k : UInt64} {req : RequestMsg} :
    ¬Repeats s k req ↔ ∀ k' req', Holds s k' req' → SameRequest req' req → k' = k := by
  constructor
  · intro h k' req' hHolds hSame
    by_contra hNe
    cases hHolds with
    | logged hPre =>
      obtain ⟨e, he⟩ := TreeMap.mem_iff_exists.mp (mem_of_hasPreprepare hPre)
      have hEntry := entry_of_lookup he
      refine h (.inr ⟨(k', e), Std.ExtTreeMap.mem_toList_iff_getElem?_eq_some.mpr he, ?_, ?_, hNe⟩)
      · rwa [hEntry] at hPre
      · rwa [hEntry] at hSame
    | executed hx => exact h (.inl ⟨_, hx, hSame, hNe⟩)
  · rintro h (⟨x, hx, hSame, hNe⟩ | ⟨⟨k', e⟩, hp, hPre, hSame, hNe⟩)
    · exact hNe (h _ _ (.executed hx) hSame)
    · have hEntry := entry_of_lookup (Std.ExtTreeMap.mem_toList_iff_getElem?_eq_some.mp hp)
      dsimp only at hPre hSame hNe
      rw [← hEntry] at hPre hSame
      exact hNe (h _ _ (.logged hPre) hSame)

/-- Two numbers never stand for the same request, null requests apart. -/
def Single (N : UInt64 → RequestMsg → Prop) (s : Node σ) : Prop :=
  ∀ k req k' req', Holds s k req → Holds s k' req' → SameRequest req req' → k = k' ∨ N k req ∨ N k' req'

theorem Single.mono {s t : Node σ} (w : Single N s) (h : ∀ k req, Holds t k req → Holds s k req) :
    Single N t :=
  fun _ _ _ _ hk hk' => w _ _ _ _ (h _ _ hk) (h _ _ hk')

/-- A new holding is harmless if it is a null request, or the same request stands nowhere else. -/
theorem Single.add {s t : Node σ} {k : UInt64} {req : RequestMsg} (w : Single N s)
    (hHolds : ∀ a q, Holds t a q → Holds s a q ∨ a = k ∧ q = req)
    (hNew : N k req ∨ ∀ a q, Holds s a q → SameRequest q req → a = k) : Single N t := by
  have hAgainst : ∀ a q, Holds s a q → SameRequest q req → a = k ∨ N a q ∨ N k req := by
    intro a q ha hSame
    rcases hNew with hNull | hElse
    · exact .inr (.inr hNull)
    · exact .inl (hElse a q ha hSame)
  intro a q a' q' ha ha' hSame
  rcases hHolds a q ha with ha | ⟨rfl, rfl⟩ <;> rcases hHolds a' q' ha' with ha' | ⟨rfl, rfl⟩
  · exact w a q a' q' ha ha' hSame
  · exact hAgainst a q ha hSame
  · rcases hAgainst a' q' ha' hSame.symm with hEq | hNull | hNull
    · exact .inl hEq.symm
    · exact .inr (.inr hNull)
    · exact .inr (.inl hNull)
  · exact .inl rfl

theorem holds_of_write {s t : Node σ} {k a : UInt64} {e : ReqLogEntry} {q : RequestMsg} (h : Holds t a q)
    (hLog : t.reqlog = s.reqlog.insert k e) (hExecuted : t.executed = s.executed) :
    Holds s a q ∨ a = k ∧ q = e.req ∧ e.hasPreprepare = true := by
  cases h with
  | logged hPre =>
    rw [entry_of_insert hLog] at hPre ⊢
    split at hPre
    · rename_i hka
      rw [if_pos hka]
      exact .inr ⟨hka.symm, rfl, hPre⟩
    · rename_i hka
      rw [if_neg hka]
      exact .inl (.logged hPre)
  | executed hx => exact .inl (.executed (hExecuted ▸ hx))

theorem holds_of_vote {s t : Node σ} {k a : UInt64} {e : ReqLogEntry} {q : RequestMsg} (h : Holds t a q)
    (hLog : t.reqlog = s.reqlog.insert k e) (hExecuted : t.executed = s.executed)
    (hPre : e.hasPreprepare = (s.entry k).hasPreprepare) (hReq : e.req = (s.entry k).req) : Holds s a q := by
  rcases holds_of_write h hLog hExecuted with h | ⟨rfl, rfl, hNew⟩
  · exact h
  · rw [hReq]
    exact .logged (hPre ▸ hNew)

theorem holds_congr {s t : Node σ} {a : UInt64} {q : RequestMsg} (h : Holds t a q)
    (hLog : t.reqlog = s.reqlog) (hExecuted : t.executed = s.executed) : Holds s a q := by
  cases h with
  | logged hPre =>
    rw [entry_congr hLog] at hPre ⊢
    exact .logged hPre
  | executed hx => exact .executed (hExecuted ▸ hx)

/-- An execution only moves what stands in the log to the history. -/
theorem holds_execute {s : Node σ} {e : ReqLogEntry} (hLog : LogInv cfg s)
    (hEntry : s.reqlog[s.lastExec + 1]? = some e) (hStage : e.stage = .committed) {a : UInt64}
    {q : RequestMsg} (h : Holds (s.executeEntry cfg e) a q) : Holds s a q := by
  rw [executeEntry_eq] at h
  cases h with
  | logged hPre => exact .logged hPre
  | executed hx =>
    rcases List.mem_append.mp hx with hx | hx
    · exact .executed hx
    · cases List.mem_singleton.mp hx
      have hAt := entry_of_lookup hEntry
      have hPre := (hLog.entries (s.lastExec + 1)).hasPreprepare (by rw [hAt, hStage]; simp)
      exact hAt ▸ .logged hPre

theorem holds_stabilize {s : Node σ} {m : CheckpointMsg} {cp : CheckpointVotes} {a : UInt64}
    {q : RequestMsg} (h : Holds (s.stabilize cfg m cp) a q) : Holds s a q := by
  cases h with
  | logged hPre =>
    rw [entry_of_stabilize] at hPre ⊢
    split at hPre
    · cases hPre
    · rename_i hk
      rw [if_neg hk]
      exact .logged hPre
  | executed hx => exact .executed hx

/-- What stands under which number changes only where a pre-prepare is logged. -/
theorem holds_step {s₀ s s' : Node σ} {i : Input} (hLog : LogInv cfg s) (hStep : Step cfg s₀ i s s') :
    (∀ a q, Holds s' a q → Holds s a q) ∨
    (∃ m ∈ request? i, Proposes cfg s₀ m ∧ s = s₀ ∧ ∀ a q, Holds s' a q → Holds s a q ∨ a = s₀.seqNum + 1 ∧ q = m) ∨
    ∃ m conn, Carries i m conn ∧ Accepts cfg s₀ i m ∧
      ∀ a q, Holds s' a q → Holds s a q ∨ a = m.seqNum ∧ q = m.req := by
  cases hStep with
  | @propose m _ hi hProposes =>
    refine .inr (.inl ⟨m, by simp [hi, request?], hProposes, rfl, fun a q h => ?_⟩)
    rcases holds_of_write (s := s₀) h rfl rfl with h | ⟨rfl, rfl, -⟩
    · exact .inl h
    · exact .inr ⟨rfl, rfl⟩
  | @accept _ m conn hi _ _ _ _ hAccepts =>
    refine .inr (.inr ⟨m, conn, hi, hAccepts, fun a q h => ?_⟩)
    rcases holds_of_write (s := s) h rfl rfl with h | ⟨rfl, rfl, -⟩
    · exact .inl h
    · exact .inr ⟨rfl, rfl⟩
  | votePrepare | touch | voteCommit | markPrepared | markCommitted =>
    exact .inl fun a q h => holds_of_vote h rfl rfl rfl rfl
  | execute hEntry hStage => exact .inl fun a q => holds_execute hLog hEntry hStage
  | stabilize => exact .inl fun a q => holds_stabilize
  | beginViewChange =>
    rw [beginViewChange_eq]
    exact .inl fun a q h => holds_congr h rfl rfl
  | _ => exact .inl fun a q h => holds_congr h rfl rfl

def NullIn (N : UInt64 → RequestMsg → Prop) (i : Input) : Prop :=
  ∀ nv conn, i = .recv (.newView nv) conn → ∀ pp ∈ nv.prePrepares, N pp.seqNum pp.req

/-- During a call that brings a pre-prepare, its request stands under no number but its own. -/
structure SingleInv (N : UInt64 → RequestMsg → Prop) (cfg : Config σ) (s₀ : Node σ) (i : Input)
    (s : Node σ) : Prop where
  single : Single N s
  fresh : ∀ m ∈ direct? i, Accepts cfg s₀ i m → ∀ k req, Holds s k req → SameRequest req m.req →
    k = m.seqNum

theorem singleInv_step {s₀ s s' : Node σ} {i : Input} (hNull : NullIn N i) (hNo : NoRepeat cfg s₀ i)
    (hLog : LogInv cfg s) (w : SingleInv N cfg s₀ i s) (hStep : Step cfg s₀ i s s') :
    SingleInv N cfg s₀ i s' := by
  rcases holds_step hLog hStep with hMono | ⟨m, hm, hProposes, rfl, hHolds⟩ | ⟨m, conn, hi, hAccepts, hHolds⟩
  · exact ⟨w.single.mono hMono, fun m hm hAccepts k req h => w.fresh m hm hAccepts k req (hMono k req h)⟩
  · refine ⟨w.single.add hHolds (.inr (not_repeats_iff.mp (hNo.proposed m hm hProposes))), ?_⟩
    -- a request is not a pre-prepare
    intro pp hpp
    unfold request? at hm
    split at hm
    · cases hpp
    · cases hm
  · rcases hi with rfl | ⟨nv, rfl, hpp⟩
    · refine ⟨w.single.add hHolds (.inr (w.fresh m rfl hAccepts)), fun m' hm' _ k req h hSame => ?_⟩
      cases hm'
      rcases hHolds k req h with h | ⟨rfl, -⟩
      · exact w.fresh m rfl hAccepts k req h hSame
      · rfl
    · exact ⟨w.single.add hHolds (.inl (hNull nv conn rfl m hpp)), fun m' hm' => nomatch hm'⟩

theorem single_handle {s s' : Node σ} {i : Input} (hNull : NullIn N i) (hNo : NoRepeat cfg s i)
    (hWindow : WindowInv cfg s) (hLog : LogInv cfg s) (w : Single N s) (hCall : s.handle cfg i = some s') :
    Single N s' := by
  have hStart : SingleInv N cfg s i s :=
    ⟨w, fun m hm hAccepts => not_repeats_iff.mp (hNo.accepted m hm hAccepts)⟩
  have hEnd : (WindowInv cfg s' ∧ LogInv cfg s') ∧ SingleInv N cfg s i s' :=
    handle_invariant (I := fun t => (WindowInv cfg t ∧ LogInv cfg t) ∧ SingleInv N cfg s i t)
      (fun t t' h hStep => ⟨⟨windowInv_step h.1.1 hStep, logInv_step h.1.1 h.1.2 hStep⟩,
        singleInv_step hNull hNo h.1.2 h.2 hStep⟩) ⟨⟨hWindow, hLog⟩, hStart⟩ hCall
  exact hEnd.2.single

theorem single_reach {t : Bool} {s : Node σ} (hs : Reach cfg t (fun s i => NullIn N i ∧ NoRepeat cfg s i) s) :
    Single N s := by
  refine Machine.Reach.invariant (I := Single N) ?_ (fun s i s' hs w hOk hCall => ?_) hs
  · intro k req k' req' h
    cases h with
    | logged hPre => simp [machine, Node.init, entry] at hPre
    | executed hx => simp [machine, Node.init] at hx
  · obtain ⟨hWindow, hLog⟩ := logInv_reach hs
    exact single_handle hOk.1 hOk.2 hWindow hLog w hCall

end Node
end Pbft
