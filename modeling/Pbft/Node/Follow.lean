import Pbft.Node.Execution
import Pbft.Node.Sequence

/-! # A replica that follows a list of requests

Without faults and timers a replica does what a list says: its log and its messages stay within
the list and it has executed a prefix. The list is what the first primary has proposed so far,
so the relation has to survive its growth, and the primary's own counter has to keep up with it.
-/
namespace Pbft
set_option autoImplicit false

variable {σ : Type}

/-- The abstract state: proposals carry the numbers 1, 2, 3 and so on. -/
def Numbered (P : List PrePrepareMsg) : Prop :=
  ∀ (j : Nat) pp, P[j]? = some pp → pp.seqNum.toNat = j + 1

theorem Numbered.index {P : List PrePrepareMsg} (h : Numbered P) {pp : PrePrepareMsg} (hpp : pp ∈ P) :
    P[pp.seqNum.toNat - 1]? = some pp ∧ 1 ≤ pp.seqNum.toNat ∧ pp.seqNum.toNat ≤ P.length := by
  obtain ⟨j, hj⟩ := List.mem_iff_getElem?.mp hpp
  have hNum := h j pp hj
  have hlt := (List.getElem?_eq_some_iff.mp hj).1
  rw [hNum]
  exact ⟨hj, by omega, by omega⟩

/-- A message that talks about nothing beyond the proposals P, and not about views at all. -/
def Msg.Within (P : List PrePrepareMsg) : Msg → Prop
  | .prePrepare m => m ∈ P
  | .prepare m => m.seqNum.toNat ≤ P.length
  | .commit m => m.seqNum.toNat ≤ P.length
  | .checkpoint m => m.seqNum.toNat ≤ P.length
  | .viewChange _ => False
  | .newView _ => False
  | _ => True

theorem Msg.Within.mono {P P' : List PrePrepareMsg} (h : P <+: P') {m : Msg} (hm : m.Within P) :
    m.Within P' := by
  have hLength := h.length_le
  cases m with
  | prePrepare m => exact h.subset hm
  | prepare m => exact Nat.le_trans hm hLength
  | commit m => exact Nat.le_trans hm hLength
  | checkpoint m => exact Nat.le_trans hm hLength
  | handshake m => trivial
  | request m => trivial
  | viewChange m => exact hm
  | newView m => exact hm

/-- A replica follows P: its log, its watermark and its messages stay within P, and it has
executed a prefix of P. -/
structure Node.Follows (P : List PrePrepareMsg) (s : Node σ) : Prop where
  view : s.view = 0
  keys : ∀ k ∈ s.reqlog, k.toNat ≤ P.length
  entries : ∀ k, (s.entry k).hasPreprepare = true → ∃ pp ∈ P, pp.seqNum = k ∧ pp.req = (s.entry k).req
  low : s.h.toNat ≤ P.length
  last : s.lastExec.toNat ≤ P.length
  sent : ∀ m ∈ s.sent, m.Within P
  executed : ∀ (j : Nat) x, s.executed[j]? = some x → ∃ pp, P[j]? = some pp ∧ pp.req = x.entry.req

namespace Node
variable {cfg : Config σ} {P P' : List PrePrepareMsg}

theorem Follows.mono {s : Node σ} (h : P <+: P') (w : Follows P s) : Follows P' s where
  view := w.view
  keys k hk := (w.keys k hk).trans h.length_le
  entries k hk := by
    obtain ⟨pp, hpp, hRest⟩ := w.entries k hk
    exact ⟨pp, h.subset hpp, hRest⟩
  low := w.low.trans h.length_le
  last := w.last.trans h.length_le
  sent m hm := (w.sent m hm).mono h
  executed j x hx := by
    obtain ⟨pp, hpp, hReq⟩ := w.executed j x hx
    obtain ⟨rest, rfl⟩ := h
    have hlt := (List.getElem?_eq_some_iff.mp hpp).1
    exact ⟨pp, by rwa [List.getElem?_append_left hlt], hReq⟩

theorem follows_init (cfg : Config σ) (t : Bool) : Follows [] (Node.init cfg t) where
  view := rfl
  keys k hk := by simp [Node.init] at hk
  entries k hk := by simp [Node.init, entry] at hk
  low := Nat.le_refl _
  last := Nat.le_refl _
  sent m hm := by simp [Node.init] at hm
  executed j x hx := by simp [Node.init] at hx

theorem Follows.write {s t : Node σ} {k : UInt64} {e : ReqLogEntry} (w : Follows P s)
    (hLog : t.reqlog = s.reqlog.insert k e) (hView : t.view = s.view) (hLow : t.h = s.h)
    (hLast : t.lastExec = s.lastExec) (hExecuted : t.executed = s.executed)
    (hSent : ∀ m ∈ t.sent, m ∈ s.sent ∨ m.Within P) (hKey : k.toNat ≤ P.length)
    (hEntry : e.hasPreprepare = true → ∃ pp ∈ P, pp.seqNum = k ∧ pp.req = e.req) : Follows P t where
  view := hView.trans w.view
  keys a ha := by
    rw [hLog, Std.ExtTreeMap.mem_insert] at ha
    rcases ha with hka | ha
    · exact Std.LawfulEqCmp.eq_of_compare hka ▸ hKey
    · exact w.keys a ha
  entries a := by
    rw [entry_of_insert hLog]
    split
    · rename_i hka
      exact hka ▸ hEntry
    · exact w.entries a
  low := hLow ▸ w.low
  last := hLast ▸ w.last
  sent m hm := (hSent m hm).elim (w.sent m) id
  executed := hExecuted ▸ w.executed

theorem follows_execute {s : Node σ} {e : ReqLogEntry} (hNum : Numbered P) (hWindow : WindowInv cfg s)
    (hLog : LogInv cfg s) (w : Follows P s) (hEntry : s.reqlog[s.lastExec + 1]? = some e)
    (hStage : e.stage = .committed) : Follows P (s.executeEntry cfg e) := by
  have hAt := entry_of_lookup hEntry
  have hSucc := hWindow.succ hEntry
  have hPre := (hAt ▸ hLog.entries (s.lastExec + 1)).hasPreprepare (by simp [hStage])
  obtain ⟨pp, hpp, hSeq, hReq⟩ := w.entries (s.lastExec + 1) (hAt ▸ hPre)
  rw [hAt] at hReq
  have hIndex := hNum.index hpp
  rw [hSeq, hSucc, Nat.add_sub_cancel] at hIndex
  have hLast : (s.lastExec + 1).toNat ≤ P.length := hSucc ▸ hIndex.2.2
  rw [executeEntry_eq]
  refine ⟨w.view, w.keys, w.entries, w.low, hLast, fun m hm => ?_, fun j x hx => ?_⟩
  · have hNew : ∀ digest, (Msg.checkpoint ⟨s.lastExec + 1, digest, cfg.id⟩).Within P := fun _ => hLast
    exact (sent_or_of_due (hNew _) m hm).elim (w.sent m) id
  · rcases getElem?_append_singleton hx with hx | ⟨rfl, rfl⟩
    · exact w.executed j x hx
    · rw [hLog.length]
      exact ⟨pp, hIndex.1, hReq⟩

structure Ordinary (P : List PrePrepareMsg) (i : Input) : Prop where
  noTimeout : i ≠ .timeout
  within : ∀ m conn, i = .recv m conn → m.Within P

theorem Ordinary.not_offers {s₀ : Node σ} {i : Input} {m : ViewChangeMsg} (h : Ordinary P i) :
    ¬Offers cfg s₀ i m := by
  rintro (⟨conn, hi⟩ | ⟨hi, -⟩)
  · exact h.within _ _ hi
  · exact h.noTimeout hi

theorem follows_step {s₀ s s' : Node σ} {i : Input} (hNum : Numbered P) (hIn : Ordinary P i)
    (hWindow : WindowInv cfg s) (hLog : LogInv cfg s) (w : Follows P s)
    (hStep : Step cfg s₀ i s s') :
    Follows P s' ∨ ∃ m, Proposes cfg s₀ m ∧ s = s₀ ∧ s' = s₀.propose cfg m := by
  cases hStep with
  | propose _ hProposes => exact .inr ⟨_, hProposes, rfl, rfl⟩
  | @accept _ m conn hi =>
    have hMem : m ∈ P := by
      rcases hi with hi | ⟨nv, hi, -⟩
      · exact hIn.within _ _ hi
      · exact (hIn.within _ _ hi).elim
    have hBound := (hNum.index hMem).2.2
    exact .inl (w.write rfl rfl rfl rfl rfl (sent_or_of_append hBound) hBound fun _ => ⟨m, hMem, rfl, rfl⟩)
  | votePrepare hi =>
    exact .inl (w.write rfl rfl rfl rfl rfl (fun _ => .inl) (hIn.within _ _ hi) (w.entries _))
  | touch hi | voteCommit hi =>
    exact .inl (w.write rfl rfl rfl rfl rfl (fun _ => .inl) (hIn.within _ _ hi) (w.entries _))
  | @markPrepared _ k hStage hPre =>
    have hKey := w.keys k (mem_of_stage (by simp [hStage]))
    have hSeq : (s.entry k).seq.toNat ≤ P.length := by rwa [(hLog.entries k).seq hPre]
    exact .inl (w.write rfl rfl rfl rfl rfl (sent_or_of_append hSeq) hKey (w.entries k))
  | @markCommitted _ k hStage =>
    have hKey := w.keys k (mem_of_stage (by simp [hStage]))
    exact .inl (w.write rfl rfl rfl rfl rfl (fun _ => .inl) hKey (w.entries k))
  | execute hEntry hStage => exact .inl (follows_execute hNum hWindow hLog w hEntry hStage)
  | stabilize hi =>
    refine .inl ⟨w.view, fun k hk => w.keys k (Std.ExtTreeMap.mem_of_mem_filter hk), fun k => ?_,
      hIn.within _ _ hi, w.last, w.sent, w.executed⟩
    rw [entry_of_stabilize]
    split
    · intro h
      cases h
    · exact w.entries k
  | beginViewChange hi => exact absurd hi hIn.noTimeout
  | storeViewChange hi | installView hi => exact absurd hi hIn.not_offers
  | enterView hi | recompute hi => exact (hIn.within _ _ hi).elim
  | handshake | timer | resend | forward | voteCheckpoint =>
    exact .inl ⟨w.view, w.keys, w.entries, w.low, w.last, w.sent, w.executed⟩

/-- The primary's counter is the length of its list, and it never loses count: the last proposal
stays in its log until a checkpoint covers it. -/
structure Leads (s : Node σ) : Prop where
  numbered : Numbered s.proposals
  count : s.seqNum.toNat = s.proposals.length
  top : s.h < s.seqNum → s.seqNum ∈ s.reqlog

theorem leads_init (cfg : Config σ) (t : Bool) : Leads (Node.init cfg t) where
  numbered j pp h := by simp [Node.init, proposals] at h
  count := rfl
  top h := absurd h (UInt64.lt_irrefl 0)

theorem Leads.congr {s t : Node σ} (w : Leads s) (hSent : t.proposals = s.proposals)
    (hSeq : t.seqNum = s.seqNum) (hLow : t.h = s.h)
    (hKeys : s.seqNum ∈ s.reqlog → s.seqNum ∈ t.reqlog) : Leads t where
  numbered := hSent ▸ w.numbered
  count := by rw [hSent, hSeq, w.count]
  top := by
    rw [hLow, hSeq]
    exact fun h => hKeys (w.top h)

theorem mem_insert_of_mem {log : ReqLog} {k a : UInt64} {e : ReqLogEntry} (h : a ∈ log) :
    a ∈ log.insert k e :=
  Std.ExtTreeMap.mem_insert.mpr (.inr h)

theorem leads_stabilize {s : Node σ} {m : CheckpointMsg} {cp : CheckpointVotes} (w : Leads s)
    (f : Follows s.proposals s) (hLow : s.h ≤ m.seqNum)
    (hBound : m.seqNum.toNat ≤ s.proposals.length) : Leads (s.stabilize cfg m cp) := by
  let t := s.raised cfg m cp
  have hLe : t.recomputeHighestSequence.toNat ≤ s.proposals.length :=
    recomputeHighestSequence_le f.last hBound f.keys
  have hGe : s.seqNum ≤ t.recomputeHighestSequence := by
    by_cases hTop : s.h < s.seqNum
    · exact le_recomputeHighestSequence (s := t) (w.top hTop)
    · have hAbove : t.h ≤ t.recomputeHighestSequence := low_le_recomputeHighestSequence t
      rw [UInt64.not_lt] at hTop
      exact UInt64.le_trans hTop (UInt64.le_trans hLow hAbove)
  have hSeq : t.recomputeHighestSequence = s.seqNum := by
    rw [UInt64.le_iff_toNat_le] at hGe
    have hCount := w.count
    exact UInt64.toNat_inj.mp (by omega)
  refine ⟨w.numbered, ?_, ?_⟩
  · exact (congrArg UInt64.toNat hSeq).trans w.count
  · intro hTop
    have hAbove : m.seqNum < s.seqNum := hSeq ▸ hTop
    obtain ⟨e, he⟩ := TreeMap.mem_iff_exists.mp (w.top (UInt64.lt_of_le_of_lt hLow hAbove))
    show t.recomputeHighestSequence ∈ t.reqlog.filter fun k _ => !decide (k ≤ m.seqNum)
    rw [hSeq]
    refine TreeMap.mem_iff_exists.mpr ⟨e, (TreeMap.lookup_filter _ _ _).mpr ⟨he, ?_⟩⟩
    simpa using hAbove

theorem leads_propose {s : Node σ} {m : RequestMsg} (w : Leads s) (f : Follows s.proposals s)
    (hProposes : Proposes cfg s m) :
    Leads (s.propose cfg m) ∧ s.proposals <+: (s.propose cfg m).proposals ∧
      Follows (s.propose cfg m).proposals (s.propose cfg m) := by
  have hSucc := Word.toNat_succ hProposes.high
  have hCount := w.count
  let pp : PrePrepareMsg := ⟨s.view, s.seqNum + 1, cfg.getHash m, m⟩
  have hGrow : (s.propose cfg m).proposals = s.proposals ++ [pp] := proposals_propose m s
  have hPrefix : s.proposals <+: s.proposals ++ [pp] := List.prefix_append _ _
  have hMem : pp ∈ s.proposals ++ [pp] := List.mem_append_right _ (List.mem_singleton.mpr rfl)
  rw [hGrow]
  refine ⟨⟨?_, ?_, fun _ => ?_⟩, hPrefix, ?_⟩
  · rw [hGrow]
    intro j a ha
    rcases getElem?_append_singleton ha with ha | ⟨rfl, rfl⟩
    · exact w.numbered j a ha
    · rw [← hCount]
      exact hSucc
  · rw [hGrow, List.length_append, List.length_singleton, ← hCount]
    exact hSucc
  · exact Std.ExtTreeMap.mem_insert_self
  · refine (f.mono hPrefix).write rfl rfl rfl rfl rfl (sent_or_of_append hMem) ?_ fun _ => ⟨pp, hMem, rfl, rfl⟩
    rw [List.length_append, List.length_singleton]
    omega

theorem leads_keep {s s' : Node σ} (f : Follows s.proposals s') (hSame : s'.proposals = s.proposals)
    (w : Leads s') : Leads s' ∧ s.proposals <+: s'.proposals ∧ Follows s'.proposals s' := by
  rw [hSame]
  exact ⟨w, List.prefix_rfl, f⟩

theorem leads_step {s₀ s s' : Node σ} {i : Input} (hIn : Ordinary s.proposals i)
    (hWindow : WindowInv cfg s) (hLog : LogInv cfg s) (w : Leads s) (f : Follows s.proposals s)
    (hStep : Step cfg s₀ i s s') :
    Leads s' ∧ s.proposals <+: s'.proposals ∧ Follows s'.proposals s' := by
  rcases follows_step w.numbered hIn hWindow hLog f hStep with f' | ⟨m, hProposes, rfl, rfl⟩
  · cases hStep with
    | propose _ hProposes => exact leads_propose w f hProposes
    | accept | markPrepared =>
      exact leads_keep f' (proposals_of_append rfl)
        (w.congr (proposals_of_append rfl) rfl rfl mem_insert_of_mem)
    | votePrepare | touch | voteCommit | markCommitted =>
      exact leads_keep f' rfl (w.congr rfl rfl rfl mem_insert_of_mem)
    | execute =>
      rw [executeEntry_eq] at f' ⊢
      have hSent : ∀ c, (if s.checkpointDue cfg then s.sent ++ [Msg.checkpoint c]
          else s.sent).filterMap Msg.prePrepare? = s.proposals := fun c => by
        split
        · exact proposals_of_append rfl
        · rfl
      exact leads_keep f' (hSent _) (w.congr (hSent _) rfl rfl id)
    | stabilize hi hLow => exact leads_keep f' rfl (leads_stabilize w f hLow (hIn.within _ _ hi))
    | beginViewChange hi => exact absurd hi hIn.noTimeout
    | storeViewChange hi | installView hi => exact absurd hi hIn.not_offers
    | enterView hi | recompute hi => exact (hIn.within _ _ hi).elim
    | handshake | timer | resend | forward | voteCheckpoint =>
      exact leads_keep f' rfl (w.congr rfl rfl rfl id)
  · exact leads_propose w f hProposes

end Node
end Pbft
