import Pbft.Node.Digest

/-! # One digest per sequence number

Pre-prepares, prepares and commits pledge their sender to a digest. While the entry is above
the low watermark the log remembers the pledge. An entry at the watermark has been erased, but
the window test still lets it be filled again; unless that happens, a replica pledges itself to
one digest per sequence number over its whole life.
-/
namespace Pbft
set_option autoImplicit false

variable {σ : Type} {cfg : Config σ}

def Msg.pledge? : Msg → Option (UInt64 × Digest)
  | .prePrepare m => some (m.seqNum, m.reqDigest)
  | .prepare m => some (m.seqNum, m.reqDigest)
  | .commit m => some (m.seqNum, m.reqDigest)
  | _ => none

namespace Node

/-- An entry at the low watermark is not filled again once a checkpoint is stable. -/
def Unfilled (cfg : Config σ) (s₀ : Node σ) (i : Input) : Prop :=
  ∀ m ∈ prePrepares i, Accepts cfg s₀ i m → s₀.h = 0 ∨ m.seqNum ≠ s₀.h

instance (s₀ : Node σ) (i : Input) : Decidable (Unfilled cfg s₀ i) :=
  inferInstanceAs (Decidable (∀ _ ∈ _, _))

theorem Unfilled.lt {s₀ s : Node σ} {i : Input} {m : PrePrepareMsg} (h : Unfilled cfg s₀ i)
    (hAccepts : Accepts cfg s₀ i m) (hLow : s.h = s₀.h) (hWindow : s.inWindow m.seqNum)
    (hPos : m.seqNum ≠ 0) : s.h < m.seqNum := by
  have hIn := (inWindow_iff.mp hWindow).1
  rw [hLow] at hIn ⊢
  rcases UInt64.le_iff_lt_or_eq.mp hIn with hlt | hEq
  · exact hlt
  · rcases h _ hAccepts.1 hAccepts with hZero | hNe
    · exact absurd (hEq.symm.trans hZero) hPos
    · exact absurd hEq.symm hNe

theorem Proposes.lt_next {s : Node σ} {m : RequestMsg} (h : Proposes cfg s m) : s.h < s.seqNum + 1 := by
  have hLow := h.low
  rw [UInt64.le_iff_toNat_le] at hLow
  rw [UInt64.lt_iff_toNat_lt, Word.toNat_succ h.high]
  omega

structure PledgeInv (s : Node σ) : Prop where
  above : ∀ k, (s.entry k).hasPreprepare = true → k ≠ 0 → s.h < k
  live : ∀ m ∈ s.sent, ∀ k digest, m.pledge? = some (k, digest) → s.h < k →
    (s.entry k).hasPreprepare = true ∧ (s.entry k).digest = digest
  unique : ∀ m ∈ s.sent, ∀ m' ∈ s.sent, ∀ k digest digest', m.pledge? = some (k, digest) →
    m'.pledge? = some (k, digest') → k ≠ 0 → digest = digest'

/-- The log never contradicts a pledge for one of the numbers in P, and it remembers the pledges that
are known. Which ones are is left open, because the log forgets at different moments depending on
what the environment may do. -/
structure PledgeOn (P : UInt64 → Prop) (known : Msg → UInt64 → Prop) (s : Node σ) : Prop where
  agree : ∀ m ∈ s.sent, ∀ k digest, m.pledge? = some (k, digest) → P k →
    (s.entry k).hasPreprepare = true → (s.entry k).digest = digest
  live : ∀ m ∈ s.sent, ∀ k digest, m.pledge? = some (k, digest) → P k → known m k →
    (s.entry k).hasPreprepare = true
  unique : ∀ m ∈ s.sent, ∀ m' ∈ s.sent, ∀ k digest digest', m.pledge? = some (k, digest) →
    m'.pledge? = some (k, digest') → P k → digest = digest'

section
variable {P : UInt64 → Prop} {known known' : Msg → UInt64 → Prop} {s t : Node σ}

theorem pledgeOn_init (cfg : Config σ) (t : Bool) : PledgeOn P known (Node.init cfg t) where
  agree m hm := by simp [Node.init] at hm
  live m hm := by simp [Node.init] at hm
  unique m hm := by simp [Node.init] at hm

theorem PledgeOn.write {k : UInt64} {e : ReqLogEntry} (w : PledgeOn P known s)
    (hLog : t.reqlog = s.reqlog.insert k e) (hKnown : ∀ m ∈ s.sent, ∀ a, known' m a → known m a)
    (hKeep : (s.entry k).hasPreprepare = true → e.hasPreprepare = true)
    (hOld : e.hasPreprepare = true → ∀ m ∈ s.sent, ∀ digest, m.pledge? = some (k, digest) → P k →
      e.digest = digest)
    (hSent : ∀ m ∈ t.sent, m ∈ s.sent ∨ e.hasPreprepare = true ∧ m.pledge? = some (k, e.digest)) :
    PledgeOn P known' t := by
  constructor
  · intro m hm a digest hPledge hP
    rw [entry_of_insert hLog]
    split
    · rename_i hka
      subst hka
      intro hPre
      rcases hSent m hm with hm | ⟨-, hNew⟩
      · exact hOld hPre m hm digest hPledge hP
      · rw [hNew] at hPledge
        cases hPledge
        rfl
    · rename_i hka
      rcases hSent m hm with hm | ⟨-, hNew⟩
      · exact w.agree m hm a digest hPledge hP
      · rw [hNew] at hPledge
        cases hPledge
        exact absurd rfl hka
  · intro m hm a digest hPledge hP hLive
    rw [entry_of_insert hLog]
    rcases hSent m hm with hm | ⟨hPre, hNew⟩
    · have hBefore := w.live m hm a digest hPledge hP (hKnown m hm a hLive)
      split
      · rename_i hka
        exact hKeep (hka ▸ hBefore)
      · exact hBefore
    · rw [hNew] at hPledge
      cases hPledge
      rwa [if_pos rfl]
  · intro m hm m' hm' a digest digest' h h' hP
    rcases hSent m hm with hm | ⟨hPre, hNew⟩ <;> rcases hSent m' hm' with hm' | ⟨hPre', hNew'⟩
    · exact w.unique m hm m' hm' a digest digest' h h' hP
    · rw [hNew'] at h'
      cases h'
      exact (hOld hPre' m hm digest h hP).symm
    · rw [hNew] at h
      cases h
      exact hOld hPre m' hm' digest' h' hP
    · rw [hNew] at h
      rw [hNew'] at h'
      cases h
      cases h'
      rfl

theorem PledgeOn.congr (w : PledgeOn P known s) (hLog : t.reqlog = s.reqlog)
    (hKnown : ∀ m ∈ s.sent, ∀ a, known' m a → known m a)
    (hSent : ∀ m ∈ t.sent, m ∈ s.sent ∨ m.pledge? = none) : PledgeOn P known' t := by
  have hEntry := entry_congr hLog
  have hOld : ∀ m ∈ t.sent, ∀ a, m.pledge? = some a → m ∈ s.sent := by
    intro m hm a ha
    rcases hSent m hm with hm | hNone
    · exact hm
    · rw [hNone] at ha
      cases ha
  constructor
  · intro m hm k digest hPledge
    rw [hEntry]
    exact w.agree m (hOld m hm _ hPledge) k digest hPledge
  · intro m hm k digest hPledge hP hLive
    have hm' := hOld m hm _ hPledge
    rw [hEntry]
    exact w.live m hm' k digest hPledge hP (hKnown m hm' k hLive)
  · intro m hm m' hm' k digest digest' h h'
    exact w.unique m (hOld m hm _ h) m' (hOld m' hm' _ h') k digest digest' h h'

theorem pledgeOn_stabilize {m : CheckpointMsg} {cp : CheckpointVotes} (w : PledgeOn P known s)
    (hKnown : ∀ a ∈ s.sent, ∀ k, known' a k → known a k ∧ m.seqNum < k) :
    PledgeOn P known' (s.stabilize cfg m cp) where
  agree a ha k digest hPledge hP := by
    rw [entry_of_stabilize]
    split
    · intro hPre
      cases hPre
    · exact w.agree a ha k digest hPledge hP
  live a ha k digest hPledge hP hLive := by
    obtain ⟨hBefore, hAbove⟩ := hKnown a ha k hLive
    rw [entry_of_stabilize, if_neg (UInt64.not_le.mpr hAbove)]
    exact w.live a ha k digest hPledge hP hBefore
  unique := w.unique

/-- One change of a call. Two kinds of writes need a reason: a pre-prepare that goes into an entry
without one, and a request that the primary numbers. -/
theorem pledgeOn_step {s₀ s' : Node σ} {i : Input} (hLog : LogInv cfg s) (w : PledgeOn P known s)
    (hKnown : ∀ a ∈ s.sent, ∀ k, known' a k → known a k)
    (hErased : ∀ m conn cp, i = .recv (.checkpoint m) conn → s' = s.stabilize cfg m cp → ∀ a ∈ s.sent,
      ∀ k, known' a k → m.seqNum < k)
    (hAccept : ∀ m, Accepts cfg s₀ i m → s.h = s₀.h → s.inWindow m.seqNum →
      (s.entry m.seqNum).hasPreprepare = false → P m.seqNum → ∀ a ∈ s.sent, ∀ digest,
        a.pledge? = some (m.seqNum, digest) → known a m.seqNum ∨ m.reqDigest = digest)
    (hPropose : s = s₀ → ∀ m ∈ request? i, Proposes cfg s m →
      (s.entry (s.seqNum + 1)).hasPreprepare = true → (s.entry (s.seqNum + 1)).digest = cfg.getHash m)
    (hAbove : ∀ a k, s.h < k → known a k)
    (hStep : Step cfg s₀ i s s') : PledgeOn P known' s' := by
  -- a vote leaves what the entry says about its digest as it was
  have hVote : ∀ (k : UInt64) (e : ReqLogEntry), e.hasPreprepare = (s.entry k).hasPreprepare →
      e.digest = (s.entry k).digest → e.hasPreprepare = true → ∀ m ∈ s.sent, ∀ digest,
        m.pledge? = some (k, digest) → P k → e.digest = digest := by
    intro k e hPre hDigest h m hm digest hPledge hP
    rw [hDigest]
    exact w.agree m hm k digest hPledge hP (hPre ▸ h)
  cases hStep with
  | @propose m _ hi hProposes =>
    refine w.write rfl hKnown (fun _ => rfl) (fun _ a ha digest hPledge hP => ?_) (sent_or_of_append ⟨rfl, rfl⟩)
    cases hPre : (s.entry (s.seqNum + 1)).hasPreprepare with
    | true =>
      rw [← hPropose rfl m (by simp [hi, request?]) hProposes hPre]
      exact w.agree a ha _ digest hPledge hP hPre
    | false =>
      rw [w.live a ha _ digest hPledge hP (hAbove a _ hProposes.lt_next)] at hPre
      cases hPre
  | @accept _ m _ _ _ hCurrent hDigest hLow hAccepts =>
    refine w.write rfl hKnown (fun _ => rfl) (fun _ a ha digest hPledge hP => ?_) (sent_or_of_append ⟨rfl, rfl⟩)
    cases hPre : (s.entry m.seqNum).hasPreprepare with
    | true =>
      exact (hDigest hPre).symm.trans (w.agree a ha _ digest hPledge hP hPre)
    | false =>
      rcases hAccept m hAccepts hLow hCurrent.2.2 hPre hP a ha digest hPledge with hKnows | hSame
      · rw [w.live a ha _ digest hPledge hP hKnows] at hPre
        cases hPre
      · exact hSame
  | votePrepare | touch | voteCommit | markCommitted =>
    exact w.write rfl hKnown id (hVote _ _ rfl rfl) fun _ => .inl
  | @markPrepared _ k _ hPre =>
    have hSeq := (hLog.entries k).seq hPre
    refine w.write rfl hKnown id (hVote _ _ rfl rfl) (sent_or_of_append ⟨hPre, ?_⟩)
    rw [Msg.pledge?, hSeq]
  | execute =>
    rw [executeEntry_eq]
    exact w.congr rfl hKnown (sent_or_of_due rfl)
  | @stabilize _ m conn cp hi =>
    exact pledgeOn_stabilize w fun a ha k hk => ⟨hKnown a ha k hk, hErased m conn cp hi rfl a ha k hk⟩
  | beginViewChange =>
    rw [beginViewChange_eq]
    exact w.congr rfl hKnown (sent_or_of_append rfl)
  | installView => exact w.congr rfl hKnown (sent_or_of_append rfl)
  | _ => exact w.congr rfl hKnown fun _ => .inl

end

theorem pledgeInv_init (cfg : Config σ) (t : Bool) : PledgeInv (Node.init cfg t) where
  above k hk := by simp [Node.init, entry] at hk
  live m hm := by simp [Node.init] at hm
  unique m hm := by simp [Node.init] at hm

theorem above_step {s₀ s s' : Node σ} {i : Input} (hUnfilled : Unfilled cfg s₀ i)
    (w : ∀ k, (s.entry k).hasPreprepare = true → k ≠ 0 → s.h < k) (hStep : Step cfg s₀ i s s') :
    ∀ k, (s'.entry k).hasPreprepare = true → k ≠ 0 → s'.h < k := by
  have hWrite : ∀ (t : Node σ) (k : UInt64) (e : ReqLogEntry), t.reqlog = s.reqlog.insert k e →
      t.h = s.h → (e.hasPreprepare = true → k ≠ 0 → s.h < k) →
      ∀ a, (t.entry a).hasPreprepare = true → a ≠ 0 → t.h < a := by
    intro t k e hLog hLow hNew a
    rw [entry_of_insert hLog, hLow]
    split
    · rename_i hka
      exact hka ▸ hNew
    · exact w a
  cases hStep with
  | propose _ hProposes =>
    exact hWrite _ _ _ rfl rfl fun _ _ => hProposes.lt_next
  | accept _ _ hCurrent _ hLow hAccepts =>
    refine hWrite _ _ _ rfl rfl fun _ hPos => ?_
    exact Unfilled.lt hUnfilled hAccepts hLow hCurrent.2.2 hPos
  | votePrepare | touch | voteCommit | markCommitted | markPrepared => exact hWrite _ _ _ rfl rfl (w _)
  | execute =>
    rw [executeEntry_eq]
    exact w
  | stabilize =>
    intro k
    rw [entry_of_stabilize]
    split
    · intro h
      cases h
    · rename_i hk
      exact fun _ _ => UInt64.not_le.mp hk
  | beginViewChange =>
    rw [beginViewChange_eq]
    exact w
  | _ => exact w

theorem pledgeInv_step {s₀ s s' : Node σ} {i : Input} (hUnfilled : Unfilled cfg s₀ i)
    (hReplica : ReplicaInv cfg s) (w : PledgeInv s) (hStep : Step cfg s₀ i s s') : PledgeInv s' := by
  have hNow : PledgeOn (· ≠ 0) (fun _ k => s.h < k) s :=
    ⟨fun m hm k digest hPledge hPos hPre => (w.live m hm k digest hPledge (w.above k hPre hPos)).2,
      fun m hm k digest hPledge _ hLive => (w.live m hm k digest hPledge hLive).1, w.unique⟩
  have hNext : PledgeOn (· ≠ 0) (fun _ k => s'.h < k) s' := by
    refine pledgeOn_step hReplica.log hNow ?_ ?_ ?_ ?_ (fun _ _ => id) hStep
    · intro _ _ k hk
      exact UInt64.lt_of_le_of_lt (watermarks_step hReplica.window hStep).1 hk
    · rintro m _ cp - rfl _ _ k hk
      exact hk
    · intro m hAccepts hLow hWindow _ hPos _ _ _ _
      exact .inl (hUnfilled.lt hAccepts hLow hWindow hPos)
    · intro _ m _ hProposes hPre
      rw [propose_fresh hReplica.digest.top hProposes] at hPre
      cases hPre
  refine ⟨above_step hUnfilled w.above hStep, fun m hm k digest hPledge hLive => ?_, hNext.unique⟩
  have hPos : k ≠ 0 := by
    rintro rfl
    exact UInt64.not_lt_zero hLive
  have hPre := hNext.live m hm k digest hPledge hPos hLive
  exact ⟨hPre, hNext.agree m hm k digest hPledge hPos hPre⟩

end Node
end Pbft
