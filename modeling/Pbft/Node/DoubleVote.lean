import Pbft.Node.Pledge

/-! # Votes for one sequence number

The digest that a replica has voted for is kept in the log entry. Garbage collection erases the
entries up to the watermark, but the window test of on_preprepare_impl still admits the number of
the watermark itself. Apart from that, and from a primary that numbers a request onto an entry it
has accepted from a connection of its own, a replica votes for one digest per sequence number.
-/
namespace Pbft
set_option autoImplicit false

variable {σ : Type} {cfg : Config σ}

namespace Node

/-- The low watermark is that of a checkpoint that has become stable. -/
def lowStable (s : Node σ) : Bool := (s.checkpoints.getD s.h {}).stable

theorem lowStable_of_vote {s t : Node σ} {k : UInt64} {digest : Digest} {r : UInt32} (hLow : t.h = s.h)
    (h : t.checkpoints = s.checkpoints.insert k ((s.checkpoints.getD k {}).addVote digest r)) :
    t.lowStable = s.lowStable := by
  unfold lowStable
  rw [h, hLow, TreeMap.getD_insert]
  split
  · rename_i hk
    rw [← hk]
    rfl
  · rfl

theorem lowStable_stabilize (m : CheckpointMsg) (cp : CheckpointVotes) (s : Node σ) :
    (s.stabilize cfg m cp).lowStable = true := by
  unfold lowStable
  exact congrArg CheckpointVotes.stable (TreeMap.getD_of_lookup (lookup_stabilize m cp s))

theorem lowStable_step {s₀ s s' : Node σ} {i : Input} (hStep : Step cfg s₀ i s s') :
    (s'.lowStable = s.lowStable ∧ s'.h = s.h) ∨
      s'.lowStable = true ∧ ∃ m conn, i = .recv (.checkpoint m) conn ∧ s'.h = m.seqNum := by
  cases hStep with
  | execute =>
    left
    rw [executeEntry_eq]
    refine ⟨?_, rfl⟩
    by_cases hDue : s.checkpointDue cfg
    · exact lowStable_of_vote rfl (if_pos hDue)
    · simp [lowStable, hDue]
  | voteCheckpoint => exact .inl ⟨lowStable_of_vote rfl rfl, rfl⟩
  | stabilize hi => exact .inr ⟨lowStable_stabilize _ _ _, _, _, hi, rfl⟩
  | beginViewChange =>
    rw [beginViewChange_eq]
    exact .inl ⟨rfl, rfl⟩
  | _ => exact .inl ⟨rfl, rfl⟩

/-- A pre-prepare for the number of a stable checkpoint says what the replica has said about that
number before, and a request is not numbered onto the pre-prepare of another one. -/
structure Sticks (cfg : Config σ) (s₀ : Node σ) (i : Input) : Prop where
  accepted : ∀ m ∈ prePrepares i, Accepts cfg s₀ i m → m.seqNum = s₀.h → s₀.lowStable = true →
    ∀ a ∈ s₀.sent, ∀ x ∈ a.pledge?, x.1 = m.seqNum → m.reqDigest = x.2
  proposed : ∀ m ∈ request? i, Proposes cfg s₀ m → (s₀.entry (s₀.seqNum + 1)).hasPreprepare = true →
    (s₀.entry (s₀.seqNum + 1)).digest = cfg.getHash m

instance (m : PrePrepareMsg) (a : Msg) : Decidable (∀ x ∈ a.pledge?, x.1 = m.seqNum → m.reqDigest = x.2) :=
  Option.decidableForallMem a.pledge?

instance (s₀ : Node σ) (i : Input) : Decidable (Sticks cfg s₀ i) :=
  decidable_of_iff (_ ∧ _) ⟨fun h => ⟨h.1, h.2⟩, fun h => ⟨h.accepted, h.proposed⟩⟩

/-- What the log knows during a call: in particular what the call itself has pledged, unless the
call collects garbage. -/
def Knows (s₀ : Node σ) (i : Input) (s : Node σ) (m : Msg) (k : UInt64) : Prop :=
  s.h < k ∨ s.lowStable = false ∨ (m ∉ s₀.sent ∧ ∃ pp conn, Carries i pp conn)

structure OnceInv (s₀ : Node σ) (i : Input) (s : Node σ) : Prop where
  pledge : PledgeOn (fun _ => True) (Knows s₀ i s) s
  stable : (∃ pp conn, Carries i pp conn) → s.lowStable = s₀.lowStable

theorem not_carries_checkpoint {m : CheckpointMsg} {conn : Conn} {i : Input}
    (hi : i = .recv (.checkpoint m) conn) : ¬∃ pp conn, Carries i pp conn := by
  rintro ⟨pp, conn', h | ⟨nv, h, -⟩⟩
  · cases hi.symm.trans h
  · cases hi.symm.trans h

theorem carries_of_accepts {s₀ : Node σ} {i : Input} {m : PrePrepareMsg} (h : Accepts cfg s₀ i m) :
    ∃ pp conn, Carries i pp conn := by
  have hMem := h.1
  unfold prePrepares at hMem
  split at hMem
  · exact ⟨_, _, .inl rfl⟩
  · exact ⟨_, _, .inr ⟨_, rfl, hMem⟩⟩
  · cases hMem

theorem onceInv_step {s₀ s s' : Node σ} {i : Input} (hSticks : Sticks cfg s₀ i) (hWindow : WindowInv cfg s)
    (hLog : LogInv cfg s) (w : OnceInv s₀ i s) (hStep : Step cfg s₀ i s s') : OnceInv s₀ i s' := by
  have hStable := lowStable_step hStep
  have hLow := (watermarks_step hWindow hStep).1
  refine ⟨pledgeOn_step hLog w.pledge ?_ ?_ ?_ ?_ (fun _ _ => .inl) hStep, fun hCarries => ?_⟩
  · rintro a - k (hAbove | hIdle | hNew)
    · exact .inl (UInt64.lt_of_le_of_lt hLow hAbove)
    · rcases hStable with hSame | hNow
      · exact .inr (.inl (hSame.1 ▸ hIdle))
      · rw [hNow.1] at hIdle
        cases hIdle
    · exact .inr (.inr hNew)
  · rintro m conn cp hi rfl a - k (hAbove | hIdle | hNew)
    · exact hAbove
    · rw [lowStable_stabilize] at hIdle
      cases hIdle
    · exact absurd hNew.2 (not_carries_checkpoint hi)
  · intro m hAccepts hSame hIn _ _ a ha digest hPledge
    have hCarries := carries_of_accepts hAccepts
    rcases UInt64.le_iff_lt_or_eq.mp (inWindow_iff.mp hIn).1 with hAbove | hEq
    · exact .inl (.inl hAbove)
    · cases hFlag : s.lowStable with
      | false => exact .inl (.inr (.inl hFlag))
      | true =>
        -- the entry may have been erased, so only what was said before the call matters
        by_cases hOld : a ∈ s₀.sent
        · have hAt : m.seqNum = s₀.h := hEq.symm.trans hSame
          have hStableBefore := (w.stable hCarries).symm.trans hFlag
          exact .inr (hSticks.accepted m hAccepts.1 hAccepts hAt hStableBefore a hOld _ hPledge rfl)
        · exact .inl (.inr (.inr ⟨hOld, hCarries⟩))
  · intro hCall m hm hProposes hPre
    subst hCall
    exact hSticks.proposed m hm hProposes hPre
  · rcases hStable with hSame | ⟨-, m, conn, hi, -⟩
    · exact hSame.1.trans (w.stable hCarries)
    · exact absurd hCarries (not_carries_checkpoint hi)

/-- Between calls: the log remembers what is above the watermark, and everything while no
checkpoint has become stable. -/
abbrev VotedOnce (s : Node σ) : Prop :=
  PledgeOn (fun _ => True) (fun _ k => s.h < k ∨ s.lowStable = false) s

theorem votedOnce_handle {s s' : Node σ} {i : Input} (hSticks : Sticks cfg s i) (hWindow : WindowInv cfg s)
    (hLog : LogInv cfg s) (w : VotedOnce s) (hCall : s.handle cfg i = some s') : VotedOnce s' := by
  have hStart : OnceInv s i s := by
    refine ⟨⟨w.agree, fun m hm k digest hPledge hP hKnows => ?_, w.unique⟩, fun _ => rfl⟩
    rcases hKnows with hAbove | hIdle | hNew
    · exact w.live m hm k digest hPledge hP (.inl hAbove)
    · exact w.live m hm k digest hPledge hP (.inr hIdle)
    · exact absurd hm hNew.1
  have hEnd : (WindowInv cfg s' ∧ LogInv cfg s') ∧ OnceInv s i s' :=
    handle_invariant (I := fun t => (WindowInv cfg t ∧ LogInv cfg t) ∧ OnceInv s i t)
      (fun t t' h hStep => ⟨⟨windowInv_step h.1.1 hStep, logInv_step h.1.1 h.1.2 hStep⟩,
        onceInv_step hSticks h.1.1 h.1.2 h.2 hStep⟩) ⟨⟨hWindow, hLog⟩, hStart⟩ hCall
  have hOnce := hEnd.2.pledge
  refine ⟨hOnce.agree, fun m hm k digest hPledge hP hKnown => ?_, hOnce.unique⟩
  refine hOnce.live m hm k digest hPledge hP ?_
  rcases hKnown with hAbove | hIdle
  · exact .inl hAbove
  · exact .inr (.inl hIdle)

/-- A replica votes for one digest per view and sequence number, over a whole run in which
everything that the log has forgotten stays as it was. -/
theorem no_double_vote {t : Bool} {s : Node σ} (hs : Reach cfg t (Sticks cfg) s) :
    (∀ p p' : PrepareMsg, .prepare p ∈ s.sent → .prepare p' ∈ s.sent → p.view = p'.view →
      p.seqNum = p'.seqNum → p.reqDigest = p'.reqDigest) ∧
    ∀ c c' : CommitMsg, .commit c ∈ s.sent → .commit c' ∈ s.sent → c.view = c'.view →
      c.seqNum = c'.seqNum → c.reqDigest = c'.reqDigest := by
  have hOnce : VotedOnce s := by
    refine Machine.Reach.invariant (I := VotedOnce) (pledgeOn_init cfg t)
      (fun s i s' hs w hSticks hCall => ?_) hs
    obtain ⟨hWindow, hLog⟩ := logInv_reach hs
    exact votedOnce_handle hSticks hWindow hLog w hCall
  constructor
  · intro p p' hp hp' _ hSeq
    exact hOnce.unique _ hp _ hp' p.seqNum _ _ rfl (by rw [Msg.pledge?, hSeq]) trivial
  · intro c c' hc hc' _ hSeq
    exact hOnce.unique _ hc _ hc' c.seqNum _ _ rfl (by rw [Msg.pledge?, hSeq]) trivial

/-- A backup of view 0 that accepts the pre-prepare for 1 with each of two digests, one before and
one after the checkpoint at 1 becomes stable. -/
def aroundCheckpoint (digest digest' : Digest) : List Input :=
  [.recv (.handshake ⟨0⟩) 0, .recv (.prePrepare ⟨0, 1, digest, ⟨"A", 1, 9⟩⟩) 0,
    .recv (.prepare ⟨0, 1, digest, 2⟩) 2] ++
  [0, 2, 3].map (fun r => .recv (.checkpoint ⟨1, 5, r⟩) r.toNat) ++
  [.recv (.prePrepare ⟨0, 1, digest', ⟨"B", 1, 9⟩⟩) 0, .recv (.prepare ⟨0, 1, digest', 2⟩) 2]

theorem no_double_vote_repeated : ∃ s, Reach { Config.sample 4 200 100 with id := 1 } false
    (Sticks { Config.sample 4 200 100 with id := 1 }) s ∧ s.h = 1 ∧ s.lowStable = true ∧
    .prepare ⟨0, 1, 7, 1⟩ ∈ s.sent ∧ .commit ⟨0, 1, 7, 1⟩ ∈ s.sent ∧
    (∀ p : PrepareMsg, .prepare p ∈ s.sent → 0 = p.view → 1 = p.seqNum → 7 = p.reqDigest) ∧
    ∀ c : CommitMsg, .commit c ∈ s.sent → 0 = c.view → 1 = c.seqNum → 7 = c.reqDigest := by
  let cfg := { Config.sample 4 200 100 with id := 1 }
  obtain ⟨s, hs, hLow, hStable, hPrepare, hCommit⟩ := Machine.exists_reach (machine cfg false) (Sticks cfg)
    (aroundCheckpoint 7 7) (fun s => s.h = 1 ∧ s.lowStable = true ∧ .prepare ⟨0, 1, 7, 1⟩ ∈ s.sent ∧
      .commit ⟨0, 1, 7, 1⟩ ∈ s.sent) (by decide +kernel)
  have hOnce := no_double_vote hs
  exact ⟨s, hs, hLow, hStable, hPrepare, hCommit, fun p hp => hOnce.1 _ p hPrepare hp,
    fun c hc => hOnce.2 _ c hCommit hc⟩

theorem double_vote : ∃ s, Reach { Config.sample 4 200 100 with id := 1 } false Anything s ∧
    (∃ p p' : PrepareMsg, .prepare p ∈ s.sent ∧ .prepare p' ∈ s.sent ∧ p.view = p'.view ∧
      p.seqNum = p'.seqNum ∧ p.reqDigest ≠ p'.reqDigest) ∧
    ∃ c c' : CommitMsg, .commit c ∈ s.sent ∧ .commit c' ∈ s.sent ∧ c.view = c'.view ∧
      c.seqNum = c'.seqNum ∧ c.reqDigest ≠ c'.reqDigest := by
  obtain ⟨s, hs, hp, hp', hc, hc'⟩ := Machine.exists_reach
    (machine { Config.sample 4 200 100 with id := 1 } false) Anything (aroundCheckpoint 7 9)
    (fun s => .prepare ⟨0, 1, 7, 1⟩ ∈ s.sent ∧ .prepare ⟨0, 1, 9, 1⟩ ∈ s.sent ∧
      .commit ⟨0, 1, 7, 1⟩ ∈ s.sent ∧ .commit ⟨0, 1, 9, 1⟩ ∈ s.sent) (by decide +kernel)
  exact ⟨s, hs, ⟨_, _, hp, hp', rfl, rfl, by decide⟩, _, _, hc, hc', rfl, rfl, by decide⟩

end Node
end Pbft
