import Pbft.Node.Buffered
import Pbft.Node.Changing

/-! # Votes of other views

A pre-prepare of a later view finds the prepares and commits of the earlier one in its entry, and an
entry that no later primary takes up keeps its old view while the votes of the new view are added to
it. Both are harmless as long as every sender has voted in the view of the entry as well.
-/
namespace Pbft
set_option autoImplicit false

variable {σ : Type} {cfg : Config σ}

def Msg.view? : Msg → Option UInt32
  | .prepare m => some m.view
  | .commit m => some m.view
  | _ => none

namespace Node

/-- The message is a vote of r in view v. -/
def VotesIn (v : UInt32) (b : Ballot) (r : UInt32) (m : Msg) : Prop :=
  m.vote? = some (b, r) ∧ m.view? = some v

instance (v : UInt32) (b : Ballot) (r : UInt32) : DecidablePred (VotesIn v b r) :=
  fun _ => inferInstanceAs (Decidable (_ ∧ _))

/-- Those of ids that are this replica or have sent a vote of view v that was accepted. -/
def votersIn (cfg : Config σ) (trace : List (Node σ × Input)) (v : UInt32) (b : Ballot)
    (ids : Finset UInt32) : Finset UInt32 :=
  ids.filter fun r => r = cfg.id ∨ Received cfg trace (VotesIn v b r)

def AllIn (cfg : Config σ) (trace : List (Node σ × Input)) (v : UInt32) (b : Ballot)
    (ids : Finset UInt32) : Prop :=
  ∀ r ∈ ids, r ≠ cfg.id → Received cfg trace (VotesIn v b r)

instance (trace : List (Node σ × Input)) (v : UInt32) (b : Ballot) (ids : Finset UInt32) :
    Decidable (AllIn cfg trace v b ids) :=
  Finset.decidableDforallFinset

section
variable {trace : List (Node σ × Input)} {v : UInt32} {b : Ballot} {ids : Finset UInt32}

theorem AllIn.mono (h : AllIn cfg trace v b ids) (c : Node σ × Input) : AllIn cfg (trace ++ [c]) v b ids :=
  fun r hr hOther => (h r hr hOther).mono c

theorem AllIn.insert {r : UInt32} (h : AllIn cfg trace v b ids)
    (hr : r ≠ cfg.id → Received cfg trace (VotesIn v b r)) : AllIn cfg trace v b (insert r ids) := by
  intro p hp hOther
  rcases Finset.mem_insert.mp hp with rfl | hOld
  · exact hr hOther
  · exact h p hOld hOther

theorem AllIn.own (h : AllIn cfg trace v b ids) : AllIn cfg trace v b (Insert.insert cfg.id ids) :=
  h.insert fun hOther => absurd rfl hOther

theorem AllIn.votersIn (h : AllIn cfg trace v b ids) : votersIn cfg trace v b ids = ids := by
  refine Finset.filter_true_of_mem fun r hr => ?_
  by_cases hOwn : r = cfg.id
  · exact .inl hOwn
  · exact .inr (h r hr hOwn)

end

/-- All votes that k has so far are of view v. -/
def AllOf (cfg : Config σ) (trace : List (Node σ × Input)) (v : UInt32) (s : Node σ) (k : UInt64) : Prop :=
  AllIn cfg trace v (.prepare k) (s.entry k).prepares ∧ AllIn cfg trace v (.commit k) (s.entry k).commits

instance (trace : List (Node σ × Input)) (v : UInt32) (s : Node σ) (k : UInt64) :
    Decidable (AllOf cfg trace v s k) :=
  inferInstanceAs (Decidable (_ ∧ _))

theorem AllOf.mono {trace : List (Node σ × Input)} {v : UInt32} {s : Node σ} {k : UInt64}
    (h : AllOf cfg trace v s k) (c : Node σ × Input) : AllOf cfg (trace ++ [c]) v s k :=
  ⟨h.1.mono c, h.2.mono c⟩

/-- A vote that still matters is for an entry of its own view. -/
def OfItsView (cfg : Config σ) (s : Node σ) : Input → Prop
  | .recv (.prepare m) conn => Counts cfg s conn (.prepare m) → (s.entry m.seqNum).stage = .prePrepared →
      (s.entry m.seqNum).view = m.view
  | .recv (.commit m) conn => Counts cfg s conn (.commit m) →
      (s.entry m.seqNum).stage = .prePrepared ∨ (s.entry m.seqNum).stage = .prepared →
      (s.entry m.seqNum).view = m.view
  | _ => True

instance (s : Node σ) : (i : Input) → Decidable (OfItsView cfg s i)
  | .recv (.prepare _) _ | .recv (.commit _) _ => inferInstanceAs (Decidable (_ → _))
  | .recv (.handshake _) _ | .recv (.request _) _ | .recv (.prePrepare _) _ | .recv (.checkpoint _) _
  | .recv (.viewChange _) _ | .recv (.newView _) _ | .timeout => .isTrue trivial

structure Renewed (cfg : Config σ) (trace : List (Node σ × Input)) (s : Node σ) (i : Input) : Prop where
  accepted : ∀ m ∈ prePrepares i, Accepts cfg s i m → AllOf cfg trace m.view s m.seqNum
  proposed : ∀ m ∈ request? i, Proposes cfg s m → AllOf cfg trace s.view s (s.seqNum + 1)
  voted : OfItsView cfg s i

instance (trace : List (Node σ × Input)) (s : Node σ) (i : Input) : Decidable (Renewed cfg trace s i) :=
  have : Decidable (∀ m ∈ request? i, Proposes cfg s m → AllOf cfg trace s.view s (s.seqNum + 1)) :=
    Option.decidableForallMem _
  decidable_of_iff (_ ∧ _ ∧ _) ⟨fun h => ⟨h.1, h.2.1, h.2.2⟩, fun h => ⟨h.accepted, h.proposed, h.voted⟩⟩

/-- Votes that may still be counted to a quorum are of the view of the entry. -/
structure FreshEntry (cfg : Config σ) (trace : List (Node σ × Input)) (k : UInt64) (e : ReqLogEntry) : Prop where
  prepares : e.stage = .prePrepared → AllIn cfg trace e.view (.prepare k) e.prepares
  commits : e.stage = .prePrepared ∨ e.stage = .prepared → AllIn cfg trace e.view (.commit k) e.commits

structure FreshInv (cfg : Config σ) (s : Node σ) (trace : List (Node σ × Input)) : Prop where
  entries : ∀ k, FreshEntry cfg trace k (s.entry k)
  prepared : ∀ c ∈ s.prepared, cfg.prepareQuorum ≤ c.entry.prepares.card ∧
    AllIn cfg trace c.entry.view (.prepare c.key) c.entry.prepares
  committed : ∀ c ∈ s.committed, cfg.quorum ≤ c.entry.commits.card ∧
    AllIn cfg trace c.entry.view (.commit c.key) c.entry.commits

theorem freshEntry_of_stage {trace : List (Node σ × Input)} {k : UInt64} {e : ReqLogEntry}
    (hStage : e.stage = .none ∨ e.stage = .committed) : FreshEntry cfg trace k e := by
  constructor
  · intro h
    rcases hStage with h' | h' <;> rw [h'] at h <;> cases h
  · intro h
    rcases hStage with h' | h' <;> rw [h'] at h <;> rcases h with h | h <;> cases h

theorem FreshInv.mono {s : Node σ} {trace : List (Node σ × Input)} (w : FreshInv cfg s trace)
    (c : Node σ × Input) : FreshInv cfg s (trace ++ [c]) where
  entries k := ⟨fun h => ((w.entries k).prepares h).mono c, fun h => ((w.entries k).commits h).mono c⟩
  prepared mark hMark := ⟨(w.prepared mark hMark).1, (w.prepared mark hMark).2.mono c⟩
  committed mark hMark := ⟨(w.committed mark hMark).1, (w.committed mark hMark).2.mono c⟩

theorem FreshInv.write {s t : Node σ} {trace : List (Node σ × Input)} {k : UInt64} {e : ReqLogEntry}
    (w : FreshInv cfg s trace) (hLog : t.reqlog = s.reqlog.insert k e) (he : FreshEntry cfg trace k e)
    (hPrepared : t.prepared = s.prepared) (hCommitted : t.committed = s.committed) : FreshInv cfg t trace where
  entries a := by
    rw [entry_of_insert hLog]
    split
    · rename_i hka
      exact hka ▸ he
    · exact w.entries a
  prepared := hPrepared ▸ w.prepared
  committed := hCommitted ▸ w.committed

/-- A call that names no vote adds nobody but this replica. -/
theorem AllIn.of_gains {s₀ s : Node σ} {i : Input} {trace : List (Node σ × Input)} {v : UInt32} {b : Ballot}
    (h : AllIn cfg trace v b (s₀.voters b)) (hGains : Gains (Named cfg i) s₀ s)
    (hNoVote : ∀ m conn r, i = .recv m conn → m.vote? ≠ some (b, r)) : AllIn cfg trace v b (s.voters b) := by
  intro r hr hOther
  rcases hGains b r hr with hOld | hOwn | ⟨m, conn, hi, hVote⟩
  · exact h r hOld hOther
  · exact absurd hOwn hOther
  · exact absurd hVote (hNoVote m conn r hi)

/-- The call has no prepare and no commit to count. -/
def NoVote (i : Input) : Prop :=
  (∀ m conn, i ≠ .recv (.prepare m) conn) ∧ ∀ m conn, i ≠ .recv (.commit m) conn

theorem NoVote.vote {i : Input} (h : NoVote i) (k : UInt64) (m : Msg) (conn : Conn) (r : UInt32)
    (hi : i = .recv m conn) : m.vote? ≠ some (.prepare k, r) ∧ m.vote? ≠ some (.commit k, r) := by
  subst hi
  cases m with
  | prepare m => exact absurd rfl (h.1 m conn)
  | commit m => exact absurd rfl (h.2 m conn)
  | handshake | request | prePrepare | checkpoint | viewChange | newView => constructor <;> intro hVote <;> cases hVote

theorem freshInv_step {s₀ s s' : Node σ} {i : Input} {trace : List (Node σ × Input)} (hNoVote : NoVote i)
    (hAccepted : ∀ m, Accepts cfg s₀ i m → AllOf cfg trace m.view s₀ m.seqNum)
    (hProposed : ∀ m ∈ request? i, Proposes cfg s₀ m → AllOf cfg trace s₀.view s₀ (s₀.seqNum + 1))
    (hGains : Gains (Named cfg i) s₀ s) (w : FreshInv cfg s trace) (hStep : Step cfg s₀ i s s') :
    FreshInv cfg s' trace := by
  cases hStep with
  | propose hi hProposes =>
    have hOf := hProposed _ (by simp [hi, request?]) hProposes
    exact w.write rfl ⟨fun _ => hOf.1.own, fun _ => hOf.2⟩ rfl rfl
  | @accept _ m _ _ _ _ _ _ hAccepts =>
    have hOf := hAccepted m hAccepts
    have hPrepares := AllIn.of_gains (b := .prepare m.seqNum) hOf.1 hGains fun m' conn r hi =>
      (hNoVote.vote m.seqNum m' conn r hi).1
    have hCommits := AllIn.of_gains (b := .commit m.seqNum) hOf.2 hGains fun m' conn r hi =>
      (hNoVote.vote m.seqNum m' conn r hi).2
    exact w.write rfl ⟨fun _ => hPrepares.own, fun _ => hCommits⟩ rfl rfl
  | votePrepare hi => exact absurd hi (hNoVote.1 _ _)
  | voteCommit hi | touch hi => exact absurd hi (hNoVote.2 _ _)
  | @markPrepared _ k hStage _ hQuorum =>
    have hEntry := w.entries k
    have w' : FreshInv cfg { s.markPrepared cfg k with prepared := s.prepared } trace :=
      w.write rfl ⟨fun h => (by cases h), fun _ => (hEntry.commits (.inl hStage)).own⟩ rfl rfl
    refine ⟨w'.entries, fun c hc => ?_, w'.committed⟩
    rcases List.mem_append.mp hc with hOld | hNew
    · exact w.prepared c hOld
    · rw [List.mem_singleton.mp hNew]
      exact ⟨hQuorum, hEntry.prepares hStage⟩
  | @markCommitted _ k hStage hQuorum =>
    have hEntry := w.entries k
    have w' : FreshInv cfg { s.markCommitted k with committed := s.committed } trace :=
      w.write rfl (freshEntry_of_stage (.inr rfl)) rfl rfl
    refine ⟨w'.entries, w'.prepared, fun c hc => ?_⟩
    rcases List.mem_append.mp hc with hOld | hNew
    · exact w.committed c hOld
    · rw [List.mem_singleton.mp hNew]
      exact ⟨hQuorum, hEntry.commits (.inr hStage)⟩
  | execute =>
    rw [executeEntry_eq]
    exact ⟨w.entries, w.prepared, w.committed⟩
  | stabilize =>
    refine ⟨fun k => ?_, w.prepared, w.committed⟩
    rw [entry_of_stabilize]
    split
    · exact freshEntry_of_stage (.inl rfl)
    · exact w.entries k
  | beginViewChange =>
    rw [beginViewChange_eq]
    exact ⟨w.entries, w.prepared, w.committed⟩
  | _ => exact ⟨w.entries, w.prepared, w.committed⟩

theorem NoVote.timeout : NoVote .timeout := ⟨nofun, nofun⟩

/-- The quorum tests that follow a vote have nothing to count but what they find. -/
theorem freshInv_tests {t t' : Node σ} {trace : List (Node σ × Input)} (hSteps : Steps cfg t .timeout t t')
    (w : FreshInv cfg t trace) : FreshInv cfg t' trace := by
  have hBoth : Gains (Named cfg .timeout) t t' ∧ FreshInv cfg t' trace := by
    induction hSteps with
    | refl => exact ⟨.of_eq rfl, w⟩
    | tail _ hLast ih =>
      exact ⟨ih.1.tail hLast, freshInv_step .timeout (fun _ h => h.2.2.elim) nofun ih.1 ih.2 hLast⟩
  exact hBoth.2

theorem freshInv_onPrepare {m : PrepareMsg} {conn : Conn} {s : Node σ} {trace : List (Node σ × Input)}
    (w : FreshInv cfg s trace) (hView : OfItsView cfg s (.recv (.prepare m) conn)) :
    FreshInv cfg (s.onPrepare cfg m conn) (trace ++ [(s, .recv (.prepare m) conn)]) := by
  have w' := w.mono (s, .recv (.prepare m) conn)
  rcases onPrepare_cases cfg m conn s with hSame | hGuard
  · rwa [hSame]
  have hNew (hStage : (s.entry m.seqNum).stage = .prePrepared) :
      Received cfg (trace ++ [(s, .recv (.prepare m) conn)])
        (VotesIn (s.entry m.seqNum).view (.prepare m.seqNum) m.replicaId) :=
    received_of_counts hGuard ⟨rfl, congrArg some (hView hGuard hStage).symm⟩
  rw [onPrepare_of_current hGuard.1 hGuard.2.1 hGuard.2.2]
  refine freshInv_tests (tryPrepare_steps m.seqNum (by exact hGuard.2.1.1)) ?_
  refine w'.write rfl ⟨fun hStage => ?_, (w'.entries m.seqNum).commits⟩ rfl rfl
  exact ((w'.entries m.seqNum).prepares hStage).insert fun _ => hNew hStage

theorem freshInv_onCommit {m : CommitMsg} {conn : Conn} {s : Node σ} {trace : List (Node σ × Input)}
    (w : FreshInv cfg s trace) (hView : OfItsView cfg s (.recv (.commit m) conn)) :
    FreshInv cfg (s.onCommit cfg m) (trace ++ [(s, .recv (.commit m) conn)]) := by
  have w' := w.mono (s, .recv (.commit m) conn)
  rcases onCommit_cases cfg m s with hSame | hCurrent
  · rwa [hSame]
  rw [onCommit_of_current hCurrent]
  split
  · exact w'.write rfl (w'.entries m.seqNum) rfl rfl
  rename_i hDigest
  have hGuard : Counts cfg s conn (.commit m) := ⟨hCurrent, not_not.mp hDigest⟩
  refine freshInv_tests (tryCommit_steps m.seqNum _) ?_
  refine w'.write rfl ⟨(w'.entries m.seqNum).prepares, fun hStage => ?_⟩ rfl rfl
  refine ((w'.entries m.seqNum).commits hStage).insert fun _ => received_of_counts hGuard ⟨rfl, ?_⟩
  exact congrArg some (hView hGuard hStage).symm

theorem freshInv_handle {s s' : Node σ} {i : Input} {trace : List (Node σ × Input)} (w : FreshInv cfg s trace)
    (hRenewed : Renewed cfg trace s i) (hCall : s.handle cfg i = some s') :
    FreshInv cfg s' (trace ++ [(s, i)]) := by
  by_cases hNoVote : NoVote i
  · have hBoth : Gains (Named cfg i) s s' ∧ FreshInv cfg s' (trace ++ [(s, i)]) := by
      refine handle_invariant (I := fun t => Gains (Named cfg i) s t ∧ FreshInv cfg t (trace ++ [(s, i)]))
        (fun t t' h hStep => ⟨h.1.tail hStep, ?_⟩) ⟨.of_eq rfl, w.mono _⟩ hCall
      refine freshInv_step hNoVote (fun m hAccepts => ?_) (fun m hm hProposes => ?_) h.1 h.2 hStep
      · exact (hRenewed.accepted m hAccepts.1 hAccepts).mono _
      · exact (hRenewed.proposed m hm hProposes).mono _
    exact hBoth.2
  · rcases not_and_or.mp hNoVote with hPrepare | hCommit
    · push Not at hPrepare
      obtain ⟨m, conn, rfl⟩ := hPrepare
      cases hCall
      exact freshInv_onPrepare w hRenewed.voted
    · push Not at hCommit
      obtain ⟨m, conn, rfl⟩ := hCommit
      cases hCall
      exact freshInv_onCommit w hRenewed.voted

theorem freshInv_init (t : Bool) : FreshInv cfg (Node.init cfg t) [] where
  entries k := freshEntry_of_stage (.inl (by simp [Node.init, entry]))
  prepared c hc := by simp [Node.init] at hc
  committed c hc := by simp [Node.init] at hc

/-- In a run in which a pre-prepare is logged only over votes of its own view, and votes are counted
only for entries of theirs, an entry of view v becomes prepared and committed with the votes of v. -/
theorem votes_of_view {t : Bool} {s : Node σ} {trace : List (Node σ × Input)}
    (hs : Machine.Reach (machine cfg t).record (fun x => Renewed cfg x.2 x.1) (s, trace)) :
    (∀ c ∈ s.prepared, 2 * cfg.f.toNat ≤
      (votersIn cfg trace c.entry.view (.prepare c.key) c.entry.prepares).card) ∧
    (∀ c ∈ s.committed, 2 * cfg.f.toNat + 1 ≤
      (votersIn cfg trace c.entry.view (.commit c.key) c.entry.commits).card) := by
  have w : FreshInv cfg s trace := Machine.Reach.record_invariant (freshInv_init t)
    (fun _ _ _ _ w hRenewed hCall => freshInv_handle w hRenewed hCall) hs
  constructor
  · intro c hc
    obtain ⟨hQuorum, hAll⟩ := w.prepared c hc
    rwa [hAll.votersIn, ← cfg.prepareQuorum_eq]
  · intro c hc
    obtain ⟨hQuorum, hAll⟩ := w.committed c hc
    rwa [hAll.votersIn, ← cfg.quorum_eq]

/-- Replica 2 waits for a request, changes to view 1, and gets number 1 proposed there. -/
def secondView : List Input :=
  [.recv (.handshake ⟨1⟩) 1, .recv (.request ⟨"A", 1, 9⟩) 9, .timeout,
    .recv (.newView ⟨1, [⟨1, 0, 0, [], []⟩, ⟨1, 0, 1, [], [⟨0, 1, 7⟩]⟩, ⟨1, 0, 3, [], []⟩],
      [⟨1, 1, 7, {}⟩]⟩) 1]

theorem votes_of_view_one : ∃ x : Node (List String) × List (Node (List String) × Input), ∃ c ∈ x.1.prepared,
    Machine.Reach (machine { Config.sample 4 200 100 with id := 2 } false).record
      (fun x => Renewed { Config.sample 4 200 100 with id := 2 } x.2 x.1) x ∧ c.entry.view = 1 ∧
    2 ≤ (votersIn { Config.sample 4 200 100 with id := 2 } x.2 1 (.prepare c.key) c.entry.prepares).card := by
  obtain ⟨x, hx, c, hc, hView⟩ := Machine.exists_reach
    (machine { Config.sample 4 200 100 with id := 2 } false).record
    (fun x => Renewed { Config.sample 4 200 100 with id := 2 } x.2 x.1)
    (secondView ++ [.recv (.prepare ⟨1, 1, 7, 3⟩) 3])
    (fun x => ∃ c ∈ x.1.prepared, c.entry.view = 1) (by decide +kernel)
  have hVoters := (votes_of_view hx).1 c hc
  rw [hView] at hVoters
  exact ⟨x, c, hc, hx, hView, hVoters⟩

/-- A prepare of view 0 has come too early and is counted in view 1: the entry becomes prepared there
with the vote of nobody but this replica. -/
theorem votes_of_view_zero : ∃ x : Node (List String) × List (Node (List String) × Input), ∃ c ∈ x.1.prepared,
    Machine.Reach (machine { Config.sample 4 200 100 with id := 2 } false).record (fun x => Fires x.1) x ∧
    c.entry.view = 1 ∧ c.entry.prepares = {2, 3} ∧ ¬2 * (Config.sample 4 200 100).f.toNat ≤
      (votersIn { Config.sample 4 200 100 with id := 2 } x.2 1 (.prepare c.key) c.entry.prepares).card := by
  obtain ⟨x, hx, c, hc, hRest⟩ := Machine.exists_reach
    (machine { Config.sample 4 200 100 with id := 2 } false).record (fun x => Fires x.1)
    (.recv (.prepare ⟨0, 1, 7, 3⟩) 3 :: secondView)
    (fun x => ∃ c ∈ x.1.prepared, c.entry.view = 1 ∧ c.entry.prepares = {2, 3} ∧
      ¬2 * (Config.sample 4 200 100).f.toNat ≤
        (votersIn { Config.sample 4 200 100 with id := 2 } x.2 1 (.prepare c.key) c.entry.prepares).card)
    (by decide +kernel)
  exact ⟨x, c, hc, hx, hRest⟩

end Node
end Pbft
