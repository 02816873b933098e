import Pbft.Node.Ballot

/-! # Who is behind a vote

A message whose vote is counted has passed the tests of its handler. None of these tests compares
the id in the message with the connection it came on, and none compares it with n_.
-/
namespace Pbft.Node
set_option autoImplicit false

variable {σ : Type} {cfg : Config σ}

def Counts (cfg : Config σ) (s : Node σ) (conn : Conn) : Msg → Prop
  | .prepare m => s.comesFromPrimary cfg conn s.view = false ∧ Current s m.view m.seqNum ∧
      ((s.entry m.seqNum).hasPreprepare = true → (s.entry m.seqNum).digest = m.reqDigest)
  | .commit m => Current s m.view m.seqNum ∧ (s.entry m.seqNum).digest = m.reqDigest
  | .checkpoint m => s.h ≤ m.seqNum
  | .viewChange m => s.view.toUInt64 ≤ m.nextView ∧ m.nextView % cfg.n.toUInt64 = cfg.id.toUInt64
  | _ => False

instance (s : Node σ) (view : UInt32) (k : UInt64) : Decidable (Current s view k) :=
  inferInstanceAs (Decidable (_ ∧ _))

instance (s : Node σ) (conn : Conn) : (m : Msg) → Decidable (Counts cfg s conn m)
  | .prepare _ | .commit _ | .viewChange _ => inferInstanceAs (Decidable (_ ∧ _))
  | .checkpoint _ => inferInstanceAs (Decidable (_ ≤ _))
  | .handshake _ | .request _ | .prePrepare _ | .newView _ => inferInstanceAs (Decidable False)

/-- The vote that a call counts for another or for itself, and the connection it came on. -/
def counted? (cfg : Config σ) (s : Node σ) : Input → Option (Conn × Ballot × UInt32)
  | .recv m conn => if Counts cfg s conn m then m.vote?.map fun v => (conn, v) else none
  | .timeout => none

theorem voters_of_not_counts {s s' : Node σ} {m : Msg} {conn : Conn} (hNot : ¬Counts cfg s conn m)
    (hVote : m.vote?.isSome) (hCall : s.handle cfg (.recv m conn) = some s') : s'.voters = s.voters := by
  cases m with
  | prepare m =>
    cases hCall
    rcases onPrepare_cases cfg m conn s with hSame | hGuard
    · rw [hSame]
    · exact absurd hGuard hNot
  | commit m =>
    cases hCall
    rcases onCommit_cases cfg m s with hSame | hCurrent
    · rw [hSame]
    · rw [onCommit_of_current hCurrent, if_pos fun hDigest => hNot ⟨hCurrent, hDigest⟩]
      funext b
      cases b with
      | prepare k | commit k =>
        rw [voters, voters, entry_of_insert rfl]
        split
        · rename_i hk
          rw [hk]
        · rfl
      | checkpoint | viewChange => rfl
  | checkpoint m =>
    cases hCall
    rcases onCheckpoint_cases cfg m s with ⟨-, hSame⟩ | ⟨hLow, -⟩
    · rw [hSame]
    · exact absurd hLow hNot
  | viewChange m =>
    rcases onViewchange_cases hCall with rfl | ⟨-, -, hView, hMine⟩ | ⟨⟨hView, hMine, -⟩, -⟩
    · rfl
    · exact absurd ⟨hView, hMine⟩ hNot
    · exact absurd ⟨hView, hMine⟩ hNot
  | handshake | request | prePrepare | newView => cases hVote

/-- Whoever votes after a call has voted before, is this replica, or is named by the one message
that the call has counted. -/
theorem voters_handle {s s' : Node σ} {i : Input} (hCall : s.handle cfg i = some s') {b : Ballot}
    {r : UInt32} (hr : r ∈ s'.voters b) :
    r ∈ s.voters b ∨ r = cfg.id ∨ ∃ conn, counted? cfg s i = some (conn, b, r) := by
  rcases gains_handle hCall b r hr with hOld | hOwn | ⟨m, conn, rfl, hVote⟩
  · exact .inl hOld
  · exact .inr (.inl hOwn)
  · by_cases hCounts : Counts cfg s conn m
    · refine .inr (.inr ⟨conn, ?_⟩)
      rw [counted?, if_pos hCounts, hVote]
      rfl
    · rw [voters_of_not_counts hCounts (Option.isSome_of_mem hVote) hCall] at hr
      exact .inl hr

def handshake? : Input → Option (Conn × UInt32)
  | .recv (.handshake m) conn => some (conn, m.id)
  | _ => none

def introductions (trace : List (Node σ × Input)) : List (Conn × UInt32) :=
  trace.filterMap fun c => handshake? c.2

/-- Every connection is mapped to one id, if to any. -/
def OneIdPerConn (trace : List (Node σ × Input)) : Prop :=
  ∀ x ∈ introductions trace, ∀ y ∈ introductions trace, x.1 = y.1 → x.2 = y.2

instance (trace : List (Node σ × Input)) : Decidable (OneIdPerConn trace) :=
  List.decidableBAll _ _

theorem connToPeer_handle {s s' : Node σ} {i : Input} (hCall : s.handle cfg i = some s') {conn : Conn}
    {r : UInt32} (hr : s'.connToPeer[conn]? = some r) :
    s.connToPeer[conn]? = some r ∨ handshake? i = some (conn, r) := by
  revert hr
  refine handle_invariant (I := fun t => t.connToPeer[conn]? = some r →
    s.connToPeer[conn]? = some r ∨ handshake? i = some (conn, r)) (fun t t' ht hStep => ?_) .inl hCall
  cases hStep with
  | @handshake _ m conn' hi =>
    intro hr
    rw [onHandshake, TreeMap.lookup_insert] at hr
    split at hr
    · rename_i hConn
      refine .inr ?_
      rw [hi, ← hConn, ← Option.some.inj hr]
      rfl
    · exact ht hr
  | execute =>
    rw [executeEntry_eq]
    exact ht
  | beginViewChange =>
    rw [beginViewChange_eq]
    exact ht
  | _ => exact ht

/-- A call that counts a vote of another replica has received it on the connection of that
replica. The code does not test this. -/
def Vouched (cfg : Config σ) (s : Node σ) (i : Input) : Prop :=
  ∀ v ∈ counted? cfg s i, v.2.2 ≠ cfg.id → s.connToPeer[v.1]? = some v.2.2 ∧ v.2.2 < cfg.n

instance (s : Node σ) (i : Input) : Decidable (Vouched cfg s i) :=
  Option.decidableForallMem _

structure AuthenticInv (cfg : Config σ) (s : Node σ) (trace : List (Node σ × Input)) : Prop where
  votes : ∀ b, ∀ r ∈ s.voters b, r ≠ cfg.id → ∃ c ∈ trace, ∃ conn, counted? cfg c.1 c.2 = some (conn, b, r)
  vouched : ∀ c ∈ trace, Vouched cfg c.1 c.2
  introduced : ∀ conn r, s.connToPeer[conn]? = some r → (conn, r) ∈ introductions trace
  before : ∀ c ∈ trace, ∀ conn r, c.1.connToPeer[conn]? = some r → (conn, r) ∈ introductions trace

theorem authenticInv_init (t : Bool) : AuthenticInv cfg (Node.init cfg t) [] where
  votes b r hr := by cases b <;> simp [voters, Node.init, entry] at hr
  vouched c hc := by cases hc
  introduced conn r hr := by simp [Node.init] at hr
  before c hc := by cases hc

theorem mem_introductions_append {trace : List (Node σ × Input)} {c : Node σ × Input} {x : Conn × UInt32} :
    x ∈ introductions (trace ++ [c]) ↔ x ∈ introductions trace ∨ handshake? c.2 = some x := by
  simp [introductions]

theorem authenticInv_handle {s s' : Node σ} {i : Input} {trace : List (Node σ × Input)}
    (w : AuthenticInv cfg s trace) (hVouched : Vouched cfg s i) (hCall : s.handle cfg i = some s') :
    AuthenticInv cfg s' (trace ++ [(s, i)]) where
  votes b r hr hOther := by
    rcases voters_handle hCall hr with hOld | hOwn | ⟨conn, hNew⟩
    · obtain ⟨c, hc, hVote⟩ := w.votes b r hOld hOther
      exact ⟨c, List.mem_append_left _ hc, hVote⟩
    · exact absurd hOwn hOther
    · exact ⟨(s, i), by simp, conn, hNew⟩
  vouched c hc := by
    rcases List.mem_append.mp hc with hOld | hNew
    · exact w.vouched c hOld
    · rw [List.mem_singleton.mp hNew]
      exact hVouched
  introduced conn r hr := by
    rw [mem_introductions_append]
    exact (connToPeer_handle hCall hr).imp_left (w.introduced conn r)
  before c hc conn r hr := by
    rw [mem_introductions_append]
    rcases List.mem_append.mp hc with hOld | hNew
    · exact .inl (w.before c hOld conn r hr)
    · rw [List.mem_singleton.mp hNew] at hr
      exact .inl (w.introduced conn r hr)

/-- Votes come from whom they name as long as every counted message does: then an id in any set that
a quorum is taken from is below n_ and has come on a connection mapped to it, and all the votes
that one connection adds are of one id. -/
theorem votes_authentic {t : Bool} {s : Node σ} {trace : List (Node σ × Input)}
    (hs : Machine.Reach (machine cfg t).record (fun x => Vouched cfg x.1) (s, trace))
    (hOne : OneIdPerConn trace) :
    (∀ b, ∀ r ∈ s.voters b, r ≠ cfg.id → r < cfg.n ∧ ∃ c ∈ trace, ∃ conn,
      counted? cfg c.1 c.2 = some (conn, b, r) ∧ c.1.connToPeer[conn]? = some r) ∧
    (∀ c ∈ trace, ∀ c' ∈ trace, ∀ conn b b' r r', counted? cfg c.1 c.2 = some (conn, b, r) →
      counted? cfg c'.1 c'.2 = some (conn, b', r') → r ≠ cfg.id → r' ≠ cfg.id → r = r') := by
  have w : AuthenticInv cfg s trace := Machine.Reach.record_invariant (authenticInv_init t)
    (fun _ _ _ _ w hVouched hCall => authenticInv_handle w hVouched hCall) hs
  constructor
  · intro b r hr hOther
    obtain ⟨c, hc, conn, hVote⟩ := w.votes b r hr hOther
    have hSender := w.vouched c hc _ hVote hOther
    exact ⟨hSender.2, c, hc, conn, hVote, hSender.1⟩
  · intro c hc c' hc' conn b b' r r' hVote hVote' hOther hOther'
    have hSender := w.before c hc conn r (w.vouched c hc _ hVote hOther).1
    have hSender' := w.before c' hc' conn r' (w.vouched c' hc' _ hVote' hOther').1
    exact hOne _ hSender _ hSender' rfl

theorem votes_authentic_prepares : ∃ x : Node (List String) × List (Node (List String) × Input),
    Machine.Reach (machine (Config.sample 4 200 100) false).record
      (fun x => Vouched (Config.sample 4 200 100) x.1) x ∧ OneIdPerConn x.2 ∧
    x.1.voters (.prepare 1) = {0, 2, 3} ∧ (2 : UInt32) < 4 ∧ (∃ c ∈ x.2, ∃ conn,
      counted? (Config.sample 4 200 100) c.1 c.2 = some (conn, .prepare 1, 2) ∧
        c.1.connToPeer[conn]? = some 2) := by
  let m : RequestMsg := ⟨"INC", 5, 9⟩
  let digest := (Config.sample 4 200 100).getHash m
  obtain ⟨x, hx, hOne, hVoters⟩ := Machine.exists_reach (machine (Config.sample 4 200 100) false).record
    (fun x => Vouched (Config.sample 4 200 100) x.1)
    [.recv (.handshake ⟨2⟩) 2, .recv (.handshake ⟨3⟩) 3, .recv (.request m) 9,
      .recv (.prepare ⟨0, 1, digest, 2⟩) 2, .recv (.prepare ⟨0, 1, digest, 3⟩) 3]
    (fun x => OneIdPerConn x.2 ∧ x.1.voters (.prepare 1) = {0, 2, 3}) (by decide +kernel)
  have hMem : (2 : UInt32) ∈ x.1.voters (.prepare 1) := by
    rw [hVoters]
    decide
  obtain ⟨hBound, hSender⟩ := (votes_authentic hx hOne).1 (.prepare 1) 2 hMem (by decide)
  exact ⟨x, hx, hOne, hVoters, hBound, hSender⟩

/-- One connection, mapped to replica 2, fills the prepares of an entry: the primary counts its
votes in the names of 2, of 3, who never connected, and of 9, who does not exist. -/
theorem votes_forged : ∃ x : Node (List String) × List (Node (List String) × Input),
    Machine.Reach (machine (Config.sample 4 200 100) false).record (fun x => Anything x.1) x ∧
    OneIdPerConn x.2 ∧ introductions x.2 = [(2, 2)] ∧
    (3 ∈ x.1.voters (.prepare 1) ∧ ¬∃ c ∈ x.2, ∃ conn,
      counted? (Config.sample 4 200 100) c.1 c.2 = some (conn, .prepare 1, 3) ∧
        c.1.connToPeer[conn]? = some 3) ∧
    (9 ∈ x.1.voters (.prepare 1) ∧ ¬(9 : UInt32) < (Config.sample 4 200 100).n) := by
  obtain ⟨x, hx, hOne, hIntro, hThree, hNot, hNine⟩ :=
    Machine.exists_reach (machine (Config.sample 4 200 100) false).record (fun x => Anything x.1)
      [.recv (.handshake ⟨2⟩) 2, .recv (.prepare ⟨0, 1, 7, 2⟩) 2, .recv (.prepare ⟨0, 1, 7, 3⟩) 2,
        .recv (.prepare ⟨0, 1, 7, 9⟩) 2]
      (fun x => OneIdPerConn x.2 ∧ introductions x.2 = [(2, 2)] ∧ 3 ∈ x.1.voters (.prepare 1) ∧
        (∀ c ∈ x.2, ∀ v ∈ counted? (Config.sample 4 200 100) c.1 c.2, c.1.connToPeer[v.1]? ≠ some 3) ∧
        9 ∈ x.1.voters (.prepare 1)) (by decide +kernel)
  refine ⟨x, hx, hOne, hIntro, ⟨hThree, ?_⟩, hNine, by decide⟩
  rintro ⟨c, hc, conn, hVote, hSender⟩
  exact hNot c hc _ hVote hSender

end Pbft.Node
