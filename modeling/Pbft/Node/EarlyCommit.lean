import Pbft.Node.Authentic
import Pbft.Node.Stages

/-! # Commits that arrive before their pre-prepare

An early prepare is kept for the pre-prepare. An early commit is compared with the digest of an entry
that has none yet, and unless it names the digest that a new entry starts with it leaves nothing
behind but the entry.
-/
namespace Pbft
set_option autoImplicit false

variable {σ : Type} {cfg : Config σ}

/-- The pre-prepare that a commit is for, with any request. -/
def CommitMsg.prePrepare (m : CommitMsg) (req : RequestMsg) : PrePrepareMsg :=
  ⟨m.view, m.seqNum, m.reqDigest, req⟩

namespace Node

def Blank (s : Node σ) : Prop := ∀ k, (s.entry k).hasPreprepare = false → (s.entry k).digest = 0

theorem Blank.write {s t : Node σ} {k : UInt64} {e : ReqLogEntry} (w : Blank s)
    (hLog : t.reqlog = s.reqlog.insert k e) (he : e.hasPreprepare = false → e.digest = 0) : Blank t := by
  intro a
  rw [entry_of_insert hLog]
  split
  · exact he
  · exact w a

theorem blank_step {s₀ s s' : Node σ} {i : Input} (w : Blank s) (hStep : Step cfg s₀ i s s') : Blank s' := by
  cases hStep with
  | propose | accept => exact w.write rfl nofun
  | votePrepare | markPrepared | touch | voteCommit | markCommitted => exact w.write rfl (w _)
  | execute =>
    rw [executeEntry_eq]
    exact w
  | stabilize =>
    intro k
    rw [entry_of_stabilize]
    split
    · exact fun _ => rfl
    · exact w k
  | beginViewChange =>
    rw [beginViewChange_eq]
    exact w
  | _ => exact w

theorem blank_reach {t : Bool} {ok : Node σ → Input → Prop} {s : Node σ} (hs : Reach cfg t ok s) : Blank s :=
  Reach.invariant (fun _ _ => by simp [Node.init, entry]) (fun _ _ _ _ _ _ w hStep => blank_step w hStep) hs

structure KeepsVotes (k : UInt64) (s t : Node σ) : Prop where
  prepares : (s.entry k).prepares ⊆ (t.entry k).prepares
  commits : (s.entry k).commits ⊆ (t.entry k).commits

theorem KeepsVotes.of_eq {k : UInt64} {s t : Node σ} (h : t.entry k = s.entry k) : KeepsVotes k s t := by
  constructor <;> rw [h]

theorem KeepsVotes.trans {k : UInt64} {s t u : Node σ} (h : KeepsVotes k s t) (h' : KeepsVotes k t u) :
    KeepsVotes k s u :=
  ⟨h.prepares.trans h'.prepares, h.commits.trans h'.commits⟩

theorem KeepsVotes.write {k a : UInt64} {s t : Node σ} {e : ReqLogEntry} (hLog : t.reqlog = s.reqlog.insert a e)
    (hPrepares : (s.entry a).prepares ⊆ e.prepares) (hCommits : (s.entry a).commits ⊆ e.commits) :
    KeepsVotes k s t := by
  constructor
  · rw [entry_of_insert hLog]
    split
    · rename_i hak
      exact hak ▸ hPrepares
    · exact Finset.Subset.rfl
  · rw [entry_of_insert hLog]
    split
    · rename_i hak
      exact hak ▸ hCommits
    · exact Finset.Subset.rfl

theorem keepsVotes_step {s₀ s s' : Node σ} {i : Input} (k : UInt64) (hi : ∀ m conn, i ≠ .recv (.checkpoint m) conn)
    (hStep : Step cfg s₀ i s s') : KeepsVotes k s s' := by
  cases hStep with
  | propose | accept | votePrepare => exact .write rfl (Finset.subset_insert _ _) Finset.Subset.rfl
  | markPrepared | voteCommit => exact .write rfl Finset.Subset.rfl (Finset.subset_insert _ _)
  | touch | markCommitted => exact .write rfl Finset.Subset.rfl Finset.Subset.rfl
  | execute =>
    rw [executeEntry_eq]
    exact .of_eq rfl
  | voteCheckpoint h | stabilize h => exact absurd h (hi _ _)
  | beginViewChange =>
    rw [beginViewChange_eq]
    exact .of_eq rfl
  | _ => exact .of_eq rfl

/-- The call is made in view v and makes no checkpoint at or above k stable. -/
def Undisturbed (cfg : Config σ) (v : UInt32) (k : UInt64) (s : Node σ) (i : Input) : Prop :=
  s.view = v ∧ ∀ m conn, i = .recv (.checkpoint m) conn → Stabilizes cfg s m → m.seqNum < k

theorem keepsVotes_handle {s s' : Node σ} {i : Input} {v : UInt32} {k : UInt64} (h : Undisturbed cfg v k s i)
    (hCall : s.handle cfg i = some s') : KeepsVotes k s s' := by
  rcases eq_checkpoint_or i with ⟨m, conn, rfl⟩ | hi
  · cases hCall
    rcases onCheckpoint_cases cfg m s with ⟨-, hEq⟩ | ⟨hLow, hEq | ⟨cp, rfl, hStable, hQuorum, hEq⟩⟩
    · rw [hEq]
      exact .of_eq rfl
    · rw [hEq]
      exact .of_eq rfl
    · have hBelow := h.2 m conn rfl ⟨hLow, hStable, hQuorum⟩
      rw [hEq]
      refine .of_eq ?_
      rw [entry_of_stabilize, if_neg (UInt64.not_le.mpr hBelow)]
      rfl
  · exact handle_invariant (I := KeepsVotes k s) (fun _ _ hKeeps hStep => hKeeps.trans (keepsVotes_step k hi hStep))
      (.of_eq rfl) hCall

theorem keepsVotes_path {t : Bool} {s u : Node σ} {calls : List (Node σ × Input)} {v : UInt32} {k : UInt64}
    (h : Machine.Path (machine cfg t) (Undisturbed cfg v k) s calls u) : KeepsVotes k s u := by
  induction h with
  | nil => exact .of_eq rfl
  | snoc _ hOk hCall ih => exact ih.trans (keepsVotes_handle hOk hCall)

/-- Whatever else is received, the commit is counted once its pre-prepare is accepted. -/
def NotLost (cfg : Config σ) (t : Bool) (m : CommitMsg) (s : Node σ) : Prop :=
  ∀ calls u req conn, Machine.Path (machine cfg t) (Undisturbed cfg m.view m.seqNum) (s.onCommit cfg m) calls u →
    Guard cfg (m.prePrepare req) conn false u →
    m.replicaId ∈ ((u.onPreprepare cfg (m.prePrepare req) conn).entry m.seqNum).commits

/-- The replica's own commit, which it adds itself if the prepares it has are enough. -/
def OwnCommit (cfg : Config σ) (m : CommitMsg) (s : Node σ) : Prop :=
  m.replicaId = cfg.id ∧ cfg.prepareQuorum ≤ (insert cfg.id (s.entry m.seqNum).prepares).card

theorem mem_commits_logged {m : PrePrepareMsg} {e : ReqLogEntry} {r : UInt32} :
    r ∈ ((logged cfg m e).tryPrepare cfg).commits ↔
      r ∈ e.commits ∨ (r = cfg.id ∧ cfg.prepareQuorum ≤ (insert cfg.id e.prepares).card) := by
  rcases ReqLogEntry.tryPrepare_cases cfg (logged cfg m e) with ⟨hNot, hEq⟩ | ⟨hReady, stage, -, hEq⟩
  · have hFew : ¬cfg.prepareQuorum ≤ (insert cfg.id e.prepares).card := fun h => hNot ⟨rfl, rfl, h⟩
    rw [hEq]
    constructor
    · exact .inl
    · rintro (hOld | ⟨-, hEnough⟩)
      · exact hOld
      · exact absurd hEnough hFew
  · rw [hEq]
    constructor
    · intro hMem
      rcases Finset.mem_insert.mp hMem with hOwn | hOld
      · exact .inr ⟨hOwn, hReady.2.2⟩
      · exact .inl hOld
    · rintro (hOld | ⟨hOwn, -⟩)
      · exact Finset.mem_insert_of_mem hOld
      · exact Finset.mem_insert.mpr (.inl hOwn)

theorem mem_commits_onPreprepare {m : PrePrepareMsg} {conn : Conn} {s : Node σ} (h : Guard cfg m conn false s)
    {r : UInt32} : r ∈ ((s.onPreprepare cfg m conn).entry m.seqNum).commits ↔
      r ∈ (s.entry m.seqNum).commits ∨
        (r = cfg.id ∧ cfg.prepareQuorum ≤ (insert cfg.id (s.entry m.seqNum).prepares).card) := by
  rw [onPreprepare, entry_of_insert (reqlog_onPreprepareImpl h), if_pos rfl, mem_commits_logged]

theorem notLost_of_kept {t : Bool} {m : CommitMsg} {s : Node σ}
    (h : m.replicaId ∈ ((s.onCommit cfg m).entry m.seqNum).commits ∨ OwnCommit cfg m (s.onCommit cfg m)) :
    NotLost cfg t m s := by
  intro calls u req conn hPath hGuard
  have hKeeps := keepsVotes_path hPath
  refine (mem_commits_onPreprepare hGuard).mpr ?_
  rcases h with hCounted | ⟨hOwn, hEnough⟩
  · exact .inl (hKeeps.commits hCounted)
  · refine .inr ⟨hOwn, hEnough.trans (Finset.card_le_card ?_)⟩
    exact Finset.insert_subset_insert _ hKeeps.prepares

/-- The shortest way to the pre-prepare: the primary connects and sends it. -/
theorem kept_of_notLost {t : Bool} {m : CommitMsg} {s : Node σ} (hCurrent : Current s m.view m.seqNum)
    (hNone : (s.entry m.seqNum).hasPreprepare = false) (hDigest : (s.entry m.seqNum).digest ≠ m.reqDigest)
    (h : NotLost cfg t m s) : m.replicaId ∈ (s.entry m.seqNum).commits ∨ OwnCommit cfg m s := by
  let u := (s.setEntry m.seqNum (s.entry m.seqNum)).onHandshake ⟨s.view % cfg.n⟩ 0
  have hTouched : s.onCommit cfg m = s.setEntry m.seqNum (s.entry m.seqNum) := by
    rw [onCommit_of_current hCurrent, if_pos hDigest]
  have hEntry : u.entry m.seqNum = s.entry m.seqNum := entry_setEntry s m.seqNum _
  have hPath : Machine.Path (machine cfg t) (Undisturbed cfg m.view m.seqNum) (s.onCommit cfg m)
      [(s.setEntry m.seqNum (s.entry m.seqNum), .recv (.handshake ⟨s.view % cfg.n⟩) 0)] u := by
    rw [hTouched]
    exact .snoc .nil ⟨hCurrent.2.1.symm, nofun⟩ rfl
  have hGuard : Guard cfg (m.prePrepare {}) 0 false u := by
    refine ⟨.inr ?_, hCurrent, fun hPre => ?_⟩
    · simp [u, comesFromPrimary, onHandshake, setEntry]
    · have hOther : (u.entry m.seqNum).hasPreprepare = true := hPre
      rw [hEntry, hNone] at hOther
      cases hOther
  have hMem := (mem_commits_onPreprepare hGuard).mp (h _ u {} 0 hPath hGuard)
  have hSame : u.entry (m.prePrepare {}).seqNum = s.entry m.seqNum := hEntry
  rwa [hSame] at hMem

/-- A commit that arrives before the pre-prepare is not lost exactly if it names the digest that every
entry starts with, has been counted already, or is the replica's own and would be added anyway. -/
theorem early_commit_iff {t : Bool} {s : Node σ} (hs : Reach cfg t Anything s) {m : CommitMsg}
    (hCurrent : Current s m.view m.seqNum) (hNone : (s.entry m.seqNum).hasPreprepare = false) :
    NotLost cfg t m s ↔
      m.reqDigest = 0 ∨ m.replicaId ∈ (s.entry m.seqNum).commits ∨ OwnCommit cfg m s := by
  have hBlank := blank_reach hs m.seqNum hNone
  have hOk : Undisturbed cfg s.view m.seqNum s (.recv (.commit m) 0) := ⟨rfl, nofun⟩
  have hKeeps : KeepsVotes m.seqNum s (s.onCommit cfg m) := keepsVotes_handle hOk rfl
  constructor
  · intro h
    by_cases hZero : m.reqDigest = 0
    · exact .inl hZero
    · refine .inr (kept_of_notLost hCurrent hNone ?_ h)
      rw [hBlank]
      exact fun hEq => hZero hEq.symm
  · rintro (hZero | hCounted | ⟨hOwn, hEnough⟩)
    · refine notLost_of_kept (.inl ?_)
      rw [entry_of_insert (reqlog_onCommit hCurrent (hBlank.trans hZero.symm)), if_pos rfl]
      rcases ReqLogEntry.tryCommit_cases cfg { s.entry m.seqNum with
        commits := insert m.replicaId (s.entry m.seqNum).commits } with hEq | ⟨-, -, hEq⟩
      · rw [hEq]
        exact Finset.mem_insert_self _ _
      · rw [hEq]
        exact Finset.mem_insert_self _ _
    · exact notLost_of_kept (.inl (hKeeps.commits hCounted))
    · refine notLost_of_kept (.inr ⟨hOwn, hEnough.trans (Finset.card_le_card ?_)⟩)
      exact Finset.insert_subset_insert _ hKeeps.prepares

theorem early_commit_iff_zero : ∃ s : Node (List String),
    Reach { Config.sample 4 200 100 with id := 1 } false Anything s ∧ (s.entry 1).hasPreprepare = false ∧
    NotLost { Config.sample 4 200 100 with id := 1 } false ⟨0, 1, 0, 2⟩ s :=
  ⟨_, .init, by decide, (early_commit_iff .init (by decide) (by decide)).mpr (.inl rfl)⟩

/-- Replica 1 gets the commit of replica 2 first and the pre-prepare from the primary afterwards: the
commit is gone. The same commit counts if it comes after the pre-prepare. -/
theorem early_commit_lost : ∃ s u : Node (List String), ∃ m : CommitMsg, ∃ calls,
    Reach { Config.sample 4 200 100 with id := 1 } false Anything s ∧ Current s m.view m.seqNum ∧
    (s.entry m.seqNum).hasPreprepare = false ∧
    Machine.Path (machine { Config.sample 4 200 100 with id := 1 } false)
      (Undisturbed { Config.sample 4 200 100 with id := 1 } m.view m.seqNum)
      (s.onCommit { Config.sample 4 200 100 with id := 1 } m) calls u ∧
    Guard { Config.sample 4 200 100 with id := 1 } (m.prePrepare {}) 0 false u ∧
    m.replicaId ∉ ((u.onPreprepare { Config.sample 4 200 100 with id := 1 } (m.prePrepare {}) 0).entry
      m.seqNum).commits ∧
    m.replicaId ∈ (((u.onPreprepare { Config.sample 4 200 100 with id := 1 } (m.prePrepare {}) 0).onCommit
      { Config.sample 4 200 100 with id := 1 } m).entry m.seqNum).commits := by
  let cfg := { Config.sample 4 200 100 with id := 1 }
  let s : Node (List String) := Node.init cfg false
  let m : CommitMsg := ⟨0, 1, 7, 2⟩
  have hOk : Undisturbed cfg 0 1 (s.onCommit cfg m) (.recv (.handshake ⟨0⟩) 0) := ⟨by decide, nofun⟩
  exact ⟨s, (s.onCommit cfg m).onHandshake ⟨0⟩ 0, m, _, .init, by decide, by decide, .snoc .nil hOk rfl,
    ⟨.inr (by decide +kernel), by decide +kernel, by decide +kernel⟩, by decide +kernel, by decide +kernel⟩

end Node
end Pbft
