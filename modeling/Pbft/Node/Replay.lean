import Pbft.Node.Stages
import Mathlib.Logic.Function.Iterate

/-! # Execution as a replay

What an execution writes, its replies on the network apart, depends on the request at the next number
only. So the state of the service and all that goes with it are known from where execution began, how
far it has come and which request stands at each number on the way, whatever the order in which the
votes for these numbers came in.
-/
namespace Pbft
set_option autoImplicit false

variable {σ : Type} {cfg : Config σ}

/-- The part of a replica that execution writes. -/
structure Core (σ : Type) where
  lastExec : UInt64
  lastReplies : Std.ExtTreeMap UInt32 ClientReplyInfo
  checkpoints : Std.ExtTreeMap UInt64 CheckpointVotes
  service : σ

/-- The next number is executed, with the request that stands there. -/
def Core.next (cfg : Config σ) (req : UInt64 → RequestMsg) (c : Core σ) : Core σ :=
  let k := c.lastExec + 1
  let r := cfg.service.execute c.service (req k).operation
  { lastExec := k
    lastReplies := c.lastReplies.insert (req k).clientId ⟨(req k).timestamp, cfg.id, r.2⟩
    checkpoints :=
      if k % cfg.K.toUInt64 = 0 then
        c.checkpoints.insert k ((c.checkpoints.getD k {}).addVote (cfg.service.getCheckpointDigest r.1) cfg.id)
      else c.checkpoints
    service := r.1 }

namespace Node

def core (s : Node σ) : Core σ := ⟨s.lastExec, s.lastReplies, s.checkpoints, s.service⟩

theorem core_executeEntry {e : ReqLogEntry} {req : UInt64 → RequestMsg} {s : Node σ}
    (h : e.req = req (s.lastExec + 1)) : (s.executeEntry cfg e).core = s.core.next cfg req := by
  rw [executeEntry_eq, h]
  rfl

/-- From s to u the requests of req have been executed, each one on a committed entry. -/
structure Replays (cfg : Config σ) (req : UInt64 → RequestMsg) (s u : Node σ) : Prop where
  chain : ∃ n, u.core = (Core.next cfg req)^[n] s.core ∧
    ∀ j < n, (u.entry (((Core.next cfg req)^[j] s.core).lastExec + 1)).stage = .committed
  requests : ∀ k, (u.entry k).stage ≠ .none → (u.entry k).req = req k

section
variable {req : UInt64 → RequestMsg} {s u v : Node σ}

theorem Replays.write {k : UInt64} {e : ReqLogEntry} (w : Replays cfg req s u)
    (hLog : v.reqlog = u.reqlog.insert k e) (hCore : v.core = u.core)
    (hCommitted : (u.entry k).stage = .committed → e.stage = .committed)
    (hReq : e.stage ≠ .none → e.req = req k) : Replays cfg req s v := by
  obtain ⟨n, hIter, hChain⟩ := w.chain
  refine ⟨⟨n, hCore.trans hIter, fun j hj => ?_⟩, fun a ha => ?_⟩
  · have hBefore := hChain j hj
    rw [entry_of_insert hLog]
    split
    · rename_i hKey
      rw [← hKey] at hBefore
      exact hCommitted hBefore
    · exact hBefore
  · rw [entry_of_insert hLog] at ha ⊢
    split at ha
    · rename_i hKey
      rw [if_pos hKey, ← hKey]
      exact hReq ha
    · rename_i hKey
      rw [if_neg hKey]
      exact w.requests a ha

theorem Replays.executeEntry {e : ReqLogEntry} (w : Replays cfg req s u)
    (hEntry : u.reqlog[u.lastExec + 1]? = some e) (hStage : e.stage = .committed) :
    Replays cfg req s (u.executeEntry cfg e) := by
  have hNow : (u.entry (u.lastExec + 1)).stage = .committed := by
    rw [entry_of_lookup hEntry]
    exact hStage
  have hReq : e.req = req (u.lastExec + 1) := by
    rw [← entry_of_lookup hEntry]
    exact w.requests _ (by simp [hNow])
  have hLog : ∀ k, (u.executeEntry cfg e).entry k = u.entry k := by
    intro k
    rw [executeEntry_eq]
    rfl
  obtain ⟨n, hIter, hChain⟩ := w.chain
  refine ⟨⟨n + 1, ?_, fun j hj => ?_⟩, fun k hk => ?_⟩
  · rw [core_executeEntry hReq, Function.iterate_succ_apply', hIter]
  · rw [hLog]
    rcases Nat.lt_succ_iff_lt_or_eq.mp hj with hj | rfl
    · exact hChain j hj
    · rw [← hIter]
      exact hNow
  · rw [hLog] at hk ⊢
    exact w.requests k hk

theorem Replays.executeLoop (fuel : Nat) (w : Replays cfg req s u) :
    Replays cfg req s (executeLoop cfg fuel u) := by
  apply executeLoop_invariant _ fuel w
  intro e t hEntry hStage w
  exact w.executeEntry hEntry hStage

theorem Replays.tryCommit (k : UInt64) (w : Replays cfg req s u) : Replays cfg req s (u.tryCommit cfg k) := by
  unfold Node.tryCommit
  dsimp only
  split
  · rename_i hReady
    have hMarked : Replays cfg req s (u.markCommitted k) :=
      w.write rfl rfl (fun _ => rfl) fun _ => w.requests k (by simp [hReady.1])
    exact hMarked.executeLoop _
  · exact w

theorem Replays.tryPrepare (k : UInt64) (w : Replays cfg req s u) : Replays cfg req s (u.tryPrepare cfg k) := by
  unfold Node.tryPrepare
  dsimp only
  split
  · rename_i hReady
    have hMarked : Replays cfg req s (u.markPrepared cfg k) := by
      refine w.write rfl rfl (fun hStage => ?_) fun _ => w.requests k (by simp [hReady.1])
      cases hReady.1.symm.trans hStage
    exact hMarked.tryCommit k
  · exact w

/-- Two ways from s to the same log end with the same executions, if neither has left any undone. -/
theorem Replays.core_eq (w : Replays cfg req s u) (w' : Replays cfg req s v) (hLog : u.reqlog = v.reqlog)
    (hu : Settled cfg u) (hv : Settled cfg v) : u.core = v.core := by
  obtain ⟨n, hIter, hChain⟩ := w.chain
  obtain ⟨n', hIter', hChain'⟩ := w'.chain
  have hSame : ∀ k, u.entry k = v.entry k := entry_congr hLog
  rcases Nat.lt_trichotomy n n' with hlt | rfl | hlt
  · -- the next number after u is committed in v, and so in u
    have hNext := hChain' n hlt
    rw [← hIter, ← hSame] at hNext
    exact absurd hNext hu.next
  · rw [hIter, hIter']
  · have hNext := hChain n' hlt
    rw [← hIter', hSame] at hNext
    exact absurd hNext hv.next

end

end Node
end Pbft
