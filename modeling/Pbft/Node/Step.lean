import Pbft.Foundation.TreeMap
import Pbft.Foundation.Word
import Pbft.Node.ViewChange
import Mathlib.Logic.Relation

/-! # What a handler call can do

A handler is a cascade of small state changes. Step lists them once, each with everything the
handler has checked by then, so that an invariant is proved by going through the list and
never by unfolding a handler. The state and the input of the call are parameters of a step,
because some of the facts that a step relies on are about them.
-/
namespace Pbft.Node
set_option autoImplicit false

open Relation

variable {σ : Type} {cfg : Config σ}

theorem withTimer_self {s : Node σ} {b : Bool} (h : s.timerRunning = b) :
    { s with timerRunning := b } = s := by
  subst h
  rfl

theorem startTimerIfNotRunning_eq (s : Node σ) :
    s.startTimerIfNotRunning = { s with timerRunning := s.timerRunning || !s.viewChanging } := by
  unfold startTimerIfNotRunning
  split
  · rename_i hIdle
    simp only [Bool.and_eq_true, Bool.not_eq_true'] at hIdle
    rw [hIdle.1, hIdle.2]
    rfl
  · rename_i hIdle
    refine (withTimer_self ?_).symm
    cases hRunning : s.timerRunning <;> cases hChanging : s.viewChanging <;> simp_all

theorem stopTimer_eq (s : Node σ) : s.stopTimer = { s with timerRunning := false } := by
  unfold stopTimer
  split
  · rfl
  · rename_i hRunning
    exact (withTimer_self (Bool.eq_false_iff.mpr hRunning)).symm

theorem manageTimer_eq (s : Node σ) : s.manageTimer = { s with
    timerRunning := s.isWaitingForRequest && s.timerRunning && !s.viewChanging } := by
  unfold manageTimer
  rw [stopTimer_eq, startTimerIfNotRunning_eq]
  cases s.isWaitingForRequest <;> cases hRunning : s.timerRunning <;>
    simp [withTimer_self hRunning]

theorem beginViewChange_eq (s : Node σ) : s.beginViewChange cfg = { s with
    viewChanging := true
    viewChangeTimeoutCount := s.viewChangeTimeoutCount + 1
    timerRunning := false
    sent := s.sent ++ [Msg.viewChange (s.viewChangeMsg cfg)] } := by
  simp only [beginViewChange, stopTimer_eq, broadcast]

def checkpointDue (cfg : Config σ) (s : Node σ) : Prop := (s.lastExec + 1) % cfg.K.toUInt64 = 0

instance (cfg : Config σ) (s : Node σ) : Decidable (s.checkpointDue cfg) :=
  inferInstanceAs (Decidable (_ = _))

/-- All that one pass of the execution loop writes, but for the timer, which nothing here depends on. -/
theorem executeEntry_eq (e : ReqLogEntry) (s : Node σ) :
    let r := cfg.service.execute s.service e.req.operation
    let digest := cfg.service.getCheckpointDigest r.1
    s.executeEntry cfg e = { s with
      service := r.1
      executed := s.executed ++ [Execution.mk (s.lastExec + 1) e r.2]
      replies := s.replies ++ [ReplyMsg.mk s.view e.req.timestamp e.req.clientId cfg.id r.2]
      lastReplies := s.lastReplies.insert e.req.clientId ⟨e.req.timestamp, cfg.id, r.2⟩
      lastExec := s.lastExec + 1
      timerRunning := (s.executeEntry cfg e).timerRunning
      sent := if s.checkpointDue cfg then
          s.sent ++ [Msg.checkpoint ⟨s.lastExec + 1, digest, cfg.id⟩] else s.sent
      checkpoints := if s.checkpointDue cfg then
          s.checkpoints.insert (s.lastExec + 1)
            ((s.checkpoints.getD (s.lastExec + 1) {}).addVote digest cfg.id)
        else s.checkpoints } := by
  unfold executeEntry checkpointDue
  simp only [manageTimer_eq]
  by_cases hDue : (s.lastExec + 1) % cfg.K.toUInt64 = 0
  · simp only [hDue, if_true]
    rfl
  · simp only [hDue, if_false]

theorem sent_of_append {s : Node σ} {m m' : Msg} (hm : m ∈ s.sent ++ [m']) (hNe : m' ≠ m) :
    m ∈ s.sent := by
  rcases List.mem_append.mp hm with hOld | hNew
  · exact hOld
  · exact absurd (List.mem_singleton.mp hNew).symm hNe

theorem sent_or_of_append {s : Node σ} {m' : Msg} {P : Msg → Prop} (hNew : P m') (m : Msg)
    (hm : m ∈ s.sent ++ [m']) : m ∈ s.sent ∨ P m := by
  rcases List.mem_append.mp hm with hOld | hm
  · exact .inl hOld
  · exact .inr (List.mem_singleton.mp hm ▸ hNew)

theorem sent_or_of_due {s : Node σ} {c : CheckpointMsg} {P : Msg → Prop} (hNew : P (.checkpoint c))
    (m : Msg) (hm : m ∈ if s.checkpointDue cfg then s.sent ++ [Msg.checkpoint c] else s.sent) :
    m ∈ s.sent ∨ P m := by
  split at hm
  · exact sent_or_of_append hNew m hm
  · exact .inl hm

theorem entry_of_lookup {s : Node σ} {k : UInt64} {e : ReqLogEntry} (h : s.reqlog[k]? = some e) :
    s.entry k = e :=
  TreeMap.getD_of_lookup h

theorem entry_of_insert {s t : Node σ} {k : UInt64} {e : ReqLogEntry}
    (h : t.reqlog = s.reqlog.insert k e) (a : UInt64) : t.entry a = if k = a then e else s.entry a := by
  unfold entry
  rw [h, TreeMap.getD_insert]

theorem entry_setEntry (s : Node σ) (k : UInt64) (e : ReqLogEntry) : (s.setEntry k e).entry k = e := by
  rw [entry_of_insert rfl, if_pos rfl]

theorem entry_congr {s t : Node σ} (h : t.reqlog = s.reqlog) (k : UInt64) : t.entry k = s.entry k := by
  rw [entry, entry, h]

theorem entry_of_stabilize (m : CheckpointMsg) (cp : CheckpointVotes) (s : Node σ) (k : UInt64) :
    (s.stabilize cfg m cp).entry k = if k ≤ m.seqNum then {} else s.entry k := by
  refine (TreeMap.getD_filter (fun k => !decide (k ≤ m.seqNum)) k ({} : ReqLogEntry)).trans ?_
  by_cases hk : k ≤ m.seqNum
  · simp [hk]
  · simp [hk, advanceWatermarks, entry]

theorem lookup_stabilize (m : CheckpointMsg) (cp : CheckpointVotes) (s : Node σ) :
    (s.stabilize cfg m cp).checkpoints[m.seqNum]? = some { cp with stable := true } := by
  refine (TreeMap.lookup_filter _ _ _).mpr ⟨Std.ExtTreeMap.getElem?_insert_self, ?_⟩
  simp [advanceWatermarks]

theorem le_recomputeHighestSequence {s : Node σ} {k : UInt64} (hk : k ∈ s.reqlog) :
    k ≤ s.recomputeHighestSequence := by
  unfold recomputeHighestSequence
  cases hLast : s.reqlog.keys.getLast? with
  | none => exact absurd hk (TreeMap.getLast?_keys_eq_none hLast k)
  | some last =>
    have hle : k.toNat ≤ last.toNat := by
      rcases (TreeMap.getLast?_keys hLast).2 k hk with rfl | hlt
      · exact Nat.le_refl _
      · exact Nat.le_of_lt (UInt64.lt_iff_toNat_lt.mp (Std.compare_eq_lt.mp hlt))
    simp only [UInt64.le_iff_toNat_le, Word.toNat_max]
    omega

def prePrepares : Input → List PrePrepareMsg
  | .recv (.prePrepare m) _ => [m]
  | .recv (.newView nv) _ => nv.prePrepares
  | _ => []

def request? : Input → Option RequestMsg
  | .recv (.request m) _ => some m
  | _ => none

def Carries (i : Input) (m : PrePrepareMsg) (conn : Conn) : Prop :=
  i = .recv (.prePrepare m) conn ∨ ∃ nv : NewViewMsg, i = .recv (.newView nv) conn ∧ m ∈ nv.prePrepares

def Offers (cfg : Config σ) (s₀ : Node σ) (i : Input) (m : ViewChangeMsg) : Prop :=
  (∃ conn, i = .recv (.viewChange m) conn) ∨ (i = .timeout ∧ m = s₀.viewChangeMsg cfg)

def Admits (s₀ : Node σ) (m : PrePrepareMsg) : Prop :=
  s₀.inWindow m.seqNum ∧
    ((s₀.entry m.seqNum).hasPreprepare = true → (s₀.entry m.seqNum).digest = m.reqDigest)

/-- The call logs the pre-prepare m, as far as the state before the call decides that: an earlier
element of the same O set may still stand against it. -/
def Accepts (cfg : Config σ) (s₀ : Node σ) (i : Input) (m : PrePrepareMsg) : Prop :=
  m ∈ prePrepares i ∧ Admits s₀ m ∧
    match i with
    | .recv (.newView nv) conn => s₀.acceptsNewview cfg nv conn ∧ m.view = nv.nextView.toUInt32
    | .recv _ conn => s₀.comesFromPrimary cfg conn s₀.view = true ∧ s₀.viewChanging = false ∧
        m.view = s₀.view
    | .timeout => False

structure Proposes (cfg : Config σ) (s₀ : Node σ) (m : RequestMsg) : Prop where
  noReply : s₀.lastReplies[m.clientId]?.filter (·.timestamp == m.timestamp) = none
  changing : s₀.viewChanging = false
  primary : cfg.id = s₀.view % cfg.n
  low : s₀.h ≤ s₀.seqNum
  high : s₀.seqNum < s₀.H
  isNew : s₀.alreadyInProgress m = false

instance (s₀ : Node σ) (m : PrePrepareMsg) : Decidable (Admits s₀ m) :=
  inferInstanceAs (Decidable (_ ∧ _))

instance (s₀ : Node σ) (m : PrePrepareMsg) : (i : Input) → Decidable (Accepts cfg s₀ i m)
  | .recv (.newView _) _ | .recv (.handshake _) _ | .recv (.request _) _ | .recv (.prePrepare _) _
  | .recv (.prepare _) _ | .recv (.commit _) _ | .recv (.checkpoint _) _ | .recv (.viewChange _) _
  | .timeout => inferInstanceAs (Decidable (_ ∧ _ ∧ _))

instance (s₀ : Node σ) (m : RequestMsg) : Decidable (Proposes cfg s₀ m) :=
  decidable_of_iff (_ ∧ _ ∧ _ ∧ _ ∧ _ ∧ _)
    ⟨fun h => ⟨h.1, h.2.1, h.2.2.1, h.2.2.2.1, h.2.2.2.2.1, h.2.2.2.2.2⟩,
      fun h => ⟨h.noReply, h.changing, h.primary, h.low, h.high, h.isNew⟩⟩

def Current (s : Node σ) (view : UInt32) (k : UInt64) : Prop :=
  s.viewChanging = false ∧ view = s.view ∧ s.inWindow k

inductive Step (cfg : Config σ) (s₀ : Node σ) (i : Input) : Node σ → Node σ → Prop
  | handshake {s : Node σ} {m : HandshakeMsg} {conn : Conn}
      (hi : i = .recv (.handshake m) conn) : Step cfg s₀ i s (s.onHandshake m conn)
  | timer {s : Node σ} (b : Bool) : Step cfg s₀ i s { s with timerRunning := b }
  | resend {s : Node σ} {m : RequestMsg} {conn : Conn} {info : ClientReplyInfo}
      (hi : i = .recv (.request m) conn) (hInfo : s.lastReplies[m.clientId]? = some info)
      (hTime : info.timestamp = m.timestamp) :
      Step cfg s₀ i s { s with
        replies := s.replies ++ [ReplyMsg.mk s.view m.timestamp m.clientId cfg.id info.result] }
  | forward {s : Node σ} {m : RequestMsg} {conn : Conn} (hi : i = .recv (.request m) conn) :
      Step cfg s₀ i s { s with forwarded := s.forwarded ++ [(s.primary cfg, m)] }
  | propose {m : RequestMsg} {conn : Conn} (hi : i = .recv (.request m) conn)
      (hProposes : Proposes cfg s₀ m) : Step cfg s₀ i s₀ (s₀.propose cfg m)
  | accept {s : Node σ} {m : PrePrepareMsg} {conn : Conn} (hi : Carries i m conn)
      (hFrom : s.connToPeer[conn]? = some (s.view % cfg.n)) (hCurrent : Current s m.view m.seqNum)
      (hDigest : (s.entry m.seqNum).hasPreprepare = true → (s.entry m.seqNum).digest = m.reqDigest)
      (hLow : s.h = s₀.h) (hAccepts : Accepts cfg s₀ i m)
      (hEarly : (s.entry m.seqNum).hasPreprepare = false →
        (s.entry m.seqNum).prepares = (s₀.entry m.seqNum).prepares) :
      Step cfg s₀ i s (s.acceptPreprepare cfg m)
  | votePrepare {s : Node σ} {m : PrepareMsg} {conn : Conn} (hi : i = .recv (.prepare m) conn)
      (hFrom : s.connToPeer[conn]? ≠ some (s.view % cfg.n)) (hCurrent : Current s m.view m.seqNum)
      (hDigest : (s.entry m.seqNum).hasPreprepare = true → (s.entry m.seqNum).digest = m.reqDigest) :
      Step cfg s₀ i s (s.setEntry m.seqNum { s.entry m.seqNum with
        prepares := insert m.replicaId (s.entry m.seqNum).prepares })
  | markPrepared {s : Node σ} {k : UInt64} (hStage : (s.entry k).stage = .prePrepared)
      (hPre : (s.entry k).hasPreprepare = true)
      (hQuorum : cfg.prepareQuorum ≤ (s.entry k).prepares.card) (hChanging : s.viewChanging = false) :
      Step cfg s₀ i s (s.markPrepared cfg k)
  | touch {s : Node σ} {m : CommitMsg} {conn : Conn} (hi : i = .recv (.commit m) conn)
      (hCurrent : Current s m.view m.seqNum) :
      Step cfg s₀ i s (s.setEntry m.seqNum (s.entry m.seqNum))
  | voteCommit {s : Node σ} {m : CommitMsg} {conn : Conn} (hi : i = .recv (.commit m) conn)
      (hCurrent : Current s m.view m.seqNum) (hDigest : (s.entry m.seqNum).digest = m.reqDigest) :
      Step cfg s₀ i s (s.setEntry m.seqNum { s.entry m.seqNum with
        commits := insert m.replicaId (s.entry m.seqNum).commits })
  | markCommitted {s : Node σ} {k : UInt64} (hStage : (s.entry k).stage = .prepared)
      (hQuorum : cfg.quorum ≤ (s.entry k).commits.card) : Step cfg s₀ i s (s.markCommitted k)
  | execute {s : Node σ} {e : ReqLogEntry} (hEntry : s.reqlog[s.lastExec + 1]? = some e)
      (hStage : e.stage = .committed) : Step cfg s₀ i s (s.executeEntry cfg e)
  | voteCheckpoint {s : Node σ} {m : CheckpointMsg} {conn : Conn}
      (hi : i = .recv (.checkpoint m) conn) (hLow : s.h ≤ m.seqNum) :
      Step cfg s₀ i s (s.voteCheckpoint m.seqNum m.stateDigest m.replicaId)
  | stabilize {s : Node σ} {m : CheckpointMsg} {conn : Conn} {cp : CheckpointVotes}
      (hi : i = .recv (.checkpoint m) conn) (hLow : s.h ≤ m.seqNum)
      (hVotes : s.checkpoints[m.seqNum]? = some cp) (hUnstable : cp.stable = false)
      (hQuorum : cfg.quorum ≤ (cp.votes.getD m.stateDigest ∅).card) :
      Step cfg s₀ i s (s.stabilize cfg m cp)
  | beginViewChange (hi : i = .timeout) : Step cfg s₀ i s₀ (s₀.beginViewChange cfg)
  | storeViewChange {s : Node σ} {m : ViewChangeMsg} (hi : Offers cfg s₀ i m)
      (hSent : i = .timeout → Msg.viewChange m ∈ s.sent) (hView : s.view.toUInt64 ≤ m.nextView)
      (hMine : m.nextView % cfg.n.toUInt64 = cfg.id.toUInt64) : Step cfg s₀ i s (s.storeViewChange m)
  | installView {s : Node σ} {m : ViewChangeMsg} {vcs : Std.ExtTreeMap UInt32 ViewChangeMsg}
      {O : List PrePrepareMsg} (hi : Offers cfg s₀ i m) (hView : s.view.toUInt64 ≤ m.nextView)
      (hSame : s.view = s₀.view ∧ (s.viewChanging = s₀.viewChanging ∨ i = .timeout))
      (hMine : m.nextView % cfg.n.toUInt64 = cfg.id.toUInt64) (hWith : vcs = s₀.storedWith m)
      (hStored : s.viewChangeStore[m.nextView.toUInt32]? = some vcs)
      (hQuorum : cfg.quorum ≤ vcs.size)
      (hO : oSet cfg m.nextView (vcs.toList.map Prod.snd) = some O) :
      Step cfg s₀ i s (s.installView m.nextView (vcs.toList.map Prod.snd) O)
  | enterView {m : NewViewMsg} {conn : Conn} (hi : i = .recv (.newView m) conn)
      (hAccepts : s₀.acceptsNewview cfg m conn) : Step cfg s₀ i s₀ (s₀.enterView m)
  | recompute {s : Node σ} {m : NewViewMsg} {conn : Conn} (hi : i = .recv (.newView m) conn) :
      Step cfg s₀ i s { s with seqNum := s.recomputeHighestSequence }

abbrev Steps (cfg : Config σ) (s₀ : Node σ) (i : Input) : Node σ → Node σ → Prop :=
  ReflTransGen (Step cfg s₀ i)

end Pbft.Node
