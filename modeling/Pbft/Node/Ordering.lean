import Pbft.Node.Checkpoint

/-! # The three-phase ordering protocol

Request, pre-prepare, prepare and commit handlers with the cascade of state transitions that
they trigger. A C++ reference to a log entry becomes the key of the entry.
-/
namespace Pbft.Node
set_option autoImplicit false

variable {σ : Type}

/-- One pass of the loop in try_execute, on the entry found at last_exec_ + 1. -/
def executeEntry (cfg : Config σ) (e : ReqLogEntry) (s : Node σ) : Node σ :=
  let r := cfg.service.execute s.service e.req.operation
  let reply : ReplyMsg := ⟨s.view, e.req.timestamp, e.req.clientId, cfg.id, r.2⟩
  let cacheReply : ClientReplyInfo := ⟨reply.timestamp, reply.replicaId, reply.result⟩
  let s := { s with
    service := r.1
    executed := s.executed ++ [Execution.mk (s.lastExec + 1) e r.2]
    replies := s.replies ++ [reply]
    lastReplies := s.lastReplies.insert e.req.clientId cacheReply
    lastExec := s.lastExec + 1 }
  let s := s.manageTimer
  if s.lastExec % cfg.K.toUInt64 = 0 then s.makeCheckpoint cfg else s

/-- The while loop of try_execute, cut off after fuel passes. -/
def executeLoop (cfg : Config σ) : Nat → Node σ → Node σ
  | 0, s => s
  | fuel + 1, s =>
    match s.reqlog[s.lastExec + 1]? with
    | none => s
    | some e => if e.stage ≠ .committed then s else executeLoop cfg fuel (s.executeEntry cfg e)

/-- Each pass consumes another key of the log, so the cut-off is never what ends the loop. -/
def tryExecute (cfg : Config σ) (s : Node σ) : Node σ :=
  executeLoop cfg (s.reqlog.size + 1) s

def markCommitted (k : UInt64) (s : Node σ) : Node σ :=
  { s with
    committed := s.committed ++ [Mark.mk s.view k (s.entry k)]
    reqlog := s.reqlog.insert k { s.entry k with stage := .committed } }

def tryCommit (cfg : Config σ) (k : UInt64) (s : Node σ) : Node σ :=
  let e := s.entry k
  if e.stage = .prepared ∧ e.commits.card ≥ cfg.quorum then (s.markCommitted k).tryExecute cfg
  else s

def markPrepared (cfg : Config σ) (k : UInt64) (s : Node σ) : Node σ :=
  let e := s.entry k
  { s with
    prepared := s.prepared ++ [Mark.mk s.view k e]
    sent := s.sent ++ [Msg.commit ⟨s.view, e.seq, e.digest, cfg.id⟩]
    reqlog := s.reqlog.insert k { e with stage := .prepared, commits := insert cfg.id e.commits } }

def tryPrepare (cfg : Config σ) (k : UInt64) (s : Node σ) : Node σ :=
  let e := s.entry k
  if e.stage = .prePrepared ∧ e.hasPreprepare ∧ e.prepares.card ≥ cfg.prepareQuorum then
    (s.markPrepared cfg k).tryCommit cfg k
  else s

def alreadyInProgress (s : Node σ) (m : RequestMsg) : Bool :=
  s.reqlog.toList.any fun (_, e) =>
    e.hasPreprepare && e.req.clientId == m.clientId && e.req.timestamp == m.timestamp

/-- The primary assigns the next sequence number. The entry is overwritten whatever it held,
only its votes stay, and the prepare quorum is not tested. -/
def propose (cfg : Config σ) (m : RequestMsg) (s : Node σ) : Node σ :=
  let k := s.seqNum + 1
  let e := s.entry k
  { s with
    seqNum := k
    sent := s.sent ++ [Msg.prePrepare ⟨s.view, k, cfg.getHash m, m⟩]
    reqlog := s.reqlog.insert k { e with
      view := s.view
      seq := k
      req := m
      digest := cfg.getHash m
      hasPreprepare := true
      stage := .prePrepared
      prepares := insert cfg.id e.prepares } }

def onRequest (cfg : Config σ) (m : RequestMsg) (s : Node σ) : Node σ :=
  match s.lastReplies[m.clientId]?.filter (·.timestamp == m.timestamp) with
  | some info =>
    { s with replies := s.replies ++ [ReplyMsg.mk s.view m.timestamp m.clientId cfg.id info.result] }
  | none =>
    if s.viewChanging then s
    else if s.isPrimary cfg then
      if s.seqNum < s.h ∨ s.seqNum ≥ s.H then s
      else if s.alreadyInProgress m then s
      else s.propose cfg m
    else
      let s := s.startTimerIfNotRunning
      { s with forwarded := s.forwarded ++ [(s.primary cfg, m)] }

/-- An accepted pre-prepare is logged and answered with a prepare; votes that arrived early
are kept. -/
def acceptPreprepare (cfg : Config σ) (m : PrePrepareMsg) (s : Node σ) : Node σ :=
  let e := s.entry m.seqNum
  { s with
    sent := s.sent ++ [Msg.prepare ⟨s.view, m.seqNum, m.reqDigest, cfg.id⟩]
    reqlog := s.reqlog.insert m.seqNum { e with
      view := m.view
      seq := m.seqNum
      digest := m.reqDigest
      req := m.req
      hasPreprepare := true
      stage := .prePrepared
      prepares := insert cfg.id e.prepares } }

/-- A mismatch needs a pre-prepared entry, so reqlog_[m.seq_num] creates an entry only when
the pre-prepare is accepted. -/
def onPreprepareImpl (cfg : Config σ) (m : PrePrepareMsg) (conn : Conn) (fromSelf : Bool)
    (s : Node σ) : Node σ :=
  if !fromSelf && !s.comesFromPrimary cfg conn s.view then s
  else if s.viewChanging then s
  else if m.view ≠ s.view then s
  else if ¬s.inWindow m.seqNum then s
  else if (s.entry m.seqNum).hasPreprepare ∧ (s.entry m.seqNum).digest ≠ m.reqDigest then s
  else (s.startTimerIfNotRunning.acceptPreprepare cfg m).tryPrepare cfg m.seqNum

def onPreprepare (cfg : Config σ) (m : PrePrepareMsg) (conn : Conn) (s : Node σ) : Node σ :=
  s.onPreprepareImpl cfg m conn false

def onPrepare (cfg : Config σ) (m : PrepareMsg) (conn : Conn) (s : Node σ) : Node σ :=
  if s.comesFromPrimary cfg conn s.view then s
  else if s.viewChanging then s
  else if m.view ≠ s.view then s
  else if ¬s.inWindow m.seqNum then s
  else
    let e := s.entry m.seqNum
    if e.hasPreprepare ∧ e.digest ≠ m.reqDigest then s
    else
      let s := s.setEntry m.seqNum { e with prepares := insert m.replicaId e.prepares }
      s.tryPrepare cfg m.seqNum

/-- Unlike the other handlers this one leaves a fresh entry behind when the digests differ. -/
def onCommit (cfg : Config σ) (m : CommitMsg) (s : Node σ) : Node σ :=
  if s.viewChanging then s
  else if m.view ≠ s.view then s
  else if ¬s.inWindow m.seqNum then s
  else
    let e := s.entry m.seqNum
    let s := s.setEntry m.seqNum e
    if e.digest ≠ m.reqDigest then s
    else
      let s := s.setEntry m.seqNum { e with commits := insert m.replicaId e.commits }
      s.tryCommit cfg m.seqNum

end Pbft.Node
