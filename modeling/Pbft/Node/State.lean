import Pbft.Foundation.Word
import Pbft.Messages

/-! # The state of one replica

The members of the class Node that the protocol reads or writes. Connections of peers and
clients, metrics, log files and time points are outside the model: what is handed to the
network, executed by the service or reported as a stage change is kept instead in grow-only
histories, oldest first, so that a property of a whole run is a property of the state.
-/
namespace Pbft
set_option autoImplicit false

/-- A deterministic service. The initial state is the one after initialize(). -/
structure Service (σ : Type) where
  initial : σ
  execute : σ → String → σ × String
  getCheckpointDigest : σ → Digest

abbrev Votes := Std.ExtTreeMap Digest (Finset UInt32)

/-- What a replica is constructed with. The two hashes stand for salticidae::get_hash, on a
request and on the empty string. An unordered map visits each key once, in an order that its
implementation chooses. -/
structure Config (σ : Type) where
  id : UInt32
  n : UInt32
  L : UInt32
  K : UInt32
  service : Service σ
  getHash : RequestMsg → Digest
  emptyHash : Digest
  visit : Votes → List (Digest × Finset UInt32)
  visit_perm : ∀ votes, (visit votes).Perm votes.toList

namespace Config
variable {σ : Type} (cfg : Config σ)

def f : UInt32 := (cfg.n - 1) / 3

def prepareQuorum : Nat := (2 * cfg.f).toNat

/-- The comparison bound 2 * f_ + 1, in 32-bit arithmetic. -/
def quorum : Nat := (2 * cfg.f + 1).toNat

theorem prepareQuorum_eq : cfg.prepareQuorum = 2 * cfg.f.toNat := by
  have hf : 3 * cfg.f.toNat < 2 ^ 32 := Word.toNat_third _
  rw [prepareQuorum, UInt32.toNat_mul]
  exact Nat.mod_eq_of_lt (by simpa using by omega)

theorem quorum_eq : cfg.quorum = 2 * cfg.f.toNat + 1 := by
  have hf : 3 * cfg.f.toNat < 2 ^ 32 := Word.toNat_third _
  rw [quorum, UInt32.toNat_add]
  have hMul : (2 * cfg.f).toNat = 2 * cfg.f.toNat := cfg.prepareQuorum_eq
  rw [hMul]
  exact Nat.mod_eq_of_lt (by simpa using by omega)

end Config

inductive ReqStage where
  | none
  | prePrepared
  | prepared
  | committed
deriving DecidableEq

/-- A default value is what reqlog_[k] creates: value initialisation zeroes every member. -/
structure ReqLogEntry where
  view : UInt32 := 0
  seq : UInt64 := 0
  digest : Digest := 0
  req : RequestMsg := {}
  stage : ReqStage := .none
  hasPreprepare : Bool := false
  prepares : Finset UInt32 := ∅
  commits : Finset UInt32 := ∅
deriving DecidableEq

structure ClientReplyInfo where
  timestamp : UInt64
  replicaId : UInt32
  result : String
deriving DecidableEq

structure CheckpointVotes where
  votes : Votes := ∅
  stable : Bool := false

/-- A stage change as the log file reports it: the view the replica was in, the key of the
entry and the entry itself at that moment. -/
structure Mark where
  view : UInt32
  key : UInt64
  entry : ReqLogEntry
deriving DecidableEq

structure Execution where
  key : UInt64
  entry : ReqLogEntry
  result : String
deriving DecidableEq

abbrev ReqLog := Std.ExtTreeMap UInt64 ReqLogEntry

structure Node (σ : Type) where
  connToPeer : Std.ExtTreeMap Conn UInt32
  view : UInt32
  seqNum : UInt64
  lastExec : UInt64
  h : UInt64
  H : UInt64
  reqlog : ReqLog
  lastReplies : Std.ExtTreeMap UInt32 ClientReplyInfo
  viewChanging : Bool
  viewChangeStore : Std.ExtTreeMap UInt32 (Std.ExtTreeMap UInt32 ViewChangeMsg)
  viewChangeTimeoutCount : UInt32
  checkpoints : Std.ExtTreeMap UInt64 CheckpointVotes
  lastStableDigest : Digest
  timerRunning : Bool
  service : σ
  sent : List Msg
  forwarded : List (UInt32 × RequestMsg)
  replies : List ReplyMsg
  prepared : List Mark
  committed : List Mark
  executed : List Execution

namespace Node
variable {σ : Type}

/-- The constructor leaves timer_running_ uninitialised, so its first value is a parameter. -/
def init (cfg : Config σ) (timerRunning : Bool) : Node σ where
  connToPeer := ∅
  view := 0
  seqNum := 0
  lastExec := 0
  h := 0
  H := cfg.L.toUInt64
  reqlog := ∅
  lastReplies := ∅
  viewChanging := false
  viewChangeStore := ∅
  viewChangeTimeoutCount := 0
  checkpoints := ∅
  lastStableDigest := 0
  timerRunning := timerRunning
  service := cfg.service.initial
  sent := []
  forwarded := []
  replies := []
  prepared := []
  committed := []
  executed := []

def entry (s : Node σ) (k : UInt64) : ReqLogEntry := s.reqlog.getD k {}

def setEntry (s : Node σ) (k : UInt64) (e : ReqLogEntry) : Node σ :=
  { s with reqlog := s.reqlog.insert k e }

def broadcast (s : Node σ) (m : Msg) : Node σ := { s with sent := s.sent ++ [m] }

def primary (cfg : Config σ) (s : Node σ) : UInt32 := s.view % cfg.n

def isPrimary (cfg : Config σ) (s : Node σ) : Bool := cfg.id == s.view % cfg.n

/-- Both overloads of comes_from_primary: the current view is passed explicitly. -/
def comesFromPrimary (cfg : Config σ) (s : Node σ) (conn : Conn) (view : UInt32) : Bool :=
  s.connToPeer[conn]? == some (view % cfg.n)

def inWindow (s : Node σ) (k : UInt64) : Prop := ¬(k < s.h ∨ k > s.H)

instance (s : Node σ) (k : UInt64) : Decidable (s.inWindow k) :=
  inferInstanceAs (Decidable (¬_))

def isWaitingForRequest (s : Node σ) : Bool :=
  s.reqlog.toList.any fun (k, e) => e.hasPreprepare && decide (k > s.lastExec)

def startTimerIfNotRunning (s : Node σ) : Node σ :=
  if !s.timerRunning && !s.viewChanging then { s with timerRunning := true } else s

def stopTimer (s : Node σ) : Node σ :=
  if s.timerRunning then { s with timerRunning := false } else s

def manageTimer (s : Node σ) : Node σ :=
  if !s.isWaitingForRequest then s.stopTimer
  else if s.timerRunning then s.stopTimer.startTimerIfNotRunning
  else s

end Node
end Pbft
