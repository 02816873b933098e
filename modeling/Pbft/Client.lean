import Pbft.Node.State

/-! # The client

A client numbers its requests and accepts a result once f + 1 replicas have sent it. The
promises it fulfils are a grow-only history, oldest first, like those of a replica; so are the
requests it sends, each to the replica it takes for the primary or, if there is none, to all.
-/
namespace Pbft
set_option autoImplicit false

/-- What a client is constructed with, and the replicas that add_replica has connected. -/
structure ClientConfig where
  id : UInt32
  n : UInt32
  replicas : Finset UInt32

def ClientConfig.f (cfg : ClientConfig) : UInt32 := (cfg.n - 1) / 3

/-- The number of equal results that makes a client accept, computed in 32-bit arithmetic. -/
theorem ClientConfig.toNat_threshold (cfg : ClientConfig) : (cfg.f + 1).toNat = cfg.f.toNat + 1 := by
  have hThird : 3 * cfg.f.toNat < 2 ^ 32 := Word.toNat_third _
  rw [UInt32.toNat_add, UInt32.toNat_one, Nat.mod_eq_of_lt (by omega)]

structure InflightRequest where
  timestamp : UInt64
  seenReplicas : Finset UInt32 := ∅
  resultCounts : Std.ExtTreeMap String Nat := ∅

structure Client where
  currentView : UInt32
  timestamp : UInt64
  inflightRequests : Std.ExtTreeMap UInt64 InflightRequest
  requests : List (Option UInt32 × RequestMsg)
  fulfilled : List (UInt64 × String)

namespace Client

/-- The constructor leaves timestamp_ uninitialised, so its first value is a parameter. -/
def init (timestamp : UInt64) : Client where
  currentView := 1
  timestamp := timestamp
  inflightRequests := ∅
  requests := []
  fulfilled := []

def primaryHint (cfg : ClientConfig) (c : Client) : UInt32 := c.currentView % cfg.n

/-- A request that is already in flight under the same time stamp is kept, as emplace does. -/
def invokeAsync (cfg : ClientConfig) (operation : String) (c : Client) : Client :=
  let ts := c.timestamp + 1
  let req : RequestMsg := ⟨operation, ts, cfg.id⟩
  let hint := c.primaryHint cfg
  { c with
    timestamp := ts
    inflightRequests := c.inflightRequests.insertIfNew ts { timestamp := ts }
    requests := c.requests ++ [(if hint ∈ cfg.replicas then some hint else none, req)] }

def onReply (cfg : ClientConfig) (m : ReplyMsg) (c : Client) : Client :=
  if m.clientId ≠ cfg.id then c
  else
    let c := { c with currentView := if m.view > c.currentView then m.view else c.currentView }
    match c.inflightRequests[m.timestamp]? with
    | none => c
    | some request =>
      if m.replicaId ∈ request.seenReplicas then c
      else
        let cnt := request.resultCounts.getD m.result 0 + 1
        if cnt ≥ (cfg.f + 1).toNat then
          { c with
            fulfilled := c.fulfilled ++ [(m.timestamp, m.result)]
            inflightRequests := c.inflightRequests.erase m.timestamp }
        else
          let request := { request with
            seenReplicas := insert m.replicaId request.seenReplicas
            resultCounts := request.resultCounts.insert m.result cnt }
          { c with inflightRequests := c.inflightRequests.insert m.timestamp request }

end Client
end Pbft
