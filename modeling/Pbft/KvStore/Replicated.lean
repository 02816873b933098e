import Pbft.Cluster.Checkpoints
import Pbft.Cluster.Linear
import Pbft.KvStore.CheckpointText

/-! # The replicated key-value store

What the store promises to clients and to an observer of checkpoints when the replicas run it.
-/
namespace Pbft.KvStore
set_option autoImplicit false

open Cluster Node

variable {C : Cluster Store} {getHash : String → Digest} {connected : UInt32 → Finset UInt32}
variable {first : UInt32 → UInt64} {s t u v : Site Store}

theorem answerAt_eq (operations : List String) (j : Nat) (operation : String) :
    (service getHash).answerAt operations j operation = (execute (after (operations.take j)) operation).2 := rfl

theorem getElem?_ordered {c : UInt32} {operation r : String} {j : Nat} (h : TakesEffect C s t c operation r j) :
    (ordered t.world)[j]? = some operation := by
  obtain ⟨pp, hpp, hReq⟩ := h.place
  rw [ordered, List.getElem?_map, hpp, Option.map_some, hReq]

/-- Two texts with one hash. -/
def Collision (getHash : String → Digest) (a b : String) : Prop := a ≠ b ∧ getHash a = getHash b

theorem store_eq_of_hash {ops ops' : List String} (hPlain : PlainKeys ops) (hPlain' : PlainKeys ops')
    (hNone : ¬Collision getHash (checkpointText (after ops)) (checkpointText (after ops')))
    (hDigest : getHash (checkpointText (after ops)) = getHash (checkpointText (after ops'))) :
    after ops = after ops' := by
  refine checkpointText_inj (plain_after hPlain) (plain_after hPlain') ?_
  by_contra hText
  exact hNone ⟨hText, hDigest⟩

/-- The operations up to the number k. -/
def operationsTo (s : Node Store) (k : UInt64) : List String := s.operations.take k.toNat

theorem digest_eq {G : World Store} (hService : C.base.service = service getHash) {p : UInt32} {m : CheckpointMsg}
    (h : Attests (C.cfg p) (G p) m) :
    m.stateDigest = getHash (checkpointText (after (operationsTo (G p) m.seqNum))) := by
  have hHere : (C.cfg p).service = service getHash := hService
  rw [h.digest, stateAfter_eq_foldl, hHere, operationsTo, operations, ← List.map_take]
  rfl

/-- Once a checkpoint is stable at a correct replica, there are f + 1 correct replicas whose stores were
the same when they made it, whatever faulty replicas have sent under their own ids: but for a value put
under a key with a semicolon and for two texts with one hash. -/
theorem stable_stores (hService : C.base.service = service getHash) (hFaulty : C.faulty.card ≤ C.base.f.toNat)
    {G : World Store} (hs : C.Reach C.Identified G) {r : UInt32} (hr : C.Correct r) (hPos : 0 < (G r).h) :
    ∃ A : Finset UInt32, C.base.f.toNat + 1 ≤ A.card ∧ ∀ p ∈ A, C.Correct p ∧ (G r).h ≤ (G p).lastExec ∧
      ∀ q ∈ A, PlainKeys (operationsTo (G p) (G r).h) → PlainKeys (operationsTo (G q) (G r).h) →
        ¬Collision getHash (checkpointText (after (operationsTo (G p) (G r).h)))
          (checkpointText (after (operationsTo (G q) (G r).h))) →
        after (operationsTo (G p) (G r).h) = after (operationsTo (G q) (G r).h) := by
  obtain ⟨A, hCard, hA⟩ := exists_attesting hFaulty hs hr hPos
  refine ⟨A, hCard, fun p hp => ?_⟩
  obtain ⟨hCorrect, -, hAttests⟩ := hA p hp
  refine ⟨hCorrect, hAttests.reached, fun q hq hPlain hPlain' hNone => ?_⟩
  obtain ⟨-, -, hAttests'⟩ := hA q hq
  have hDigest := digest_eq hService hAttests
  have hDigest' := digest_eq hService hAttests'
  exact store_eq_of_hash hPlain hPlain' hNone (hDigest.symm.trans hDigest')

def textHash (text : String) : Digest := BitVec.ofNat 256 (text.toList.foldl (fun acc c => acc * 256 + c.toNat) 1)

/-- Four replicas of the store, with a checkpoint after every request. -/
def replicated : Cluster Store where
  base :=
    { id := 0
      n := 4
      L := 200
      K := 1
      service := service textHash
      getHash := (Config.sample 4 200 100).getHash
      emptyHash := 2
      visit := (Config.sample 4 200 100).visit
      visit_perm := (Config.sample 4 200 100).visit_perm }
  faulty := ∅
  peer := (sample 4 ∅).peer
  timerRunning _ := false

theorem stable_stores_seven : ∃ (G : World Store) (A : Finset UInt32), (G 1).h = 1 ∧ 2 ≤ A.card ∧
    ∀ p ∈ A, ∀ q ∈ A, after (operationsTo (G p) 1) = after (operationsTo (G q) 1) := by
  let C : Cluster Store := { replicated with faulty := {0} }
  let vote (p r : UInt32) := deliver (.checkpoint ⟨1, textHash "a:7;", p⟩) p r
  obtain ⟨G, hs, hLow, h1, h2, h3⟩ := Machine.exists_reach C.machine (fun G a => C.Identified G a.1 a.2)
    (ordering ⟨0, 1, 7, ⟨"PUT a 7", 1, 9⟩⟩ 0 [1, 2, 3] ++ [vote 2 1, vote 3 1])
    (fun G => (G 1).h = 1 ∧ operationsTo (G 1) 1 = ["PUT a 7"] ∧ operationsTo (G 2) 1 = ["PUT a 7"] ∧
      operationsTo (G 3) 1 = ["PUT a 7"]) (by decide +kernel)
  have hService : C.base.service = service textHash := rfl
  have hPos : 0 < (G 1).h := hLow ▸ by decide
  obtain ⟨A, hCard, hA⟩ := stable_stores hService (by decide) hs (r := 1) (by decide) hPos
  have hSize : C.base.f.toNat + 1 = 2 := by decide
  rw [hSize] at hCard
  rw [hLow] at hA
  have hOps : ∀ p ∈ A, operationsTo (G p) 1 = ["PUT a 7"] := by
    intro p hp
    rcases sample_correct (hA p hp).1 with rfl | rfl | rfl
    · exact h1
    · exact h2
    · exact h3
  have hPlain : PlainKeys ["PUT a 7"] := by
    intro op hop key value hc
    have hSays : Says (.put (Token.of "a" (by decide)) 7) "PUT a 7" := by decide +kernel
    rw [List.mem_singleton.mp hop] at hc
    cases hc.unique hSays
    decide
  refine ⟨G, A, hLow, hCard, fun p hp q hq => (hA p hp).2.2 q hq ?_ ?_ ?_⟩
  · exact (hOps p hp).symm ▸ hPlain
  · exact (hOps q hq).symm ▸ hPlain
  · rw [hOps p hp, hOps q hq]
    exact fun hCollision => hCollision.1 rfl

end Pbft.KvStore
