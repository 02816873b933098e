import Pbft.Node.Stages

/-! # Batches of messages

In the normal case each message is about one number, and for that number all that matters is which
messages have come so far: the entry is the one that the pre-prepare would make if all the votes had
been there before it.
-/
namespace Pbft
set_option autoImplicit false

variable {σ : Type} {cfg : Config σ}

namespace Node

structure Slot where
  view : UInt32
  seqNum : UInt64
  digest : Digest

/-- What a PRE-PREPARE, a PREPARE or a COMMIT is about. -/
def slot? : Input → Option Slot
  | .recv (.prePrepare m) _ => some ⟨m.view, m.seqNum, m.reqDigest⟩
  | .recv (.prepare m) _ => some ⟨m.view, m.seqNum, m.reqDigest⟩
  | .recv (.commit m) _ => some ⟨m.view, m.seqNum, m.reqDigest⟩
  | _ => none

def prePrepareFor? (k : UInt64) : Input → Option PrePrepareMsg
  | .recv (.prePrepare m) _ => if m.seqNum = k then some m else none
  | _ => none

def prepareFor? (k : UInt64) : Input → Option UInt32
  | .recv (.prepare m) _ => if m.seqNum = k then some m.replicaId else none
  | _ => none

def commitFor? (k : UInt64) : Input → Option UInt32
  | .recv (.commit m) _ => if m.seqNum = k then some m.replicaId else none
  | _ => none

/-- The three kinds of messages, on the connections they are taken from. -/
def Sender (cfg : Config σ) (s : Node σ) : Input → Prop
  | .recv (.prePrepare _) conn => s.comesFromPrimary cfg conn s.view = true
  | .recv (.prepare _) conn => s.comesFromPrimary cfg conn s.view = false
  | .recv (.commit _) _ => True
  | _ => False

instance (s : Node σ) : (i : Input) → Decidable (Sender cfg s i)
  | .recv (.prePrepare _) _ | .recv (.prepare _) _ => inferInstanceAs (Decidable (_ = _))
  | .recv (.commit _) _ => .isTrue trivial
  | .recv (.handshake _) _ | .recv (.request _) _ | .recv (.checkpoint _) _ | .recv (.viewChange _) _
  | .recv (.newView _) _ | .timeout => .isFalse id

/-- Messages of the current view for numbers of the window that the log does not have, with one
pre-prepare for each of these numbers and its digest in all votes. -/
structure Batch (cfg : Config σ) (s : Node σ) (M : List Input) : Prop where
  sender : ∀ i ∈ M, Sender cfg s i
  fresh : ∀ i ∈ M, ∀ x ∈ slot? i, x.view = s.view ∧ s.inWindow x.seqNum ∧ s.reqlog[x.seqNum]? = none
  one : ∀ i ∈ M, ∀ x ∈ slot? i, (M.filterMap (prePrepareFor? x.seqNum)).map (·.reqDigest) = [x.digest]

instance (s : Node σ) (M : List Input) : Decidable (Batch cfg s M) :=
  decidable_of_iff (_ ∧ _ ∧ _) ⟨fun h => ⟨h.1, h.2.1, h.2.2⟩, fun h => ⟨h.sender, h.fresh, h.one⟩⟩

def NotOvertaken : Input → Input → Prop
  | .recv (.commit c) _, .recv (.prePrepare m) _ => c.seqNum ≠ m.seqNum
  | _, _ => True

/-- No commit is delivered before the pre-prepare for its number. -/
def CommitsLast (l : List Input) : Prop := l.Pairwise NotOvertaken

def chosen (l : List Input) (k : UInt64) : Option PrePrepareMsg := (l.filterMap (prePrepareFor? k)).head?

def ids (f : Input → Option UInt32) (l : List Input) : Finset UInt32 := (l.filterMap f).toFinset

/-- The entry for k that the messages of l lead to. -/
def cell (cfg : Config σ) (l : List Input) (k : UInt64) : ReqLogEntry :=
  match chosen l k with
  | none => { prepares := ids (prepareFor? k) l }
  | some m => (logged cfg m { prepares := ids (prepareFor? k) l, commits := ids (commitFor? k) l }).tryPrepare cfg

def Touched (l : List Input) (k : UInt64) : Prop := ∃ i ∈ l, ∃ x ∈ slot? i, x.seqNum = k

theorem chosen_append (l : List Input) (i : Input) (k : UInt64) :
    chosen (l ++ [i]) k = (chosen l k).or (prePrepareFor? k i) := by
  unfold chosen
  rw [List.filterMap_append, List.head?_append]
  cases h : prePrepareFor? k i with
  | none => simp [h]
  | some m => simp [h]

theorem ids_append_none {f : Input → Option UInt32} {i : Input} (h : f i = none) (l : List Input) :
    ids f (l ++ [i]) = ids f l := by
  unfold ids
  rw [List.filterMap_append, List.filterMap_cons_none h, List.filterMap_nil, List.append_nil]

theorem ids_append_some {f : Input → Option UInt32} {i : Input} {r : UInt32} (h : f i = some r) (l : List Input) :
    ids f (l ++ [i]) = insert r (ids f l) := by
  unfold ids
  rw [List.filterMap_append, List.filterMap_cons_some h, List.filterMap_nil, List.toFinset_append,
    Finset.union_comm]
  rfl

theorem touched_append {l : List Input} {i : Input} {k : UInt64} :
    Touched (l ++ [i]) k ↔ Touched l k ∨ ∃ x ∈ slot? i, x.seqNum = k := by
  unfold Touched
  constructor
  · rintro ⟨a, ha, hx⟩
    rcases List.mem_append.mp ha with ha | ha
    · exact .inl ⟨a, ha, hx⟩
    · rw [List.mem_singleton.mp ha] at hx
      exact .inr hx
  · rintro (⟨a, ha, hx⟩ | hx)
    · exact ⟨a, List.mem_append_left _ ha, hx⟩
    · exact ⟨i, List.mem_append_right _ List.mem_cons_self, hx⟩

/-- A message for another number is of no kind for k. -/
theorem for_other {i : Input} {k : UInt64} (h : ¬∃ x ∈ slot? i, x.seqNum = k) :
    prePrepareFor? k i = none ∧ prepareFor? k i = none ∧ commitFor? k i = none := by
  have hNumber : ∀ x ∈ slot? i, x.seqNum ≠ k := fun x hx hk => h ⟨x, hx, hk⟩
  unfold slot? at hNumber
  split at hNumber
  · exact ⟨if_neg (hNumber _ rfl), rfl, rfl⟩
  · exact ⟨rfl, if_neg (hNumber _ rfl), rfl⟩
  · exact ⟨rfl, rfl, if_neg (hNumber _ rfl)⟩
  · rename_i hPre hPrepare hCommit
    refine ⟨?_, ?_, ?_⟩
    · unfold prePrepareFor?
      split
      · exact absurd rfl (hPre _ _)
      · rfl
    · unfold prepareFor?
      split
      · exact absurd rfl (hPrepare _ _)
      · rfl
    · unfold commitFor?
      split
      · exact absurd rfl (hCommit _ _)
      · rfl

theorem cell_other {l : List Input} {i : Input} {k : UInt64} (h : ¬∃ x ∈ slot? i, x.seqNum = k) :
    cell cfg (l ++ [i]) k = cell cfg l k := by
  obtain ⟨hPre, hPrepare, hCommit⟩ := for_other h
  unfold cell
  rw [chosen_append, hPre, Option.or_none, ids_append_none hPrepare, ids_append_none hCommit]

theorem cell_of_not_touched {l : List Input} {k : UInt64} (h : ¬Touched l k) : cell cfg l k = {} := by
  have hNone : ∀ i ∈ l, prePrepareFor? k i = none ∧ prepareFor? k i = none ∧ commitFor? k i = none :=
    fun i hi => for_other fun hx => h ⟨i, hi, hx⟩
  have hChosen : l.filterMap (prePrepareFor? k) = [] :=
    List.filterMap_eq_nil_iff.mpr fun i hi => (hNone i hi).1
  have hPrepares : l.filterMap (prepareFor? k) = [] :=
    List.filterMap_eq_nil_iff.mpr fun i hi => (hNone i hi).2.1
  unfold cell chosen ids
  rw [hChosen, hPrepares]
  rfl

theorem cell_prePrepare {l : List Input} {m : PrePrepareMsg} (conn : Conn) (hChosen : chosen l m.seqNum = none)
    (hCommits : ids (commitFor? m.seqNum) l = ∅) :
    (logged cfg m (cell cfg l m.seqNum)).tryPrepare cfg =
      cell cfg (l ++ [.recv (.prePrepare m) conn]) m.seqNum := by
  have hNew : prePrepareFor? m.seqNum (.recv (.prePrepare m) conn) = some m := if_pos rfl
  unfold cell
  rw [chosen_append, hChosen, hNew, Option.none_or, ids_append_none rfl, ids_append_none rfl, hCommits]

theorem cell_prepare (l : List Input) (m : PrepareMsg) (conn : Conn) :
    ReqLogEntry.tryPrepare cfg { cell cfg l m.seqNum with
      prepares := insert m.replicaId (cell cfg l m.seqNum).prepares } =
      cell cfg (l ++ [.recv (.prepare m) conn]) m.seqNum := by
  have hVote : prepareFor? m.seqNum (.recv (.prepare m) conn) = some m.replicaId := if_pos rfl
  have hOther : prePrepareFor? m.seqNum (.recv (.prepare m) conn) = none := rfl
  unfold cell
  rw [chosen_append, hOther, Option.or_none, ids_append_some hVote, ids_append_none rfl]
  cases chosen l m.seqNum with
  | none => exact ReqLogEntry.tryPrepare_of_not_ready fun hReady => nomatch hReady.1
  | some pp =>
    dsimp only
    rw [ReqLogEntry.tryPrepare_prepare]
    unfold logged
    dsimp only
    rw [Finset.insert_comm]

theorem cell_commit {l : List Input} {m : CommitMsg} {pp : PrePrepareMsg} (conn : Conn)
    (hChosen : chosen l m.seqNum = some pp) :
    ReqLogEntry.tryCommit cfg { cell cfg l m.seqNum with
      commits := insert m.replicaId (cell cfg l m.seqNum).commits } =
      cell cfg (l ++ [.recv (.commit m) conn]) m.seqNum := by
  have hVote : commitFor? m.seqNum (.recv (.commit m) conn) = some m.replicaId := if_pos rfl
  have hOther : prePrepareFor? m.seqNum (.recv (.commit m) conn) = none := rfl
  unfold cell
  rw [chosen_append, hOther, Option.or_none, ids_append_some hVote, ids_append_none rfl, hChosen]
  exact ReqLogEntry.tryPrepare_commit _ rfl

theorem cell_digest {l : List Input} {k : UInt64} {pp : PrePrepareMsg} (hChosen : chosen l k = some pp) :
    (cell cfg l k).digest = pp.reqDigest := by
  unfold cell
  rw [hChosen]
  exact ReqLogEntry.digest_tryPrepare cfg _

end Node
end Pbft
