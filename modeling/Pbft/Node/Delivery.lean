import Pbft.Node.Batch
import Pbft.Node.Redelivery
import Pbft.Node.Replay

/-! # The order of delivery

Execution follows the numbers in their order and runs as far as it can after each message, and the
entry of each number depends on the messages for it alone. So the state after a batch is the same for
every order in which no commit overtakes its pre-prepare.
-/
namespace Pbft
set_option autoImplicit false

variable {σ : Type} {cfg : Config σ}

namespace Node

def deliver (cfg : Config σ) (s : Node σ) (l : List Input) : Option (Node σ) :=
  l.foldlM (fun s i => s.handle cfg i) s

theorem deliver_append {s u : Node σ} {l : List Input} (h : deliver cfg s l = some u) (i : Input) :
    deliver cfg s (l ++ [i]) = u.handle cfg i := by
  have hRun : l.foldlM (fun s i => s.handle cfg i) s = some u := h
  unfold deliver
  rw [List.foldlM_append, hRun]
  simp

/-- The request that stands at k when all of M has been delivered. -/
def requestAt (s : Node σ) (M : List Input) (k : UInt64) : RequestMsg :=
  match chosen M k with
  | some m => m.req
  | none => (s.entry k).req

/-- What the handlers of a batch read and never write. -/
structure Fixed (s u : Node σ) : Prop where
  conn : u.connToPeer = s.connToPeer
  view : u.view = s.view
  changing : u.viewChanging = s.viewChanging
  low : u.h = s.h
  high : u.H = s.H

theorem Frame.fixed {s u : Node σ} (h : Frame s u) : Fixed s u := ⟨h.conn, h.view, h.changing, h.low, h.high⟩

theorem Fixed.trans {s t u : Node σ} (h : Fixed s t) (h' : Fixed t u) : Fixed s u where
  conn := h'.conn.trans h.conn
  view := h'.view.trans h.view
  changing := h'.changing.trans h.changing
  low := h'.low.trans h.low
  high := h'.high.trans h.high

/-- The replica s after the messages of l, which are some of M. -/
structure Delivered (cfg : Config σ) (s : Node σ) (M l : List Input) (u : Node σ) : Prop where
  fixed : Fixed s u
  touched : ∀ k, Touched l k → u.reqlog[k]? = some (cell cfg l k)
  others : ∀ k, ¬Touched l k → u.reqlog[k]? = s.reqlog[k]?
  replays : Replays cfg (requestAt s M) s u

section
variable {s u u' : Node σ} {M l : List Input} {i : Input} {k : UInt64}

theorem Delivered.entry (w : Delivered cfg s M l u) (hFresh : s.reqlog[k]? = none) :
    u.entry k = cell cfg l k := by
  by_cases hTouched : Touched l k
  · exact entry_of_lookup (w.touched k hTouched)
  · rw [cell_of_not_touched hTouched, Node.entry, Std.ExtTreeMap.getD_eq_getD_getElem?, w.others k hTouched,
      hFresh]
    rfl

theorem Delivered.current (w : Delivered cfg s M l u) (hIdle : s.viewChanging = false) {view : UInt32}
    (hView : view = s.view) (hWindow : s.inWindow k) : Current u view k :=
  ⟨w.fixed.changing.trans hIdle, hView.trans w.fixed.view.symm,
    (inWindow_congr w.fixed.low w.fixed.high).mpr hWindow⟩

theorem Delivered.comesFromPrimary (w : Delivered cfg s M l u) (conn : Conn) :
    u.comesFromPrimary cfg conn u.view = s.comesFromPrimary cfg conn s.view := by
  unfold Node.comesFromPrimary
  rw [w.fixed.conn, w.fixed.view]

/-- The message has changed the entry of its number as it should, and the rest of the log not at all. -/
theorem Delivered.append (w : Delivered cfg s M l u) {x : Slot} (hx : slot? i = some x)
    (hFixed : Fixed u u') (hLog : u'.reqlog = u.reqlog.insert x.seqNum (cell cfg (l ++ [i]) x.seqNum))
    (hReplays : Replays cfg (requestAt s M) s u') : Delivered cfg s M (l ++ [i]) u' := by
  have hNumber : ∀ k, (∃ y ∈ slot? i, y.seqNum = k) ↔ x.seqNum = k := by
    intro k
    simp [hx]
  refine ⟨w.fixed.trans hFixed, fun k hTouched => ?_, fun k hNot => ?_, hReplays⟩
  · rw [hLog, TreeMap.lookup_insert]
    split
    · rename_i hKey
      rw [hKey]
    · rename_i hKey
      have hOther : ¬∃ y ∈ slot? i, y.seqNum = k := fun h => hKey ((hNumber k).mp h)
      rw [cell_other hOther]
      exact w.touched k ((touched_append.mp hTouched).resolve_right hOther)
  · rw [touched_append, not_or, hNumber] at hNot
    rw [hLog, TreeMap.lookup_insert, if_neg hNot.2]
    exact w.others k hNot.1

theorem delivered_prePrepare {m : PrePrepareMsg} {conn : Conn} (w : Delivered cfg s M l u)
    (hIdle : s.viewChanging = false) (hSender : s.comesFromPrimary cfg conn s.view = true)
    (hView : m.view = s.view) (hWindow : s.inWindow m.seqNum) (hFresh : s.reqlog[m.seqNum]? = none)
    (hChosen : chosen l m.seqNum = none) (hCommits : ids (commitFor? m.seqNum) l = ∅)
    (hRequest : requestAt s M m.seqNum = m.req) :
    Delivered cfg s M (l ++ [.recv (.prePrepare m) conn]) (u.onPreprepare cfg m conn) := by
  have hEntry := w.entry hFresh
  have hCell : cell cfg l m.seqNum = { prepares := ids (prepareFor? m.seqNum) l } := by
    unfold cell
    rw [hChosen]
  have hGuard : Guard cfg m conn false u := by
    refine ⟨.inr ?_, w.current hIdle hView hWindow, fun hPre => ?_⟩
    · rw [w.comesFromPrimary]
      exact hSender
    · rw [hEntry, hCell] at hPre
      cases hPre
  refine w.append rfl (onPreprepareImpl_frame m conn false u).fixed ?_ ?_
  · rw [← cell_prePrepare conn hChosen hCommits, ← hEntry]
    exact reqlog_onPreprepareImpl hGuard
  · rw [onPreprepare, onPreprepareImpl_of_guard hGuard]
    refine Replays.tryPrepare _ (w.replays.write (reqlog_accept cfg m u) ?_ ?_ fun _ => hRequest.symm)
    · rw [startTimerIfNotRunning_eq]
      rfl
    · rw [hEntry, hCell]
      intro hStage
      cases hStage

theorem delivered_prepare {m : PrepareMsg} {conn : Conn} (w : Delivered cfg s M l u)
    (hIdle : s.viewChanging = false) (hSender : s.comesFromPrimary cfg conn s.view = false)
    (hView : m.view = s.view) (hWindow : s.inWindow m.seqNum) (hFresh : s.reqlog[m.seqNum]? = none)
    (hDigest : ∀ pp, chosen l m.seqNum = some pp → pp.reqDigest = m.reqDigest) :
    Delivered cfg s M (l ++ [.recv (.prepare m) conn]) (u.onPrepare cfg m conn) := by
  have hEntry := w.entry hFresh
  have hCurrent := w.current hIdle hView hWindow
  have hFrom : u.comesFromPrimary cfg conn u.view = false := by
    rw [w.comesFromPrimary]
    exact hSender
  have hMatch : (u.entry m.seqNum).hasPreprepare = true → (u.entry m.seqNum).digest = m.reqDigest := by
    rw [hEntry]
    intro hPre
    cases hChosen : chosen l m.seqNum with
    | none =>
      unfold cell at hPre
      rw [hChosen] at hPre
      cases hPre
    | some pp =>
      rw [cell_digest hChosen]
      exact hDigest pp hChosen
  have hCall := onPrepare_of_current hFrom hCurrent hMatch
  refine w.append rfl ?_ ?_ ?_
  · rw [hCall]
    refine Fixed.trans ?_ (tryPrepare_frame _ _).fixed
    exact ⟨rfl, rfl, rfl, rfl, rfl⟩
  · rw [reqlog_onPrepare hFrom hCurrent hMatch, hEntry]
    exact congrArg _ (cell_prepare l m conn)
  · rw [hCall]
    exact Replays.tryPrepare _ (w.replays.write rfl rfl id (w.replays.requests _))

theorem delivered_commit {m : CommitMsg} {conn : Conn} {pp : PrePrepareMsg} (w : Delivered cfg s M l u)
    (hIdle : s.viewChanging = false) (hView : m.view = s.view) (hWindow : s.inWindow m.seqNum)
    (hFresh : s.reqlog[m.seqNum]? = none) (hChosen : chosen l m.seqNum = some pp)
    (hDigest : pp.reqDigest = m.reqDigest) :
    Delivered cfg s M (l ++ [.recv (.commit m) conn]) (u.onCommit cfg m) := by
  have hEntry := w.entry hFresh
  have hCurrent := w.current hIdle hView hWindow
  have hMatch : (u.entry m.seqNum).digest = m.reqDigest := by
    rw [hEntry, cell_digest hChosen]
    exact hDigest
  have hCall : u.onCommit cfg m = _ :=
    (onCommit_of_current hCurrent).trans (if_neg (not_not.mpr hMatch))
  refine w.append rfl ?_ ?_ ?_
  · rw [hCall]
    refine Fixed.trans ?_ (tryCommit_frame _ _).fixed
    exact ⟨rfl, rfl, rfl, rfl, rfl⟩
  · rw [reqlog_onCommit hCurrent hMatch, hEntry]
    exact congrArg _ (cell_commit conn hChosen)
  · rw [hCall]
    exact Replays.tryCommit _ (w.replays.write rfl rfl id (w.replays.requests _))

/-- The one pre-prepare for a number of the batch. -/
theorem Batch.chosen (hBatch : Batch cfg s M) (hTouched : Touched M k) :
    ∃ m, M.filterMap (prePrepareFor? k) = [m] := by
  obtain ⟨i, hi, x, hx, rfl⟩ := hTouched
  have hOne := congrArg List.length (hBatch.one i hi x hx)
  rw [List.length_map, List.length_singleton] at hOne
  exact List.length_eq_one_iff.mp hOne

theorem Batch.digest (hBatch : Batch cfg s M) {x : Slot} (hi : i ∈ M) (hx : x ∈ slot? i) {m : PrePrepareMsg}
    (hm : m ∈ M.filterMap (prePrepareFor? x.seqNum)) : m.reqDigest = x.digest := by
  have hMem := List.mem_map_of_mem (f := fun m : PrePrepareMsg => m.reqDigest) hm
  rw [hBatch.one i hi x hx] at hMem
  exact List.mem_singleton.mp hMem

/-- What the order of a batch gives for each of its messages. -/
structure Turn (M l : List Input) (i : Input) : Prop where
  subset : ∀ a ∈ l, a ∈ M
  mem : i ∈ M
  prePrepare : ∀ m conn, i = .recv (.prePrepare m) conn →
    chosen l m.seqNum = none ∧ ids (commitFor? m.seqNum) l = ∅
  commit : ∀ m conn, i = .recv (.commit m) conn → ∃ pp, chosen l m.seqNum = some pp

theorem commitFor?_eq_some {r : UInt32} (h : commitFor? k i = some r) :
    ∃ m conn, i = .recv (.commit m) conn ∧ m.seqNum = k := by
  unfold commitFor? at h
  split at h
  · rename_i m conn
    rw [Option.ite_none_right_eq_some] at h
    exact ⟨m, conn, rfl, h.1⟩
  · cases h

theorem prePrepareFor?_eq_some {m : PrePrepareMsg} (h : prePrepareFor? k i = some m) :
    ∃ conn, i = .recv (.prePrepare m) conn ∧ m.seqNum = k := by
  unfold prePrepareFor? at h
  split at h
  · rename_i m' conn
    rw [Option.ite_none_right_eq_some] at h
    cases h.2
    exact ⟨conn, rfl, h.1⟩
  · cases h

theorem turn_of_perm {L rest : List Input} (hBatch : Batch cfg s M) (hPerm : M.Perm L) (hOrder : CommitsLast L)
    (hSplit : L = l ++ i :: rest) : Turn M l i := by
  have hMem : ∀ a ∈ l ++ i :: rest, a ∈ M := fun a ha => hPerm.mem_iff.mpr (hSplit ▸ ha)
  have hi : i ∈ M := hMem i (by simp)
  have hLength : ∀ k, Touched M k → ((l ++ i :: rest).filterMap (prePrepareFor? k)).length = 1 := by
    intro k hTouched
    obtain ⟨m, hm⟩ := hBatch.chosen hTouched
    rw [← hSplit, ← (hPerm.filterMap _).length_eq, hm]
    rfl
  rw [hSplit, CommitsLast, List.pairwise_append, List.pairwise_cons] at hOrder
  refine ⟨fun a ha => hMem a (List.mem_append_left _ ha), hi, ?_, ?_⟩
  · rintro m conn rfl
    have hThis : prePrepareFor? m.seqNum (.recv (.prePrepare m) conn) = some m := if_pos rfl
    have hOne := hLength m.seqNum ⟨_, hi, _, rfl, rfl⟩
    rw [List.filterMap_append, List.filterMap_cons_some hThis, List.length_append, List.length_cons] at hOne
    have hBefore : l.filterMap (prePrepareFor? m.seqNum) = [] := List.length_eq_zero_iff.mp (by omega)
    refine ⟨by rw [chosen, hBefore]; rfl, ?_⟩
    have hNone : l.filterMap (commitFor? m.seqNum) = [] := by
      rw [List.filterMap_eq_nil_iff]
      intro a ha
      cases hVote : commitFor? m.seqNum a with
      | none => rfl
      | some r =>
        obtain ⟨c, conn', rfl, hSeq⟩ := commitFor?_eq_some hVote
        exact absurd hSeq (hOrder.2.2 _ ha _ List.mem_cons_self)
    rw [ids, hNone]
    rfl
  · rintro m conn rfl
    have hOne := hLength m.seqNum ⟨_, hi, _, rfl, rfl⟩
    have hNotThis : prePrepareFor? m.seqNum (.recv (.commit m) conn) = none := rfl
    have hAfter : rest.filterMap (prePrepareFor? m.seqNum) = [] := by
      rw [List.filterMap_eq_nil_iff]
      intro a ha
      cases hPre : prePrepareFor? m.seqNum a with
      | none => rfl
      | some pp =>
        obtain ⟨conn', rfl, hSeq⟩ := prePrepareFor?_eq_some hPre
        exact absurd hSeq.symm (hOrder.2.1.1 _ ha)
    rw [List.filterMap_append, List.filterMap_cons_none hNotThis, hAfter, List.append_nil] at hOne
    obtain ⟨pp, hpp⟩ := List.length_eq_one_iff.mp hOne
    exact ⟨pp, by rw [chosen, hpp]; rfl⟩

theorem Turn.chosen_mem (h : Turn M l i) {m : PrePrepareMsg} (hChosen : chosen l k = some m) :
    m ∈ M.filterMap (prePrepareFor? k) := by
  obtain ⟨a, ha, hm⟩ := List.mem_filterMap.mp (List.mem_of_mem_head? hChosen)
  exact List.mem_filterMap.mpr ⟨a, h.subset a ha, hm⟩

theorem delivered_handle (hBatch : Batch cfg s M) (hIdle : s.viewChanging = false) (hTurn : Turn M l i)
    (w : Delivered cfg s M l u) : ∃ u', u.handle cfg i = some u' ∧ Delivered cfg s M (l ++ [i]) u' := by
  have hSender := hBatch.sender i hTurn.mem
  have hFresh := hBatch.fresh i hTurn.mem
  unfold Sender at hSender
  split at hSender
  · rename_i m conn
    obtain ⟨hView, hWindow, hNone⟩ := hFresh _ rfl
    obtain ⟨hChosen, hCommits⟩ := hTurn.prePrepare m conn rfl
    have hRequest : requestAt s M m.seqNum = m.req := by
      obtain ⟨m', hOne⟩ := hBatch.chosen ⟨_, hTurn.mem, _, rfl, rfl⟩
      have hMem : m ∈ M.filterMap (prePrepareFor? m.seqNum) :=
        List.mem_filterMap.mpr ⟨_, hTurn.mem, if_pos rfl⟩
      rw [hOne] at hMem
      rw [requestAt, chosen, hOne, ← List.mem_singleton.mp hMem]
      rfl
    exact ⟨_, rfl, delivered_prePrepare w hIdle hSender hView hWindow hNone hChosen hCommits hRequest⟩
  · rename_i m conn
    obtain ⟨hView, hWindow, hNone⟩ := hFresh _ rfl
    have hDigest : ∀ pp, chosen l m.seqNum = some pp → pp.reqDigest = m.reqDigest :=
      fun pp hpp => hBatch.digest hTurn.mem rfl (hTurn.chosen_mem hpp)
    exact ⟨_, rfl, delivered_prepare w hIdle hSender hView hWindow hNone hDigest⟩
  · rename_i m conn
    obtain ⟨hView, hWindow, hNone⟩ := hFresh _ rfl
    obtain ⟨pp, hpp⟩ := hTurn.commit m conn rfl
    have hDigest : pp.reqDigest = m.reqDigest := hBatch.digest hTurn.mem rfl (hTurn.chosen_mem hpp)
    exact ⟨_, rfl, delivered_commit w hIdle hView hWindow hNone hpp hDigest⟩
  · exact hSender.elim

theorem delivered_nil (hBatch : Batch cfg s M) : Delivered cfg s M [] s := by
  have hNever : ∀ k, ¬Touched [] k := by
    rintro k ⟨i, hi, -⟩
    cases hi
  refine ⟨⟨rfl, rfl, rfl, rfl, rfl⟩, fun k hk => absurd hk (hNever k), fun _ _ => rfl,
    ⟨0, rfl, fun j hj => absurd hj (Nat.not_lt_zero j)⟩, fun k hStage => ?_⟩
  -- what is in the log already is none of the numbers of the batch
  cases hChosen : chosen M k with
  | none => rw [requestAt, hChosen]
  | some m =>
    obtain ⟨i, hi, hm⟩ := List.mem_filterMap.mp (List.mem_of_mem_head? hChosen)
    obtain ⟨conn, rfl, rfl⟩ := prePrepareFor?_eq_some hm
    obtain ⟨e, he⟩ := TreeMap.mem_iff_exists.mp (mem_of_stage hStage)
    rw [(hBatch.fresh _ hi _ rfl).2.2] at he
    cases he

theorem delivered_prefix {t : Bool} {L : List Input} (hs : Reach cfg t Anything s)
    (hIdle : s.viewChanging = false) (hBatch : Batch cfg s M) (hPerm : M.Perm L) (hOrder : CommitsLast L)
    (hPrefix : l <+: L) :
    ∃ u, deliver cfg s l = some u ∧ Reach cfg t Anything u ∧ Delivered cfg s M l u := by
  induction l using List.reverseRecOn with
  | nil => exact ⟨s, rfl, hs, delivered_nil hBatch⟩
  | append_singleton l i ih =>
    obtain ⟨rest, hSplit⟩ := hPrefix
    obtain ⟨u, hRun, hu, w⟩ := ih ⟨i :: rest, by rw [← hSplit, List.append_assoc]; rfl⟩
    have hTurn : Turn M l i := turn_of_perm hBatch hPerm hOrder (by rw [← hSplit, List.append_assoc]; rfl)
    obtain ⟨u', hCall, w'⟩ := delivered_handle hBatch hIdle hTurn w
    exact ⟨u', (deliver_append hRun i).trans hCall, .step hu trivial hCall, w'⟩

theorem cell_perm {l' : List Input} (hBatch : Batch cfg s l) (hPerm : l.Perm l') (hTouched : Touched l k) :
    cell cfg l k = cell cfg l' k := by
  have hIds : ∀ f, ids f l = ids f l' := fun f => List.toFinset_eq_of_perm _ _ (hPerm.filterMap f)
  have hChosen : chosen l k = chosen l' k := by
    obtain ⟨m, hm⟩ := hBatch.chosen hTouched
    have hOther := hPerm.filterMap (prePrepareFor? k)
    rw [hm] at hOther
    rw [chosen, chosen, hm, List.perm_singleton.mp hOther.symm]
  unfold cell
  rw [hChosen, hIds, hIds]

theorem touched_perm {l' : List Input} (hPerm : l.Perm l') : Touched l k ↔ Touched l' k := by
  constructor
  · rintro ⟨i, hi, hx⟩
    exact ⟨i, hPerm.mem_iff.mp hi, hx⟩
  · rintro ⟨i, hi, hx⟩
    exact ⟨i, hPerm.mem_iff.mpr hi, hx⟩

end

/-- A batch of messages of the normal case is delivered in two orders, in both of which no commit comes
before its pre-prepare. The log and everything that execution writes are the same at the end. -/
theorem delivery_order {t : Bool} {s : Node σ} (hs : Reach cfg t Anything s) (hIdle : s.viewChanging = false)
    {l l' : List Input} (hBatch : Batch cfg s l) (hPerm : l.Perm l') (hOrder : CommitsLast l)
    (hOrder' : CommitsLast l') :
    ∃ u u', deliver cfg s l = some u ∧ deliver cfg s l' = some u' ∧ u.reqlog = u'.reqlog ∧
      u.lastExec = u'.lastExec ∧ u.lastReplies = u'.lastReplies ∧ u.checkpoints = u'.checkpoints ∧
      u.service = u'.service := by
  obtain ⟨u, hRun, hu, w⟩ := delivered_prefix hs hIdle hBatch (.refl l) hOrder (List.prefix_refl l)
  obtain ⟨u', hRun', hu', w'⟩ := delivered_prefix hs hIdle hBatch hPerm hOrder' (List.prefix_refl l')
  have hLog : u.reqlog = u'.reqlog := by
    refine Std.ExtTreeMap.ext_getElem? fun k => ?_
    by_cases hTouched : Touched l k
    · rw [w.touched k hTouched, w'.touched k ((touched_perm hPerm).mp hTouched),
        cell_perm hBatch hPerm hTouched]
    · rw [w.others k hTouched, w'.others k fun h => hTouched ((touched_perm hPerm).mpr h)]
  have hCore := w.replays.core_eq w'.replays hLog (settled_reach hu) (settled_reach hu')
  exact ⟨u, u', hRun, hRun', hLog, congrArg Core.lastExec hCore, congrArg Core.lastReplies hCore,
    congrArg Core.checkpoints hCore, congrArg Core.service hCore⟩

/-- Messages for the numbers 1 and 2, first in their natural order; then with the prepares in front and
number 2 before number 1, so that nothing can be executed before the last message. -/
def inTurn : List Input :=
  [.recv (.prePrepare ⟨0, 1, 7, ⟨"A", 1, 9⟩⟩) 0, .recv (.prepare ⟨0, 1, 7, 2⟩) 2, .recv (.commit ⟨0, 1, 7, 0⟩) 0,
    .recv (.commit ⟨0, 1, 7, 2⟩) 2, .recv (.prePrepare ⟨0, 2, 9, ⟨"B", 2, 9⟩⟩) 0,
    .recv (.prepare ⟨0, 2, 9, 2⟩) 2, .recv (.commit ⟨0, 2, 9, 0⟩) 0, .recv (.commit ⟨0, 2, 9, 2⟩) 2]

def outOfTurn : List Input :=
  [.recv (.prepare ⟨0, 2, 9, 2⟩) 2, .recv (.prepare ⟨0, 1, 7, 2⟩) 2,
    .recv (.prePrepare ⟨0, 2, 9, ⟨"B", 2, 9⟩⟩) 0, .recv (.commit ⟨0, 2, 9, 2⟩) 2, .recv (.commit ⟨0, 2, 9, 0⟩) 0,
    .recv (.prePrepare ⟨0, 1, 7, ⟨"A", 1, 9⟩⟩) 0, .recv (.commit ⟨0, 1, 7, 0⟩) 0, .recv (.commit ⟨0, 1, 7, 2⟩) 2]

theorem delivery_order_two_numbers : ∃ s u u' : Node (List String),
    Reach { Config.sample 4 200 2 with id := 1 } false Anything s ∧
    deliver { Config.sample 4 200 2 with id := 1 } s inTurn = some u ∧
    deliver { Config.sample 4 200 2 with id := 1 } s outOfTurn = some u' ∧ u.lastExec = 2 ∧
    u.reqlog = u'.reqlog ∧ u.lastExec = u'.lastExec ∧ u.lastReplies = u'.lastReplies ∧
    u.checkpoints = u'.checkpoints ∧ u.service = u'.service := by
  let cfg := { Config.sample 4 200 2 with id := 1 }
  obtain ⟨s, hs, hIdle, hBatch, hTwo⟩ := Machine.exists_reach (machine cfg false) Anything
    [.recv (.handshake ⟨0⟩) 0] (fun s => s.viewChanging = false ∧ Batch cfg s inTurn ∧
      (deliver cfg s inTurn).map (·.lastExec) = some 2) (by decide +kernel)
  have hPerm : inTurn.Perm outOfTurn := by decide
  have hOrder : CommitsLast inTurn := by simp [CommitsLast, inTurn, NotOvertaken]
  have hOrder' : CommitsLast outOfTurn := by simp [CommitsLast, outOfTurn, NotOvertaken]
  obtain ⟨u, u', hRun, hRun', hSame⟩ := delivery_order hs hIdle hBatch hPerm hOrder hOrder'
  rw [hRun] at hTwo
  exact ⟨s, u, u', hs, hRun, hRun', Option.some.inj hTwo, hSame⟩

end Node
end Pbft
