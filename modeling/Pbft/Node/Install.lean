import Pbft.Node.Redelivery
import Pbft.Node.Validation

/-! # Two ways into a new view

A backup goes through the O set of the NEW-VIEW and logs what it admits. The new primary, which has
built the O set, enters the view without doing so: its log is the one it had before, so the
re-issued pre-prepares are in it only if they were there already.
-/
namespace Pbft
set_option autoImplicit false

variable {σ : Type} {cfg : Config σ}

namespace Node

/-- The pre-prepare is in the log, in the view in which the replica is. -/
def Logs (s : Node σ) (pp : PrePrepareMsg) : Prop :=
  ∃ e, s.reqlog[pp.seqNum]? = some e ∧ e.hasPreprepare = true ∧ e.view = s.view ∧ e.digest = pp.reqDigest

/-- From s to s' a view with this O set has been installed, and all of it that s admits is logged. -/
def Mirrors (s s' : Node σ) (O : List PrePrepareMsg) : Prop := ∀ pp ∈ O, Admits s pp → Logs s' pp

theorem logs_iff {s : Node σ} {pp : PrePrepareMsg} : Logs s pp ↔ (s.entry pp.seqNum).hasPreprepare = true ∧
    (s.entry pp.seqNum).view = s.view ∧ (s.entry pp.seqNum).digest = pp.reqDigest := by
  constructor
  · rintro ⟨e, hLookup, hPre, hView, hDigest⟩
    rw [entry_of_lookup hLookup]
    exact ⟨hPre, hView, hDigest⟩
  · rintro ⟨hPre, hView, hDigest⟩
    obtain ⟨e, hLookup⟩ := TreeMap.mem_iff_exists.mp (mem_of_hasPreprepare hPre)
    rw [entry_of_lookup hLookup] at hPre hView hDigest
    exact ⟨e, hLookup, hPre, hView, hDigest⟩

theorem onPreprepareImpl_logs {pp : PrePrepareMsg} {conn : Conn} {s : Node σ}
    (hChanging : s.viewChanging = false) (hView : pp.view = s.view) (hAdmits : Admits s pp) :
    Logs (s.onPreprepareImpl cfg pp conn true) pp := by
  have hGuard : Guard cfg pp conn true s := ⟨.inl rfl, ⟨hChanging, hView, hAdmits.1⟩, hAdmits.2⟩
  rw [logs_iff, (onPreprepareImpl_frame pp conn true s).view,
    entry_of_insert (reqlog_onPreprepareImpl hGuard), if_pos rfl]
  rw [ReqLogEntry.hasPreprepare_tryPrepare, ReqLogEntry.view_tryPrepare, ReqLogEntry.digest_tryPrepare]
  exact ⟨rfl, hView, rfl⟩

/-- Once a pre-prepare of the view is logged, none for another digest takes its place. -/
theorem onPreprepareImpl_keeps {m pp : PrePrepareMsg} {conn : Conn} {s : Node σ} (h : Logs s pp) :
    Logs (s.onPreprepareImpl cfg m conn true) pp := by
  rcases onPreprepareImpl_cases cfg m conn true s with hSame | hGuard
  · rwa [hSame]
  rw [logs_iff] at h ⊢
  rw [(onPreprepareImpl_frame m conn true s).view, entry_of_insert (reqlog_onPreprepareImpl hGuard)]
  split
  · rename_i hSeq
    rw [ReqLogEntry.hasPreprepare_tryPrepare, ReqLogEntry.view_tryPrepare, ReqLogEntry.digest_tryPrepare]
    refine ⟨rfl, hGuard.current.2.1, ?_⟩
    rw [← hSeq] at h
    exact (hGuard.digest h.1).symm.trans h.2.2
  · exact h

theorem admits_onPreprepareImpl {m pp : PrePrepareMsg} {conn : Conn} {s : Node σ} (hNe : m.seqNum ≠ pp.seqNum)
    (h : Admits s pp) : Admits (s.onPreprepareImpl cfg m conn true) pp := by
  have hFrame : Frame s (s.onPreprepareImpl cfg m conn true) := onPreprepareImpl_frame m conn true s
  rcases onPreprepareImpl_cases cfg m conn true s with hSame | hGuard
  · rwa [hSame]
  · refine ⟨(inWindow_congr hFrame.low hFrame.high).mpr h.1, ?_⟩
    rw [entry_of_insert (reqlog_onPreprepareImpl hGuard), if_neg hNe]
    exact h.2

theorem prePrepares_logs {O : List PrePrepareMsg} {conn : Conn} {s : Node σ} {pp : PrePrepareMsg}
    (h : Logs s pp) : Logs (O.foldl (fun s pp => s.onPreprepareImpl cfg pp conn true) s) pp := by
  induction O generalizing s with
  | nil => exact h
  | cons m O ih => exact ih (onPreprepareImpl_keeps h)

theorem prePrepares_mirrors {O : List PrePrepareMsg} {s : Node σ} (conn : Conn)
    (hChanging : s.viewChanging = false) (hView : ∀ pp ∈ O, pp.view = s.view)
    (hNumbers : O.Pairwise fun a b => a.seqNum < b.seqNum) :
    Mirrors s (O.foldl (fun s pp => s.onPreprepareImpl cfg pp conn true) s) O := by
  induction O generalizing s with
  | nil =>
    intro pp hpp
    cases hpp
  | cons m O ih =>
    have hFrame : Frame s (s.onPreprepareImpl cfg m conn true) := onPreprepareImpl_frame m conn true s
    obtain ⟨hFirst, hRest⟩ := List.pairwise_cons.mp hNumbers
    intro pp hpp hAdmits
    rcases List.mem_cons.mp hpp with rfl | hpp
    · rw [List.foldl_cons]
      exact prePrepares_logs (onPreprepareImpl_logs hChanging (hView _ List.mem_cons_self) hAdmits)
    · refine ih (hFrame.changing.trans hChanging) (fun a ha => ?_) hRest pp hpp ?_
      · rw [hFrame.view]
        exact hView a (List.mem_cons_of_mem _ ha)
      · refine admits_onPreprepareImpl (fun hSeq => ?_) hAdmits
        have hLt := hFirst pp hpp
        rw [hSeq] at hLt
        exact UInt64.lt_irrefl _ hLt

/-- Every replica that accepts the NEW-VIEW of a new primary logs its O set. -/
theorem onNewview_mirrors {V : List ViewChangeMsg} {v : UInt64} {nv : NewViewMsg} {backup : Config σ}
    {conn : Conn} {t : Node σ} (hBuilt : newViewMsg cfg v V = some nv)
    (hAccepts : t.acceptsNewview backup nv conn) : Mirrors t (t.onNewview backup nv conn) nv.prePrepares := by
  obtain ⟨O, hO, rfl⟩ := Option.map_eq_some_iff.mp hBuilt
  have hBounded : Bounded V := by
    apply bounded_of_length hO
    rw [← toNat_maxS_sub]
    exact hAccepts.2.2.2
  have hView : ∀ pp ∈ O, pp.view = v.toUInt32.toUInt64.toUInt32 := by
    intro pp hpp
    obtain ⟨n, -, -, rfl⟩ := (mem_oSet hO pp).mp hpp
    rw [reissue_view, UInt32.toUInt32_toUInt64]
  have hIdle : (t.enterView ⟨v.toUInt32.toUInt64, V, O⟩).viewChanging = false := rfl
  have hLoop : Mirrors _ (O.foldl (fun s pp => s.onPreprepareImpl backup pp conn true)
      (t.enterView ⟨v.toUInt32.toUInt64, V, O⟩)) O :=
    prePrepares_mirrors conn hIdle hView (oSet_ordered hBounded hO)
  rw [onNewview, if_neg (not_not.mpr hAccepts), manageTimer_eq]
  exact hLoop

/-- Each number of the O set that lies in the window has been given out before, and if it has been
given to the digest that is selected now then in the new view. -/
def Covered (cfg : Config σ) (s : Node σ) (m : ViewChangeMsg) : Prop :=
  ∀ n, minS (s.reports m) + 1 ≤ n → n ≤ maxS 0 (s.reports m) → s.inWindow n →
    (s.entry n).hasPreprepare = true ∧
    ((s.entry n).digest = (reissue cfg m.nextView (s.reports m) n).reqDigest →
      (s.entry n).view = m.nextView.toUInt32)

/-- The call has broadcast a NEW-VIEW, so it is the one that completes the quorum. -/
theorem onViewchange_announced {m : ViewChangeMsg} {s s' : Node σ} {nv : NewViewMsg}
    (hCall : s.onViewchange cfg m = some s') (hSent : s'.sent = s.sent ++ [.newView nv]) :
    newViewMsg cfg m.nextView (s.reports m) = some nv ∧ s'.reqlog = s.reqlog ∧
      s'.view = m.nextView.toUInt32 := by
  rcases onViewchange_cases hCall with rfl | ⟨rfl, -⟩ | ⟨-, O, hO, rfl⟩
  · simp at hSent
  · simp [storeViewChange] at hSent
  · rw [manageTimer_eq] at hSent ⊢
    have hEq := List.append_cancel_left hSent
    simp only [List.cons.injEq, Msg.newView.injEq, and_true] at hEq
    rw [← hEq]
    exact ⟨Option.map_eq_some_iff.mpr ⟨O, hO, rfl⟩, rfl, rfl⟩

/-- The new primary has the O set in its log exactly if it had it before. Whoever accepts its NEW-VIEW
has the O set in the log afterwards. -/
theorem install_mirrors_iff {m : ViewChangeMsg} {s s' : Node σ} {nv : NewViewMsg}
    (hCall : s.onViewchange cfg m = some s') (hSent : s'.sent = s.sent ++ [.newView nv]) :
    (Mirrors s s' nv.prePrepares ↔ Covered cfg s m) ∧
    ∀ (backup : Config σ) (t : Node σ) (conn : Conn), t.acceptsNewview backup nv conn →
      Mirrors t (t.onNewview backup nv conn) nv.prePrepares := by
  obtain ⟨hBuilt, hLog, hView⟩ := onViewchange_announced hCall hSent
  refine ⟨?_, fun backup t conn hAccepts => onNewview_mirrors hBuilt hAccepts⟩
  obtain ⟨O, hO, rfl⟩ := Option.map_eq_some_iff.mp hBuilt
  constructor
  · intro hMirrors n hLow hHigh hWindow
    have hLogs : Admits s (reissue cfg m.nextView (s.reports m) n) →
        Logs s' (reissue cfg m.nextView (s.reports m) n) :=
      hMirrors _ ((mem_oSet hO _).mpr ⟨n, hLow, hHigh, rfl⟩)
    rw [logs_iff, Admits, reissue_seqNum, entry_congr hLog, hView] at hLogs
    have hPre : (s.entry n).hasPreprepare = true := by
      by_contra hNone
      exact hNone (hLogs ⟨hWindow, fun h => absurd h hNone⟩).1
    exact ⟨hPre, fun hDigest => (hLogs ⟨hWindow, fun _ => hDigest⟩).2.1⟩
  · intro hCovered pp hpp hAdmits
    obtain ⟨n, hLow, hHigh, rfl⟩ := (mem_oSet hO pp).mp hpp
    rw [Admits, reissue_seqNum] at hAdmits
    obtain ⟨hPre, hSame⟩ := hCovered n hLow hHigh hAdmits.1
    rw [logs_iff, reissue_seqNum, entry_congr hLog, hView]
    exact ⟨hPre, hSame (hAdmits.2 hPre), hAdmits.2 hPre⟩

/-- The primary of view 4 has given number 1 to a request when a further VIEW-CHANGE for view 4, with
a proof for this very assignment, makes it announce the view once more. -/
theorem install_mirrors_iff_again : ∃ s s' : Node (List String), ∃ nv,
    Reach (Config.sample 4 200 100) false Fires s ∧ s'.sent = s.sent ++ [.newView nv] ∧
    nv.prePrepares.map (·.seqNum) = [1] ∧ Mirrors s s' nv.prePrepares := by
  let digest := (Config.sample 4 200 100).getHash ⟨"A", 1, 9⟩
  let m : ViewChangeMsg := ⟨4, 0, 1, [], [⟨4, 1, digest⟩]⟩
  let nv : NewViewMsg := ⟨4, [m, ⟨4, 0, 2, [], []⟩, ⟨4, 0, 3, [], []⟩], [⟨4, 1, digest, ⟨"", 0, 0⟩⟩]⟩
  obtain ⟨s, s', hs, hCall, hSent, hReports, hPre, hView⟩ := exists_call (Config.sample 4 200 100) false Fires
    (((oneProof 1).map fun m => .recv (.viewChange { m with preparedProofs := [] }) m.replicaId.toNat) ++
      [.recv (.request ⟨"A", 1, 9⟩) 9]) (.recv (.viewChange m) 1)
    (fun s s' => s'.sent = s.sent ++ [.newView nv] ∧ s.reports m = nv.viewChanges ∧
      (s.entry 1).hasPreprepare = true ∧ (s.entry 1).view = 4) (by decide +kernel)
  refine ⟨s, s', nv, hs, hSent, rfl, (install_mirrors_iff hCall hSent).1.mpr fun n hLow hHigh _ => ?_⟩
  have hOne : n = 1 := by
    rw [hReports] at hLow hHigh
    have hMin : minS nv.viewChanges + 1 = 1 := by decide
    have hMax : maxS 0 nv.viewChanges = 1 := by decide
    rw [hMin, UInt64.le_iff_toNat_le] at hLow
    rw [hMax, UInt64.le_iff_toNat_le] at hHigh
    exact UInt64.toNat_inj.mp (Nat.le_antisymm hHigh hLow)
  rw [hOne]
  exact ⟨hPre, fun _ => hView⟩

/-- The new primary announces number 1 and has no entry for it. -/
theorem install_leaves_log : ∃ s s' : Node (List String), ∃ nv,
    Reach (Config.sample 4 200 100) false Fires s ∧
    s.handle (Config.sample 4 200 100) (.recv (.viewChange ⟨4, 0, 3, [], []⟩) 3) = some s' ∧
    s'.sent = s.sent ++ [.newView nv] ∧ ¬Mirrors s s' nv.prePrepares := by
  let pp : PrePrepareMsg := ⟨4, 1, 7, ⟨"", 0, 0⟩⟩
  let nv : NewViewMsg := ⟨4, oneProof 1, [pp]⟩
  obtain ⟨s, s', hs, hCall, hSent, hAdmits, hLog⟩ := exists_call (Config.sample 4 200 100) false Fires
    ((oneProof 1).take 2 |>.map fun m => .recv (.viewChange m) m.replicaId.toNat)
    (.recv (.viewChange ⟨4, 0, 3, [], []⟩) 3)
    (fun s s' => s'.sent = s.sent ++ [.newView nv] ∧ Admits s pp ∧ s'.reqlog[pp.seqNum]? = none)
    (by decide +kernel)
  refine ⟨s, s', nv, hs, hCall, hSent, fun hMirrors => ?_⟩
  obtain ⟨e, hLookup, -⟩ := hMirrors pp List.mem_cons_self hAdmits
  rw [hLog] at hLookup
  cases hLookup

end Node
end Pbft
