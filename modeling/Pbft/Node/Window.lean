import Pbft.Node.Run
import Mathlib.Order.Interval.Finset.Nat

/-! # The log window

Every key of the log lies between the low watermark and the low watermark plus the log size,
as natural numbers. That form survives the wrap of the high watermark: a key is a 64-bit
number, so once the sum exceeds 64 bits the upper bound says nothing and the window admits
nothing either.
-/
namespace Pbft.Node
set_option autoImplicit false

variable {σ : Type} {cfg : Config σ}

structure Window (L : UInt32) (h H lastExec : UInt64) (log : ReqLog) : Prop where
  high : H = h + L.toUInt64
  low : ∀ k ∈ log, h ≤ k
  top : ∀ k ∈ log, k.toNat ≤ h.toNat + L.toNat
  exec : lastExec.toNat ≤ h.toNat + L.toNat

abbrev WindowInv (cfg : Config σ) (s : Node σ) : Prop :=
  Window cfg.L s.h s.H s.lastExec s.reqlog

section
variable {L : UInt32} {h H lastExec : UInt64} {log : ReqLog}

theorem Window.le_high (w : Window L h H lastExec log) : H.toNat ≤ h.toNat + L.toNat := by
  rw [w.high, ← UInt32.toNat_toUInt64]
  exact Word.toNat_add_le _ _

theorem Window.insert (w : Window L h H lastExec log) {k : UInt64} (e : ReqLogEntry)
    (hLow : h ≤ k) (hTop : k.toNat ≤ h.toNat + L.toNat) : Window L h H lastExec (log.insert k e) where
  high := w.high
  low a ha := by
    rcases Std.ExtTreeMap.mem_insert.mp ha with hka | ha
    · exact Std.LawfulEqCmp.eq_of_compare hka ▸ hLow
    · exact w.low a ha
  top a ha := by
    rcases Std.ExtTreeMap.mem_insert.mp ha with hka | ha
    · exact Std.LawfulEqCmp.eq_of_compare hka ▸ hTop
    · exact w.top a ha
  exec := w.exec

theorem Window.insert_mem (w : Window L h H lastExec log) {k : UInt64} (e : ReqLogEntry)
    (hk : k ∈ log) : Window L h H lastExec (log.insert k e) :=
  w.insert e (w.low k hk) (w.top k hk)

theorem Window.advance (w : Window L h H lastExec log) {h' : UInt64} (hle : h ≤ h') :
    Window L h' (h' + L.toUInt64) lastExec (log.filter fun k _ => !decide (k ≤ h')) where
  high := rfl
  low k hk := by
    obtain ⟨e, he⟩ := TreeMap.mem_iff_exists.mp hk
    have hgt := ((TreeMap.lookup_filter _ k e).mp he).2
    simp only [Bool.not_eq_true', decide_eq_false_iff_not, UInt64.not_le] at hgt
    exact UInt64.le_of_lt hgt
  top k hk := by
    have hold := w.top k (Std.ExtTreeMap.mem_of_mem_filter hk)
    rw [UInt64.le_iff_toNat_le] at hle
    omega
  exec := by
    have hold := w.exec
    rw [UInt64.le_iff_toNat_le] at hle
    omega

end

theorem mem_of_entry {s : Node σ} {k : UInt64} (h : s.entry k ≠ {}) : k ∈ s.reqlog := by
  by_contra hk
  exact h (Std.ExtTreeMap.getD_eq_fallback hk)

theorem mem_of_stage {s : Node σ} {k : UInt64} (h : (s.entry k).stage ≠ .none) : k ∈ s.reqlog :=
  mem_of_entry fun hEmpty => h (by rw [hEmpty])

theorem mem_of_hasPreprepare {s : Node σ} {k : UInt64} (h : (s.entry k).hasPreprepare = true) :
    k ∈ s.reqlog :=
  mem_of_entry fun hEmpty => by simp [hEmpty] at h

theorem inWindow_iff {s : Node σ} {k : UInt64} : s.inWindow k ↔ s.h ≤ k ∧ k ≤ s.H := by
  unfold inWindow
  rw [not_or, UInt64.not_lt, gt_iff_lt, UInt64.not_lt]

theorem WindowInv.insertAt {s : Node σ} (w : WindowInv cfg s) {k : UInt64} (e : ReqLogEntry)
    (hk : s.inWindow k) : Window cfg.L s.h s.H s.lastExec (s.reqlog.insert k e) := by
  obtain ⟨hLow, hHigh⟩ := inWindow_iff.mp hk
  rw [UInt64.le_iff_toNat_le] at hHigh
  exact Window.insert w e hLow (hHigh.trans w.le_high)

/-- No execution can start from the largest sequence number: its successor would be key 0,
which is only in the log while the window has not moved at all. -/
theorem WindowInv.succ {s : Node σ} (w : WindowInv cfg s) {e : ReqLogEntry}
    (he : s.reqlog[s.lastExec + 1]? = some e) : (s.lastExec + 1).toNat = s.lastExec.toNat + 1 := by
  rcases Word.toNat_succ_cases s.lastExec with hSucc | ⟨hMax, hZero⟩
  · exact hSucc
  · have hLow := w.low _ (TreeMap.mem_iff_exists.mpr ⟨e, he⟩)
    have hExec := w.exec
    have hL := cfg.L.toNat_lt
    rw [UInt64.le_iff_toNat_le] at hLow
    omega

theorem windowInv_init (t : Bool) : WindowInv cfg (Node.init cfg t) where
  high := (UInt64.zero_add _).symm
  low k hk := by simp [Node.init] at hk
  top k hk := by simp [Node.init] at hk
  exec := Nat.zero_le _

theorem windowInv_execute {s : Node σ} {e : ReqLogEntry} (w : WindowInv cfg s)
    (hEntry : s.reqlog[s.lastExec + 1]? = some e) : WindowInv cfg (s.executeEntry cfg e) := by
  rw [executeEntry_eq]
  refine ⟨w.high, w.low, w.top, ?_⟩
  exact w.top _ (TreeMap.mem_iff_exists.mpr ⟨_, hEntry⟩)

theorem windowInv_step {s₀ s s' : Node σ} {i : Input} (w : WindowInv cfg s)
    (hStep : Step cfg s₀ i s s') : WindowInv cfg s' := by
  cases hStep with
  | handshake | timer | resend | forward | voteCheckpoint | storeViewChange | recompute => exact w
  | propose _ hProposes =>
    have hLow := hProposes.low
    have hHigh := hProposes.high
    have hSucc := Word.toNat_succ hHigh
    rw [UInt64.lt_iff_toNat_lt] at hHigh
    rw [UInt64.le_iff_toNat_le] at hLow
    have hTop := w.le_high
    have hKey : s₀.h ≤ s₀.seqNum + 1 := by
      rw [UInt64.le_iff_toNat_le]
      omega
    exact w.insert _ hKey (by omega)
  | accept _ _ hCurrent => exact w.insertAt _ hCurrent.2.2
  | votePrepare _ _ hCurrent => exact w.insertAt _ hCurrent.2.2
  | touch _ hCurrent => exact w.insertAt _ hCurrent.2.2
  | voteCommit _ hCurrent => exact w.insertAt _ hCurrent.2.2
  | markPrepared hStage => exact w.insert_mem _ (mem_of_stage (by simp [hStage]))
  | markCommitted hStage => exact w.insert_mem _ (mem_of_stage (by simp [hStage]))
  | execute hEntry => exact windowInv_execute w hEntry
  | stabilize _ hLow => exact w.advance hLow
  | beginViewChange =>
    rw [beginViewChange_eq]
    exact w
  | installView | enterView => exact w

theorem windowInv_reach {t : Bool} {ok : Node σ → Input → Prop} {s : Node σ}
    (hs : Reach cfg t ok s) : WindowInv cfg s :=
  Reach.invariant (windowInv_init t) (fun _ _ _ _ _ _ => windowInv_step) hs

theorem watermarks_step {s₀ s s' : Node σ} {i : Input} (w : WindowInv cfg s)
    (hStep : Step cfg s₀ i s s') : s.h ≤ s'.h ∧ s.lastExec ≤ s'.lastExec := by
  cases hStep with
  | execute hEntry =>
    rw [executeEntry_eq]
    refine ⟨UInt64.le_refl _, UInt64.le_iff_toNat_le.mpr ?_⟩
    have hSucc := w.succ hEntry
    dsimp only
    omega
  | stabilize _ hLow => exact ⟨hLow, UInt64.le_refl _⟩
  | beginViewChange =>
    rw [beginViewChange_eq]
    exact ⟨UInt64.le_refl _, UInt64.le_refl _⟩
  | _ => exact ⟨UInt64.le_refl _, UInt64.le_refl _⟩

theorem watermarks_handle {s s' : Node σ} {i : Input} (w : WindowInv cfg s)
    (h : s.handle cfg i = some s') : s.h ≤ s'.h ∧ s.lastExec ≤ s'.lastExec := by
  have hAll : WindowInv cfg s' ∧ s.h ≤ s'.h ∧ s.lastExec ≤ s'.lastExec := by
    refine handle_invariant (I := fun t => WindowInv cfg t ∧ s.h ≤ t.h ∧ s.lastExec ≤ t.lastExec)
      (fun t t' ht hStep => ?_) ⟨w, UInt64.le_refl _, UInt64.le_refl _⟩ h
    have hMono := watermarks_step ht.1 hStep
    exact ⟨windowInv_step ht.1 hStep, UInt64.le_trans ht.2.1 hMono.1, UInt64.le_trans ht.2.2 hMono.2⟩
  exact hAll.2

theorem Window.size_le {L : UInt32} {h H lastExec : UInt64} {log : ReqLog}
    (w : Window L h H lastExec log) : log.size ≤ L.toNat + 1 := by
  have hCard : log.size ≤ (Finset.Icc h.toNat (h.toNat + L.toNat)).card := by
    refine TreeMap.size_le_card UInt64.toNat (fun _ _ => UInt64.toNat_inj.mp) _ fun k hk => ?_
    exact Finset.mem_Icc.mpr ⟨UInt64.le_iff_toNat_le.mp (w.low k hk), w.top k hk⟩
  rw [Nat.card_Icc] at hCard
  omega

/-- The log window of a replica under arbitrary inputs, the wrap of the high watermark
included: the watermarks and the last executed number never move back. -/
theorem log_window {t : Bool} {s : Node σ} (hs : Reach cfg t Anything s) :
    s.H = s.h + cfg.L.toUInt64 ∧
    (∀ k ∈ s.reqlog, s.h ≤ k) ∧
    (s.h.toNat + cfg.L.toNat < 2 ^ 64 → ∀ k ∈ s.reqlog, k ≤ s.H) ∧
    s.reqlog.size ≤ cfg.L.toNat + 1 ∧
    ∀ i s', s.handle cfg i = some s' → s.h ≤ s'.h ∧ s.lastExec ≤ s'.lastExec := by
  have w := windowInv_reach hs
  refine ⟨w.high, w.low, fun hNoWrap k hk => ?_, w.size_le, fun i s' h => watermarks_handle w h⟩
  rw [UInt64.le_iff_toNat_le, w.high, UInt64.toNat_add, UInt32.toNat_toUInt64,
    Nat.mod_eq_of_lt hNoWrap]
  exact w.top k hk

theorem log_window_wrapped : ∃ s, Reach (Config.sample 4 200 100) false Anything s ∧
    s.h = 0xFFFFFFFFFFFFFFFF ∧ s.H = 199 ∧ s.reqlog.size ≤ 201 := by
  obtain ⟨s, hs, hLow, hHigh⟩ := Machine.exists_reach (machine (Config.sample 4 200 100) false)
    Anything ([1, 2, 3].map fun r => .recv (.checkpoint ⟨0xFFFFFFFFFFFFFFFF, 7, r⟩) 0)
    (fun s => s.h = 0xFFFFFFFFFFFFFFFF ∧ s.H = 199) (by decide +kernel)
  exact ⟨s, hs, hLow, hHigh, (log_window hs).2.2.2.1⟩

end Pbft.Node
