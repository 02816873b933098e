import Pbft.Node.Announcement

/-! # The views that a replica goes through

A view is installed by a VIEW-CHANGE that completes a quorum or by a NEW-VIEW. Both tests are on
the 64-bit number of the message and both assignments keep its low 32 bits, and the first one
also takes the current view, in the middle of a change as well as outside of one.
-/
namespace Pbft
set_option autoImplicit false

variable {σ : Type} {cfg : Config σ}

namespace Node

/-- The next_view of the message that makes the call install a view. -/
def installs? (cfg : Config σ) (s₀ : Node σ) : Input → Option UInt64
  | .recv (.newView m) conn => if s₀.acceptsNewview cfg m conn then some m.nextView else none
  | i => (offered? cfg s₀ i).bind fun m => if Completes cfg s₀ m then some m.nextView else none

theorem mem_installs?_of_completes {s₀ : Node σ} {i : Input} {m : ViewChangeMsg}
    (hi : Offers cfg s₀ i m) (h : Completes cfg s₀ m) : m.nextView ∈ installs? cfg s₀ i := by
  rcases hi with ⟨conn, rfl⟩ | ⟨rfl, rfl⟩
  · simp [installs?, offered?, h]
  · simp [installs?, offered?, h]

theorem mem_installs?_of_accepts {s₀ : Node σ} {m : NewViewMsg} {conn : Conn}
    (h : s₀.acceptsNewview cfg m conn) : m.nextView ∈ installs? cfg s₀ (.recv (.newView m) conn) := by
  simp [installs?, h]

theorem view_of_step {s₀ s s' : Node σ} {i : Input} (hStep : Step cfg s₀ i s s') :
    s'.view = s.view ∨ ∃ v ∈ installs? cfg s₀ i, s'.view = v.toUInt32 := by
  cases hStep with
  | @installView _ m _ _ hi hView hSame hMine hWith _ hQuorum =>
    have hCompletes : Completes cfg s₀ m := ⟨hSame.1 ▸ hView, hMine, hWith ▸ hQuorum⟩
    exact .inr ⟨m.nextView, mem_installs?_of_completes hi hCompletes, rfl⟩
  | @enterView m conn hi hAccepts =>
    subst hi
    exact .inr ⟨m.nextView, mem_installs?_of_accepts hAccepts, rfl⟩
  | execute =>
    rw [executeEntry_eq]
    exact .inl rfl
  | beginViewChange =>
    rw [beginViewChange_eq]
    exact .inl rfl
  | _ => exact .inl rfl

theorem view_of_handle {s s' : Node σ} {i : Input} (hCall : s.handle cfg i = some s') :
    s'.view = s.view ∨ ∃ v ∈ installs? cfg s i, s'.view = v.toUInt32 := by
  refine handle_invariant (I := fun t => t.view = s.view ∨ ∃ v ∈ installs? cfg s i, t.view = v.toUInt32)
    (fun t t' ht hStep => ?_) (.inl rfl) hCall
  rcases view_of_step hStep with hSame | hNew
  · rwa [hSame]
  · exact .inr hNew

theorem view_onViewchange {m : ViewChangeMsg} {s s' : Node σ} (h : Completes cfg s m)
    (hCall : s.onViewchange cfg m = some s') : s'.view = m.nextView.toUInt32 := by
  unfold onViewchange at hCall
  rw [if_neg (UInt64.not_lt.mpr h.1), if_neg (not_not.mpr h.2.1), if_pos h.2.2] at hCall
  obtain ⟨O, -, rfl⟩ := Option.map_eq_some_iff.mp hCall
  rw [manageTimer_eq]
  rfl

theorem view_onNewview {m : NewViewMsg} {conn : Conn} {s : Node σ} (h : s.acceptsNewview cfg m conn) :
    (s.onNewview cfg m conn).view = m.nextView.toUInt32 := by
  unfold onNewview
  rw [if_neg (not_not.mpr h), manageTimer_eq]
  exact (prePrepares_frame m.prePrepares conn (s.enterView m)).view

theorem mem_installs? {s : Node σ} {i : Input} {v : UInt64} (hv : v ∈ installs? cfg s i) :
    (∃ m conn, i = .recv (.newView m) conn ∧ s.acceptsNewview cfg m conn ∧ v = m.nextView) ∨
    ∃ m, Offers cfg s i m ∧ Completes cfg s m ∧ v = m.nextView := by
  have hOffered : ∀ i, v ∈ (offered? cfg s i).bind (fun m =>
      if Completes cfg s m then some m.nextView else none) →
      ∃ m, Offers cfg s i m ∧ Completes cfg s m ∧ v = m.nextView := by
    intro i hv
    obtain ⟨m, hm, hv⟩ := Option.bind_eq_some_iff.mp hv
    rw [Option.ite_none_right_eq_some] at hv
    exact ⟨m, offers_of_mem_offered? hm, hv.1, (Option.some.inj hv.2).symm⟩
  unfold installs? at hv
  split at hv
  · rename_i m conn
    rw [Option.mem_def, Option.ite_none_right_eq_some] at hv
    exact .inl ⟨m, conn, rfl, hv.1, (Option.some.inj hv.2).symm⟩
  · exact .inr (hOffered _ hv)

/-- What a call does to the view: it takes the low half of the number that it installs, if any. -/
theorem view_of_installs {s s' : Node σ} {i : Input} {v : UInt64} (hv : v ∈ installs? cfg s i)
    (hCall : s.handle cfg i = some s') : s'.view = v.toUInt32 := by
  rcases mem_installs? hv with ⟨m, conn, rfl, hAccepts, rfl⟩ | ⟨m, hi, hCompletes, rfl⟩
  · cases hCall
    exact view_onNewview hAccepts
  · rcases hi with ⟨conn, rfl⟩ | ⟨rfl, rfl⟩
    · exact view_onViewchange hCompletes hCall
    · refine view_onViewchange ?_ hCall
      rw [beginViewChange_eq]
      exact hCompletes

theorem le_of_mem_installs? {s : Node σ} {i : Input} {v : UInt64} (hv : v ∈ installs? cfg s i) :
    s.view.toNat ≤ v.toNat := by
  rw [← UInt32.toNat_toUInt64, ← UInt64.le_iff_toNat_le]
  rcases mem_installs? hv with ⟨m, conn, -, hAccepts, rfl⟩ | ⟨m, -, hCompletes, rfl⟩
  · have hLater := hAccepts.2.1
    rw [not_or, UInt64.not_le] at hLater
    exact UInt64.le_of_lt hLater.2
  · exact hCompletes.1

/-- A next_view that does not fit into view_, and of which too little is left: on_newview must
move to a later view, on_viewchange may stay where it is. -/
def Wraps (s₀ : Node σ) : Input → UInt64 → Prop
  | .recv (.newView _) _, v => 2 ^ 32 ≤ v.toNat ∧ v.toUInt32 ≤ s₀.view
  | _, v => 2 ^ 32 ≤ v.toNat ∧ v.toUInt32 < s₀.view

theorem wraps_of_lt {s₀ : Node σ} {i : Input} {v : UInt64} (hWide : 2 ^ 32 ≤ v.toNat)
    (h : v.toUInt32 < s₀.view) : Wraps s₀ i v := by
  unfold Wraps
  split
  · exact ⟨hWide, UInt32.le_of_lt h⟩
  · exact ⟨hWide, h⟩

theorem view_le_of_not_wraps {s : Node σ} {i : Input} {v : UInt64} (hv : v ∈ installs? cfg s i)
    (h : ¬Wraps s i v) : s.view ≤ v.toUInt32 := by
  by_cases hWide : 2 ^ 32 ≤ v.toNat
  · exact UInt32.not_lt.mp fun hlt => h (wraps_of_lt hWide hlt)
  · rw [UInt32.le_iff_toNat_le, toNat_toUInt32 (Nat.lt_of_not_le hWide)]
    exact le_of_mem_installs? hv

theorem view_lt_of_not_wraps {s : Node σ} {m : NewViewMsg} {conn : Conn}
    (hAccepts : s.acceptsNewview cfg m conn) (h : ¬Wraps s (.recv (.newView m) conn) m.nextView) :
    s.view < m.nextView.toUInt32 := by
  by_cases hWide : 2 ^ 32 ≤ m.nextView.toNat
  · exact UInt32.not_le.mp fun hle => h ⟨hWide, hle⟩
  · have hLater := hAccepts.2.1
    rw [not_or, UInt64.not_le, UInt64.lt_iff_toNat_lt, UInt32.toNat_toUInt64] at hLater
    rw [UInt32.lt_iff_toNat_lt, toNat_toUInt32 (Nat.lt_of_not_le hWide)]
    exact hLater.2

/-- Views are monotone, and NEW-VIEW moves on, in exactly the calls that do not install a view
whose number loses its upper half in this way. -/
theorem view_monotone_iff {s s' : Node σ} {i : Input} (hCall : s.handle cfg i = some s') :
    (s.view ≤ s'.view ∧ ∀ m conn, i = .recv (.newView m) conn → s.acceptsNewview cfg m conn →
      s.view < s'.view) ↔ ∀ v ∈ installs? cfg s i, ¬Wraps s i v := by
  constructor
  · rintro ⟨hLe, hLt⟩ v hv hWraps
    have hView := view_of_installs hv hCall
    unfold Wraps at hWraps
    split at hWraps
    · rename_i m conn _
      rcases mem_installs? hv with ⟨m', conn', hi, hAccepts, rfl⟩ | ⟨m', hi, -, -⟩
      · have hAfter := hLt m' conn' hi hAccepts
        rw [hView] at hAfter
        exact UInt32.not_le.mpr hAfter hWraps.2
      · rcases hi with ⟨_, hi⟩ | ⟨hi, -⟩
        · cases hi
        · cases hi
    · rw [hView] at hLe
      exact UInt32.not_le.mpr hWraps.2 hLe
  · intro h
    refine ⟨?_, fun m conn hi hAccepts => ?_⟩
    · rcases view_of_handle hCall with hSame | ⟨v, hv, hView⟩
      · rw [hSame]
        exact UInt32.le_refl _
      · rw [hView]
        exact view_le_of_not_wraps hv (h v hv)
    · subst hi
      have hv := mem_installs?_of_accepts hAccepts
      rw [view_of_installs hv hCall]
      exact view_lt_of_not_wraps hAccepts (h _ hv)

/-- A quorum of VIEW-CHANGE messages from replicas that have nothing to report. -/
def quorumFor (nextView : UInt64) : List ViewChangeMsg := [1, 2, 3].map (⟨nextView, 0, ·, [], []⟩)

def viewChanges (nextView : UInt64) : List Input :=
  (quorumFor nextView).map fun m => .recv (.viewChange m) m.replicaId.toNat

theorem view_monotone_iff_later : ∃ s s' : Node (List String),
    Reach (Config.sample 4 200 100) false Anything s ∧
    s.handle (Config.sample 4 200 100) (.recv (.viewChange ⟨8, 0, 3, [], []⟩) 3) = some s' ∧
    installs? (Config.sample 4 200 100) s (.recv (.viewChange ⟨8, 0, 3, [], []⟩) 3) = some 8 ∧
    s.view = 4 ∧ s.view ≤ s'.view := by
  obtain ⟨s, s', hs, hCall, hInstalls, hView⟩ := exists_call (Config.sample 4 200 100) false
    Anything (viewChanges 4 ++ (viewChanges 8).take 2)
    (.recv (.viewChange ⟨8, 0, 3, [], []⟩) 3)
    (fun s _ => installs? (Config.sample 4 200 100) s (.recv (.viewChange ⟨8, 0, 3, [], []⟩) 3) = some 8 ∧
      s.view = 4) (by decide +kernel)
  refine ⟨s, s', hs, hCall, hInstalls, hView, ((view_monotone_iff hCall).mpr fun v hv hWraps => ?_).1⟩
  rw [hInstalls] at hv
  cases hv
  exact absurd hWraps.1 (by decide)

theorem view_moves_back : ∃ s s' : Node (List String),
    Reach (Config.sample 4 200 100) false Anything s ∧
    s.handle (Config.sample 4 200 100) (.recv (.viewChange ⟨0x100000000, 0, 3, [], []⟩) 3) = some s' ∧
    s'.view < s.view :=
  exists_call (Config.sample 4 200 100) false Anything
    (viewChanges 4 ++ (viewChanges 0x100000000).take 2)
    (.recv (.viewChange ⟨0x100000000, 0, 3, [], []⟩) 3) (fun s s' => s'.view < s.view) (by decide +kernel)

end Node
end Pbft
