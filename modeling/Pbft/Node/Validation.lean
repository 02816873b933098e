import Pbft.Node.Changing
import Pbft.Node.Passes
import Pbft.Node.Selected
import Pbft.Node.Views

/-! # What on_newview checks

A backup is handed the V set and the O set of the new primary and could compute the second from the
first again. It compares two sizes instead. That is enough to let every honest NEW-VIEW through,
although the two sides find the size in different ways, and it lets others through as well.
-/
namespace Pbft
set_option autoImplicit false

variable {σ : Type} {cfg : Config σ}

/-- The NEW-VIEW that on_viewchange broadcasts when the messages of V are stored for the view. -/
def newViewMsg (cfg : Config σ) (nextView : UInt64) (V : List ViewChangeMsg) : Option NewViewMsg :=
  (oSet cfg nextView V).map fun O => ⟨nextView.toUInt32.toUInt64, V, O⟩

/-- The size that on_newview asks for. -/
theorem toNat_maxS_sub (V : List ViewChangeMsg) :
    (maxS (minS V) V - minS V).toNat = (maxS 0 V).toNat - (minS V).toNat := by
  have hMax := toNat_maxS (minS V) V
  have hle : minS V ≤ maxS (minS V) V := by
    rw [UInt64.le_iff_toNat_le]
    omega
  rw [UInt64.toNat_sub_of_le _ _ hle]
  omega

theorem oSet_length {nextView : UInt64} {V : List ViewChangeMsg} {O : List PrePrepareMsg}
    (hBounded : Bounded V) (hO : oSet cfg nextView V = some O) :
    O.length = (maxS 0 V).toNat - (minS V).toNat := by
  have hCount := (passes_iff.mp (passes_oSet hO)).2
  have hBound := (passes_iff.mp ((passes_reports_iff V).mpr hBounded)).2
  omega

/-- With the largest number among the checkpoints the loop starts over at zero, and its O set is not
of the size that on_newview asks for. -/
theorem bounded_of_length {nextView : UInt64} {V : List ViewChangeMsg} {O : List PrePrepareMsg}
    (hO : oSet cfg nextView V = some O) (hLength : O.length = (maxS 0 V).toNat - (minS V).toNat) :
    Bounded V := by
  have hPasses := passes_oSet hO
  rw [hLength] at hPasses
  exact (passes_reports_iff V).mp hPasses

namespace Node

theorem newView_idle {m : NewViewMsg} {conn : Conn} {s : Node σ} (h : s.acceptsNewview cfg m conn) :
    (s.onNewview cfg m conn).view = m.nextView.toUInt32 ∧ (s.onNewview cfg m conn).viewChanging = false ∧
      (s.onNewview cfg m conn).viewChangeTimeoutCount = 0 := by
  have hIdle := not_changing_onNewview h
  have hBefore : s.viewChanging = false → s.viewChangeTimeoutCount = 0 := by
    intro hNot
    exact absurd (.inl hNot) h.2.1
  have hCall : s.handle cfg (.recv (.newView m) conn) = some (s.onNewview cfg m conn) := rfl
  exact ⟨view_onNewview h, hIdle, idle_handle hBefore hCall hIdle⟩

/-- Every NEW-VIEW that a new primary builds is accepted by each replica that is waiting for it. -/
theorem newView_accepted {V : List ViewChangeMsg} {nextView : UInt64} (hQuorum : cfg.quorum ≤ V.length)
    (hBounded : Bounded V) (hNarrow : nextView.toNat < 2 ^ 32) :
    ∃ nv, newViewMsg cfg nextView V = some nv ∧
      (∀ (s : Node σ) (m : ViewChangeMsg), Completes cfg s m → m.nextView = nextView → s.reports m = V →
        ∃ s', s.onViewchange cfg m = some s' ∧ s'.sent = s.sent ++ [.newView nv]) ∧
      ∀ (backup : Config σ) (t : Node σ) (conn : Conn), backup.n = cfg.n → t.viewChanging = true →
        t.view.toUInt64 < nextView → t.comesFromPrimary backup conn nextView.toUInt32 = true →
        (t.onNewview backup nv conn).view.toUInt64 = nextView ∧
        (t.onNewview backup nv conn).viewChanging = false ∧
        (t.onNewview backup nv conn).viewChangeTimeoutCount = 0 := by
  have hO : ∃ O, oSet cfg nextView V = some O := ⟨_, oSet_of_bounded hBounded⟩
  obtain ⟨O, hO⟩ := hO
  have hView : nextView.toUInt32.toUInt64 = nextView := Word.lowWord_eq_iff.mpr hNarrow
  refine ⟨⟨nextView.toUInt32.toUInt64, V, O⟩, ?_, ?_, ?_⟩
  · rw [newViewMsg, hO]
    rfl
  · rintro s m hCompletes rfl rfl
    refine ⟨_, onViewchange_of_completes hCompletes hO, ?_⟩
    rw [manageTimer_eq]
    rfl
  · intro backup t conn hn hChanging hLater hFrom
    have hf : backup.quorum = cfg.quorum := by
      rw [Config.quorum, Config.quorum, Config.f, Config.f, hn]
    have hAccepts : t.acceptsNewview backup ⟨nextView.toUInt32.toUInt64, V, O⟩ conn := by
      refine ⟨?_, ?_, ?_, ?_⟩
      · simpa [hView] using hFrom
      · rw [not_or, UInt64.not_le, hView]
        exact ⟨by simp [hChanging], hLater⟩
      · rw [hf]
        exact Nat.not_lt.mpr hQuorum
      · rw [toNat_maxS_sub]
        exact oSet_length hBounded hO
    obtain ⟨hNew, hIdle, hCount⟩ := newView_idle hAccepts
    refine ⟨?_, hIdle, hCount⟩
    rw [hNew, hView, hView]

/-- A backup has logged a pre-prepare of view 0, and its timer has fired. -/
def givenUp : List Input :=
  [.recv (.handshake ⟨0⟩) 0, .recv (.handshake ⟨1⟩) 1, .recv (.prePrepare ⟨0, 1, 7, ⟨"A", 1, 9⟩⟩) 0, .timeout]

theorem newView_accepted_backup : ∃ nv t, newViewMsg (Config.sample 4 200 100) 4 (oneProof 1) = some nv ∧
    Reach { Config.sample 4 200 100 with id := 2 } false Fires t ∧ t.viewChanging = true ∧
    (t.onNewview { Config.sample 4 200 100 with id := 2 } nv 0).view.toUInt64 = 4 ∧
    (t.onNewview { Config.sample 4 200 100 with id := 2 } nv 0).viewChanging = false ∧
    (t.onNewview { Config.sample 4 200 100 with id := 2 } nv 0).viewChangeTimeoutCount = 0 := by
  obtain ⟨t, ht, hChanging, hView, hFrom⟩ := Machine.exists_reach
    (machine { Config.sample 4 200 100 with id := 2 } false) Fires givenUp
    (fun t => t.viewChanging = true ∧ t.view = 0 ∧
      t.comesFromPrimary { Config.sample 4 200 100 with id := 2 } 0 4 = true) (by decide +kernel)
  have hLater : t.view.toUInt64 < 4 := hView ▸ by decide
  have hQuorum : (Config.sample 4 200 100).quorum ≤ (oneProof 1).length := by decide
  have hNarrow : (4 : UInt64).toNat < 2 ^ 32 := by decide
  obtain ⟨nv, hnv, -, hBackup⟩ := newView_accepted hQuorum (by decide) hNarrow
  exact ⟨nv, t, hnv, ht, hChanging, hBackup _ t 0 rfl hChanging hLater hFrom⟩

/-- The replicas with a VIEW-CHANGE for the view of m in its V set. -/
def senders (m : NewViewMsg) : Finset UInt32 :=
  ((m.viewChanges.filter fun vc => vc.nextView == m.nextView).map (·.replicaId)).toFinset

def content (pp : PrePrepareMsg) : UInt32 × UInt64 × Digest := (pp.view, pp.seqNum, pp.reqDigest)

structure Valid (cfg : Config σ) (m : NewViewMsg) : Prop where
  senders : cfg.quorum ≤ (senders m).card
  prePrepares : ∃ O, oSet cfg m.nextView m.viewChanges = some O ∧ m.prePrepares.map content = O.map content

def Installs (cfg : Config σ) (s : Node σ) (m : NewViewMsg) (conn : Conn) : Prop :=
  s.viewChanging = true ∧ (s.onNewview cfg m conn).viewChanging = false

/-- on_newview installs the view exactly if its tests succeed. -/
theorem installs_iff {m : NewViewMsg} {conn : Conn} {s : Node σ} :
    Installs cfg s m conn ↔ s.acceptsNewview cfg m conn := by
  constructor
  · rintro ⟨hBefore, hAfter⟩
    by_contra hAccepts
    rw [onNewview, if_pos hAccepts, hBefore] at hAfter
    cases hAfter
  · intro hAccepts
    refine ⟨?_, not_changing_onNewview hAccepts⟩
    by_contra hNot
    exact hAccepts.2.1 (.inl (Bool.eq_false_iff.mpr hNot))

/-- The VIEW-CHANGE of the call, if there is one, is for a view that fits into 32 bits. -/
def OffersNarrow (cfg : Config σ) (s₀ : Node σ) (i : Input) : Prop :=
  ∀ m ∈ offered? cfg s₀ i, m.nextView.toNat < 2 ^ 32

instance (s₀ : Node σ) (i : Input) : Decidable (OffersNarrow cfg s₀ i) :=
  Option.decidableForallMem (offered? cfg s₀ i)

/-- Some replica that runs this code has broadcast m. It may have got anything else before. -/
def Honest (cfg : Config σ) (m : NewViewMsg) : Prop :=
  ∃ (id : UInt32) (t : Bool) (s : Node σ), Reach { cfg with id := id } t (OffersNarrow { cfg with id := id }) s ∧
    Msg.newView m ∈ s.sent

/-- A VIEW-CHANGE is stored under its sender and its view, and what has been announced is valid. -/
structure HonestInv (cfg : Config σ) (s : Node σ) : Prop where
  stored : ∀ view r m, s.Stored view r m → m.replicaId = r ∧ m.nextView = view.toUInt64
  sent : ∀ m, Msg.newView m ∈ s.sent → Valid cfg m

theorem HonestInv.congr {s t : Node σ} (w : HonestInv cfg s) (hStore : t.viewChangeStore = s.viewChangeStore)
    (hSent : ∀ m, Msg.newView m ∈ t.sent → Msg.newView m ∈ s.sent) : HonestInv cfg t where
  stored view r m h := w.stored view r m (by rwa [Stored, hStore] at h)
  sent m hm := w.sent m (hSent m hm)

theorem HonestInv.store {s : Node σ} {m : ViewChangeMsg} (w : HonestInv cfg s) (hNarrow : m.nextView.toNat < 2 ^ 32) :
    HonestInv cfg (s.storeViewChange m) where
  stored view r m' h := by
    rcases stored_storeViewChange h with ⟨rfl, rfl, rfl⟩ | hOld
    · exact ⟨rfl, (Word.lowWord_eq_iff.mpr hNarrow).symm⟩
    · exact w.stored view r m' hOld
  sent := w.sent

/-- What is stored for a view has as many senders as messages. -/
theorem HonestInv.valid {s : Node σ} (w : HonestInv cfg s) {view : UInt32}
    {vcs : Std.ExtTreeMap UInt32 ViewChangeMsg} {O : List PrePrepareMsg} (hStored : s.viewChangeStore[view]? = some vcs)
    (hQuorum : cfg.quorum ≤ vcs.size) (hO : oSet cfg view.toUInt64 (vcs.toList.map Prod.snd) = some O) :
    Valid cfg ⟨view.toUInt64, vcs.toList.map Prod.snd, O⟩ := by
  refine ⟨hQuorum.trans ?_, O, hO, rfl⟩
  apply TreeMap.size_le_card id Function.injective_id
  intro r hr
  obtain ⟨vc, hvc⟩ := TreeMap.mem_iff_exists.mp hr
  obtain ⟨hId, hView⟩ := w.stored view r vc ⟨vcs, hStored, hvc⟩
  apply List.mem_toFinset.mpr
  apply List.mem_map.mpr
  refine ⟨vc, List.mem_filter.mpr ⟨TreeMap.mem_map_snd_toList.mpr ⟨r, hvc⟩, ?_⟩, hId⟩
  exact beq_iff_eq.mpr hView

theorem honestInv_step {s₀ s s' : Node σ} {i : Input} (hNarrow : OffersNarrow cfg s₀ i) (w : HonestInv cfg s)
    (hStep : Step cfg s₀ i s s') : HonestInv cfg s' := by
  cases hStep with
  | propose | accept | markPrepared => exact w.congr rfl fun m h => sent_of_append h (by simp)
  | execute =>
    rw [executeEntry_eq]
    refine w.congr rfl fun m h => ?_
    dsimp only at h
    split at h
    · exact sent_of_append h (by simp)
    · exact h
  | beginViewChange =>
    rw [beginViewChange_eq]
    exact w.congr rfl fun m h => sent_of_append h (by simp)
  | storeViewChange hi => exact w.store (hNarrow _ (mem_offered?_of_offers hi))
  | @installView _ m vcs O hi _ _ _ _ hStored hQuorum hO =>
    refine ⟨w.stored, fun nv hnv => ?_⟩
    rcases List.mem_append.mp hnv with hnv | hnv
    · exact w.sent nv hnv
    · cases List.mem_singleton.mp hnv
      apply w.valid hStored hQuorum
      rwa [Word.lowWord_eq_iff.mpr (hNarrow m (mem_offered?_of_offers hi))]
  | _ => exact w.congr rfl fun _ => id

theorem honestInv_reach {t : Bool} {s : Node σ} (hs : Reach cfg t (OffersNarrow cfg) s) : HonestInv cfg s :=
  Reach.invariant (I := HonestInv cfg)
    ⟨fun view r m h => by simp [Node.init, Stored] at h, fun m hm => by simp [Node.init] at hm⟩
    (fun _ _ _ hNarrow _ _ => honestInv_step hNarrow) hs

/-- Which replica computes the O set makes no difference. -/
theorem oSet_id (id : UInt32) (nextView : UInt64) (V : List ViewChangeMsg) :
    oSet { cfg with id := id } nextView V = oSet cfg nextView V := by
  have hLoop : ∀ (last : UInt64) (fuel : Nat) (n : UInt64),
      reissueLoop { cfg with id := id } nextView V last fuel n = reissueLoop cfg nextView V last fuel n := by
    intro last fuel
    induction fuel with
    | zero => exact fun _ => rfl
    | succ fuel ih =>
      intro n
      rw [reissueLoop, reissueLoop, ih]
      rfl
  exact hLoop _ _ _

theorem valid_of_honest {m : NewViewMsg} (h : Honest cfg m) : Valid cfg m := by
  obtain ⟨id, t, s, hs, hm⟩ := h
  obtain ⟨hSenders, O, hO, hSame⟩ := (honestInv_reach hs).sent m hm
  rw [oSet_id] at hO
  exact ⟨hSenders, O, hO, hSame⟩

/-- The replica has given up on its view and takes conn for that of the primary of the next one. -/
structure Awaits (cfg : Config σ) (s : Node σ) (conn : Conn) (nextView : UInt64) : Prop where
  changing : s.viewChanging = true
  later : s.view.toUInt64 < nextView
  sender : s.comesFromPrimary cfg conn nextView.toUInt32 = true

theorem maxS_of_bare {V : List ViewChangeMsg} (h : ∀ vc ∈ V, vc.preparedProofs = []) (start : UInt64) :
    maxS start V = start := by
  unfold maxS
  induction V with
  | nil => rfl
  | cons vc V ih =>
    rw [List.foldl_cons, h vc List.mem_cons_self, List.foldl_nil]
    exact ih fun vc' hvc' => h vc' (List.mem_cons_of_mem _ hvc')

/-- As many VIEW-CHANGEs as needed, all of one replica and for another view. -/
def unchecked (cfg : Config σ) (nextView : UInt64) : NewViewMsg :=
  ⟨nextView, List.replicate cfg.quorum ⟨nextView + 1, 0, 0, [], []⟩, []⟩

theorem accepts_unchecked {s : Node σ} {conn : Conn} {nextView : UInt64} (h : Awaits cfg s conn nextView) :
    s.acceptsNewview cfg (unchecked cfg nextView) conn := by
  refine ⟨h.sender, ?_, ?_, ?_⟩
  · rw [not_or, UInt64.not_le]
    exact ⟨by simp [h.changing], h.later⟩
  · simp [unchecked]
  · have hBare : ∀ vc ∈ (unchecked cfg nextView).viewChanges, vc.preparedProofs = [] := by
      intro vc hvc
      rw [List.eq_of_mem_replicate hvc]
    rw [maxS_of_bare hBare, UInt64.sub_self]
    rfl

theorem not_valid_unchecked (cfg : Config σ) (nextView : UInt64) : ¬Valid cfg (unchecked cfg nextView) := by
  intro hValid
  have hNobody : senders (unchecked cfg nextView) = ∅ := by
    have hOther : ¬nextView + 1 = nextView := fun h => absurd (UInt64.add_eq_left.mp h) (by decide)
    simp [senders, unchecked, hOther]
  have hSenders := hValid.senders
  rw [hNobody, Config.quorum_eq, Finset.card_empty] at hSenders
  cases hSenders

/-- A NEW-VIEW with which a view is installed is valid if a replica that runs this code has broadcast it.
Of what a primary may send instead, something invalid is installed by every replica that waits for it. -/
theorem newView_valid_of_honest (s : Node σ) (conn : Conn) :
    (∀ m, Honest cfg m → Installs cfg s m conn → Valid cfg m) ∧
    ∀ nextView, (∀ m, m.nextView = nextView → Installs cfg s m conn → Valid cfg m) ↔
      ¬Awaits cfg s conn nextView := by
  refine ⟨fun m hHonest _ => valid_of_honest hHonest, fun nextView => ?_⟩
  constructor
  · intro hAll hAwaits
    apply not_valid_unchecked cfg nextView
    apply hAll _ rfl
    exact installs_iff.mpr (accepts_unchecked hAwaits)
  · rintro hNot m rfl hInstalls
    have hAccepts := installs_iff.mp hInstalls
    refine absurd ⟨hInstalls.1, ?_, hAccepts.1⟩ hNot
    exact UInt64.not_le.mp fun hOld => hAccepts.2.1 (.inr hOld)

/-- Replica 1 has a quorum for view 5, with a proof for number 1, and replica 2 waits. -/
theorem newView_valid_of_honest_five : ∃ (s : Node (List String)) (m : NewViewMsg),
    Reach { Config.sample 4 200 100 with id := 2 } false Fires s ∧ m.prePrepares.map content = [(5, 1, 7)] ∧
    Installs { Config.sample 4 200 100 with id := 2 } s m 1 ∧ Valid { Config.sample 4 200 100 with id := 2 } m ∧
    ¬∀ m', m'.nextView = 5 → Installs { Config.sample 4 200 100 with id := 2 } s m' 1 →
      Valid { Config.sample 4 200 100 with id := 2 } m' := by
  let V : List ViewChangeMsg := [⟨5, 0, 0, [], []⟩, ⟨5, 0, 2, [], [⟨1, 1, 7⟩]⟩, ⟨5, 0, 3, [], []⟩]
  let m : NewViewMsg := ⟨5, V, [⟨5, 1, 7, ⟨"", 0, 0⟩⟩]⟩
  obtain ⟨p, hp, hSent⟩ := Machine.exists_reach (machine { Config.sample 4 200 100 with id := 1 } false)
    (OffersNarrow { Config.sample 4 200 100 with id := 1 })
    (V.map fun vc => .recv (.viewChange vc) vc.replicaId.toNat) (fun p => Msg.newView m ∈ p.sent) (by decide +kernel)
  obtain ⟨s, hs, hChanging, hAccepts⟩ := Machine.exists_reach
    (machine { Config.sample 4 200 100 with id := 2 } false) Fires givenUp
    (fun s => s.viewChanging = true ∧ s.acceptsNewview { Config.sample 4 200 100 with id := 2 } m 1) (by decide +kernel)
  have hInstalls : Installs { Config.sample 4 200 100 with id := 2 } s m 1 :=
    ⟨hChanging, not_changing_onNewview hAccepts⟩
  have hLater : s.view.toUInt64 < 5 := UInt64.not_le.mp fun hOld => hAccepts.2.1 (.inr hOld)
  exact ⟨s, m, hs, rfl, hInstalls, (newView_valid_of_honest s 1).1 m ⟨1, false, p, hp, hSent⟩ hInstalls,
    fun hAll => ((newView_valid_of_honest s 1).2 5).mp hAll ⟨hChanging, hLater, hAccepts.1⟩⟩

/-- One replica's VIEW-CHANGE three times over, and a pre-prepare that no proof asks for. -/
theorem newView_unchecked : ∃ s : Node (List String),
    Reach { Config.sample 4 200 100 with id := 2 } false Fires s ∧
    ∃ repeated forged : NewViewMsg,
      (s.viewChanging = true ∧
        (s.onNewview { Config.sample 4 200 100 with id := 2 } repeated 1).viewChanging = false ∧
        ¬Valid { Config.sample 4 200 100 with id := 2 } repeated) ∧
      (s.viewChanging = true ∧
        (s.onNewview { Config.sample 4 200 100 with id := 2 } forged 1).viewChanging = false ∧
        ¬Valid { Config.sample 4 200 100 with id := 2 } forged) := by
  let vc : ViewChangeMsg := ⟨1, 0, 1, [], []⟩
  let repeated : NewViewMsg := ⟨1, [vc, vc, vc], []⟩
  let forged : NewViewMsg := ⟨1, [⟨1, 0, 0, [], []⟩, ⟨1, 0, 1, [], [⟨0, 1, 7⟩]⟩, ⟨1, 0, 3, [], []⟩],
    [⟨1, 1, 13, ⟨"B", 1, 9⟩⟩]⟩
  obtain ⟨s, hs, hChanging, hRepeated, hForged⟩ := Machine.exists_reach
    (machine { Config.sample 4 200 100 with id := 2 } false) Fires givenUp
    (fun s => s.viewChanging = true ∧
      s.acceptsNewview { Config.sample 4 200 100 with id := 2 } repeated 1 ∧
      s.acceptsNewview { Config.sample 4 200 100 with id := 2 } forged 1) (by decide +kernel)
  refine ⟨s, hs, repeated, forged, ⟨hChanging, not_changing_onNewview hRepeated, fun hValid => ?_⟩,
    hChanging, not_changing_onNewview hForged, fun hValid => ?_⟩
  · exact absurd hValid.senders (by decide)
  · obtain ⟨O, hO, hSame⟩ := hValid.prePrepares
    have hBounded : Bounded forged.viewChanges := by decide
    rw [oSet_of_bounded hBounded] at hO
    cases hO
    exact absurd hSame (by decide)

end Node
end Pbft
