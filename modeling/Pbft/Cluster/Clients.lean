import Pbft.Cluster.NormalCase
import Pbft.Cluster.Validity

/-! # Many clients

The replicas with a client for each id. Requests reach replicas only from the clients that have sent
them, perhaps through other replicas, again and again or never, and so do replies.
-/
namespace Pbft
set_option autoImplicit false

open Node

variable {σ : Type}

/-- One replica calls a handler, a client invokes an operation, or a client gets a reply. -/
inductive Call where
  | node (r : UInt32) (i : Input)
  | invoke (c : UInt32) (operation : String)
  | reply (c : UInt32) (m : ReplyMsg)

/-- The replicas, and the clients by their ids. -/
structure Site (σ : Type) where
  world : World σ
  clients : UInt32 → Client

namespace Client

def sent (c : Client) : List RequestMsg := c.requests.map Prod.snd

theorem sent_invokeAsync (cfg : ClientConfig) (operation : String) (c : Client) :
    (c.invokeAsync cfg operation).sent = c.sent ++ [⟨operation, c.timestamp + 1, cfg.id⟩] := by
  simp [sent, invokeAsync]

theorem onReply_unchanged (cfg : ClientConfig) (m : ReplyMsg) (c : Client) :
    (c.onReply cfg m).sent = c.sent ∧ (c.onReply cfg m).timestamp = c.timestamp := by
  unfold onReply
  split
  · exact ⟨rfl, rfl⟩
  · dsimp only
    split
    · exact ⟨rfl, rfl⟩
    · split
      · exact ⟨rfl, rfl⟩
      · split <;> exact ⟨rfl, rfl⟩

/-- The requests of a client carry consecutive time stamps, modulo 2^64. -/
structure Stamped (id : UInt32) (first : UInt64) (c : Client) : Prop where
  timestamp : c.timestamp = first + UInt64.ofNat c.sent.length
  requests : ∀ (i : Nat) m, c.sent[i]? = some m → m.clientId = id ∧ m.timestamp = first + UInt64.ofNat (i + 1)

theorem stamped_init (id : UInt32) (first : UInt64) : Stamped id first (Client.init first) where
  timestamp := by simp [Client.init, sent]
  requests i m h := by simp [Client.init, sent] at h

theorem stamped_invokeAsync {cfg : ClientConfig} {first : UInt64} {c : Client} (w : Stamped cfg.id first c)
    (operation : String) : Stamped cfg.id first (c.invokeAsync cfg operation) := by
  have hNext : c.timestamp + 1 = first + UInt64.ofNat (c.sent.length + 1) := by
    rw [w.timestamp, UInt64.ofNat_add, UInt64.add_assoc]
    rfl
  constructor
  · rw [sent_invokeAsync, List.length_append, List.length_singleton]
    exact hNext
  · intro i m h
    rw [sent_invokeAsync] at h
    rcases getElem?_append_singleton h with h | ⟨rfl, rfl⟩
    · exact w.requests i m h
    · exact ⟨rfl, hNext⟩

theorem stamped_onReply {cfg : ClientConfig} {id : UInt32} {first : UInt64} {c : Client} (w : Stamped id first c)
    (m : ReplyMsg) : Stamped id first (c.onReply cfg m) := by
  obtain ⟨hSent, hTimestamp⟩ := onReply_unchanged cfg m c
  constructor
  · rw [hTimestamp, hSent, w.timestamp]
  · rw [hSent]
    exact w.requests

/-- Before 2^64 requests have been sent no two have the same time stamp. -/
theorem Stamped.index_eq {id : UInt32} {first : UInt64} {c : Client} (w : Stamped id first c)
    (hRoom : c.sent.length < 2 ^ 64) {i j : Nat} {m m' : RequestMsg} (hi : c.sent[i]? = some m)
    (hj : c.sent[j]? = some m') (hSame : m.timestamp = m'.timestamp) : i = j := by
  have hLeft := (List.getElem?_eq_some_iff.mp hi).1
  have hRight := (List.getElem?_eq_some_iff.mp hj).1
  rw [(w.requests i m hi).2, (w.requests j m' hj).2, UInt64.add_right_inj] at hSame
  have hNat := congrArg UInt64.toNat hSame
  rw [UInt64.toNat_ofNat_of_lt' (Nat.lt_of_le_of_lt hLeft hRoom),
    UInt64.toNat_ofNat_of_lt' (Nat.lt_of_le_of_lt hRight hRoom)] at hNat
  exact Nat.succ.inj hNat

end Client

namespace Cluster
variable (C : Cluster σ)

/-- The configuration of client c, which is connected to some of the replicas. -/
def clientConfig (connected : UInt32 → Finset UInt32) (c : UInt32) : ClientConfig := ⟨c, C.base.n, connected c⟩

def withClients (connected : UInt32 → Finset UInt32) (first : UInt32 → UInt64) : Machine (Site σ) Call where
  init := ⟨C.machine.init, fun c => Client.init (first c)⟩
  next s
    | .node r i => (C.machine.next s.world (r, i)).map fun G => { s with world := G }
    | .invoke c operation => some { s with
        clients := Function.update s.clients c ((s.clients c).invokeAsync (C.clientConfig connected c) operation) }
    | .reply c m => some { s with
        clients := Function.update s.clients c ((s.clients c).onReply (C.clientConfig connected c) m) }

/-- No timers; what a replica gets as a request is one that a client has sent, and a reply is one of the
replica that it names. -/
def Served (s : Site σ) : Call → Prop
  | .node r i => C.Untimed s.world r i ∧ ∀ m ∈ request? i, m ∈ (s.clients m.clientId).sent
  | .invoke _ _ => True
  | .reply _ m => m.replicaId < C.base.n ∧ m ∈ (s.world m.replicaId).replies

instance (s : Site σ) : (a : Call) → Decidable (C.Served s a)
  | .node _ i => inferInstanceAs (Decidable (_ ∧ ∀ m ∈ request? i, _))
  | .invoke _ _ => .isTrue trivial
  | .reply _ _ => inferInstanceAs (Decidable (_ ∧ _))

abbrev SiteReach (connected : UInt32 → Finset UInt32) (first : UInt32 → UInt64) : Site σ → Prop :=
  Machine.Reach (C.withClients connected first) C.Served

variable {C} {connected : UInt32 → Finset UInt32} {first : UInt32 → UInt64} {s t : Site σ}

theorem reach_of_withClients (hs : C.SiteReach connected first s) :
    C.Reach C.Untimed s.world := by
  induction hs with
  | init => exact .init
  | @step s s' a _ hOk hn ih =>
    cases a with
    | node r i =>
      obtain ⟨G, hG, rfl⟩ := Option.map_eq_some_iff.mp hn
      exact .step ih hOk.1 hG
    | invoke c operation | reply c m =>
      cases hn
      exact ih

structure SiteInv (C : Cluster σ) (connected : UInt32 → Finset UInt32) (first : UInt32 → UInt64) (s : Site σ) :
    Prop where
  stamped : ∀ c, Client.Stamped c (first c) (s.clients c)
  told : ∀ c, C.ClientInv (C.clientConfig connected c) (s.world, s.clients c)
  authentic : ∀ pp ∈ (s.world 0).proposals, pp.req ∈ (s.clients pp.req.clientId).sent

/-- What is proposed in a call is the request that the call has brought. -/
theorem req_of_handle {cfg : Config σ} {s s' : Node σ} {i : Input} (hCall : s.handle cfg i = some s') :
    ∀ pp ∈ s'.proposals, pp ∈ s.proposals ∨ pp.req ∈ request? i := by
  refine handle_invariant (I := fun t => ∀ pp ∈ t.proposals, pp ∈ s.proposals ∨ pp.req ∈ request? i)
    (fun t t' ht hStep pp hpp => ?_) (fun pp hpp => .inl hpp) hCall
  rcases proposals_step hStep with hSame | ⟨m, hm, -, rfl, rfl⟩
  · exact ht pp (hSame ▸ hpp)
  · rw [proposals_propose] at hpp
    rcases List.mem_append.mp hpp with hpp | hpp
    · exact .inl hpp
    · cases List.mem_singleton.mp hpp
      exact .inr hm

theorem siteInv_init : SiteInv C connected first (C.withClients connected first).init where
  stamped c := Client.stamped_init c (first c)
  told c := ⟨fun ts r h => by simp [withClients, Client.init] at h,
    fun x hx => by simp [withClients, Client.init] at hx⟩
  authentic pp h := by simp [withClients, machine, Node.init, proposals] at h

theorem SiteInv.update {c : UInt32} {x : Client} (w : SiteInv C connected first s) (hStamped : x.Stamped c (first c))
    (hTold : C.ClientInv (C.clientConfig connected c) (s.world, x)) (hSent : ∀ m ∈ (s.clients c).sent, m ∈ x.sent) :
    SiteInv C connected first { s with clients := Function.update s.clients c x } where
  stamped a := by
    dsimp only
    by_cases ha : a = c
    · subst ha
      rwa [Function.update_self]
    · rw [Function.update_of_ne ha]
      exact w.stamped a
  told a := by
    dsimp only
    by_cases ha : a = c
    · subst ha
      rwa [Function.update_self]
    · rw [Function.update_of_ne ha]
      exact w.told a
  authentic pp hpp := by
    have hOld := w.authentic pp hpp
    dsimp only
    by_cases ha : pp.req.clientId = c
    · rw [ha] at hOld ⊢
      rw [Function.update_self]
      exact hSent _ hOld
    · rwa [Function.update_of_ne ha]

theorem SiteInv.node {r : UInt32} {i : Input} {G : World σ} (w : SiteInv C connected first s)
    (hOk : C.Served s (.node r i)) (hn : C.machine.next s.world (r, i) = some G) :
    SiteInv C connected first { s with world := G } where
  stamped := w.stamped
  told c := (w.told c).mono fun _ _ _ => answered_next hn
  authentic pp hpp := by
    obtain ⟨s', hCall, rfl⟩ := next_eq hn
    dsimp only at hpp ⊢
    by_cases hr : r = 0
    · subst hr
      rw [Function.update_self] at hpp
      rcases req_of_handle hCall pp hpp with hpp | hpp
      · exact w.authentic pp hpp
      · exact hOk.2 pp.req hpp
    · rw [Function.update_of_ne (Ne.symm hr)] at hpp
      exact w.authentic pp hpp

theorem siteInv_of_reach (hFaulty : C.faulty = ∅) (hs : C.SiteReach connected first s) :
    SiteInv C connected first s := by
  refine Machine.Reach.invariant siteInv_init (fun s a s' hs w hOk hn => ?_) hs
  cases a with
  | node r i =>
    obtain ⟨G, hG, rfl⟩ := Option.map_eq_some_iff.mp hn
    exact w.node hOk hG
  | invoke c operation =>
    cases hn
    have hStamped : Client.Stamped (C.clientConfig connected c).id (first c) (s.clients c) := w.stamped c
    refine w.update (Client.stamped_invokeAsync hStamped operation) (clientInv_invokeAsync (w.told c) operation)
      fun m hm => ?_
    rw [Client.sent_invokeAsync]
    exact List.mem_append_left _ hm
  | reply c m =>
    cases hn
    obtain ⟨hSent, -⟩ := Client.onReply_unchanged (C.clientConfig connected c) m (s.clients c)
    refine w.update (Client.stamped_onReply (w.stamped c) m) ?_ fun m hm => hSent ▸ hm
    refine clientInv_onReply (by simp [hFaulty]) (w.told c) hOk.1 fun _ => ?_
    exact (replyInv_reach ((reach_of_withClients hs).anything m.replicaId)).replies m hOk.2

end Cluster
end Pbft
