import Pbft.Node.Window

/-! # The log entries of one replica

What every entry satisfies in the middle of a handler as well as between handlers, and the
history of executions. Two clauses hold only between handlers, because a handler first adds
a vote and then tests for a quorum; for those the handlers are followed to their end.
-/
namespace Pbft
set_option autoImplicit false

variable {σ : Type} {cfg : Config σ}

/-- The clauses about one entry that no step of a handler ever breaks. -/
structure EntryOk (cfg : Config σ) (k : UInt64) (e : ReqLogEntry) : Prop where
  fresh : e.stage = .none ↔ e.hasPreprepare = false
  seq : e.hasPreprepare = true → e.seq = k
  prepare : e.hasPreprepare = true → cfg.id ∈ e.prepares
  prepared : e.stage = .prepared ∨ e.stage = .committed →
    cfg.prepareQuorum ≤ e.prepares.card ∧ cfg.id ∈ e.commits
  committed : e.stage = .committed → cfg.quorum ≤ e.commits.card

namespace EntryOk
variable {k : UInt64} {e : ReqLogEntry}

theorem empty (k : UInt64) : EntryOk cfg k {} where
  fresh := by simp
  seq h := by simp at h
  prepare h := by simp at h
  prepared h := by simp at h
  committed h := by simp at h

theorem hasPreprepare (h : EntryOk cfg k e) (hStage : e.stage ≠ .none) : e.hasPreprepare = true := by
  cases hPre : e.hasPreprepare with
  | true => rfl
  | false => exact absurd (h.fresh.mpr hPre) hStage

theorem vote (h : EntryOk cfg k e) {P Q : Finset UInt32} (hP : e.prepares ⊆ P) (hQ : e.commits ⊆ Q) :
    EntryOk cfg k { e with prepares := P, commits := Q } where
  fresh := h.fresh
  seq := h.seq
  prepare hPre := hP (h.prepare hPre)
  prepared hStage :=
    ⟨(h.prepared hStage).1.trans (Finset.card_le_card hP), hQ (h.prepared hStage).2⟩
  committed hStage := (h.committed hStage).trans (Finset.card_le_card hQ)

theorem log (P : Finset UInt32) {view : UInt32} {digest : Digest} {req : RequestMsg} :
    EntryOk cfg k { e with
      view := view
      seq := k
      digest := digest
      req := req
      hasPreprepare := true
      stage := .prePrepared
      prepares := insert cfg.id P } where
  fresh := by simp
  seq _ := rfl
  prepare _ := Finset.mem_insert_self _ _
  prepared h := by simp at h
  committed h := by simp at h

theorem markPrepared (h : EntryOk cfg k e) (hPre : e.hasPreprepare = true)
    (hQuorum : cfg.prepareQuorum ≤ e.prepares.card) :
    EntryOk cfg k { e with stage := .prepared, commits := insert cfg.id e.commits } where
  fresh := by simp [hPre]
  seq := h.seq
  prepare := h.prepare
  prepared _ := ⟨hQuorum, Finset.mem_insert_self _ _⟩
  committed hStage := by simp at hStage

theorem markCommitted (h : EntryOk cfg k e) (hStage : e.stage = .prepared)
    (hQuorum : cfg.quorum ≤ e.commits.card) : EntryOk cfg k { e with stage := .committed } where
  fresh := by simp [h.hasPreprepare (by simp [hStage])]
  seq := h.seq
  prepare := h.prepare
  prepared _ := h.prepared (.inl hStage)
  committed _ := hQuorum

end EntryOk

namespace Node

/-- The one new element of a history that grows at its end is the last one. -/
theorem getElem?_append_singleton {α : Type} {l : List α} {a x : α} {j : Nat}
    (h : (l ++ [a])[j]? = some x) : l[j]? = some x ∨ (j = l.length ∧ x = a) := by
  rcases Nat.lt_or_ge j l.length with hj | hj
  · rw [List.getElem?_append_left hj] at h
    exact .inl h
  · rw [List.getElem?_append_right hj, List.getElem?_singleton] at h
    split at h
    · cases h
      exact .inr ⟨by omega, rfl⟩
    · cases h

/-- Execution has gone through 1, 2, 3 and so on, each time on a committed entry. -/
structure LogInv (cfg : Config σ) (s : Node σ) : Prop where
  entries : ∀ k, EntryOk cfg k (s.entry k)
  keys : s.executed.map (fun x => x.key.toNat) = (List.range s.lastExec.toNat).map (· + 1)
  executed : ∀ x ∈ s.executed, x.entry.stage = .committed ∧ EntryOk cfg x.key x.entry

theorem LogInv.key_at {s : Node σ} (h : LogInv cfg s) {j : Nat} {x : Execution}
    (hx : s.executed[j]? = some x) : x.key.toNat = j + 1 := by
  have hKey := congrArg (·[j]?) h.keys
  rw [List.getElem?_map, List.getElem?_map, hx] at hKey
  obtain ⟨a, ha, hEq⟩ := Option.map_eq_some_iff.mp hKey.symm
  rw [List.getElem?_eq_some_iff] at ha
  obtain ⟨hlt, rfl⟩ := ha
  simpa using hEq.symm

theorem LogInv.key_ne_zero {s : Node σ} (h : LogInv cfg s) {x : Execution} (hx : x ∈ s.executed) :
    x.key ≠ 0 := by
  obtain ⟨j, hj⟩ := List.mem_iff_getElem?.mp hx
  have hKey := h.key_at hj
  rintro hZero
  rw [hZero] at hKey
  cases hKey

theorem LogInv.write {s t : Node σ} {k : UInt64} {e : ReqLogEntry} (h : LogInv cfg s)
    (hLog : t.reqlog = s.reqlog.insert k e) (he : EntryOk cfg k e)
    (hExecuted : t.executed = s.executed) (hLast : t.lastExec = s.lastExec) : LogInv cfg t where
  entries a := by
    rw [entry_of_insert hLog]
    split
    · rename_i hka
      exact hka ▸ he
    · exact h.entries a
  keys := by
    rw [hExecuted, hLast]
    exact h.keys
  executed := by
    rw [hExecuted]
    exact h.executed

theorem logInv_init (t : Bool) : LogInv cfg (Node.init cfg t) where
  entries k := by simpa [Node.init, entry] using EntryOk.empty k
  keys := by simp [Node.init]
  executed x hx := by simp [Node.init] at hx

theorem logInv_execute {s : Node σ} {e : ReqLogEntry} (w : WindowInv cfg s) (h : LogInv cfg s)
    (hEntry : s.reqlog[s.lastExec + 1]? = some e) (hStage : e.stage = .committed) :
    LogInv cfg (s.executeEntry cfg e) := by
  have hSucc := w.succ hEntry
  rw [executeEntry_eq]
  refine ⟨h.entries, ?_, fun x hx => ?_⟩
  · dsimp only
    rw [List.map_append, h.keys, hSucc, List.range_succ, List.map_append]
    simp [hSucc]
  · rcases List.mem_append.mp hx with hOld | hNew
    · exact h.executed x hOld
    · rw [List.mem_singleton.mp hNew]
      exact ⟨hStage, entry_of_lookup hEntry ▸ h.entries _⟩

theorem logInv_step {s₀ s s' : Node σ} {i : Input} (w : WindowInv cfg s) (h : LogInv cfg s)
    (hStep : Step cfg s₀ i s s') : LogInv cfg s' := by
  cases hStep with
  | propose => exact h.write rfl (.log _) rfl rfl
  | accept => exact h.write rfl (.log _) rfl rfl
  | votePrepare => exact h.write rfl ((h.entries _).vote (Finset.subset_insert _ _) Finset.Subset.rfl) rfl rfl
  | markPrepared _ hPre hQuorum => exact h.write rfl ((h.entries _).markPrepared hPre hQuorum) rfl rfl
  | touch => exact h.write rfl (h.entries _) rfl rfl
  | voteCommit => exact h.write rfl ((h.entries _).vote Finset.Subset.rfl (Finset.subset_insert _ _)) rfl rfl
  | markCommitted hStage hQuorum =>
    exact h.write rfl ((h.entries _).markCommitted hStage hQuorum) rfl rfl
  | execute hEntry hStage => exact logInv_execute w h hEntry hStage
  | stabilize =>
    refine ⟨fun k => ?_, h.keys, h.executed⟩
    rw [entry_of_stabilize]
    split
    · exact .empty k
    · exact h.entries k
  | beginViewChange =>
    rw [beginViewChange_eq]
    exact ⟨h.entries, h.keys, h.executed⟩
  | _ => exact ⟨h.entries, h.keys, h.executed⟩

theorem logInv_reach {t : Bool} {ok : Node σ → Input → Prop} {s : Node σ}
    (hs : Reach cfg t ok s) : WindowInv cfg s ∧ LogInv cfg s :=
  Reach.invariant (I := fun s => WindowInv cfg s ∧ LogInv cfg s) ⟨windowInv_init t, logInv_init t⟩
    (fun _ _ _ _ _ _ h hStep => ⟨windowInv_step h.1 hStep, logInv_step h.1 h.2 hStep⟩) hs

end Node
end Pbft
