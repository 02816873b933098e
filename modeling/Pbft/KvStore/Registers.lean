import Pbft.Foundation.Register
import Pbft.Foundation.TreeMap
import Pbft.KvStore.Command

/-! # The store as registers

Each key is a register. What a GET finds after any operations, however they are written, is what the
last one to write the key has left there.
-/
namespace Pbft.KvStore
set_option autoImplicit false

/-- What a command writes to a key: a value, or nothing at all for DELETE. -/
def Command.write (key : Token) : Command → Option (Option UInt32)
  | .put k value => if k = key then some (some value) else none
  | .get _ => none
  | .delete k => if k = key then some none else none

def write (key : Token) (operation : String) : Option (Option UInt32) := (parse operation).bind (·.write key)

/-- The store after the operations, in their order. -/
def after (operations : List String) : Store := operations.foldl (fun store op => (execute store op).1) ∅

theorem lookup_run (c : Command) (store : Store) (key : Token) :
    (c.run store).1[key.text]? = (c.write key).getD store[key.text]? := by
  have hText : ∀ k : Token, k.text = key.text ↔ k = key := fun k => ⟨Token.ext, congrArg Token.text⟩
  cases c with
  | put k value =>
    rw [Command.run, TreeMap.lookup_insert, Command.write]
    simp only [hText]
    split <;> rfl
  | get k => rfl
  | delete k =>
    rw [Command.run, Std.ExtTreeMap.getElem?_erase, Command.write]
    simp only [Std.LawfulEqCmp.compare_eq_iff_eq, hText]
    split <;> rfl

theorem lookup_execute (store : Store) (operation : String) (key : Token) :
    (execute store operation).1[key.text]? = (write key operation).getD store[key.text]? := by
  rw [write]
  cases h : parse operation with
  | some c => rw [execute_eq_run (parse_eq_some_iff.mp h), lookup_run, Option.bind_some]
  | none =>
    have hSilent : ∀ c, ¬Says c operation := fun c hc => by
      rw [← parse_eq_some_iff, h] at hc
      cases hc
    rw [(execute_of_silent hSilent store).1, Option.bind_none, Option.getD_none]

theorem lookup_after (operations : List String) (key : Token) :
    (after operations)[key.text]? = Register.lastWrite (write key) none operations := by
  have hRead : (after operations)[key.text]? = Register.lastWrite (write key) (∅ : Store)[key.text]? operations :=
    Register.read_foldl (fun store : Store => store[key.text]?)
      (fun store op => lookup_execute store op key) ∅ operations
  rwa [Std.ExtTreeMap.getElem?_empty] at hRead

theorem get_answer (operations : List String) {key : Token} {operation : String} (h : Says (.get key) operation) :
    (execute (after operations) operation).2 = found (Register.lastWrite (write key) none operations) := by
  rw [execute_eq_run h, Command.run, lookup_after]

/-- A GET answers with the last value that was put under its key, or NOT_FOUND if nothing was or the key
has been deleted since. -/
theorem get_after (operations : List String) {key : Token} {operation : String} (h : Says (.get key) operation) :
    ((∀ op ∈ operations, write key op = none) ∧ (execute (after operations) operation).2 = "NOT_FOUND") ∨
    ∃ before op later value, operations = before ++ op :: later ∧ write key op = some value ∧
      (∀ op ∈ later, write key op = none) ∧ (execute (after operations) operation).2 = found value := by
  rw [get_answer operations h]
  rcases Register.lastWrite_cases (write key) none operations with ⟨hSilent, hLast⟩ |
    ⟨before, op, later, value, hSplit, hWrite, hSilent, hLast⟩
  · exact .inl ⟨hSilent, congrArg found hLast⟩
  · exact .inr ⟨before, op, later, value, hSplit, hWrite, hSilent, congrArg found hLast⟩

theorem get_after_put : ∃ before op later value, ["PUT a 1", "\tPUT a +2 x", "PUT a -", "GET a"] =
    before ++ op :: later ∧ write (Token.of "a" (by decide)) op = some value ∧ found value = "2" := by
  have hAnswer : (execute (after ["PUT a 1", "\tPUT a +2 x", "PUT a -", "GET a"]) "GET a").2 = "2" := by
    decide +kernel
  have hSays : Says (.get (Token.of "a" (by decide))) "GET a" := by decide +kernel
  rcases get_after ["PUT a 1", "\tPUT a +2 x", "PUT a -", "GET a"] hSays with ⟨-, h⟩ |
    ⟨before, op, later, value, hSplit, hWrite, -, h⟩
  · exact absurd (hAnswer.symm.trans h) (by decide)
  · exact ⟨before, op, later, value, hSplit, hWrite, h.symm.trans hAnswer⟩

end Pbft.KvStore
