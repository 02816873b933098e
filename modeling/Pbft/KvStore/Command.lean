import Pbft.KvStore

/-! # Commands of the key-value store

What an operation asks for, apart from how it is written. Only the operations of one of three forms ask
for anything; all others leave the store as it is and are answered with a complaint.
-/
namespace Pbft.KvStore
set_option autoImplicit false

open Scanner

inductive Command where
  | put (key : Token) (value : UInt32)
  | get (key : Token)
  | delete (key : Token)
deriving DecidableEq

/-- The answer to GET. -/
def found : Option UInt32 → String
  | some value => value.toNat.repr
  | none => "NOT_FOUND"

namespace Command

def run (store : Store) : Command → Store × String
  | .put key value => (store.insert key.text value, "OK")
  | .get key => (store, found store[key.text]?)
  | .delete key => (store.erase key.text, "OK")

def name : Command → Token
  | .put _ _ => Token.of "PUT" (by decide)
  | .get _ => Token.of "GET" (by decide)
  | .delete _ => Token.of "DELETE" (by decide)

def key : Command → Token
  | .put key _ | .get key | .delete key => key

end Command

/-- A name and a key, each after white space, and then t. -/
def Keyed (name key : Token) (t cs : List Char) : Prop :=
  ∃ b₀ b₁, Blank b₀ ∧ Blank b₁ ∧ b₁ ≠ [] ∧ cs = b₀ ++ (name.text.toList ++ (b₁ ++ (key.text.toList ++ t)))

/-- What follows the key: for PUT a number that is not continued, and otherwise nothing that continues
the key. -/
def Follows : Command → List Char → Prop
  | .put _ value, t => ∃ (b : List Char) (s : Sign) (d : Numeral) (rest : List Char), Blank b ∧ b ≠ [] ∧
      value = s.apply d.value ∧ Ends Char.isDigit rest ∧ t = b ++ (s.text ++ (d.digits ++ rest))
  | .get _, t | .delete _, t => Ends (!isSpace ·) t

def Says (c : Command) (operation : String) : Prop := ∃ t, Keyed c.name c.key t operation.toList ∧ Follows c t

theorem keyed_iff {name key : Token} {t cs : List Char} : (Keyed name key t cs ∧ Ends (!isSpace ·) t) ↔
    ∃ iss, word.run cs = some (name, iss) ∧ word.run iss = some (key, t) := by
  constructor
  · rintro ⟨⟨b₀, b₁, h₀, h₁, hSome, rfl⟩, ht⟩
    exact ⟨_, word_append b₀ name h₀ (ends_word_of_blank h₁ hSome), word_append b₁ key h₁ ht⟩
  · rintro ⟨iss, hName, hKey⟩
    obtain ⟨b₀, h₀, hEnds, rfl⟩ := word_iff.mp hName
    obtain ⟨b₁, h₁, ht, rfl⟩ := word_iff.mp hKey
    exact ⟨⟨b₀, b₁, h₀, h₁, blank_ne_nil hEnds (ends_token key t) (key.append_ne_nil t), rfl⟩, ht⟩

theorem follows_put_iff {key : Token} {value : UInt32} {t : List Char} :
    Follows (.put key value) t ↔ Ends (!isSpace ·) t ∧ ∃ rest, unsigned.run t = some (value, rest) := by
  constructor
  · rintro ⟨b, s, d, rest, hb, hSome, rfl, hRest, rfl⟩
    exact ⟨ends_word_of_blank hb hSome, rest, unsigned_append b s d hb hRest⟩
  · rintro ⟨hEnds, rest, hRun⟩
    obtain ⟨b, s, d, hb, hRest, rfl, rfl⟩ := unsigned_iff.mp hRun
    exact ⟨b, s, d, rest, hb, blank_ne_nil hEnds (ends_sign s d rest) (d.append_ne_nil s rest), rfl, hRest, rfl⟩

/-- How the number of a PUT is read; the other commands read no more than their key. -/
def Reads : Command → List Char → Prop
  | .put _ value, t => ∃ rest, unsigned.run t = some (value, rest)
  | .get _, _ | .delete _, _ => True

theorem says_iff {c : Command} {operation : String} : Says c operation ↔
    ∃ iss t, word.run operation.toList = some (c.name, iss) ∧ word.run iss = some (c.key, t) ∧ Reads c t := by
  have hFollows : ∀ t, Follows c t ↔ Ends (!isSpace ·) t ∧ Reads c t := by
    intro t
    cases c with
    | put key value => exact follows_put_iff
    | get key | delete key => exact ⟨fun h => ⟨h, trivial⟩, fun h => h.1⟩
  constructor
  · rintro ⟨t, hKeyed, ht⟩
    obtain ⟨hEnds, hReads⟩ := (hFollows t).mp ht
    obtain ⟨iss, hName, hKey⟩ := keyed_iff.mp ⟨hKeyed, hEnds⟩
    exact ⟨iss, t, hName, hKey, hReads⟩
  · rintro ⟨iss, t, hName, hKey, hReads⟩
    obtain ⟨hKeyed, hEnds⟩ := keyed_iff.mpr ⟨iss, hName, hKey⟩
    exact ⟨t, hKeyed, (hFollows t).mpr ⟨hEnds, hReads⟩⟩

/-- What an operation asks for, if it does. -/
def parse (operation : String) : Option Command :=
  (word.run operation.toList).bind fun (cmd, iss) => (word.run iss).bind fun (key, t) =>
    if cmd.text = "PUT" then (unsigned.run t).map fun r => .put key r.1
    else if cmd.text = "GET" then some (.get key)
    else if cmd.text = "DELETE" then some (.delete key)
    else none

theorem parse_eq_some_iff {operation : String} {c : Command} : parse operation = some c ↔ Says c operation := by
  rw [says_iff, parse]
  constructor
  · intro h
    obtain ⟨⟨cmd, iss⟩, hName, h⟩ := Option.bind_eq_some_iff.mp h
    obtain ⟨⟨key, t⟩, hKey, h⟩ := Option.bind_eq_some_iff.mp h
    dsimp only at h
    split at h
    · rename_i hPut
      obtain ⟨⟨value, rest⟩, hRun, rfl⟩ := Option.map_eq_some_iff.mp h
      cases (Token.ext hPut : cmd = (Command.put key value).name)
      exact ⟨iss, t, hName, hKey, rest, hRun⟩
    · split at h
      · rename_i hGet
        cases h
        cases (Token.ext hGet : cmd = (Command.get key).name)
        exact ⟨iss, t, hName, hKey, trivial⟩
      · split at h
        · rename_i hDelete
          cases h
          cases (Token.ext hDelete : cmd = (Command.delete key).name)
          exact ⟨iss, t, hName, hKey, trivial⟩
        · cases h
  · rintro ⟨iss, t, hName, hKey, hReads⟩
    rw [hName, Option.bind_some]
    dsimp only
    rw [hKey, Option.bind_some]
    cases c with
    | put key value =>
      obtain ⟨rest, hRun⟩ := hReads
      simp [Command.name, Command.key, hRun]
    | get key | delete key => simp [Command.name, Command.key]

instance (c : Command) (operation : String) : Decidable (Says c operation) :=
  decidable_of_iff _ parse_eq_some_iff

/-- An operation asks for one thing at most. -/
theorem Says.unique {c c' : Command} {operation : String} (h : Says c operation) (h' : Says c' operation) :
    c = c' :=
  Option.some.inj ((parse_eq_some_iff.mpr h).symm.trans (parse_eq_some_iff.mpr h'))

def complaints : List String :=
  ["ERROR: Invalid PUT format", "ERROR: Invalid GET format", "ERROR: Invalid DELETE format", "ERROR: Unknown command"]

theorem execute_eq_run {c : Command} {operation : String} (h : Says c operation) (store : Store) :
    execute store operation = c.run store := by
  obtain ⟨iss, t, hName, hKey, hReads⟩ := says_iff.mp h
  cases c with
  | put key value =>
    obtain ⟨rest, hRun⟩ := hReads
    simp [execute, hName, hKey, hRun, Command.name, Command.key, Command.run]
  | get key =>
    simp only [execute, hName, hKey, Command.name, Command.key, Command.run]
    cases store[key.text]? <;> simp [found]
  | delete key => simp [execute, hName, hKey, Command.name, Command.key, Command.run]

theorem execute_of_silent {operation : String} (h : ∀ c, ¬Says c operation) (store : Store) :
    (execute store operation).1 = store ∧ (execute store operation).2 ∈ complaints := by
  simp only [says_iff, not_exists, not_and] at h
  unfold execute
  cases hName : word.run operation.toList with
  | none => simp [complaints]
  | some r =>
    obtain ⟨cmd, iss⟩ := r
    dsimp only
    split
    · rename_i hPut
      cases hKey : word.run iss with
      | none => simp [complaints]
      | some r =>
        obtain ⟨key, t⟩ := r
        cases hRun : unsigned.run t with
        | none => simp [complaints, hRun]
        | some r =>
          obtain ⟨value, rest⟩ := r
          have hCmd : cmd = (Command.put key value).name := Token.ext hPut
          exact absurd ⟨rest, hRun⟩ (h (.put key value) iss t (hCmd ▸ hName) hKey)
    · split
      · rename_i hGet
        cases hKey : word.run iss with
        | none => simp [complaints]
        | some r =>
          have hCmd : cmd = (Command.get r.1).name := Token.ext hGet
          exact absurd trivial (h (.get r.1) iss r.2 (hCmd ▸ hName) hKey)
      · split
        · rename_i hDelete
          cases hKey : word.run iss with
          | none => simp [complaints]
          | some r =>
            have hCmd : cmd = (Command.delete r.1).name := Token.ext hDelete
            exact absurd trivial (h (.delete r.1) iss r.2 (hCmd ▸ hName) hKey)
        · simp [complaints]

theorem answer_notMem_complaints (c : Command) (store : Store) : (c.run store).2 ∉ complaints := by
  have hOk : "OK" ∉ complaints := by decide
  have hMissing : "NOT_FOUND" ∉ complaints := by decide
  have hLetter : ∀ e ∈ complaints, 'E' ∈ e.toList := by simp [complaints]
  cases c with
  | put key value | delete key => exact hOk
  | get key =>
    rw [Command.run]
    unfold found
    split
    · intro h
      have hDigit := hLetter _ h
      rw [Nat.toList_repr] at hDigit
      exact absurd (Nat.isDigit_of_mem_toDigits (by decide) (by decide) hDigit) (by decide)
    · exact hMissing

/-- An operation is executed as the one command whose form it has, and its answer is then no complaint.
If it has the form of none, the store stays as it is and the answer is one. -/
theorem execute_outcome (store : Store) (operation : String) :
    (∃! c, Says c operation ∧ execute store operation = c.run store ∧
      (execute store operation).2 ∉ complaints) ∨
    ((∀ c, ¬Says c operation) ∧ (execute store operation).1 = store ∧
      (execute store operation).2 ∈ complaints) := by
  by_cases h : ∃ c, Says c operation
  · left
    obtain ⟨c, hSays⟩ := h
    have hRun := execute_eq_run hSays store
    refine ⟨c, ⟨hSays, hRun, ?_⟩, fun c' h' => h'.1.unique hSays⟩
    rw [hRun]
    exact answer_notMem_complaints c store
  · right
    rw [not_exists] at h
    exact ⟨h, execute_of_silent h store⟩

def Command.text : Command → String
  | .put key value => "PUT " ++ key.text ++ " " ++ value.toNat.repr
  | .get key => "GET " ++ key.text
  | .delete key => "DELETE " ++ key.text

theorem says_text (c : Command) : Says c c.text := by
  have hSpace : Blank [' '] := by simp [Blank, isSpace]
  have hNone : Blank [] := by simp [Blank]
  cases c with
  | put key value =>
    refine ⟨[' '] ++ (Numeral.of value).digits, ⟨[], [' '], hNone, hSpace, List.cons_ne_nil _ _, ?_⟩,
      [' '], .absent, Numeral.of value, [], hSpace, List.cons_ne_nil _ _, ?_, ends_nil _, ?_⟩
    · simp [Command.text, Command.name, Command.key, Numeral.of]
    · rw [Sign.apply, Numeral.value_of]
    · simp [Sign.text]
  | get key | delete key =>
    refine ⟨[], ⟨[], [' '], hNone, hSpace, List.cons_ne_nil _ _, ?_⟩, ends_nil _⟩
    simp [Command.text, Command.name, Command.key]

/-- Every command can be given, with any key that has no white space and any value: what is written
for it is executed as that command. -/
theorem execute_text (c : Command) (store : Store) : execute store c.text = c.run store :=
  execute_eq_run (says_text c) store

end Pbft.KvStore
