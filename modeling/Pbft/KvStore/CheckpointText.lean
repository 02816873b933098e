import Pbft.Foundation.Records
import Pbft.KvStore.Registers

/-! # The text behind a checkpoint

The digest of a checkpoint is the hash of all pairs, each with a colon inside and a semicolon behind it.
Nothing is escaped, so the text stands for one store as long as no key has a semicolon in it.
-/
namespace Pbft.KvStore
set_option autoImplicit false

/-- A pair as it is written, without the semicolon. -/
def record (pair : String × UInt32) : List Char := pair.1.toList ++ ':' :: Nat.toDigits 10 pair.2.toNat

theorem toList_checkpointText (store : Store) :
    (checkpointText store).toList = Records.join ';' (store.toList.map record) := by
  have hFold : ∀ (pairs : List (String × UInt32)) (acc : String),
      (pairs.foldl accumulate acc).toList = acc.toList ++ Records.join ';' (pairs.map record) := by
    intro pairs
    induction pairs with
    | nil => simp [Records.join]
    | cons pair pairs ih =>
      intro acc
      rw [List.foldl_cons, ih, List.map_cons, Records.join_cons]
      simp [accumulate, record, Nat.toList_repr]
  rw [checkpointText, hFold, String.toList_empty, List.nil_append]

theorem notMem_digits {c : Char} (hc : c.isDigit = false) (n : Nat) : c ∉ Nat.toDigits 10 n := fun h => by
  rw [Nat.isDigit_of_mem_toDigits (by decide) (by decide) h] at hc
  cases hc

theorem record_injective : Function.Injective record := by
  rintro ⟨key, value⟩ ⟨key', value'⟩ h
  obtain ⟨hKey, hDigits⟩ := Records.last_inj (notMem_digits (by decide) _) (notMem_digits (by decide) _) h
  have hValue := congrArg (Nat.ofDigitChars 10 · 0) hDigits
  simp only [Nat.ofDigitChars_ten_toDigits] at hValue
  exact Prod.ext (String.toList_inj.mp hKey) (UInt32.toNat_inj.mp hValue)

def Plain (store : Store) : Prop := ∀ key ∈ store, ';' ∉ key.toList

theorem notMem_record {store : Store} (h : Plain store) : ∀ r ∈ store.toList.map record, ';' ∉ r := by
  intro r hr
  obtain ⟨⟨key, value⟩, hPair, rfl⟩ := List.mem_map.mp hr
  obtain ⟨hMem, -⟩ := Std.ExtTreeMap.getElem?_eq_some_iff.mp (Std.ExtTreeMap.mem_toList_iff_getElem?_eq_some.mp hPair)
  have hKey : ';' ∉ key.toList := h key hMem
  simp [record, hKey, notMem_digits]

/-- The text determines the store, as long as no key has a semicolon in it. -/
theorem checkpointText_inj {store store' : Store} (h : Plain store) (h' : Plain store')
    (hText : checkpointText store = checkpointText store') : store = store' := by
  have hRecords := congrArg String.toList hText
  rw [toList_checkpointText, toList_checkpointText] at hRecords
  have hPairs := Records.join_inj (notMem_record h) (notMem_record h') hRecords
  exact Std.ExtTreeMap.toList_inj.mp (List.map_injective_iff.mpr record_injective hPairs)

/-- Nothing is put under a key with a semicolon. -/
def PlainKeys (operations : List String) : Prop :=
  ∀ op ∈ operations, ∀ key value, Says (.put key value) op → ';' ∉ key.text.toList

theorem plain_execute {store : Store} (h : Plain store) {operation : String}
    (hKeys : ∀ key value, Says (.put key value) operation → ';' ∉ key.text.toList) :
    Plain (execute store operation).1 := by
  cases hParse : parse operation with
  | none =>
    have hSilent : ∀ c, ¬Says c operation := fun c hc => by
      rw [← parse_eq_some_iff, hParse] at hc
      cases hc
    rwa [(execute_of_silent hSilent store).1]
  | some c =>
    have hSays := parse_eq_some_iff.mp hParse
    rw [execute_eq_run hSays]
    intro k hk
    cases c with
    | put key value =>
      rcases (TreeMap.mem_insert _ _ _).mp hk with rfl | hk
      · exact hKeys key value hSays
      · exact h k hk
    | get key => exact h k hk
    | delete key => exact h k (Std.ExtTreeMap.mem_of_mem_erase hk)

theorem plain_after {operations : List String} (h : PlainKeys operations) : Plain (after operations) := by
  have hFold : ∀ (ops : List String) (store : Store), Plain store → PlainKeys ops →
      Plain (ops.foldl (fun store op => (execute store op).1) store) := by
    intro ops
    induction ops with
    | nil => exact fun store hStore _ => hStore
    | cons op ops ih =>
      intro store hStore hOps
      exact ih _ (plain_execute hStore (hOps op (by simp))) fun o ho => hOps o (by simp [ho])
  exact hFold operations ∅ (fun key hKey => by simp at hKey) h

theorem toList_one (key : String) (value : UInt32) : ((∅ : Store).insert key value).toList = [(key, value)] := by
  refine TreeMap.toList_eq (List.pairwise_singleton _ _) fun k x => ?_
  rw [TreeMap.lookup_insert, Std.ExtTreeMap.getElem?_empty]
  split
  · rename_i hk
    subst hk
    simpa using eq_comm
  · rename_i hk
    simp [Ne.symm hk]

theorem toList_two {a b : String} (hLt : compare a b = .lt) (v w : UInt32) :
    (((∅ : Store).insert a v).insert b w).toList = [(a, v), (b, w)] := by
  have hNe : a ≠ b := by
    rintro rfl
    have hSelf : compare a a = .eq := Std.ReflCmp.compare_self
    rw [hSelf] at hLt
    cases hLt
  refine TreeMap.toList_eq (by simpa using hLt) fun k x => ?_
  rw [TreeMap.lookup_insert, TreeMap.lookup_insert, Std.ExtTreeMap.getElem?_empty]
  split
  · rename_i hk
    subst hk
    simpa [Ne.symm hNe] using eq_comm
  · rename_i hkb
    split
    · rename_i hk
      subst hk
      simpa [hNe] using eq_comm
    · rename_i hka
      simp [Ne.symm hka, Ne.symm hkb]

/-- The record of a, but for its end, and the key b, read as one key. -/
def glue (a : Token) (v : UInt32) (b : Token) : Token where
  text := a.text ++ ":" ++ v.toNat.repr ++ ";" ++ b.text
  nonempty h := by simpa using congrArg String.toList h
  solid c hc := by
    simp only [String.toList_append, List.mem_append, Nat.toList_repr] at hc
    rcases hc with (((hc | hc) | hc) | hc) | hc
    · exact a.solid c hc
    · simp at hc
      simp [hc, isSpace]
    · exact Scanner.isSpace_of_isDigit (Nat.isDigit_of_mem_toDigits (by decide) (by decide) hc)
    · simp at hc
      simp [hc, isSpace]
    · exact b.solid c hc

/-- The store after the commands, each given as an operation. -/
def stored (commands : List Command) : Store := after (commands.map Command.text)

/-- Whatever is put under two keys, there is a third key under which one number can be put so that the text
is the same: the digest of a checkpoint does not separate the two stores, which answer differently. -/
theorem checkpointText_glue {a b : Token} (hLt : compare a.text b.text = .lt) (v w : UInt32) : ∃ k : Token,
    checkpointText (stored [.put a v, .put b w]) = checkpointText (stored [.put k w]) ∧
    (execute (stored [.put a v, .put b w]) (Command.get a).text).2 = v.toNat.repr ∧
    (execute (stored [.put k w]) (Command.get a).text).2 = "NOT_FOUND" := by
  refine ⟨glue a v b, ?_⟩
  simp only [stored, after, List.map_cons, List.map_nil, List.foldl_cons, List.foldl_nil, execute_text, Command.run]
  have hLong : a.text ≠ (glue a v b).text := fun h => by
    have hLength := congrArg (List.length ∘ String.toList) h
    simp [glue] at hLength
  have hOther : b.text ≠ a.text := by
    intro h
    have hSelf : compare a.text a.text = .eq := Std.ReflCmp.compare_self
    rw [h, hSelf] at hLt
    cases hLt
  refine ⟨?_, ?_, ?_⟩
  · rw [← String.toList_inj, toList_checkpointText, toList_checkpointText, toList_one, toList_two hLt]
    simp [Records.join, record, glue, Nat.toList_repr]
  · rw [TreeMap.lookup_insert, if_neg hOther, TreeMap.lookup_insert, if_pos rfl, found]
  · rw [TreeMap.lookup_insert, if_neg (Ne.symm hLong), Std.ExtTreeMap.getElem?_empty, found]

theorem checkpointText_glue_a_b : ∃ k : Token,
    checkpointText (stored [.put (Token.of "a" (by decide)) 1, .put (Token.of "b" (by decide)) 2]) =
      checkpointText (stored [.put k 2]) := by
  obtain ⟨k, h, -⟩ := checkpointText_glue (a := Token.of "a" (by decide)) (b := Token.of "b" (by decide))
    (by decide +kernel) 1 2
  exact ⟨k, h⟩

end Pbft.KvStore
