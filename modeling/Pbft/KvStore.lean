import Pbft.Foundation.Scanner
import Pbft.Node.State

/-! # The key-value store

The service of the example. An operation is a line of text, of which only as much is read as the
command needs; the state is announced as the hash of the list of all pairs, in the order of the keys.
-/
namespace Pbft
set_option autoImplicit false

abbrev Store := Std.ExtTreeMap String UInt32

namespace KvStore

/-- A failed extraction leaves cmd empty, which is no command. -/
def execute (store : Store) (operation : String) : Store × String :=
  let (cmd, iss) := match Scanner.word.run operation.toList with
    | some (cmd, iss) => (cmd.text, iss)
    | none => ("", [])
  if cmd = "PUT" then
    match Scanner.word.run iss with
    | some (key, iss) =>
      match Scanner.unsigned.run iss with
      | some (value, _) => (store.insert key.text value, "OK")
      | none => (store, "ERROR: Invalid PUT format")
    | none => (store, "ERROR: Invalid PUT format")
  else if cmd = "GET" then
    match Scanner.word.run iss with
    | some (key, _) =>
      match store[key.text]? with
      | some value => (store, value.toNat.repr)
      | none => (store, "NOT_FOUND")
    | none => (store, "ERROR: Invalid GET format")
  else if cmd = "DELETE" then
    match Scanner.word.run iss with
    | some (key, _) => (store.erase key.text, "OK")
    | none => (store, "ERROR: Invalid DELETE format")
  else (store, "ERROR: Unknown command")

def accumulate (state_accum : String) (pair : String × UInt32) : String :=
  state_accum ++ pair.1 ++ ":" ++ pair.2.toNat.repr ++ ";"

def checkpointText (store : Store) : String := store.toList.foldl accumulate ""

/-- The store as a service; the hash on texts is a parameter. -/
def service (getHash : String → Digest) : Service Store where
  initial := ∅
  execute := execute
  getCheckpointDigest store := getHash (checkpointText store)

end KvStore
end Pbft
