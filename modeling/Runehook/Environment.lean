import Runehook.Models

/-! # What the indexer takes from outside

The indexer calls code that is not its own: the `bitcoin` crate decodes addresses and recognizes
`OP_RETURN` scripts, `Runestone::decipher` reads an artifact out of a transaction's outputs, and two
orders are left open by the language and by SQL: the order in which a `HashMap` is iterated and the
order in which a query returns its rows. An `Environment` fixes one behaviour of each; results about
the indexer hold in every environment. -/

namespace Runehook

/-- `ScriptBuf`: the bytes of an output script. -/
abbrev ScriptBuf : Type := List UInt8

/-- The outside of the indexer. -/
structure Environment where
  /-- `Address::from_script`, as text. -/
  addressFromScript : ScriptBuf → Network → Option Address
  /-- `Script::is_op_return`. -/
  isOpReturn : ScriptBuf → Bool
  /-- `Runestone::decipher`, which reads the output scripts of a transaction only. -/
  decipher : List ScriptBuf → Option Artifact
  /-- The order in which the map of input runes of the transaction at a location is iterated. -/
  runeOrder : TransactionLocation → List RuneId → List RuneId
  /-- No rune is left out or comes twice. -/
  runeOrder_perm : ∀ location l, (runeOrder location l).Perm l
  /-- The order in which the output cache of a block is iterated. -/
  outputOrder : List (String × Nat) → List (String × Nat)
  /-- No output is left out or comes twice. -/
  outputOrder_perm : ∀ l, (outputOrder l).Perm l
  /-- The order in which the query for input balances returns its rows. -/
  rowOrder : List (Nat × DbLedgerEntry) → List (Nat × DbLedgerEntry)
  /-- No row is left out or comes twice. -/
  rowOrder_perm : ∀ l, (rowOrder l).Perm l

/-- Two environments read the same protocol: they differ at most in the orders that are left
open. -/
structure Environment.SameProtocol (env env' : Environment) : Prop where
  /-- They decode the same addresses. -/
  addressFromScript : env.addressFromScript = env'.addressFromScript
  /-- They recognize the same `OP_RETURN` scripts. -/
  isOpReturn : env.isOpReturn = env'.isOpReturn
  /-- They read the same artifacts. -/
  decipher : env.decipher = env'.decipher

/-- An environment that iterates in order: the one-byte scripts `1` and `2` pay to two addresses,
and a script that starts with `OP_RETURN` carries the artifact that `table` gives it. -/
def Environment.plain (table : ScriptBuf → Option Artifact) : Environment where
  addressFromScript script _ :=
    if script = [1] then some "alice" else if script = [2] then some "bob" else none
  isOpReturn script := script.head? = some 0x6a
  decipher outputs := (outputs.find? fun script => script.head? = some 0x6a).bind table
  runeOrder _ l := l
  runeOrder_perm _ _ := .refl _
  outputOrder l := l
  outputOrder_perm _ := .refl _
  rowOrder l := l
  rowOrder_perm _ := .refl _

end Runehook
