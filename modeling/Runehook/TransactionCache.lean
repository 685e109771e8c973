import Mathlib.Data.List.Sort
import Runehook.MoveBalance

/-! # The cache of a transaction

`TransactionCache`: the balances input to the transaction being indexed and the operations that
spend them (`applyEdict`, `allocateRemainingBalances`, `applyCenotaphInputBurn`). Every operation
returns the ledger entries it generates. -/

namespace Runehook

open Lib

/-- `TransactionCache`. -/
structure TransactionCache where
  /-- The place of the transaction in the chain. -/
  location : TransactionLocation
  /-- Sequential index of the ledger entry inserted next for this transaction. -/
  nextEventIndex : Nat
  /-- Rune etched during this transaction, if any. -/
  etching : Option DbRune
  /-- The output where all unallocated runes go. -/
  outputPointer : Option Nat
  /-- Input runes: input to this transaction, premined or minted, in the order they came in. -/
  inputRunes : HashMap RuneId (List InputRuneBalance)
  /-- Non-`OP_RETURN` outputs in this transaction. -/
  eligibleOutputs : HashMap Nat ScriptBuf
  /-- Total outputs contained in this transaction, including non-eligible ones. -/
  totalOutputs : Nat

namespace TransactionCache

/-- `TransactionCache::new`. -/
def new (location : TransactionLocation) (inputRunes : HashMap RuneId (List InputRuneBalance))
    (eligibleOutputs : HashMap Nat ScriptBuf) (firstEligibleOutput : Option Nat)
    (totalOutputs : Nat) :
    TransactionCache :=
  ⟨location, 0, none, firstEligibleOutput, inputRunes, eligibleOutputs, totalOutputs⟩

/-- The balances of a rune that are not allocated yet. -/
def available (tx : TransactionCache) (id : RuneId) : List InputRuneBalance :=
  tx.inputRunes.getD id []

/-- Run `f` on each rune of a list and collect the entries, threading the event index. -/
def overRunes (f : RuneId → Nat → List DbLedgerEntry × Nat) :
    List RuneId → Nat → List DbLedgerEntry × Nat
  | [], nextEventIndex => ([], nextEventIndex)
  | id :: ids, nextEventIndex =>
    let (entries, nextEventIndex) := f id nextEventIndex
    let (results, nextEventIndex) := overRunes f ids nextEventIndex
    (entries ++ results, nextEventIndex)

/-- The `burn` entries of the balances of a rune. -/
def burnEntries (location : TransactionLocation) (id : RuneId) :
    List InputRuneBalance → Nat → List DbLedgerEntry × Nat
  | [], nextEventIndex => ([], nextEventIndex)
  | bal :: rest, nextEventIndex =>
    let (entry, nextEventIndex) :=
      newSequentialLedgerEntry location (some bal.amount) id none bal.address
      none .burn nextEventIndex
    let (entries, nextEventIndex) := burnEntries location id rest nextEventIndex
    (entry :: entries, nextEventIndex)

/-- `apply_cenotaph_input_burn`. -/
def applyCenotaphInputBurn (env : Environment) (tx : TransactionCache) :
    TransactionCache × List DbLedgerEntry :=
  let (results, nextEventIndex) :=
    overRunes (fun id => burnEntries tx.location id (tx.available id))
    (env.runeOrder tx.location tx.inputRunes.keys) tx.nextEventIndex
  ({ tx with inputRunes := ∅, nextEventIndex := nextEventIndex }, results)

/-- Move all the balances of a rune to the output pointer. -/
def moveToPointer (env : Environment) (tx : TransactionCache) (id : RuneId) (nextEventIndex : Nat) :
    List DbLedgerEntry × Nat :=
  let movement := moveRuneBalanceToOutput env tx.location tx.outputPointer id (tx.available id)
    tx.eligibleOutputs 0 nextEventIndex
  (movement.entries, movement.nextEventIndex)

/-- `allocate_remaining_balances`. -/
def allocateRemainingBalances (env : Environment) (tx : TransactionCache) :
    TransactionCache × List DbLedgerEntry :=
  let (results, nextEventIndex) := overRunes (moveToPointer env tx)
    (env.runeOrder tx.location tx.inputRunes.keys) tx.nextEventIndex
  ({ tx with inputRunes := ∅, nextEventIndex := nextEventIndex }, results)

/-- `add_input_runes`. -/
def addInputRunes (tx : TransactionCache) (id : RuneId) (entry : InputRuneBalance) :
    TransactionCache :=
  { tx with
    inputRunes := tx.inputRunes.alter id fun
      | some balance => balance ++ [entry]
      | none => [entry] }

/-- An entry without amount, output or address: an etching. -/
def etchingEntry (tx : TransactionCache) : DbLedgerEntry × Nat :=
  newSequentialLedgerEntry tx.location none tx.location.runeId none none none .etching
    tx.nextEventIndex

/-- `apply_etching`. -/
def applyEtching (tx : TransactionCache) (etching : Etching) (number : Nat) :
    TransactionCache × RuneId × DbRune × DbLedgerEntry :=
  let runeId := tx.location.runeId
  let dbRune := DbRune.fromEtching etching number tx.location
  let tx := { tx with etching := some dbRune }
  let tx := match etching.premine with
    | some premine => tx.addInputRunes runeId ⟨none, premine⟩
    | none => tx
  let (entry, nextEventIndex) := tx.etchingEntry
  ({ tx with nextEventIndex := nextEventIndex }, runeId, dbRune, entry)

/-- `apply_cenotaph_etching`. -/
def applyCenotaphEtching (tx : TransactionCache) (rune : Rune) (number : Nat) :
    TransactionCache × RuneId × DbRune × DbLedgerEntry :=
  let runeId := tx.location.runeId
  let dbRune := DbRune.fromCenotaphEtching rune number tx.location
  let tx := { tx with etching := some dbRune }
  let (entry, nextEventIndex) := tx.etchingEntry
  ({ tx with nextEventIndex := nextEventIndex }, runeId, dbRune, entry)

/-- `apply_mint`. -/
def applyMint (tx : TransactionCache) (id : RuneId) (totalMints : Nat) (dbRune : DbRune) :
    TransactionCache × Option DbLedgerEntry :=
  if h : isRuneMintable dbRune totalMints tx.location then
    let termsAmount := dbRune.termsAmount.get (termsAmount_isSome_of_mintable h)
    let tx := tx.addInputRunes id ⟨none, termsAmount⟩
    let (entry, nextEventIndex) :=
      newSequentialLedgerEntry tx.location (some termsAmount) id none none none
      .mint tx.nextEventIndex
    ({ tx with nextEventIndex := nextEventIndex }, some entry)
  else (tx, none)

/-- `apply_cenotaph_mint`: the entry does not go in the input runes, it gets burned immediately. -/
def applyCenotaphMint (tx : TransactionCache) (id : RuneId) (totalMints : Nat) (dbRune : DbRune) :
    TransactionCache × Option DbLedgerEntry :=
  if h : isRuneMintable dbRune totalMints tx.location then
    let termsAmount := dbRune.termsAmount.get (termsAmount_isSome_of_mintable h)
    let (entry, nextEventIndex) :=
      newSequentialLedgerEntry tx.location (some termsAmount) id none none none
      .burn tx.nextEventIndex
    ({ tx with nextEventIndex := nextEventIndex }, some entry)
  else (tx, none)

/-! ## Edicts -/

/-- The sum of the balances of a deque, as `u128`. -/
def unallocated : List InputRuneBalance → Nat
  | [] => 0
  | bal :: rest => rest.foldl (fun acc e => u128Add acc e.amount) bal.amount

/-- The shares of an equal split: one more for each output while a remainder is left. -/
def evenShares (perOutput : Nat) : List Nat → Nat → List (Option Nat × Nat)
  | [], _ => []
  | output :: outputs, remainder =>
    (some output, perOutput + if 0 < remainder then 1 else 0) ::
      evenShares perOutput outputs (remainder - 1)

/-- The moves of an edict: to which output, or `none` to burn, and how much. -/
def edictMoves (tx : TransactionCache) (edict : Edict) (unallocated : Nat) :
    List (Option Nat × Nat) :=
  if tx.eligibleOutputs.keys.length = 0 then [(none, edict.amount)]
  else if edict.output = tx.totalOutputs then
    let outputKeys := tx.eligibleOutputs.keys.insertionSort (· ≤ ·)
    if edict.amount = 0 then
      let len := tx.eligibleOutputs.keys.length
      evenShares (unallocated / len) outputKeys (unallocated % len)
    else outputKeys.map fun output => (some output, min edict.amount unallocated)
  else if edict.output < tx.totalOutputs then
    [(some edict.output, if edict.amount = 0 then unallocated else edict.amount)]
  else [(none, edict.amount)]

/-- A sequence of moves of one rune. -/
def applyMoves (env : Environment) (location : TransactionLocation) (id : RuneId)
    (outputs : HashMap Nat ScriptBuf) :
    List (Option Nat × Nat) → List InputRuneBalance → Nat → Movement
  | [], balances, nextEventIndex => ⟨[], balances, nextEventIndex⟩
  | (output, amount) :: moves, balances, nextEventIndex =>
    let first :=
      moveRuneBalanceToOutput env location output id balances outputs amount nextEventIndex
    let rest := applyMoves env location id outputs moves first.balances first.nextEventIndex
    ⟨first.entries ++ rest.entries, rest.balances, rest.nextEventIndex⟩

/-- The rune that the id of an edict means: `0:0` is the rune etched in this transaction. -/
def edictRuneId (tx : TransactionCache) (id : RuneId) : Option RuneId :=
  if id.block = 0 ∧ id.tx = 0 then tx.etching.map DbRune.runeId else some id

/-- `apply_edict`. -/
def applyEdict (env : Environment) (tx : TransactionCache) (edict : Edict) :
    TransactionCache × List DbLedgerEntry :=
  match tx.edictRuneId edict.id with
  | none => (tx, [])
  | some runeId =>
    match tx.inputRunes.lookup runeId with
    | none => (tx, [])
    | some availableInputs =>
      let movement := applyMoves env tx.location runeId tx.eligibleOutputs
        (tx.edictMoves edict (unallocated availableInputs)) availableInputs tx.nextEventIndex
      ({ tx with
          inputRunes := tx.inputRunes.insert runeId movement.balances
          nextEventIndex := movement.nextEventIndex }, movement.entries)

end TransactionCache

end Runehook
