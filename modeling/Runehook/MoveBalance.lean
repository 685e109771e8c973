import Runehook.Environment
import Runehook.Lib.HashMap
import Runehook.Lib.Lists

/-! # Moving balances to outputs

`move_rune_balance_to_output` of `db/cache/utils.rs` (`moveRuneBalanceToOutput`), with the loop that
takes balances off the front of a deque (`takeBalances`), and the mint rule `is_rune_mintable`
(`isRuneMintable`). -/

namespace Runehook

open Lib

/-! ## Ledger entries -/

/-- `new_sequential_ledger_entry`: an entry and the next event index. -/
def newSequentialLedgerEntry (location : TransactionLocation) (amount : Option Nat)
    (runeId : RuneId) (output : Option Nat) (address receiverAddress : Option Address)
    (operation : DbLedgerOperation) (nextEventIndex : Nat) : DbLedgerEntry × Nat :=
  (DbLedgerEntry.fromValues amount runeId location.blockHash location.blockHeight location.txIndex
    nextEventIndex location.txId output address receiverAddress operation location.timestamp,
    nextEventIndex + 1)

/-! ## Taking balances -/

/-- The variables of the loop in `move_rune_balance_to_output`: the deque, the running total and the
senders so far. -/
structure Taking where
  /-- The deque of balances that are left. -/
  balances : List InputRuneBalance
  /-- What was taken so far. -/
  totalSent : Nat
  /-- What was taken from each owner, in order. -/
  senders : List (Nat × Address)
  deriving DecidableEq, Repr

/-- The loop of `move_rune_balance_to_output`. An `amount` of zero asks for every balance. -/
def takeBalances (amount : Nat) : List InputRuneBalance → Nat → List (Nat × Address) → Taking
  | [], totalSent, senders => ⟨[], totalSent, senders⟩
  | bal :: rest, totalSent, senders =>
    let balanceTaken := if amount = 0 then bal.amount else min bal.amount (amount - totalSent)
    let totalSent' := u128Add totalSent balanceTaken
    -- If the input balance came from an address, add to `Send` operations.
    let senders' :=
      senders ++ (bal.address.map fun senderAddress => (balanceTaken, senderAddress)).toList
    -- A partial take keeps the rest of the balance for later and satisfies the amount.
    if balanceTaken < bal.amount then
      ⟨{ bal with amount := bal.amount - balanceTaken } :: rest, totalSent', senders'⟩
    else if totalSent' = amount then ⟨rest, totalSent', senders'⟩
    else takeBalances amount rest totalSent' senders'

/-! ## Moving -/

/-- Who the balance goes to: the address of the output, if it is an eligible one that decodes. -/
def receiverAddress (env : Environment) (location : TransactionLocation)
    (outputs : HashMap Nat ScriptBuf) (output : Option Nat) : Option Address :=
  output.bind fun output => (outputs.lookup output).bind fun script =>
    env.addressFromScript script location.network

/-- The `send` or `burn` entries of a move, one for each sender. -/
def senderEntries (location : TransactionLocation) (runeId : RuneId) (output : Option Nat)
    (receiver : Option Address) (operation : DbLedgerOperation) :
    List (Nat × Address) → Nat → List DbLedgerEntry × Nat
  | [], nextEventIndex => ([], nextEventIndex)
  | (balanceTaken, senderAddress) :: senders, nextEventIndex =>
    let (entry, nextEventIndex) :=
      newSequentialLedgerEntry location (some balanceTaken) runeId output
      (some senderAddress) receiver operation nextEventIndex
    let (entries, nextEventIndex) :=
      senderEntries location runeId output receiver operation senders nextEventIndex
    (entry :: entries, nextEventIndex)

/-- What a move leaves: its entries, the deque and the next event index. -/
structure Movement where
  /-- The entries. -/
  entries : List DbLedgerEntry
  /-- The balances that are left. -/
  balances : List InputRuneBalance
  /-- The index of the next entry. -/
  nextEventIndex : Nat

/-- `move_rune_balance_to_output`. -/
def moveRuneBalanceToOutput (env : Environment) (location : TransactionLocation)
    (output : Option Nat) (runeId : RuneId) (inputBalances : List InputRuneBalance)
    (outputs : HashMap Nat ScriptBuf) (amount nextEventIndex : Nat) : Movement :=
  let receiver := receiverAddress env location outputs output
  let operation := if receiver.isSome then DbLedgerOperation.send else .burn
  let taking := takeBalances amount inputBalances 0 []
  let (receives, nextEventIndex) :=
    if receiver.isSome ∧ 0 < taking.totalSent then
      let (entry, next) :=
        newSequentialLedgerEntry location (some taking.totalSent) runeId output receiver
        none .receive nextEventIndex
      ([entry], next)
    else ([], nextEventIndex)
  let (sends, nextEventIndex) :=
    senderEntries location runeId output receiver operation taking.senders nextEventIndex
  ⟨receives ++ sends, taking.balances, nextEventIndex⟩

/-! ## Minting -/

/-- `is_rune_mintable`. -/
def isRuneMintable (rune : DbRune) (totalMints : Nat) (location : TransactionLocation) : Bool :=
  if rune.cenotaph then false
  else if rune.termsAmount.isNone then false
  else if rune.termsCap.any fun cap => totalMints ≥ cap then false
  else if rune.termsHeightStart.any fun start => location.blockHeight < start then false
  else if rune.termsHeightEnd.any fun last => location.blockHeight > last then false
  else if rune.termsOffsetStart.any fun start => location.blockHeight <
    u64Add rune.blockHeight start then
    false
  else if rune.termsOffsetEnd.any fun last => location.blockHeight >
    u64Add rune.blockHeight last then
    false
  else true

/-- A mintable rune has a mint amount: the `unwrap` in `apply_mint` is safe. -/
theorem termsAmount_isSome_of_mintable {rune : DbRune} {totalMints : Nat}
    {location : TransactionLocation} (h : isRuneMintable rune totalMints location) :
    rune.termsAmount.isSome := by
  cases ha : rune.termsAmount with
  | some amount => rfl
  | none => simp [isRuneMintable, ha] at h

/-- A mintable rune is below its cap. -/
theorem lt_cap_of_mintable {rune : DbRune} {totalMints cap : Nat} {location : TransactionLocation}
    (h : isRuneMintable rune totalMints location) (hcap : rune.termsCap = some cap) :
    totalMints < cap := by
  by_contra hle
  simp [isRuneMintable, hcap, Nat.not_lt.mp hle] at h

/-- A mintable rune has started. -/
theorem start_le_of_mintable {rune : DbRune} {totalMints start : Nat}
    {location : TransactionLocation} (h : isRuneMintable rune totalMints location)
    (hstart : rune.termsHeightStart = some start) :
    start ≤ location.blockHeight := by
  by_contra hlt
  simp [isRuneMintable, hstart, Nat.not_le.mp hlt] at h

end Runehook
