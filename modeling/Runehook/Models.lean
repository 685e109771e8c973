import Runehook.Ordinals

/-! # Rows and locations

The rows of the tables `runes`, `ledger`, `supply_changes` and `balance_changes` (`db/models`:
`DbRune`, `DbLedgerEntry`, `DbSupplyChange`, `BalanceRow`), and the location of a transaction. A
row's `rune_id` column holds the text of a `RuneId`; the text is written by `Display` and read back
by `FromStr`, so the model keeps the id itself. -/

namespace Runehook

/-- `bitcoin::Network`, with the two test networks the indexer tells apart. -/
inductive Network where
  | bitcoin
  | testnetV3
  | testnetV4
  | signet
  | regtest
  deriving DecidableEq, Repr

abbrev Address : Type := String

/-- The slice `[2..]` that drops the `0x` of a chainhook hash. -/
def stripHexPrefix (hash : String) : String := String.ofList (hash.toList.drop 2)

/-- `TransactionLocation`. -/
structure TransactionLocation where
  /-- The network. -/
  network : Network
  /-- The hash of the block, with its prefix. -/
  blockHash : String
  /-- The height of the block. -/
  blockHeight : Nat
  /-- The time in the header of the block. -/
  timestamp : Nat
  /-- The index of the transaction in the block. -/
  txIndex : Nat
  /-- The id of the transaction, with its prefix. -/
  txId : String
  deriving DecidableEq, Repr

/-- `TransactionLocation::rune_id`: the id of a rune etched at this location. -/
def TransactionLocation.runeId (location : TransactionLocation) : RuneId :=
  ⟨location.blockHeight, location.txIndex⟩

/-- `InputRuneBalance`: an amount input to a transaction and who owned it; nobody owns a balance
that was just minted or premined. -/
structure InputRuneBalance where
  /-- The previous owner, if there is one. -/
  address : Option Address
  /-- How much was input to the transaction. -/
  amount : Nat
  deriving DecidableEq, Repr

/-- `DbLedgerOperation`. -/
inductive DbLedgerOperation where
  | etching
  | mint
  | burn
  | send
  | receive
  deriving DecidableEq, Repr

/-- `DbLedgerEntry`: a row of `ledger`. -/
structure DbLedgerEntry where
  /-- The rune. -/
  runeId : RuneId
  /-- The hash of the block, without its prefix. -/
  blockHash : String
  /-- The height of the block. -/
  blockHeight : Nat
  /-- The index of the transaction in the block. -/
  txIndex : Nat
  /-- The place among the entries of the transaction. -/
  eventIndex : Nat
  /-- The id of the transaction, without its prefix. -/
  txId : String
  /-- The output that gets the amount, or that it is sent to. -/
  output : Option Nat
  /-- The owner that the operation is about. -/
  address : Option Address
  /-- The owner of the output. -/
  receiverAddress : Option Address
  /-- How much of the rune. -/
  amount : Option Nat
  /-- What was done. -/
  operation : DbLedgerOperation
  /-- The time in the header of the block. -/
  timestamp : Nat
  deriving DecidableEq, Repr

/-- `DbLedgerEntry::from_values`. -/
def DbLedgerEntry.fromValues (amount : Option Nat) (runeId : RuneId) (blockHash : String)
    (blockHeight txIndex eventIndex : Nat) (txId : String) (output : Option Nat)
    (address receiverAddress : Option Address) (operation : DbLedgerOperation) (timestamp : Nat) :
    DbLedgerEntry where
  runeId := runeId
  blockHash := stripHexPrefix blockHash
  blockHeight := blockHeight
  txIndex := txIndex
  eventIndex := eventIndex
  txId := stripHexPrefix txId
  output := output
  address := address
  receiverAddress := receiverAddress
  amount := amount
  operation := operation
  timestamp := timestamp

/-- `DbRune`: a row of `runes`. -/
structure DbRune where
  /-- The id, and the primary key. -/
  id : RuneId
  /-- The order of the etching among all of them. -/
  number : Nat
  /-- The name. -/
  name : String
  /-- The name with its bullets. -/
  spacedName : String
  /-- The hash of the block, without its prefix. -/
  blockHash : String
  /-- The height of the block. -/
  blockHeight : Nat
  /-- The index of the transaction in the block. -/
  txIndex : Nat
  /-- The id of the transaction, without its prefix. -/
  txId : String
  /-- The number of decimals. -/
  divisibility : Nat
  /-- What the etching itself issues. -/
  premine : Nat
  /-- The currency symbol. -/
  symbol : String
  /-- What a mint issues; there are no mints without it. -/
  termsAmount : Option Nat
  /-- How many mints there can be. -/
  termsCap : Option Nat
  /-- The first height of a mint. -/
  termsHeightStart : Option Nat
  /-- The last height of a mint. -/
  termsHeightEnd : Option Nat
  /-- The first height, counted from the etching. -/
  termsOffsetStart : Option Nat
  /-- The last height, counted from the etching. -/
  termsOffsetEnd : Option Nat
  /-- Whether the rune opts in to later protocol changes. -/
  turbo : Bool
  /-- Whether a cenotaph etched it, which the table does not keep. -/
  cenotaph : Bool
  /-- The time in the header of the block. -/
  timestamp : Nat
  deriving DecidableEq, Repr

/-- `DbRune::from_etching`. -/
def DbRune.fromEtching (etching : Etching) (number : Nat)
    (location : TransactionLocation) : DbRune :=
  let rune := etching.rune.getD (Rune.reserved location.blockHeight location.txIndex)
  { id := location.runeId
    number := number
    name := Rune.toName rune
    spacedName := match etching.spacers with
      | some spacers => SpacedRune.toName rune spacers
      | none => Rune.toName rune
    blockHash := stripHexPrefix location.blockHash
    blockHeight := location.blockHeight
    txIndex := location.txIndex
    txId := stripHexPrefix location.txId
    divisibility := etching.divisibility.getD 0
    premine := etching.premine.getD 0
    symbol := match etching.symbol with
      | some symbol => if symbol = '\x00' then "" else symbol.toString
      | none => "¤"
    termsAmount := etching.terms.bind Terms.amount
    termsCap := etching.terms.bind Terms.cap
    termsHeightStart := etching.terms.bind fun terms => terms.height.1
    termsHeightEnd := etching.terms.bind fun terms => terms.height.2
    termsOffsetStart := etching.terms.bind fun terms => terms.offset.1
    termsOffsetEnd := etching.terms.bind fun terms => terms.offset.2
    turbo := etching.turbo
    cenotaph := false
    timestamp := location.timestamp }

/-- `DbRune::from_cenotaph_etching`. -/
def DbRune.fromCenotaphEtching (rune : Rune) (number : Nat) (location : TransactionLocation) :
    DbRune where
  id := location.runeId
  number := number
  name := Rune.toName rune
  spacedName := Rune.toName rune
  blockHash := stripHexPrefix location.blockHash
  blockHeight := location.blockHeight
  txIndex := location.txIndex
  txId := stripHexPrefix location.txId
  divisibility := 0
  premine := 0
  symbol := ""
  termsAmount := none
  termsCap := none
  termsHeightStart := none
  termsHeightEnd := none
  termsOffsetStart := none
  termsOffsetEnd := none
  turbo := false
  cenotaph := true
  timestamp := location.timestamp

/-- `DbRune::rune_id`. -/
def DbRune.runeId (rune : DbRune) : RuneId := ⟨rune.blockHeight, rune.txIndex⟩

/-- `DbSupplyChange`: what a batch of operations adds to a rune's counters, and a row of
`supply_changes` once added up. -/
structure DbSupplyChange where
  /-- The rune. -/
  runeId : RuneId
  /-- The height of the block. -/
  blockHeight : Nat
  /-- The minted amount. -/
  minted : Nat
  /-- The number of mints. -/
  totalMints : Nat
  /-- The burned amount. -/
  burned : Nat
  /-- The number of burns. -/
  totalBurns : Nat
  /-- The number of operations. -/
  totalOperations : Nat
  deriving DecidableEq, Repr

/-- `DbSupplyChange::from_mint`. -/
def DbSupplyChange.fromMint (id : RuneId) (blockHeight amount : Nat) : DbSupplyChange :=
  ⟨id, blockHeight, amount, 1, 0, 0, 1⟩

/-- `DbSupplyChange::from_burn`. -/
def DbSupplyChange.fromBurn (id : RuneId) (blockHeight amount : Nat) : DbSupplyChange :=
  ⟨id, blockHeight, 0, 0, amount, 1, 1⟩

/-- `DbSupplyChange::from_operation`. -/
def DbSupplyChange.fromOperation (id : RuneId) (blockHeight : Nat) : DbSupplyChange :=
  ⟨id, blockHeight, 0, 0, 0, 0, 1⟩

/-- `DbBalanceChange`: what a batch of operations adds to, or takes from, an address. -/
structure DbBalanceChange where
  /-- The rune. -/
  runeId : RuneId
  /-- The height of the block. -/
  blockHeight : Nat
  /-- The address. -/
  address : Address
  /-- The amount. -/
  balance : Nat
  /-- The number of operations. -/
  totalOperations : Nat
  deriving DecidableEq, Repr

/-- `DbBalanceChange::from_operation`. -/
def DbBalanceChange.fromOperation (runeId : RuneId) (blockHeight : Nat) (address : Address)
    (balance : Nat) : DbBalanceChange :=
  ⟨runeId, blockHeight, address, balance, 1⟩

/-- A row of `balance_changes`. The column is a signed `NUMERIC`. -/
structure BalanceRow where
  /-- The rune. -/
  runeId : RuneId
  /-- The height of the block. -/
  blockHeight : Nat
  /-- The address. -/
  address : Address
  /-- What the address has. -/
  balance : Int
  /-- The number of operations. -/
  totalOperations : Nat
  deriving DecidableEq, Repr

end Runehook
