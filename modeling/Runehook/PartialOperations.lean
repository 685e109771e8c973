import Runehook.Decipher

/-! # Indexing a transaction with its partial operations

The loop of `index_block` over the transactions once more (`indexTransactionChecked`), with every
`unwrap`, slice and division that it reaches as an operation that can stop (`PartialOperation`).
What the functions do besides is as before; where they go on with the value of such an operation, so
do their counterparts here, which have the same names with `Checked` behind them. -/

namespace Runehook

open Lib

/-! ## Hashes, ids and names -/

/-- The slice `[2..]` of a hash. -/
def hashSlice (hash : String) : Except Stop String :=
  unwrap (.panic .hashSlice) ((sliceFrom 2 hash.toList).map String.ofList)

/-- `Display for RuneId`. -/
def RuneId.text (id : RuneId) : List Char :=
  Nat.toDigits 10 id.block ++ ':' :: Nat.toDigits 10 id.tx

/-- `RuneId::from_str`. -/
def RuneId.fromStr (text : List Char) : Option RuneId :=
  match text.span (· ≠ ':') with
  | (height, _ :: index) => do
    return ⟨← parseUnsigned (2 ^ 64) height, ← parseUnsigned (2 ^ 32) index⟩
  | (_, []) => none

/-- `RuneId::from_str(..).unwrap()` of the text that a row has of an id. -/
def RuneId.parse (id : RuneId) : Except Stop RuneId :=
  unwrap (.panic .runeIdFromStr) (RuneId.fromStr id.text)

/-- `Rune::reserved`. -/
def Rune.reservedChecked (block tx : Nat) : Except Stop Rune :=
  unwrap (.panic .reservedName) (u128CheckedAdd Rune.RESERVED (block * 2 ^ 32 + tx))

/-- The loop of `Display for Rune`. -/
def Rune.lettersChecked : Nat → Nat → List Char → Except Stop (List Char)
  | 0, _, acc => return acc
  | fuel + 1, n, acc =>
    if 0 < n then do
      let letter ← unwrap (.panic .nameLetter) "ABCDEFGHIJKLMNOPQRSTUVWXYZ".toList[(n - 1) % 26]?
      lettersChecked fuel ((n - 1) / 26) (letter :: acc)
    else return acc

/-- `Display for Rune`. -/
def Rune.toNameChecked (rune : Rune) : Except Stop String :=
  if rune = 2 ^ 128 - 1 then return "BCGDENLQRQWDSLRUGSNLBTMFIJAV"
  else do return String.ofList (← lettersChecked 28 (rune + 1) [])

/-- `Display for SpacedRune`. -/
def SpacedRune.toNameChecked (rune : Rune) (spacers : Nat) : Except Stop String := do
  let name := (← Rune.toNameChecked rune).toList
  return String.ofList (name.zipIdx.flatMap fun (c, i) =>
    if i < name.length - 1 ∧ spacers.testBit i then [c, '•'] else [c])

/-! ## Rows -/

/-- `DbLedgerEntry::from_values`. -/
def DbLedgerEntry.fromValuesChecked (amount : Option Nat) (runeId : RuneId) (blockHash : String)
    (blockHeight txIndex eventIndex : Nat) (txId : String) (output : Option Nat)
    (address receiverAddress : Option Address) (operation : DbLedgerOperation) (timestamp : Nat) :
    Except Stop DbLedgerEntry := do
  let blockHash ← hashSlice blockHash
  let txId ← hashSlice txId
  return {
    runeId, blockHash, blockHeight, txIndex, eventIndex, txId, output, address,
    receiverAddress, amount, operation, timestamp }

/-- `DbRune::from_etching`. The name that `unwrap_or` falls back to is made in any case. -/
def DbRune.fromEtchingChecked (etching : Etching) (number : Nat) (location : TransactionLocation) :
    Except Stop DbRune := do
  let reserved ← Rune.reservedChecked location.blockHeight location.txIndex
  let rune := etching.rune.getD reserved
  let spacedName ← match etching.spacers with
    | some spacers => SpacedRune.toNameChecked rune spacers
    | none => Rune.toNameChecked rune
  let name ← Rune.toNameChecked rune
  let blockHash ← hashSlice location.blockHash
  let txId ← hashSlice location.txId
  return { DbRune.fromEtching etching number location with name, spacedName, blockHash, txId }

/-- `DbRune::from_cenotaph_etching`. -/
def DbRune.fromCenotaphEtchingChecked (rune : Rune) (number : Nat)
    (location : TransactionLocation) :
    Except Stop DbRune := do
  let name ← Rune.toNameChecked rune
  let spacedName ← Rune.toNameChecked rune
  let blockHash ← hashSlice location.blockHash
  let txId ← hashSlice location.txId
  return { DbRune.fromCenotaphEtching rune number location with name, spacedName, blockHash, txId }

/-! ## Moves -/

/-- `new_sequential_ledger_entry`. -/
def newSequentialLedgerEntryChecked (location : TransactionLocation) (amount : Option Nat)
    (runeId : RuneId) (output : Option Nat) (address receiverAddress : Option Address)
    (operation : DbLedgerOperation) (nextEventIndex : Nat) : Except Stop (DbLedgerEntry × Nat) := do
  let entry ← DbLedgerEntry.fromValuesChecked amount runeId location.blockHash location.blockHeight
    location.txIndex nextEventIndex location.txId output address receiverAddress operation
    location.timestamp
  return (entry, nextEventIndex + 1)

/-- The `send` or `burn` entries of a move, one for each sender. -/
def senderEntriesChecked (location : TransactionLocation) (runeId : RuneId) (output : Option Nat)
    (receiver : Option Address) (operation : DbLedgerOperation) :
    List (Nat × Address) → Nat → Except Stop (List DbLedgerEntry × Nat)
  | [], nextEventIndex => return ([], nextEventIndex)
  | (balanceTaken, senderAddress) :: senders, nextEventIndex => do
    let (entry, nextEventIndex) ← newSequentialLedgerEntryChecked location
      (some balanceTaken) runeId output (some senderAddress) receiver operation nextEventIndex
    let (entries, nextEventIndex) ←
      senderEntriesChecked location runeId output receiver operation senders nextEventIndex
    return (entry :: entries, nextEventIndex)

/-- The `receive` entry of a move. The log line unwraps the address. -/
def receiveEntryChecked (location : TransactionLocation) (runeId : RuneId) (output : Option Nat)
    (receiver : Option Address) (totalSent nextEventIndex : Nat) :
    Except Stop (List DbLedgerEntry × Nat) :=
  if receiver.isSome ∧ 0 < totalSent then do
    let (entry, nextEventIndex) ← newSequentialLedgerEntryChecked location
      (some totalSent) runeId output receiver none .receive nextEventIndex
    let _ ← unwrap (.panic .receiverAddress) receiver
    return ([entry], nextEventIndex)
  else return ([], nextEventIndex)

/-- `move_rune_balance_to_output`. -/
def moveRuneBalanceToOutputChecked (env : Environment) (location : TransactionLocation)
    (output : Option Nat) (runeId : RuneId) (inputBalances : List InputRuneBalance)
    (outputs : HashMap Nat ScriptBuf) (amount nextEventIndex : Nat) : Except Stop Movement := do
  let receiver := receiverAddress env location outputs output
  let operation := if receiver.isSome then DbLedgerOperation.send else .burn
  let taking := takeBalances amount inputBalances 0 []
  let (receives, nextEventIndex) ←
    receiveEntryChecked location runeId output receiver taking.totalSent nextEventIndex
  let (sends, nextEventIndex) ←
    senderEntriesChecked location runeId output receiver operation taking.senders nextEventIndex
  return ⟨receives ++ sends, taking.balances, nextEventIndex⟩

/-! ## The balances input to a transaction -/

/-- One round of the first loop of `input_rune_balances_from_tx_inputs`. -/
def searchInputChecked (blockOutputCache : BlockOutputCache) (search : InputSearch)
    (input : TxIn × Nat) :
    Except Stop InputSearch := do
  let txId ← hashSlice input.1.txid
  let k := (txId, input.1.vout)
  match blockOutputCache.lookup k with
  | some map =>
    return { search with indexedInputRunes := search.indexedInputRunes.insert input.2 map }
  | none =>
    match search.outputCache.get k with
    | (some map, outputCache) =>
      return { search with
        indexedInputRunes := search.indexedInputRunes.insert input.2 map
        outputCache := outputCache }
    | (none, outputCache) =>
      return { search with
        cacheMisses := search.cacheMisses ++ [(input.2, k.1, k.2)]
        outputCache := outputCache }

/-- One round of the loop over the rows in `pg_get_input_rune_balances`. -/
def pushRowChecked (results : HashMap Nat RuneBalances) (row : Nat × DbLedgerEntry) :
    Except Stop (HashMap Nat RuneBalances) := do
  let runeId ← row.2.runeId.parse
  let amount ← unwrap (.panic .rowAmount) row.2.amount
  return results.alter row.1 fun input => pushBalance (input.getD ∅) runeId ⟨row.2.address, amount⟩

/-- `pg_get_input_rune_balances`. The query fails, and the process exits, where it has more
parameters than there is room for. -/
def pgGetInputRuneBalancesChecked (env : Environment) (outputs : List (Nat × String × Nat))
    (db : Db) :
    Except Stop (HashMap Nat RuneBalances) :=
  if 3 * outputs.length ≤ bindLimit then (inputBalanceRows env outputs db).foldlM pushRowChecked ∅
  else throw .exit

/-- The last loop of `input_rune_balances_from_tx_inputs`. -/
def joinInputsChecked (indexedInputRunes : HashMap Nat RuneBalances) : Except Stop RuneBalances :=
  (indexedInputRunes.keys.insertionSort (· ≤ ·)).foldlM (fun finalInputRunes key => do
    let inputValue ← unwrap (.panic .indexedInputRunes) (indexedInputRunes.lookup key)
    return extendBalances finalInputRunes inputValue) ∅

/-- `input_rune_balances_from_tx_inputs`. -/
def inputRuneBalancesFromTxInputsChecked (env : Environment) (inputs : List TxIn)
    (blockOutputCache : BlockOutputCache) (outputCache : OutputCache) (db : Db) :
    Except Stop (RuneBalances × OutputCache) := do
  let search ← inputs.zipIdx.foldlM (searchInputChecked blockOutputCache) ⟨∅, [], outputCache⟩
  if 0 < search.cacheMisses.length then
    let outputBalances ← pgGetInputRuneBalancesChecked env search.cacheMisses db
    return (← joinInputsChecked (extendMap search.indexedInputRunes outputBalances),
      search.outputCache)
  else return (← joinInputsChecked search.indexedInputRunes, search.outputCache)

/-! ## The transaction's cache -/

namespace TransactionCache

/-- Run `f` on each rune of a list and collect the entries, threading the event index. -/
def overRunesChecked (f : RuneId → Nat → Except Stop (List DbLedgerEntry × Nat)) :
    List RuneId → Nat → Except Stop (List DbLedgerEntry × Nat)
  | [], nextEventIndex => return ([], nextEventIndex)
  | id :: ids, nextEventIndex => do
    let (entries, nextEventIndex) ← f id nextEventIndex
    let (results, nextEventIndex) ← overRunesChecked f ids nextEventIndex
    return (entries ++ results, nextEventIndex)

/-- The `burn` entries of the balances of a rune. -/
def burnEntriesChecked (location : TransactionLocation) (id : RuneId) :
    List InputRuneBalance → Nat → Except Stop (List DbLedgerEntry × Nat)
  | [], nextEventIndex => return ([], nextEventIndex)
  | bal :: rest, nextEventIndex => do
    let (entry, nextEventIndex) ← newSequentialLedgerEntryChecked location (some bal.amount) id none
      bal.address none .burn nextEventIndex
    let (entries, nextEventIndex) ← burnEntriesChecked location id rest nextEventIndex
    return (entry :: entries, nextEventIndex)

/-- `apply_cenotaph_input_burn`. -/
def applyCenotaphInputBurnChecked (env : Environment) (tx : TransactionCache) :
    Except Stop (TransactionCache × List DbLedgerEntry) := do
  let (results, nextEventIndex) ← overRunesChecked
    (fun id => burnEntriesChecked tx.location id (tx.available id))
    (env.runeOrder tx.location tx.inputRunes.keys) tx.nextEventIndex
  return ({ tx with inputRunes := ∅, nextEventIndex := nextEventIndex }, results)

/-- Move all the balances of a rune to the output pointer. -/
def moveToPointerChecked (env : Environment) (tx : TransactionCache) (id : RuneId)
    (nextEventIndex : Nat) :
    Except Stop (List DbLedgerEntry × Nat) := do
  let movement ← moveRuneBalanceToOutputChecked env tx.location tx.outputPointer id
    (tx.available id) tx.eligibleOutputs 0 nextEventIndex
  return (movement.entries, movement.nextEventIndex)

/-- `allocate_remaining_balances`. -/
def allocateRemainingBalancesChecked (env : Environment) (tx : TransactionCache) :
    Except Stop (TransactionCache × List DbLedgerEntry) := do
  let (results, nextEventIndex) ← overRunesChecked (moveToPointerChecked env tx)
    (env.runeOrder tx.location tx.inputRunes.keys) tx.nextEventIndex
  return ({ tx with inputRunes := ∅, nextEventIndex := nextEventIndex }, results)

/-- An entry without amount, output or address: an etching. -/
def etchingEntryChecked (tx : TransactionCache) : Except Stop (DbLedgerEntry × Nat) :=
  newSequentialLedgerEntryChecked tx.location none tx.location.runeId none none none .etching
    tx.nextEventIndex

/-- `apply_etching`. -/
def applyEtchingChecked (tx : TransactionCache) (etching : Etching) (number : Nat) :
    Except Stop (TransactionCache × RuneId × DbRune × DbLedgerEntry) := do
  let runeId := tx.location.runeId
  let dbRune ← DbRune.fromEtchingChecked etching number tx.location
  let tx := { tx with etching := some dbRune }
  let tx := match etching.premine with
    | some premine => tx.addInputRunes runeId ⟨none, premine⟩
    | none => tx
  let (entry, nextEventIndex) ← tx.etchingEntryChecked
  return ({ tx with nextEventIndex := nextEventIndex }, runeId, dbRune, entry)

/-- `apply_cenotaph_etching`. -/
def applyCenotaphEtchingChecked (tx : TransactionCache) (rune : Rune) (number : Nat) :
    Except Stop (TransactionCache × RuneId × DbRune × DbLedgerEntry) := do
  let runeId := tx.location.runeId
  let dbRune ← DbRune.fromCenotaphEtchingChecked rune number tx.location
  let tx := { tx with etching := some dbRune }
  let (entry, nextEventIndex) ← tx.etchingEntryChecked
  return ({ tx with nextEventIndex := nextEventIndex }, runeId, dbRune, entry)

/-- `apply_mint`. -/
def applyMintChecked (tx : TransactionCache) (id : RuneId) (totalMints : Nat) (dbRune : DbRune) :
    Except Stop (TransactionCache × Option DbLedgerEntry) :=
  if isRuneMintable dbRune totalMints tx.location then do
    let termsAmount ← unwrap (.panic .termsAmount) dbRune.termsAmount
    let tx := tx.addInputRunes id ⟨none, termsAmount⟩
    let (entry, nextEventIndex) ← newSequentialLedgerEntryChecked tx.location
      (some termsAmount) id none none none .mint tx.nextEventIndex
    return ({ tx with nextEventIndex := nextEventIndex }, some entry)
  else return (tx, none)

/-- `apply_cenotaph_mint`. -/
def applyCenotaphMintChecked (tx : TransactionCache) (id : RuneId) (totalMints : Nat)
    (dbRune : DbRune) :
    Except Stop (TransactionCache × Option DbLedgerEntry) :=
  if isRuneMintable dbRune totalMints tx.location then do
    let termsAmount ← unwrap (.panic .termsAmount) dbRune.termsAmount
    let (entry, nextEventIndex) ← newSequentialLedgerEntryChecked tx.location
      (some termsAmount) id none none none .burn tx.nextEventIndex
    return ({ tx with nextEventIndex := nextEventIndex }, some entry)
  else return (tx, none)

/-- The quotient and the remainder by which `apply_edict` divides equally. -/
def divideEqually (unallocated len : Nat) : Except Stop (Nat × Nat) :=
  if len = 0 then .error (.panic .division) else return (unallocated / len, unallocated % len)

/-- The moves of an edict. -/
def edictMovesChecked (tx : TransactionCache) (edict : Edict) (unallocated : Nat) :
    Except Stop (List (Option Nat × Nat)) :=
  if tx.eligibleOutputs.keys.length = 0 then return [(none, edict.amount)]
  else if edict.output = tx.totalOutputs then
    let outputKeys := tx.eligibleOutputs.keys.insertionSort (· ≤ ·)
    if edict.amount = 0 then do
      let (perOutput, remainder) ← divideEqually unallocated tx.eligibleOutputs.keys.length
      return evenShares perOutput outputKeys remainder
    else return outputKeys.map fun output => (some output, min edict.amount unallocated)
  else if edict.output < tx.totalOutputs then
    return [(some edict.output, if edict.amount = 0 then unallocated else edict.amount)]
  else .error .nonexistentOutput

/-- A sequence of moves of one rune. -/
def applyMovesChecked (env : Environment) (location : TransactionLocation) (id : RuneId)
    (outputs : HashMap Nat ScriptBuf) :
    List (Option Nat × Nat) → List InputRuneBalance → Nat → Except Stop Movement
  | [], balances, nextEventIndex => return ⟨[], balances, nextEventIndex⟩
  | (output, amount) :: moves, balances, nextEventIndex => do
    let first ← moveRuneBalanceToOutputChecked env location output id balances outputs amount
        nextEventIndex
    let rest ← applyMovesChecked env location id outputs moves first.balances first.nextEventIndex
    return ⟨first.entries ++ rest.entries, rest.balances, rest.nextEventIndex⟩

/-- `apply_edict`. -/
def applyEdictChecked (env : Environment) (tx : TransactionCache) (edict : Edict) :
    Except Stop (TransactionCache × List DbLedgerEntry) :=
  match tx.edictRuneId edict.id with
  | none => return (tx, [])
  | some runeId =>
    match tx.inputRunes.lookup runeId with
    | none => return (tx, [])
    | some availableInputs => do
      let moves ← tx.edictMovesChecked edict (unallocated availableInputs)
      let movement ← applyMovesChecked env tx.location runeId tx.eligibleOutputs moves
        availableInputs tx.nextEventIndex
      return ({ tx with
          inputRunes := tx.inputRunes.insert runeId movement.balances
          nextEventIndex := movement.nextEventIndex }, movement.entries)

end TransactionCache

/-! ## The index cache -/

/-- One round of the loop in `add_ledger_entries_to_db_cache`. -/
def IndexCache.addLedgerEntryChecked (cache : IndexCache) (entry : DbLedgerEntry) :
    Except Stop IndexCache := do
  let dbCache := cache.dbCache
  match entry.operation with
  | .etching =>
    return { cache with
      dbCache := { dbCache with supplyChanges := countOperation entry dbCache.supplyChanges } }
  | .mint =>
    let amount ← unwrap (.panic .entryAmount) entry.amount
    return { cache with
      dbCache := { dbCache with supplyChanges := countMint entry amount dbCache.supplyChanges } }
  | .burn =>
    let amount ← unwrap (.panic .entryAmount) entry.amount
    return { cache with
      dbCache := { dbCache with supplyChanges := countBurn entry amount dbCache.supplyChanges } }
  | .send =>
    let supplyChanges := countOperation entry dbCache.supplyChanges
    match entry.address with
    | none => return { cache with dbCache := { dbCache with supplyChanges := supplyChanges } }
    | some address =>
      let amount ← unwrap (.panic .entryAmount) entry.amount
      return { cache with
        dbCache := { dbCache with
          supplyChanges := supplyChanges
          balanceDeductions := countBalance entry address amount dbCache.balanceDeductions } }
  | .receive =>
    let supplyChanges := countOperation entry dbCache.supplyChanges
    match entry.address with
    | none => return { cache with dbCache := { dbCache with supplyChanges := supplyChanges } }
    | some address =>
      let amount ← unwrap (.panic .entryAmount) entry.amount
      let output ← unwrap (.panic .entryOutput) entry.output
      let runeId ← entry.runeId.parse
      return { cache with
        dbCache := { dbCache with
          supplyChanges := supplyChanges
          balanceIncreases := countBalance entry address amount dbCache.balanceIncreases }
        blockOutputCache := cacheOutput (entry.txId, output) runeId ⟨some address, amount⟩
          cache.blockOutputCache }

namespace Session

/-- `add_ledger_entries_to_db_cache`. -/
def addLedgerEntriesToDbCacheChecked (s : Session) (entries : List DbLedgerEntry) :
    Except Stop Session := do
  let cache ← entries.foldlM IndexCache.addLedgerEntryChecked { s.cache with
    dbCache := { s.cache.dbCache with ledgerEntries := s.cache.dbCache.ledgerEntries ++ entries } }
  return { s with cache := cache }

/-- `begin_transaction`. -/
def beginTransactionChecked (env : Environment) (location : TransactionLocation)
    (txInputs : List TxIn) (eligibleOutputs : HashMap Nat ScriptBuf)
    (firstEligibleOutput : Option Nat) (totalOutputs : Nat) (s : Session) :
    Except Stop Session := do
  let (inputRunes, outputCache) ← inputRuneBalancesFromTxInputsChecked env txInputs
    s.cache.blockOutputCache s.cache.outputCache s.db
  return { s with
    cache := { s.cache with
      outputCache := outputCache
      txCache := .new location inputRunes eligibleOutputs firstEligibleOutput totalOutputs } }

/-- `end_transaction`. -/
def endTransactionChecked (env : Environment) (s : Session) : Except Stop Session := do
  let (txCache, entries) ← s.cache.txCache.allocateRemainingBalancesChecked env
  (s.setTxCache txCache).addLedgerEntriesToDbCacheChecked entries

/-- `apply_cenotaph`. -/
def applyCenotaphChecked (env : Environment) (s : Session) : Except Stop Session := do
  let (txCache, entries) ← s.cache.txCache.applyCenotaphInputBurnChecked env
  (s.setTxCache txCache).addLedgerEntriesToDbCacheChecked entries

/-- What `apply_etching` and `apply_cenotaph_etching` do with what the transaction's cache made of
the etching. -/
def recordEtchingChecked (applied : TransactionCache × RuneId × DbRune × DbLedgerEntry)
    (s : Session) :
    Except Stop Session := do
  let (txCache, runeId, dbRune, entry) := applied
  let s := (s.setTxCache txCache).pushRune dbRune
  let s := s.setRuneCache (s.cache.runeCache.put runeId dbRune)
  let s ← s.addLedgerEntriesToDbCacheChecked [entry]
  return s.setNextRuneNumber (s.cache.nextRuneNumber + 1)

/-- `apply_etching`. -/
def applyEtchingChecked (etching : Etching) (s : Session) : Except Stop Session := do
  s.recordEtchingChecked (← s.cache.txCache.applyEtchingChecked etching s.cache.nextRuneNumber)

/-- `apply_cenotaph_etching`. -/
def applyCenotaphEtchingChecked (rune : Rune) (s : Session) : Except Stop Session := do
  s.recordEtchingChecked (← s.cache.txCache.applyCenotaphEtchingChecked rune s.cache.nextRuneNumber)

/-- The id under which `get_cached_rune_total_mints` looks in the cache. -/
def realRuneIdChecked (id : RuneId) (s : Session) : Except Stop (Option RuneId) :=
  if id.block = 0 ∧ id.tx = 0 then
    match s.cache.txCache.etching with
    | none => return none
    | some etching => do return some (← etching.id.parse)
  else return some id

/-- `get_cached_rune_total_mints`. -/
def getCachedRuneTotalMintsChecked (id : RuneId) (s : Session) :
    Except Stop (Option Nat × Session) := do
  match ← s.realRuneIdChecked id with
  | none => return (none, s)
  | some realRuneId =>
    match s.cache.runeTotalMintsCache.get realRuneId with
    | (some total, runeTotalMintsCache) =>
      return (some total, s.setRuneTotalMintsCache runeTotalMintsCache)
    | (none, _) =>
      let s ← unwrap .exit s.flush
      match pgGetRuneTotalMints id s.db with
      | none => return (none, s)
      | some total =>
        return (some total, s.setRuneTotalMintsCache (s.cache.runeTotalMintsCache.put id total))

/-- What `apply_mint` and `apply_cenotaph_mint` have in common. Looking up a rune does nothing
partial. -/
def applyMintWithChecked
    (apply : TransactionCache → RuneId → Nat → DbRune →
      Except Stop (TransactionCache × Option DbLedgerEntry))
    (id : RuneId) (s : Session) : Except Stop Session := do
  let (rune, s) ← unwrap .exit (s.getCachedRuneByRuneId id)
  match rune with
  | none => return s
  | some dbRune =>
    let (totalMints, s) ← s.getCachedRuneTotalMintsChecked id
    let (txCache, ledgerEntry) ← apply s.cache.txCache id (totalMints.getD 0) dbRune
    let s := s.setTxCache txCache
    match ledgerEntry with
    | none => return s
    | some ledgerEntry =>
      let s ← s.addLedgerEntriesToDbCacheChecked [ledgerEntry]
      return s.bumpTotalMints id

/-- `apply_mint`. -/
def applyMintChecked (id : RuneId) (s : Session) : Except Stop Session :=
  s.applyMintWithChecked TransactionCache.applyMintChecked id

/-- `apply_cenotaph_mint`. -/
def applyCenotaphMintChecked (id : RuneId) (s : Session) : Except Stop Session :=
  s.applyMintWithChecked TransactionCache.applyCenotaphMintChecked id

/-- The log lines of `apply_edict`, which unwrap the amount of every entry. -/
def logEdict : List DbLedgerEntry → Except Stop Unit
  | [] => return ()
  | entry :: entries => do
    let _ ← unwrap (.panic .entryAmount) entry.amount
    logEdict entries

/-- `apply_edict`. -/
def applyEdictChecked (env : Environment) (edict : Edict) (s : Session) : Except Stop Session := do
  let (rune, s) ← unwrap .exit (s.getCachedRuneByRuneId edict.id)
  match rune with
  | none => return s
  | some _ =>
    let (txCache, entries) ← s.cache.txCache.applyEdictChecked env edict
    logEdict entries
    (s.setTxCache txCache).addLedgerEntriesToDbCacheChecked entries

end Session

/-! ## The loop over transactions -/

/-- Carry out a call while a block is being indexed. -/
def Action.runChecked (env : Environment) (block : Block) (s : Session) :
    Action → Except Stop Session
  | .beginTransaction tx => do
    let (_, scan, totalOutputs) ← unwrap (.panic .lockTime) (bitcoinTxFromChainhookTx env block tx)
    s.beginTransactionChecked env (tx.location block s.cache.network) tx.inputs scan.eligibleOutputs
      scan.firstEligibleOutput totalOutputs
  | .runestone r => return s.applyRunestone r
  | .cenotaph => s.applyCenotaphChecked env
  | .etching e => s.applyEtchingChecked e
  | .cenotaphEtching rune => s.applyCenotaphEtchingChecked rune
  | .mint id => s.applyMintChecked id
  | .cenotaphMint id => s.applyCenotaphMintChecked id
  | .edict e => s.applyEdictChecked env e
  | .endTransaction => s.endTransactionChecked env

/-- The body of the loop over transactions in `index_block`. -/
def indexTransactionChecked (instructions : Instructions) (env : Environment)
    (block : Block) (s : Session) (tx : Transaction) : Except Stop Session := do
  let s ← Action.runChecked env block s (.beginTransaction tx)
  let artifact ← Runestone.decipher instructions tx.outputs
  ((artifact.map Artifact.actions).getD [] ++ [Action.endTransaction]).foldlM
    (Action.runChecked env block) s

/-- The environment whose artifacts are those that `Runestone::decipher` reads. -/
def Environment.deciphering (instructions : Instructions) (env : Environment) : Environment :=
  { env with decipher := fun outputs => (Runestone.decipher instructions outputs).toOption.join }

end Runehook
