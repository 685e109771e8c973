import Runehook.InputBalances
import Runehook.TransactionCache

/-! # The index cache

`IndexCache` holds rune data across blocks and `DbCache` the rows that are not in the database yet.
A `Session` is an index cache together with the database it works on; the operations of `IndexCache`
are functions of sessions. An operation that panics, or that runs a statement that makes the process
exit, is `none`. -/

namespace Runehook

open Lib

/-! ## Rows that are not in the database yet -/

/-- `DbCache`. -/
structure DbCache where
  /-- The runes that were etched. -/
  runes : List DbRune
  /-- The entries that were generated. -/
  ledgerEntries : List DbLedgerEntry
  /-- What they add to the counters of each rune. -/
  supplyChanges : HashMap RuneId DbSupplyChange
  /-- What they add to each address. -/
  balanceIncreases : HashMap (RuneId × Address) DbBalanceChange
  /-- What they take from each address. -/
  balanceDeductions : HashMap (RuneId × Address) DbBalanceChange

/-- `DbCache::new`. -/
def DbCache.new : DbCache := ⟨[], [], ∅, ∅, ∅⟩

/-- `DbCache::flush`: the tables with all data inserted; the cache is then empty. A batch without
rows inserts nothing, so the guards on empty batches make no difference. -/
def DbCache.flush (dbCache : DbCache) (db : Db) : Option Db := do
  let db ← pgInsertRunes dbCache.runes db
  let db := pgInsertSupplyChanges dbCache.supplyChanges.values db
  let db := pgInsertLedgerEntries dbCache.ledgerEntries db
  let db := pgInsertBalanceChanges dbCache.balanceIncreases.values true db
  return pgInsertBalanceChanges dbCache.balanceDeductions.values false db

/-- `entry(rune_id).and_modify(|i| i.total_operations += 1).or_insert(from_operation(..))`. -/
def countOperation (entry : DbLedgerEntry) (changes : HashMap RuneId DbSupplyChange) :
    HashMap RuneId DbSupplyChange :=
  changes.alter entry.runeId fun
    | some i => { i with totalOperations := i.totalOperations + 1 }
    | none => .fromOperation entry.runeId entry.blockHeight

/-- The counters of a `mint` entry. -/
def countMint (entry : DbLedgerEntry) (amount : Nat) (changes : HashMap RuneId DbSupplyChange) :
    HashMap RuneId DbSupplyChange :=
  changes.alter entry.runeId fun
    | some i => { i with
        minted := u128Add i.minted amount
        totalMints := i.totalMints + 1
        totalOperations := i.totalOperations + 1 }
    | none => .fromMint entry.runeId entry.blockHeight amount

/-- The counters of a `burn` entry. -/
def countBurn (entry : DbLedgerEntry) (amount : Nat) (changes : HashMap RuneId DbSupplyChange) :
    HashMap RuneId DbSupplyChange :=
  changes.alter entry.runeId fun
    | some i => { i with
        burned := u128Add i.burned amount
        totalBurns := i.totalBurns + 1
        totalOperations := i.totalOperations + 1 }
    | none => .fromBurn entry.runeId entry.blockHeight amount

/-- The balance of an address goes up, or down, by the amount of an entry. -/
def countBalance (entry : DbLedgerEntry) (address : Address) (amount : Nat)
    (changes : HashMap (RuneId × Address) DbBalanceChange) :
    HashMap (RuneId × Address) DbBalanceChange :=
  changes.alter (entry.runeId, address) fun
    | some i => { i with balance := u128Add i.balance amount }
    | none => .fromOperation entry.runeId entry.blockHeight address amount

/-- Add a received balance to the outputs of the current block. -/
def cacheOutput (k : String × Nat) (id : RuneId) (balance : InputRuneBalance)
    (blockOutputCache : BlockOutputCache) : BlockOutputCache :=
  blockOutputCache.alter k fun
    | some i => pushBalance i id balance
    | none => pushBalance ∅ id balance

/-! ## The index cache -/

/-- `IndexCache`. -/
structure IndexCache where
  /-- The network that is indexed. -/
  network : Network
  /-- Number to be assigned to the next rune etching. -/
  nextRuneNumber : Nat
  /-- LRU cache for runes. -/
  runeCache : LruCache RuneId DbRune
  /-- LRU cache for total mints for runes. -/
  runeTotalMintsCache : LruCache RuneId Nat
  /-- LRU cache for outputs with rune balances. -/
  outputCache : OutputCache
  /-- Same as above but only for the current block. -/
  blockOutputCache : BlockOutputCache
  /-- Holds the state of the transaction that is being indexed. -/
  txCache : TransactionCache
  /-- Rows that have not yet been inserted in the database. -/
  dbCache : DbCache

/-- `IndexCache::new`, with `cap` the size of the LRU caches. -/
def IndexCache.new (network : Network) (cap : Nat) (hcap : 0 < cap) (db : Db) :
    Option IndexCache := do
  let maxRuneNumber ← pgGetMaxRuneNumber db
  return {
    network := network
    nextRuneNumber := maxRuneNumber + 1
    runeCache := .new cap hcap
    runeTotalMintsCache := .new cap hcap
    outputCache := .new cap hcap
    blockOutputCache := ∅
    txCache := .new ⟨network, "", 1, 0, 0, ""⟩ ∅ ∅ none 0
    dbCache := .new }

/-- One round of the loop in `add_ledger_entries_to_db_cache`. -/
def IndexCache.addLedgerEntry (cache : IndexCache) (entry : DbLedgerEntry) : Option IndexCache :=
  let dbCache := cache.dbCache
  match entry.operation with
  | .etching =>
    some { cache with
      dbCache := { dbCache with supplyChanges := countOperation entry dbCache.supplyChanges } }
  | .mint => do
    let amount ← entry.amount
    return { cache with
      dbCache := { dbCache with supplyChanges := countMint entry amount dbCache.supplyChanges } }
  | .burn => do
    let amount ← entry.amount
    return { cache with
      dbCache := { dbCache with supplyChanges := countBurn entry amount dbCache.supplyChanges } }
  | .send =>
    let supplyChanges := countOperation entry dbCache.supplyChanges
    match entry.address with
    | none => some { cache with dbCache := { dbCache with supplyChanges := supplyChanges } }
    | some address => do
      let amount ← entry.amount
      return { cache with
        dbCache := { dbCache with
          supplyChanges := supplyChanges
          balanceDeductions := countBalance entry address amount dbCache.balanceDeductions } }
  | .receive =>
    let supplyChanges := countOperation entry dbCache.supplyChanges
    match entry.address with
    | none => some { cache with dbCache := { dbCache with supplyChanges := supplyChanges } }
    | some address => do
      let amount ← entry.amount
      let output ← entry.output
      return { cache with
        dbCache := { dbCache with
          supplyChanges := supplyChanges
          balanceIncreases := countBalance entry address amount dbCache.balanceIncreases }
        blockOutputCache := cacheOutput (entry.txId, output) entry.runeId ⟨some address, amount⟩
          cache.blockOutputCache }

/-- `add_ledger_entries_to_db_cache`. -/
def IndexCache.addLedgerEntriesToDbCache (cache : IndexCache) (entries : List DbLedgerEntry) :
    Option IndexCache :=
  entries.foldlM IndexCache.addLedgerEntry { cache with
    dbCache := { cache.dbCache with ledgerEntries := cache.dbCache.ledgerEntries ++ entries } }

/-! ## Sessions -/

/-- An index cache and the database that it works on. -/
structure Session where
  /-- The caches of the process. -/
  cache : IndexCache
  /-- The tables. -/
  db : Db

namespace Session

/-- Assign `tx_cache`. -/
def setTxCache (txCache : TransactionCache) (s : Session) : Session :=
  { s with cache := { s.cache with txCache := txCache } }

/-- Assign `rune_cache`. -/
def setRuneCache (runeCache : LruCache RuneId DbRune) (s : Session) : Session :=
  { s with cache := { s.cache with runeCache := runeCache } }

/-- Assign `rune_total_mints_cache`. -/
def setRuneTotalMintsCache (runeTotalMintsCache : LruCache RuneId Nat) (s : Session) : Session :=
  { s with cache := { s.cache with runeTotalMintsCache := runeTotalMintsCache } }

/-- Assign `next_rune_number`. -/
def setNextRuneNumber (number : Nat) (s : Session) : Session :=
  { s with cache := { s.cache with nextRuneNumber := number } }

/-- Push a row to `db_cache.runes`. -/
def pushRune (rune : DbRune) (s : Session) : Session :=
  { s with
    cache :=
      { s.cache with dbCache := { s.cache.dbCache with runes := s.cache.dbCache.runes ++ [rune] } }
        }

/-- Flush the rows of the cache into the database. -/
def flush (s : Session) : Option Session := do
  let db ← s.cache.dbCache.flush s.db
  return ⟨{ s.cache with dbCache := .new }, db⟩

/-- `add_ledger_entries_to_db_cache`. -/
def addLedgerEntriesToDbCache (s : Session) (entries : List DbLedgerEntry) : Option Session := do
  let cache ← s.cache.addLedgerEntriesToDbCache entries
  return { s with cache := cache }

/-- `reset_max_rune_number`. -/
def resetMaxRuneNumber (s : Session) : Option Session := do
  let maxRuneNumber ← pgGetMaxRuneNumber s.db
  return s.setNextRuneNumber (maxRuneNumber + 1)

/-- What `begin_transaction` assigns, once it has the balances of the inputs. -/
def enterTransaction (env : Environment) (location : TransactionLocation) (txInputs : List TxIn)
    (eligibleOutputs : HashMap Nat ScriptBuf) (firstEligibleOutput : Option Nat)
    (totalOutputs : Nat) (s : Session) : Session :=
  let (inputRunes, outputCache) :=
    inputRuneBalancesFromTxInputs env txInputs s.cache.blockOutputCache
    s.cache.outputCache s.db
  { s with
    cache := { s.cache with
      outputCache := outputCache
      txCache := .new location inputRunes eligibleOutputs firstEligibleOutput totalOutputs } }

/-- `begin_transaction`. The query of `pg_get_input_rune_balances` binds three parameters for each
output that no cache holds, and the process exits where there is no room for them. -/
def beginTransaction (env : Environment) (location : TransactionLocation) (txInputs : List TxIn)
    (eligibleOutputs : HashMap Nat ScriptBuf) (firstEligibleOutput : Option Nat)
    (totalOutputs : Nat) (s : Session) : Option Session :=
  if 3 * (cacheMisses txInputs s.cache.blockOutputCache s.cache.outputCache).length ≤ bindLimit then
    some (s.enterTransaction env location txInputs eligibleOutputs firstEligibleOutput totalOutputs)
  else none

/-- `end_transaction`. -/
def endTransaction (env : Environment) (s : Session) : Option Session :=
  let (txCache, entries) := s.cache.txCache.allocateRemainingBalances env
  (s.setTxCache txCache).addLedgerEntriesToDbCache entries

/-- `end_block`. -/
def endBlock (env : Environment) (s : Session) : Session :=
  { s with
    cache := { s.cache with
      outputCache :=
        moveBlockOutputCacheToOutputCache env s.cache.blockOutputCache s.cache.outputCache
      blockOutputCache := ∅ } }

/-- `apply_runestone`. -/
def applyRunestone (runestone : Runestone) (s : Session) : Session :=
  match runestone.pointer with
  | some newPointer => s.setTxCache { s.cache.txCache with outputPointer := some newPointer }
  | none => s

/-- `apply_cenotaph`. -/
def applyCenotaph (env : Environment) (s : Session) : Option Session :=
  let (txCache, entries) := s.cache.txCache.applyCenotaphInputBurn env
  (s.setTxCache txCache).addLedgerEntriesToDbCache entries

/-- What `apply_etching` and `apply_cenotaph_etching` do with what the transaction's cache made of
the etching. -/
def recordEtching (applied : TransactionCache × RuneId × DbRune × DbLedgerEntry) (s : Session) :
    Option Session := do
  let (txCache, runeId, dbRune, entry) := applied
  let s := (s.setTxCache txCache).pushRune dbRune
  let s := s.setRuneCache (s.cache.runeCache.put runeId dbRune)
  let s ← s.addLedgerEntriesToDbCache [entry]
  return s.setNextRuneNumber (s.cache.nextRuneNumber + 1)

/-- `apply_etching`. -/
def applyEtching (etching : Etching) (s : Session) : Option Session :=
  s.recordEtching (s.cache.txCache.applyEtching etching s.cache.nextRuneNumber)

/-- `apply_cenotaph_etching`. -/
def applyCenotaphEtching (rune : Rune) (s : Session) : Option Session :=
  s.recordEtching (s.cache.txCache.applyCenotaphEtching rune s.cache.nextRuneNumber)

/-- `get_cached_rune_by_rune_id`: id `0:0` means the rune being etched in this transaction. -/
def getCachedRuneByRuneId (id : RuneId) (s : Session) : Option (Option DbRune × Session) :=
  if id.block = 0 ∧ id.tx = 0 then some (s.cache.txCache.etching, s)
  else
    match s.cache.runeCache.get id with
    | (some cachedRune, runeCache) => some (some cachedRune, s.setRuneCache runeCache)
    | (none, _) => do
      -- Cache miss, look in the database.
      let s ← s.flush
      match pgGetRuneById id s.db with
      | none => return (none, s)
      | some dbRune => return (some dbRune, s.setRuneCache (s.cache.runeCache.put id dbRune))

/-- The id under which `get_cached_rune_total_mints` looks in the cache. -/
def realRuneId (id : RuneId) (s : Session) : Option RuneId :=
  if id.block = 0 ∧ id.tx = 0 then s.cache.txCache.etching.map DbRune.id else some id

/-- `get_cached_rune_total_mints`. The database is asked, and the cache is filled, under the id as
it was given. -/
def getCachedRuneTotalMints (id : RuneId) (s : Session) : Option (Option Nat × Session) :=
  match s.realRuneId id with
  | none => some (none, s)
  | some realRuneId =>
    match s.cache.runeTotalMintsCache.get realRuneId with
    | (some total, runeTotalMintsCache) =>
      some (some total, s.setRuneTotalMintsCache runeTotalMintsCache)
    | (none, _) => do
      -- Cache miss, look in the database.
      let s ← s.flush
      match pgGetRuneTotalMints id s.db with
      | none => return (none, s)
      | some total =>
        return (some total, s.setRuneTotalMintsCache (s.cache.runeTotalMintsCache.put id total))

/-- One more mint in the cache of mint counts. -/
def bumpTotalMints (id : RuneId) (s : Session) : Session :=
  s.setRuneTotalMintsCache <| match s.cache.runeTotalMintsCache.peek id with
    | some _ => s.cache.runeTotalMintsCache.modify id (· + 1)
    | none => s.cache.runeTotalMintsCache.put id 1

/-- What `apply_mint` and `apply_cenotaph_mint` have in common: `apply` is the function of the
transaction's cache. -/
def applyMintWith (apply : TransactionCache → RuneId → Nat → DbRune →
      TransactionCache × Option DbLedgerEntry) (id : RuneId) (s : Session) : Option Session := do
  let (rune, s) ← s.getCachedRuneByRuneId id
  match rune with
  | none => return s
  | some dbRune =>
    let (totalMints, s) ← s.getCachedRuneTotalMints id
    let (txCache, ledgerEntry) := apply s.cache.txCache id (totalMints.getD 0) dbRune
    let s := s.setTxCache txCache
    match ledgerEntry with
    | none => return s
    | some ledgerEntry =>
      let s ← s.addLedgerEntriesToDbCache [ledgerEntry]
      return s.bumpTotalMints id

/-- `apply_mint`. -/
def applyMint (id : RuneId) (s : Session) : Option Session :=
  s.applyMintWith TransactionCache.applyMint id

/-- `apply_cenotaph_mint`. -/
def applyCenotaphMint (id : RuneId) (s : Session) : Option Session :=
  s.applyMintWith TransactionCache.applyCenotaphMint id

/-- `apply_edict`. -/
def applyEdict (env : Environment) (edict : Edict) (s : Session) : Option Session := do
  let (rune, s) ← s.getCachedRuneByRuneId edict.id
  match rune with
  | none => return s
  | some _ =>
    let (txCache, entries) := s.cache.txCache.applyEdict env edict
    (s.setTxCache txCache).addLedgerEntriesToDbCache entries

end Session

end Runehook
