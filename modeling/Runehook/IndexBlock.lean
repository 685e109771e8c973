import Runehook.IndexCache

/-! # Indexing and rolling back blocks

`index_block` and `roll_back_block` of `db/index.rs` (`indexBlock`, `rollBackBlock`), and the runs
of an indexer process (`runEvents`): blocks indexed, blocks rolled back, and restarts with empty
caches in between. What a transaction asks of the index cache is a list of `Action`s. -/

namespace Runehook

open Lib

/-- `BitcoinTransactionData`: what the indexer reads of a transaction. -/
structure Transaction where
  /-- The hash, with its prefix. -/
  hash : String
  /-- The place in the block. -/
  index : Nat
  /-- The outputs that it spends. -/
  inputs : List TxIn
  /-- The scripts of the outputs. -/
  outputs : List ScriptBuf
  deriving DecidableEq, Repr

/-- `BitcoinBlockData`: what the indexer reads of a block. -/
structure Block where
  /-- The hash, with its prefix. -/
  hash : String
  /-- The height. -/
  height : Nat
  /-- The time in its header. -/
  timestamp : Nat
  /-- The transactions, in order. -/
  transactions : List Transaction
  deriving DecidableEq, Repr

/-- `get_rune_genesis_block_height`; a `todo!()` on a signet. -/
def getRuneGenesisBlockHeight : Network → Option Nat
  | .bitcoin => some 840000
  | .testnetV3 => some 2539948
  | .testnetV4 => some 1
  | .signet => none
  | .regtest => some 1

/-- What `bitcoin_tx_from_chainhook_tx` reads off the outputs: all scripts, the non-`OP_RETURN` ones
by index, and the index of the first of these. -/
structure OutputScan where
  /-- The scripts of the outputs that can get runes. -/
  eligibleOutputs : HashMap Nat ScriptBuf
  /-- The first of these outputs. -/
  firstEligibleOutput : Option Nat

/-- One round of the loop in `bitcoin_tx_from_chainhook_tx`. -/
def scanOutput (env : Environment) (scan : OutputScan) (output : ScriptBuf × Nat) : OutputScan :=
  if env.isOpReturn output.1 then scan
  else ⟨scan.eligibleOutputs.insert output.2 output.1, scan.firstEligibleOutput.or (some output.2)⟩

/-- The loop in `bitcoin_tx_from_chainhook_tx`. -/
def scanOutputs (env : Environment) (outputs : List ScriptBuf) : OutputScan :=
  outputs.zipIdx.foldl (scanOutput env) ⟨∅, none⟩

/-- `bitcoin_tx_from_chainhook_tx`. The time of the block goes in a lock time, where the values
below 500 000 000 do not fit (they mean heights): the `unwrap` panics on them. -/
def bitcoinTxFromChainhookTx (env : Environment) (block : Block) (tx : Transaction) :
    Option (List ScriptBuf × OutputScan × Nat) :=
  if block.timestamp < 500000000 then none
  else some (tx.outputs, scanOutputs env tx.outputs, tx.outputs.length)

/-- The location of a transaction of a block. -/
def Transaction.location (tx : Transaction) (block : Block) (network : Network) :
    TransactionLocation where
  network := network
  blockHash := block.hash
  blockHeight := block.height
  timestamp := block.timestamp
  txIndex := tx.index
  txId := tx.hash

/-! ## What a transaction asks the index cache to do -/

/-- The calls that `index_block` makes on the index cache for a transaction. -/
inductive Action where
  /-- `begin_transaction`, with the inputs looked up. -/
  | beginTransaction (tx : Transaction)
  /-- `apply_runestone`. -/
  | runestone (runestone : Runestone)
  /-- `apply_cenotaph`. -/
  | cenotaph
  /-- `apply_etching`. -/
  | etching (etching : Etching)
  /-- `apply_cenotaph_etching`. -/
  | cenotaphEtching (rune : Rune)
  /-- `apply_mint`. -/
  | mint (id : RuneId)
  /-- `apply_cenotaph_mint`. -/
  | cenotaphMint (id : RuneId)
  /-- `apply_edict`. -/
  | edict (edict : Edict)
  /-- `end_transaction`. -/
  | endTransaction
  deriving DecidableEq, Repr

/-- Carry out a call while a block is being indexed. -/
def Action.run (env : Environment) (block : Block) (s : Session) : Action → Option Session
  | .beginTransaction tx => do
    let (_, scan, totalOutputs) ← bitcoinTxFromChainhookTx env block tx
    s.beginTransaction env (tx.location block s.cache.network) tx.inputs scan.eligibleOutputs
      scan.firstEligibleOutput totalOutputs
  | .runestone r => some (s.applyRunestone r)
  | .cenotaph => s.applyCenotaph env
  | .etching e => s.applyEtching e
  | .cenotaphEtching rune => s.applyCenotaphEtching rune
  | .mint id => s.applyMint id
  | .cenotaphMint id => s.applyCenotaphMint id
  | .edict e => s.applyEdict env e
  | .endTransaction => s.endTransaction env

/-- The calls for the artifact of a transaction. -/
def Artifact.actions : Artifact → List Action
  | .runestone r =>
    .runestone r :: (r.etching.map Action.etching).toList ++ (r.mint.map Action.mint).toList ++
      r.edicts.map Action.edict
  | .cenotaph c =>
    .cenotaph :: (c.etching.map Action.cenotaphEtching).toList ++
        (c.mint.map Action.cenotaphMint).toList

/-- The calls for a transaction. -/
def Transaction.actions (env : Environment) (tx : Transaction) : List Action :=
  .beginTransaction tx :: ((env.decipher tx.outputs).map Artifact.actions).getD [] ++
    [.endTransaction]

/-- The body of the loop over transactions in `index_block`. -/
def indexTransaction (env : Environment) (block : Block) (s : Session) (tx : Transaction) :
    Option Session :=
  (tx.actions env).foldlM (Action.run env block) s

/-- `index_block` up to the end of its loop: what is in memory, and in the open database
transaction, after the last transaction of the block. -/
def indexTransactions (env : Environment) (block : Block) (s : Session) : Option Session := do
  let s ← s.resetMaxRuneNumber
  block.transactions.foldlM (indexTransaction env block) s

/-- `index_block`. -/
def indexBlock (env : Environment) (block : Block) (s : Session) : Option Session := do
  let s ← indexTransactions env block s
  let s := s.endBlock env
  let s := { s with db := pgUpdateBlockHeight block.height s.db }
  s.flush

/-- `roll_back_block`. The index cache is not told. -/
def rollBackBlock (height : Nat) (s : Session) : Session :=
  { s with db := pgRollBackBlock height s.db }

/-! ## Runs of the indexer -/

/-- What happens to an indexer between blocks. -/
inductive Event where
  /-- A block is indexed. -/
  | index (block : Block)
  /-- The rows of a height are deleted. -/
  | rollBack (height : Nat)
  /-- The process starts again, with LRU caches of a given capacity. -/
  | restart (cap : Nat) (hcap : 0 < cap)

/-- The process starts again on the same database. -/
def Session.restart (cap : Nat) (hcap : 0 < cap) (s : Session) : Option Session := do
  let cache ← IndexCache.new s.cache.network cap hcap s.db
  return { s with cache := cache }

/-- Carry out an event. -/
def Event.run (env : Environment) (s : Session) : Event → Option Session
  | .index block => indexBlock env block s
  | .rollBack height => some (rollBackBlock height s)
  | .restart cap hcap => s.restart cap hcap

/-- A run of the indexer. -/
def runEvents (env : Environment) (events : List Event) (s : Session) : Option Session :=
  events.foldlM (Event.run env) s

/-- A process that starts on freshly migrated tables. -/
def freshSession (network : Network) (cap : Nat) (hcap : 0 < cap) : Option Session := do
  let cache ← IndexCache.new network cap hcap .migrated
  return ⟨cache, .migrated⟩

/-- The blocks that a list of events indexes. -/
def indexedBlocks (events : List Event) : List Block :=
  events.filterMap fun
    | .index block => some block
    | _ => none

/-- An event without rollback. -/
def Event.Forward : Event → Prop
  | .rollBack _ => False
  | _ => True

/-- The outputs that a block spends, in order. -/
def Block.spends (block : Block) : List (String × Nat) :=
  block.transactions.flatMap fun tx => tx.inputs.map TxIn.outputKey

/-! ## A small chain -/

/-- Every `OP_RETURN` output mints the rune of the migrations. -/
def mintEnv : Environment := .plain fun _ => some (.runestone ⟨[], none, some ⟨1, 0⟩, none⟩)

/-- A transaction that mints to alice. -/
def mintTx : Transaction := ⟨"0xmint", 1, [], [[1], [0x6a]]⟩

/-- A transaction that sends on to bob what `mintTx` minted. -/
def spendTx : Transaction := ⟨"0xspend", 1, [⟨"0xmint", 0⟩], [[2]]⟩

def mintBlock : Block := ⟨"0xb1", 840001, 1700000000, [mintTx]⟩

def spendBlock : Block := ⟨"0xb2", 840002, 1700000000, [spendTx]⟩

/-- A transaction that mints to alice. -/
def mintAgainTx : Transaction := ⟨"0xmint2", 2, [], [[1], [0x6a]]⟩

/-- A block that takes the place of `spendBlock`: its transaction is mined again, before a mint. -/
def forkBlock : Block := ⟨"0xb2b", 840002, 1700000000, [spendTx, mintAgainTx]⟩

/-- A block that spends what was minted in `forkBlock`, with what bob got there. -/
def joinBlock : Block :=
  ⟨"0xb3", 840003, 1700000000, [⟨"0xjoin", 1, [⟨"0xspend", 0⟩, ⟨"0xmint2", 0⟩], [[2]]⟩]⟩

/-- `spendBlock` is rolled back before a restart, and another chain goes on; a block of it is rolled
back, too, and another one takes its place. -/
def forkEvents : List Event :=
  [.index mintBlock, .index spendBlock, .rollBack 840002, .restart 2 Nat.two_pos, .index forkBlock,
    .index ⟨"0xb3a", 840003, 1700000000, [⟨"0xmint3", 1, [], [[1], [0x6a]]⟩]⟩, .rollBack 840003,
    .index joinBlock]

/-- `mintBlock` and a restart, before `spendBlock`. -/
def mintAndRestart : List Event := [.index mintBlock, .restart 2 (by decide)]

theorem mintAndRestart_runs : ∃ s₀ s s', freshSession .bitcoin 2 (by decide) = some s₀ ∧
    runEvents mintEnv mintAndRestart s₀ = some s ∧
    indexTransactions mintEnv spendBlock s = some s' := by
  have hruns : ((freshSession .bitcoin 2 (by decide)).bind fun s₀ =>
      (runEvents mintEnv mintAndRestart s₀).bind
        (indexTransactions mintEnv spendBlock)).isSome := by
    decide +kernel
  obtain ⟨s', hs'⟩ := Option.isSome_iff_exists.mp hruns
  obtain ⟨s₀, hstart, hs'⟩ := Option.bind_eq_some_iff.mp hs'
  obtain ⟨s, hrun, hs'⟩ := Option.bind_eq_some_iff.mp hs'
  exact ⟨s₀, s, s', hstart, hrun, hs'⟩

end Runehook
