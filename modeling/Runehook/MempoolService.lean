import Mathlib.Data.Finset.SDiff
import Mathlib.Data.Finset.Erase
import Mathlib.Data.Finset.Dedup
import Runehook.IndexBlock
import Runehook.Mempool

/-! # The mempool service

`mempool_cache`, a set of transaction ids, and the table `mempool_ledger` (`MempoolState`), with the
loops of `mempool.rs` that change them: transactions are scanned at the start (`scanMempool`),
announced over ZMQ (`announce`), and removed when `index_block` sends their id
(`removeEscapedTransactions`). The ids are sent with a prefix that the cache does not have, and
`recorded_not_removed` says what comes of it. A poisoned lock is left out. -/

namespace Runehook

open Mempool

/-! ## The cache and the table -/

/-- `mempool_cache` and `mempool_ledger`. -/
structure MempoolState where
  /-- The ids of the transactions that were processed. -/
  mempoolCache : Finset String
  /-- The rows of the transactions. -/
  mempoolLedger : List DBMempoolLedgerEntry
  deriving DecidableEq

/-- Nothing is cached and the table is empty. -/
def MempoolState.empty : MempoolState := ⟨∅, []⟩

/-- `pg_remove_mempool_tx`. -/
def pgRemoveMempoolTx (txIds : Finset String) (rows : List DBMempoolLedgerEntry) :
    List DBMempoolLedgerEntry :=
  rows.filter fun r => r.txId ∉ txIds

/-- `pg_insert_mempool_ledger_entries`. -/
def pgInsertMempoolLedgerEntries (entries rows : List DBMempoolLedgerEntry) :
    List DBMempoolLedgerEntry :=
  rows ++ entries

/-- The ids that the table has rows of. -/
def rowIds (rows : List DBMempoolLedgerEntry) : Finset String :=
  (rows.map DBMempoolLedgerEntry.txId).toFinset

/-- `pg_actualize_mempool_cache`. -/
def pgActualizeMempoolCache (m : MempoolState) : MempoolState :=
  { m with mempoolCache := m.mempoolCache ∪ rowIds m.mempoolLedger }

/-! ## Announcements and removals -/

/-- The first step of a round of `start_zeromq_runloop`: insert the id; `none` if it was there. -/
def insertId (tx : MempoolTransaction) (m : MempoolState) : Option MempoolState :=
  if tx.txid.toText ∈ m.mempoolCache then none
  else some { m with mempoolCache := insert tx.txid.toText m.mempoolCache }

/-- The second step of a round of `start_zeromq_runloop`: parse the transaction and insert its
rows. -/
def insertRows (env : MempoolEnvironment) (network : Network) (tx : MempoolTransaction) (db : Db)
    (m : MempoolState) : MempoolState :=
  { m with
    mempoolLedger := pgInsertMempoolLedgerEntries (parseMempoolTx env network tx tx.txid.toText db)
      m.mempoolLedger }

/-- A round of `start_zeromq_runloop`. -/
def announce (env : MempoolEnvironment) (network : Network) (tx : MempoolTransaction) (db : Db)
    (m : MempoolState) : MempoolState :=
  match insertId tx m with
  | some m => insertRows env network tx db m
  | none => m

/-- The first step of a round of `remove_escaped_transactions`: remove the id; `none` if it was not
there. -/
def removeId (txId : String) (m : MempoolState) : Option MempoolState :=
  if txId ∈ m.mempoolCache then some { m with mempoolCache := m.mempoolCache.erase txId } else none

/-- The second step of a round of `remove_escaped_transactions`: delete the rows. -/
def removeRows (txId : String) (m : MempoolState) : MempoolState :=
  { m with mempoolLedger := pgRemoveMempoolTx {txId} m.mempoolLedger }

/-- A round of `remove_escaped_transactions`. -/
def removeEscapedTransaction (m : MempoolState) (txId : String) : MempoolState :=
  match removeId txId m with
  | some m => removeRows txId m
  | none => m

/-- `remove_escaped_transactions`, on the messages in the channel. -/
def removeEscapedTransactions (messages : List String) (m : MempoolState) : MempoolState :=
  messages.foldl removeEscapedTransaction m

/-- `index_block` with a sender attached: the messages that it sends. -/
def indexBlockSending (env : Environment) (block : Block) (s : Session) :
    Option (Session × List String) := do
  let s ← indexBlock env block s
  return (s, block.transactions.map Transaction.hash)

/-! ## The scan -/

/-- What the node answers. -/
structure NodeMempool where
  /-- The ids of its mempool, unless the request fails. -/
  getRawMempool : Option (List Txid)
  /-- The transaction with an id, unless the request fails. -/
  getById : Txid → Option MempoolTransaction

/-- The variables of the loop in `scan_mempool`. -/
structure Scan where
  /-- The ids that are known. -/
  mempoolCache : Finset String
  /-- The entries to insert. -/
  ledgerEntries : List DBMempoolLedgerEntry

/-- The body of the loop in `scan_mempool`. The id is inserted before the transaction is looked
up. -/
def scanTx (env : MempoolEnvironment) (network : Network) (node : NodeMempool)
    (db : Db) (scan : Scan) (txId : Txid) : Scan :=
  if txId.toText ∈ scan.mempoolCache then scan
  else
    { mempoolCache := insert txId.toText scan.mempoolCache
      ledgerEntries := match node.getById txId with
        | some tx => scan.ledgerEntries ++ parseMempoolTx env network tx txId.toText db
        | none => scan.ledgerEntries }

/-- `scan_mempool`. The rows of the transactions that left the mempool are deleted; their ids
stay. -/
def scanMempool (env : MempoolEnvironment) (network : Network) (node : NodeMempool) (db : Db)
    (m : MempoolState) : MempoolState :=
  match node.getRawMempool with
  | none => m
  | some txs =>
    let txToDelete := m.mempoolCache \ (txs.map Txid.toText).toFinset
    let scan := txs.foldl (scanTx env network node db) ⟨m.mempoolCache, []⟩
    { mempoolCache := scan.mempoolCache
      mempoolLedger := pgInsertMempoolLedgerEntries scan.ledgerEntries
        (pgRemoveMempoolTx txToDelete m.mempoolLedger) }

/-- `set_up_mempool_sidecar_runloop`, before it starts its threads. -/
def setUpMempool (env : MempoolEnvironment) (network : Network) (node : NodeMempool) (db : Db)
    (mempoolLedger : List DBMempoolLedgerEntry) : MempoolState :=
  scanMempool env network node db (pgActualizeMempoolCache ⟨∅, mempoolLedger⟩)

/-! ## Runs, one step at a time -/

/-- What the loops receive. -/
inductive StreamEvent where
  /-- The node announces a transaction, and the tables are as given. -/
  | announce (tx : MempoolTransaction) (db : Db)
  /-- The indexer sends the id of a transaction that was confirmed. -/
  | remove (txId : String)

/-- Carry out a round of a loop. -/
def StreamEvent.run (env : MempoolEnvironment) (network : Network) (m : MempoolState) :
    StreamEvent → MempoolState
  | .announce tx db => Runehook.announce env network tx db m
  | .remove txId => removeEscapedTransaction m txId

/-- What happens to the service. -/
inductive MempoolEvent where
  /-- The process starts again. -/
  | setUp (node : NodeMempool) (db : Db)
  /-- A loop receives something. -/
  | stream (e : StreamEvent)

/-- Carry out an event. -/
def MempoolEvent.run (env : MempoolEnvironment) (network : Network) (m : MempoolState) :
    MempoolEvent → MempoolState
  | .setUp node db => setUpMempool env network node db m.mempoolLedger
  | .stream e => e.run env network m

/-- A run of the service. -/
def runMempool (env : MempoolEnvironment) (network : Network) (events : List MempoolEvent)
    (m : MempoolState) :
    MempoolState :=
  events.foldl (MempoolEvent.run env network) m

/-! ## Ids as text -/

theorem Txid.length_toText (id : Txid) : id.toText.length = 64 := by
  rw [Txid.toText, String.length_ofList, List.length_map, id.length_eq]

theorem Txid.toText_injective : Function.Injective Txid.toText := by
  intro id id' h
  have hdigit : Function.Injective fun d : Fin 16 => d.val.digitChar := by
    unfold Function.Injective
    decide
  have hdigits : id.digits = id'.digits := hdigit.list_map (String.ofList_injective h)
  cases id
  cases id'
  cases hdigits
  rfl

/-- The hash of a transaction in a block is not the text of an id. -/
theorem Txid.hash_ne_toText (id id' : Txid) : "0x" ++ id.toText ≠ id'.toText := by
  intro h
  have hlength := congrArg String.length h
  rw [String.length_append, id.length_toText, id'.length_toText] at hlength
  exact absurd hlength (by decide)

/-- Every id in the cache and in the table is the text of a `Txid`. -/
structure MempoolState.IdsAreTexts (m : MempoolState) : Prop where
  /-- Those in the cache. -/
  mempoolCache : ∀ id ∈ m.mempoolCache, ∃ txid : Txid, txid.toText = id
  /-- Those in the table. -/
  mempoolLedger : ∀ r ∈ m.mempoolLedger, ∃ txid : Txid, txid.toText = r.txId

theorem MempoolState.IdsAreTexts.empty : MempoolState.empty.IdsAreTexts :=
  ⟨fun _ hid => absurd hid (Finset.notMem_empty _), fun _ hr => absurd hr List.not_mem_nil⟩

section

variable {env : MempoolEnvironment} {network : Network} {m : MempoolState}

/-- The rows of a parsed transaction have its id. -/
theorem exists_toText_of_mem_parse {tx : MempoolTransaction} {txId : Txid} {db : Db}
    {r : DBMempoolLedgerEntry} (hr : r ∈ parseMempoolTx env network tx txId.toText db) :
    ∃ txid : Txid, txid.toText = r.txId :=
  ⟨txId, ((parseMempoolTx_rows env network tx txId.toText db).1 r hr).symm⟩

theorem MempoolState.IdsAreTexts.announce (h : m.IdsAreTexts) (tx : MempoolTransaction) (db : Db) :
    (announce env network tx db m).IdsAreTexts := by
  unfold Runehook.announce insertId
  split_ifs with hmem
  · exact h
  · refine ⟨?_, ?_⟩
    · intro id hid
      rcases Finset.mem_insert.mp hid with rfl | hid
      · exact ⟨tx.txid, rfl⟩
      · exact h.mempoolCache id hid
    · intro r hr
      rcases List.mem_append.mp hr with hr | hr
      · exact h.mempoolLedger r hr
      · exact exists_toText_of_mem_parse hr

theorem MempoolState.IdsAreTexts.remove (h : m.IdsAreTexts) (txId : String) :
    (removeEscapedTransaction m txId).IdsAreTexts := by
  unfold removeEscapedTransaction removeId
  split_ifs with hmem
  · exact ⟨fun id hid => h.mempoolCache id (Finset.mem_of_mem_erase hid),
      fun r hr => h.mempoolLedger r (List.mem_of_mem_filter hr)⟩
  · exact h

/-- What the loop of the scan keeps. -/
theorem scanTx_idsAreTexts (env : MempoolEnvironment) (network : Network)
    (node : NodeMempool) (db : Db) (txs : List Txid) (scan : Scan)
    (hcache : ∀ id ∈ scan.mempoolCache, ∃ txid : Txid, txid.toText = id)
    (hentries : ∀ r ∈ scan.ledgerEntries, ∃ txid : Txid, txid.toText = r.txId) :
    (∀ id ∈ (txs.foldl (scanTx env network node db) scan).mempoolCache, ∃ txid : Txid,
      txid.toText = id) ∧
      ∀ r ∈ (txs.foldl (scanTx env network node db) scan).ledgerEntries, ∃ txid :
      Txid, txid.toText = r.txId := by
  induction txs generalizing scan with
  | nil => exact ⟨hcache, hentries⟩
  | cons txId txs ih =>
    rw [List.foldl_cons, scanTx]
    split_ifs with hmem
    · exact ih scan hcache hentries
    · refine ih _ ?_ ?_
      · intro id hid
        rcases Finset.mem_insert.mp hid with rfl | hid
        · exact ⟨txId, rfl⟩
        · exact hcache id hid
      · intro r hr
        -- a transaction that the node no longer has gives no rows
        cases hget : node.getById txId with
        | none =>
          simp only [hget] at hr
          exact hentries r hr
        | some tx =>
          simp only [hget] at hr
          rcases List.mem_append.mp hr with hr | hr
          · exact hentries r hr
          · exact exists_toText_of_mem_parse hr

theorem MempoolState.IdsAreTexts.setUp (h : m.IdsAreTexts) (node : NodeMempool) (db : Db) :
    (setUpMempool env network node db m.mempoolLedger).IdsAreTexts := by
  have hcached : ∀ id ∈ (∅ : Finset String) ∪ rowIds m.mempoolLedger, ∃ txid : Txid,
      txid.toText = id := by
    intro id hid
    rcases Finset.mem_union.mp hid with hid | hid
    · exact absurd hid (Finset.notMem_empty _)
    · obtain ⟨r, hr, rfl⟩ := List.mem_map.mp (List.mem_toFinset.mp hid)
      exact h.mempoolLedger r hr
  unfold setUpMempool scanMempool
  cases node.getRawMempool with
  | none => exact ⟨hcached, h.mempoolLedger⟩
  | some txs =>
    have hscan :=
      scanTx_idsAreTexts env network node db txs ⟨∅ ∪ rowIds m.mempoolLedger, []⟩ hcached
        fun _ hr => absurd hr List.not_mem_nil
    refine ⟨hscan.1, ?_⟩
    intro r hr
    rcases List.mem_append.mp hr with hr | hr
    · exact h.mempoolLedger r (List.mem_of_mem_filter hr)
    · exact hscan.2 r hr

/-- In every state of a run the ids are texts of `Txid`s. -/
theorem runMempool_idsAreTexts (events : List MempoolEvent) :
    (runMempool env network events .empty).IdsAreTexts := by
  induction events using List.reverseRecOn with
  | nil => exact .empty
  | append_singleton events e ih =>
    rw [runMempool, List.foldl_concat, ← runMempool]
    cases e with
    | setUp node db => exact ih.setUp node db
    | stream e =>
      cases e with
      | announce tx db => exact ih.announce tx db
      | remove txId => exact ih.remove txId

/-- The hash of a transaction in a block removes nothing. -/
theorem MempoolState.IdsAreTexts.remove_hash (h : m.IdsAreTexts) (id : Txid) :
    removeEscapedTransaction m ("0x" ++ id.toText) = m := by
  unfold removeEscapedTransaction removeId
  rw [if_neg]
  intro hmem
  obtain ⟨id', hid'⟩ := h.mempoolCache _ hmem
  exact id.hash_ne_toText id' hid'.symm

theorem MempoolState.IdsAreTexts.remove_hashes (h : m.IdsAreTexts) {messages : List String}
    (hmessages : ∀ message ∈ messages, ∃ id : Txid, message = "0x" ++ id.toText) :
    removeEscapedTransactions messages m = m := by
  unfold removeEscapedTransactions
  induction messages with
  | nil => rfl
  | cons message messages ih =>
    obtain ⟨id, rfl⟩ := hmessages message List.mem_cons_self
    rw [List.foldl_cons, h.remove_hash id]
    exact ih fun message' hmem => hmessages message' (List.mem_cons_of_mem _ hmem)

end

/-- **A transaction that was recorded stays in the mempool ledger when a block confirms it**: its
hash is sent, and once the messages are consumed its id is still in the cache. -/
theorem recorded_not_removed {env : MempoolEnvironment} {network : Network}
    {events : List MempoolEvent} {tx : MempoolTransaction} {block : Block} {s s' : Session}
    {messages : List String}
    (hrecorded : tx.txid.toText ∈ (runMempool env network events .empty).mempoolCache)
    (hhashes : ∀ t ∈ block.transactions, ∃ id : Txid, t.hash = "0x" ++ id.toText)
    (hconfirmed : ∃ t ∈ block.transactions, t.hash = "0x" ++ tx.txid.toText)
    (hindex : indexBlockSending env.toEnvironment block s = some (s', messages)) :
    "0x" ++ tx.txid.toText ∈ messages ∧
      ¬ (tx.txid.toText ∉
          (removeEscapedTransactions messages (runMempool env network events .empty)).mempoolCache ∧
        ∀ r ∈
          (removeEscapedTransactions messages (runMempool env network events .empty)).mempoolLedger,
          r.txId ≠ tx.txid.toText) := by
  obtain ⟨u, -, hsent⟩ := Option.bind_eq_some_iff.mp hindex
  obtain ⟨rfl, rfl⟩ := Prod.mk.inj (Option.some.inj hsent)
  -- the hash of the confirmed transaction is sent
  refine ⟨?_, ?_⟩
  · obtain ⟨t, ht, hhash⟩ := hconfirmed
    exact hhash ▸ List.mem_map_of_mem ht
  -- no message is an id as the cache holds it, so nothing is removed
  · rw [(runMempool_idsAreTexts events).remove_hashes]
    · exact fun h => h.1 hrecorded
    · intro message hmessage
      obtain ⟨t, ht, rfl⟩ := List.mem_map.mp hmessage
      exact hhashes t ht

/-! ## A transaction from the mempool to a block -/

/-- Every transaction is a cenotaph that etches a rune. -/
def cenotaphEnv : MempoolEnvironment :=
  .plain fun _ => some (.cenotaph ⟨some 100000000000000, none, none⟩)

/-- A transaction that the node announces. -/
def announcedTx : MempoolTransaction :=
  ⟨⟨List.replicate 64 1, List.length_replicate⟩,
    [(⟨List.replicate 64 0, List.length_replicate⟩, 0)], [[0x6a]]⟩

/-- The block that confirms it. -/
def confirmingBlock : Block :=
  ⟨"0xb1", 840001, 1700000000,
    [⟨"0x" ++ announcedTx.txid.toText, 1,
      [⟨"0x" ++ (Txid.toText ⟨List.replicate 64 0, List.length_replicate⟩), 0⟩],
      announcedTx.outputs⟩]⟩

theorem confirmingBlock_hashes :
    ∀ t ∈ confirmingBlock.transactions, ∃ id : Txid, t.hash = "0x" ++ id.toText := by
  intro t ht
  rw [List.mem_singleton.mp ht]
  exact ⟨announcedTx.txid, rfl⟩

theorem indexBlockSending_confirmingBlock :
    ∃ s₀ s messages, freshSession .bitcoin 2 (by decide) = some s₀ ∧
    indexBlockSending cenotaphEnv.toEnvironment confirmingBlock s₀ = some (s, messages) := by
  have hruns : ((freshSession .bitcoin 2 (by decide)).bind
      (indexBlockSending cenotaphEnv.toEnvironment confirmingBlock)).isSome := by
    decide +kernel
  obtain ⟨⟨s, messages⟩, hs⟩ := Option.isSome_iff_exists.mp hruns
  obtain ⟨s₀, hstart, hindex⟩ := Option.bind_eq_some_iff.mp hs
  exact ⟨s₀, s, messages, hstart, hindex⟩

/-- The theorem on a transaction that was announced. -/
theorem recorded_not_removed_announcedTx : ∃ s₀ s messages,
    freshSession .bitcoin 2 (by decide) = some s₀ ∧
    indexBlockSending cenotaphEnv.toEnvironment confirmingBlock s₀ = some (s, messages) ∧
    "0x" ++ announcedTx.txid.toText ∈ messages := by
  obtain ⟨s₀, s, messages, hstart, hindex⟩ := indexBlockSending_confirmingBlock
  have hrecorded : announcedTx.txid.toText ∈
      (runMempool cenotaphEnv .bitcoin [.stream (.announce announcedTx s₀.db)]
        .empty).mempoolCache :=
    Finset.mem_insert_self _ _
  exact ⟨s₀, s, messages, hstart, hindex, (recorded_not_removed hrecorded confirmingBlock_hashes
    ⟨_, List.mem_singleton.mpr rfl, rfl⟩ hindex).1⟩

/-- A transaction that was recorded with its rows is still recorded once a block confirmed it. -/
theorem exists_recorded_not_removed :
    ∃ env network events, ∃ tx : MempoolTransaction, ∃ block : Block,
    ∃ s₀ s messages,
    freshSession network 2 (by decide) = some s₀ ∧
    tx.txid.toText ∈ (runMempool env network events .empty).mempoolCache ∧
    (∃ r ∈ (runMempool env network events .empty).mempoolLedger, r.txId = tx.txid.toText) ∧
    (∃ t ∈ block.transactions, t.hash = "0x" ++ tx.txid.toText) ∧
    indexBlockSending env.toEnvironment block s₀ = some (s, messages) ∧
    ¬ (tx.txid.toText ∉
        (removeEscapedTransactions messages (runMempool env network events .empty)).mempoolCache ∧
      ∀ r ∈
        (removeEscapedTransactions messages (runMempool env network events .empty)).mempoolLedger,
        r.txId ≠ tx.txid.toText) := by
  obtain ⟨s₀, s, messages, hstart, hindex⟩ := indexBlockSending_confirmingBlock
  obtain ⟨u, -, hsent⟩ := Option.bind_eq_some_iff.mp hindex
  -- the messages are the hashes of the block, with the prefix
  obtain ⟨rfl, rfl⟩ := Prod.mk.inj (Option.some.inj hsent)
  have hrecorded : announcedTx.txid.toText ∈
      (runMempool cenotaphEnv .bitcoin [.stream (.announce announcedTx .migrated)]
        .empty).mempoolCache :=
    Finset.mem_insert_self _ _
  have hrow :
      ∃ r ∈
      (runMempool cenotaphEnv .bitcoin [.stream (.announce announcedTx .migrated)]
        .empty).mempoolLedger, r.txId = announcedTx.txid.toText := by
    decide +kernel
  -- the id without the prefix stays in the cache
  have hkept : announcedTx.txid.toText ∈ (removeEscapedTransactions
      (confirmingBlock.transactions.map Transaction.hash)
      (runMempool cenotaphEnv .bitcoin [.stream (.announce announcedTx .migrated)]
        .empty)).mempoolCache := by
    decide +kernel
  exact ⟨cenotaphEnv, .bitcoin, [.stream (.announce announcedTx .migrated)], announcedTx,
    confirmingBlock, s₀, u, _,
    hstart, hrecorded, hrow, ⟨_, List.mem_singleton.mpr rfl, rfl⟩, hindex, fun h => h.1 hkept⟩

end Runehook
