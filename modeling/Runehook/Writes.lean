import Runehook.IndexBlock

/-! # What the index cache writes

Every operation of the index cache acts on the rows it keeps, and on the database, through four
small moves: it leaves them alone, flushes them, records an etched rune, or adds ledger entries.
`Writes` says that a session got to another one by such moves, and which entries they added. What an
invariant of the tables needs is one case for each move, and never a case for each operation. -/

namespace Runehook

open Lib

/-! ## Adding entries, without the `unwrap`s -/

/-- The output that an entry names. -/
def DbLedgerEntry.outputKey (e : DbLedgerEntry) : Option (String × Nat) :=
  e.output.map fun o => (e.txId, o)

/-- The values that `add_ledger_entries_to_db_cache` unwraps are there. -/
def DbLedgerEntry.Complete (e : DbLedgerEntry) : Prop :=
  match e.operation with
  | .etching => True
  | .mint | .burn => e.amount.isSome
  | .send => e.address.isSome → e.amount.isSome
  | .receive => e.address.isSome → e.amount.isSome ∧ e.output.isSome

/-- What an entry does to the supply changes. -/
def countSupply (changes : HashMap RuneId DbSupplyChange) (e : DbLedgerEntry) :
    HashMap RuneId DbSupplyChange :=
  match e.operation with
  | .mint => countMint e (e.amount.getD 0) changes
  | .burn => countBurn e (e.amount.getD 0) changes
  | .etching | .send | .receive => countOperation e changes

/-- What an entry does to the balance changes of one direction: `operation` is `receive` for the
increases and `send` for the deductions. -/
def countDirection (operation : DbLedgerOperation)
    (changes : HashMap (RuneId × Address) DbBalanceChange) (e : DbLedgerEntry) :
    HashMap (RuneId × Address) DbBalanceChange :=
  if e.operation = operation then
    match e.address with
    | some address => countBalance e address (e.amount.getD 0) changes
    | none => changes
  else changes

/-- What an entry does to the outputs of the current block. -/
def creditOutput (blockOutputCache : BlockOutputCache) (e : DbLedgerEntry) : BlockOutputCache :=
  if e.operation = .receive then
    match e.address, e.outputKey with
    | some _, some k => cacheOutput k e.runeId e.balance blockOutputCache
    | _, _ => blockOutputCache
  else blockOutputCache

/-- What an entry does to the rows that are not in the database yet. -/
def DbCache.count (dbCache : DbCache) (e : DbLedgerEntry) : DbCache :=
  { dbCache with
    supplyChanges := countSupply dbCache.supplyChanges e
    balanceIncreases := countDirection .receive dbCache.balanceIncreases e
    balanceDeductions := countDirection .send dbCache.balanceDeductions e }

/-- Adding a ledger entry succeeds on complete entries, and does to each map what the entry says. -/
theorem addLedgerEntry_eq_some {cache cache' : IndexCache} {e : DbLedgerEntry} :
    cache.addLedgerEntry e = some cache' ↔
      e.Complete ∧ cache' = { cache with
        blockOutputCache := creditOutput cache.blockOutputCache e
        dbCache := cache.dbCache.count e } := by
  obtain ⟨runeId, blockHash, blockHeight, txIndex, eventIndex, txId, output, address,
    receiver, amount, operation, timestamp⟩ := e
  cases operation <;> cases address <;> cases amount <;> cases output <;>
    simp [IndexCache.addLedgerEntry, DbLedgerEntry.Complete, DbCache.count, countSupply,
      countDirection, creditOutput, DbLedgerEntry.outputKey, DbLedgerEntry.balance, eq_comm]

/-- Adding ledger entries succeeds on complete entries. -/
theorem addLedgerEntriesToDbCache_eq_some {cache cache' : IndexCache} {es : List DbLedgerEntry} :
    cache.addLedgerEntriesToDbCache es = some cache' ↔
      (∀ e ∈ es, e.Complete) ∧ cache' = { cache with
        blockOutputCache := es.foldl creditOutput cache.blockOutputCache
        dbCache := es.foldl DbCache.count
          { cache.dbCache with ledgerEntries := cache.dbCache.ledgerEntries ++ es } } := by
  -- entry by entry, for any cache to start from
  have hfold : ∀ (es : List DbLedgerEntry) (cache cache' : IndexCache),
      es.foldlM IndexCache.addLedgerEntry cache = some cache' ↔
        (∀ e ∈ es, e.Complete) ∧ cache' = { cache with
          blockOutputCache := es.foldl creditOutput cache.blockOutputCache
          dbCache := es.foldl DbCache.count cache.dbCache } := by
    intro es
    induction es with
    | nil =>
      intro cache cache'
      rw [List.foldlM_nil]
      constructor
      · intro h
        exact ⟨fun e he => absurd he List.not_mem_nil, (Option.some.inj h).symm⟩
      · rintro ⟨-, rfl⟩
        rfl
    | cons e es ih =>
      intro cache cache'
      rw [foldlM_cons_eq_some]
      constructor
      · rintro ⟨t, ht, hes⟩
        obtain ⟨he, rfl⟩ := addLedgerEntry_eq_some.mp ht
        obtain ⟨hall, rfl⟩ := (ih _ _).mp hes
        exact ⟨List.forall_mem_cons.mpr ⟨he, hall⟩, rfl⟩
      · rintro ⟨hall, rfl⟩
        rw [List.forall_mem_cons] at hall
        exact ⟨_, addLedgerEntry_eq_some.mpr ⟨hall.1, rfl⟩, (ih _ _).mpr ⟨hall.2, rfl⟩⟩
  exact hfold es _ _

/-- Counting entries leaves the rows of the ledger and the runes. -/
theorem foldl_count_ledgerEntries (es : List DbLedgerEntry) (dbCache : DbCache) :
    (es.foldl DbCache.count dbCache).ledgerEntries = dbCache.ledgerEntries := by
  induction es generalizing dbCache with
  | nil => rfl
  | cons e es ih => exact ih (dbCache.count e)

theorem foldl_count_runes (es : List DbLedgerEntry) (dbCache : DbCache) :
    (es.foldl DbCache.count dbCache).runes = dbCache.runes := by
  induction es generalizing dbCache with
  | nil => rfl
  | cons e es ih => exact ih (dbCache.count e)

/-! ## The moves -/

namespace Session

/-- All ledger entries written so far: the rows of the table and those not inserted yet. -/
def entries (s : Session) : List DbLedgerEntry := s.db.ledger ++ s.cache.dbCache.ledgerEntries

/-- Two sessions that differ at most in what the transaction holds, in the LRU caches of runes and
mint counts, in the next rune number, and in how recent the entries of the LRU cache of outputs
are. -/
structure Quiet (s s' : Session) : Prop where
  /-- The tables stay. -/
  db : s'.db = s.db
  /-- What waits stays. -/
  dbCache : s'.cache.dbCache = s.cache.dbCache
  /-- The LRU cache of outputs has the same in it. -/
  outputCache : ∀ k, s'.cache.outputCache.peek k = s.cache.outputCache.peek k
  /-- The cache of the block stays. -/
  blockOutputCache : s'.cache.blockOutputCache = s.cache.blockOutputCache
  /-- The network stays. -/
  network : s'.cache.network = s.cache.network

/-- `Writes s es rs s'`: the session `s` becomes `s'` by adding the entries `es` and recording the
runes `rs`, with flushes in between. -/
inductive Writes : Session → List DbLedgerEntry → List DbRune → Session → Prop
  /-- Nothing is written. -/
  | quiet {s s' : Session} (h : s.Quiet s') : Writes s [] [] s'
  /-- What waits is inserted. -/
  | flush {s s' : Session} (h : s.flush = some s') : Writes s [] [] s'
  /-- A rune is recorded. -/
  | pushRune (s : Session) (rune : DbRune) : Writes s [] [rune] (s.pushRune rune)
  /-- Entries are added. -/
  | add {s s' : Session} {es : List DbLedgerEntry} (h : s.addLedgerEntriesToDbCache es = some s') :
    Writes s es [] s'
  /-- One thing after another. -/
  | trans {s t u : Session} {es es' : List DbLedgerEntry} {rs rs' : List DbRune}
      (h : Writes s es rs t) (h' : Writes t es' rs' u) : Writes s (es ++ es') (rs ++ rs') u

theorem flush_eq_some {s s' : Session} :
    s.flush = some s' ↔
      ∃ db, s.cache.dbCache.flush s.db = some db ∧ s' = ⟨{ s.cache with dbCache := .new }, db⟩ := by
  rw [flush]
  constructor
  · intro h
    obtain ⟨db, hdb, hs⟩ := Option.bind_eq_some_iff.mp h
    exact ⟨db, hdb, (Option.some.inj hs).symm⟩
  · rintro ⟨db, hdb, rfl⟩
    exact Option.bind_eq_some_iff.mpr ⟨db, hdb, rfl⟩

theorem addLedgerEntriesToDbCache_eq_some {s s' : Session} {es : List DbLedgerEntry} :
    s.addLedgerEntriesToDbCache es = some s' ↔
      (∀ e ∈ es, e.Complete) ∧ s' = { s with
        cache := { s.cache with
          blockOutputCache := es.foldl creditOutput s.cache.blockOutputCache
          dbCache := es.foldl DbCache.count
            { s.cache.dbCache with ledgerEntries := s.cache.dbCache.ledgerEntries ++ es } } } := by
  rw [addLedgerEntriesToDbCache]
  constructor
  · intro h
    obtain ⟨cache, hcache, hs⟩ := Option.bind_eq_some_iff.mp h
    obtain ⟨hall, rfl⟩ := Runehook.addLedgerEntriesToDbCache_eq_some.mp hcache
    exact ⟨hall, (Option.some.inj hs).symm⟩
  · rintro ⟨hall, rfl⟩
    exact Option.bind_eq_some_iff.mpr
      ⟨_, Runehook.addLedgerEntriesToDbCache_eq_some.mpr ⟨hall, rfl⟩, rfl⟩

/-- Nothing at all is a quiet move. -/
theorem Quiet.refl (s : Session) : s.Quiet s := ⟨rfl, rfl, fun _ => rfl, rfl, rfl⟩

/-- Writing nothing and then something. -/
theorem Writes.nil_trans {s t u : Session} {es : List DbLedgerEntry} {rs : List DbRune}
    (h : Writes s [] [] t) (h' : Writes t es rs u) : Writes s es rs u := h.trans h'

/-- Writing something and then nothing. -/
theorem Writes.trans_nil {s t u : Session} {es : List DbLedgerEntry} {rs : List DbRune}
    (h : Writes s es rs t) (h' : Writes t [] [] u) : Writes s es rs u := by
  have h'' := h.trans h'
  rwa [List.append_nil, List.append_nil] at h''

/-! ## What every move keeps -/

end Session

/-- **A flush, table by table**: it succeeds when the runes can be inserted. -/
theorem DbCache.flush_eq_some {dbCache : DbCache} {db db' : Db} :
    dbCache.flush db = some db' ↔ ∃ runes, dbCache.runes.foldlM insertRune db.runes = some runes ∧
      db' = { runes
              ledger := db.ledger ++ dbCache.ledgerEntries
              supplyChanges := (pgInsertSupplyChanges dbCache.supplyChanges.values db).supplyChanges
              balanceChanges := (pgInsertBalanceChanges dbCache.balanceDeductions.values false
                (pgInsertBalanceChanges dbCache.balanceIncreases.values true db)).balanceChanges
              lastScannedHeight := db.lastScannedHeight } := by
  rw [flush]
  -- the rows are inserted first and may fail, the rest goes through
  constructor
  · intro h
    obtain ⟨db₁, h₁, hs⟩ := Option.bind_eq_some_iff.mp h
    obtain ⟨runes, hrunes, rfl⟩ := pgInsertRunes_eq_some.mp h₁
    cases Option.some.inj hs
    exact ⟨runes, hrunes, by rw [pgInsertLedgerEntries_eq]; rfl⟩
  · rintro ⟨runes, hrunes, rfl⟩
    refine Option.bind_eq_some_iff.mpr ⟨_, pgInsertRunes_eq_some.mpr ⟨runes, hrunes, rfl⟩, ?_⟩
    dsimp only
    rw [pgInsertLedgerEntries_eq]
    rfl

/-- The ledger table after a flush. -/
theorem DbCache.flush_ledger {dbCache : DbCache} {db db' : Db} (h : dbCache.flush db = some db') :
    db'.ledger = db.ledger ++ dbCache.ledgerEntries := by
  obtain ⟨runes, -, rfl⟩ := DbCache.flush_eq_some.mp h
  rfl

namespace Session

/-- The entries written are those written before and those added. -/
theorem Writes.entries_eq {s s' : Session} {es : List DbLedgerEntry} {rs : List DbRune}
    (h : Writes s es rs s') :
    s'.entries = s.entries ++ es := by
  induction h with
  | quiet h => rw [entries, h.db, h.dbCache, List.append_nil, entries]
  | flush h =>
    obtain ⟨db, hdb, rfl⟩ := flush_eq_some.mp h
    rw [entries, DbCache.flush_ledger hdb, List.append_nil, entries]
    exact List.append_nil _
  | pushRune s rune => rw [List.append_nil]; rfl
  | add h =>
    obtain ⟨-, rfl⟩ := addLedgerEntriesToDbCache_eq_some.mp h
    rw [entries, foldl_count_ledgerEntries, entries, List.append_assoc]
  | trans _ _ ih ih' => rw [ih', ih, List.append_assoc]

/-- The outputs of the block are credited with the entries added. -/
theorem Writes.blockOutputCache_eq {s s' : Session} {es : List DbLedgerEntry} {rs : List DbRune}
    (h : Writes s es rs s') :
    s'.cache.blockOutputCache = es.foldl creditOutput s.cache.blockOutputCache := by
  induction h with
  | quiet h => exact h.blockOutputCache
  | flush h =>
    obtain ⟨db, -, rfl⟩ := flush_eq_some.mp h
    rfl
  | pushRune s rune => rfl
  | add h =>
    obtain ⟨-, rfl⟩ := addLedgerEntriesToDbCache_eq_some.mp h
    rfl
  | trans _ _ ih ih' => rw [ih', ih, List.foldl_append]

/-- Writing does not touch what the LRU cache of outputs holds. -/
theorem Writes.peek_outputCache {s s' : Session} {es : List DbLedgerEntry} {rs : List DbRune}
    (h : Writes s es rs s')
    (k : String × Nat) : s'.cache.outputCache.peek k = s.cache.outputCache.peek k := by
  induction h with
  | quiet h => exact h.outputCache k
  | flush h =>
    obtain ⟨db, -, rfl⟩ := flush_eq_some.mp h
    rfl
  | pushRune s rune => rfl
  | add h =>
    obtain ⟨-, rfl⟩ := addLedgerEntriesToDbCache_eq_some.mp h
    rfl
  | trans _ _ ih ih' => rw [ih', ih]

theorem Writes.network_eq {s s' : Session} {es : List DbLedgerEntry} {rs : List DbRune}
    (h : Writes s es rs s') :
    s'.cache.network = s.cache.network := by
  induction h with
  | quiet h => exact h.network
  | flush h =>
    obtain ⟨db, -, rfl⟩ := flush_eq_some.mp h
    rfl
  | pushRune s rune => rfl
  | add h =>
    obtain ⟨-, rfl⟩ := addLedgerEntriesToDbCache_eq_some.mp h
    rfl
  | trans _ _ ih ih' => rw [ih', ih]

/-- The ledger table only grows while a block is indexed. -/
theorem Writes.ledger_prefix {s s' : Session} {es : List DbLedgerEntry} {rs : List DbRune}
    (h : Writes s es rs s') :
    s.db.ledger <+: s'.db.ledger := by
  induction h with
  | quiet h => simp only [h.db, List.prefix_refl]
  | flush h =>
    obtain ⟨db, hdb, rfl⟩ := flush_eq_some.mp h
    rw [DbCache.flush_ledger hdb]
    exact List.prefix_append _ _
  | pushRune s rune => exact List.prefix_refl _
  | add h =>
    obtain ⟨-, rfl⟩ := addLedgerEntriesToDbCache_eq_some.mp h
    exact List.prefix_refl _
  | trans _ _ ih ih' => exact ih.trans ih'

end Session

end Runehook
