import Runehook.Reorgs
import Runehook.Rows

/-! # The rows of a block

Indexing a block changes the rows of its own height only (`rowsAt`, `rowsWhere_indexBlock`), and
rolling back a height leaves the rows of every other height. `rollBack_index_eq_iff` says when a
rollback undoes a block. -/

namespace Runehook

open Lib

/-- The rows of the four tables at a height. -/
structure BlockRows where
  /-- Those of `runes`. -/
  runes : List DbRune
  /-- Those of `ledger`. -/
  ledger : List DbLedgerEntry
  /-- Those of `supply_changes`. -/
  supplyChanges : List DbSupplyChange
  /-- Those of `balance_changes`. -/
  balanceChanges : List BalanceRow
  deriving DecidableEq

/-- No rows. -/
def BlockRows.none : BlockRows := ⟨[], [], [], []⟩

/-- The rows of a height, without the row that the migrations insert. -/
def rowsAt (height : Nat) (db : Db) : BlockRows where
  runes := db.runes.filter fun r => r.blockHeight = height ∧ r ≠ uncommonGoods
  ledger := db.ledger.filter fun e => e.blockHeight = height
  supplyChanges := db.supplyChanges.filter fun r => r.blockHeight = height
  balanceChanges := db.balanceChanges.filter fun r => r.blockHeight = height

/-! ## Rolling back -/

theorem rowsAt_rollBack_self (height : Nat) (db : Db) :
    rowsAt height (pgRollBackBlock height db) = .none := by
  have hruns : ∀ {α : Type} (l : List α) (at' : α → Nat) (q : α → Bool),
      (l.filter fun r => at' r ≠ height).filter (fun r => decide (at' r = height) && q r) = [] := by
    intro α l at' q
    rw [List.filter_eq_nil_iff]
    intro r hr hp
    rw [Bool.and_eq_true, decide_eq_true_iff] at hp
    exact of_decide_eq_true (List.mem_filter.mp hr).2 hp.1
  have hruns' : ∀ {α : Type} (l : List α) (at' : α → Nat),
      (l.filter fun r => at' r ≠ height).filter (fun r => at' r = height) = [] := by
    intro α l at'
    simp
  simp only [rowsAt, pgRollBackBlock, hruns', BlockRows.none, Bool.decide_and, hruns]

theorem rowsAt_rollBack_ne {height k : Nat} (h : k ≠ height) (db : Db) :
    rowsAt k (pgRollBackBlock height db) = rowsAt k db := by
  have hruns : ∀ {α : Type} (l : List α) (at' : α → Nat) (q : α → Prop) [DecidablePred q],
      (l.filter fun r => at' r ≠ height).filter (fun r => at' r = k ∧ q r) =
        l.filter fun r => at' r = k ∧ q r := by
    intro α l at' q _
    rw [List.filter_filter]
    refine List.filter_congr fun r _ => ?_
    by_cases hk : at' r = k
    · simp [hk, h]
    · simp [hk]
  have hruns' : ∀ {α : Type} (l : List α) (at' : α → Nat),
      (l.filter fun r => at' r ≠ height).filter (fun r => at' r = k) =
        l.filter fun r => at' r = k := by
    intro α l at'
    simpa using hruns l at' fun _ => True
  simp only [rowsAt, pgRollBackBlock, hruns', hruns]

/-! ## Indexing -/

/-- The rows of the four tables whose height is in a set. -/
def Db.rowsWhere (p : Nat → Bool) (db : Db) : BlockRows where
  runes := db.runes.filter fun r => p r.blockHeight
  ledger := db.ledger.filter fun e => p e.blockHeight
  supplyChanges := db.supplyChanges.filter fun r => p r.blockHeight
  balanceChanges := db.balanceChanges.filter fun r => p r.blockHeight

theorem rowsAt_eq_rowsWhere (height : Nat) (db : Db) :
    rowsAt height db = { db.rowsWhere (· = height) with
      runes := (db.rowsWhere (· = height)).runes.filter fun r => r ≠ uncommonGoods } := by
  simp only [rowsAt, Db.rowsWhere, List.filter_filter, Bool.decide_and, Bool.and_comm]

/-- Everything that waits in memory is of one height. -/
structure PendingAt (h : Nat) (dbCache : DbCache) : Prop where
  /-- The runes are. -/
  runes : ∀ r ∈ dbCache.runes, r.blockHeight = h
  /-- So are all other rows. -/
  rows : dbCache.AllRows fun _ k => k = h

theorem PendingAt.new (h : Nat) : PendingAt h .new := ⟨fun _ hr => absurd hr List.not_mem_nil, .new⟩

/-- Rows inserted off a set of heights leave the rows at the heights of the set. -/
theorem filter_foldlM_insertRune {h : Nat} {p : Nat → Bool} (hp : p h = false)
    {rows runes runes' : List DbRune} (hrows : ∀ r ∈ rows, r.blockHeight = h)
    (hrun : rows.foldlM insertRune runes = some runes') :
    runes'.filter (fun r => p r.blockHeight) = runes.filter fun r => p r.blockHeight := by
  refine foldlM_induction_split (P := fun _ now => now.filter (fun r => p r.blockHeight) =
    runes.filter fun r => p r.blockHeight) rfl ?_ hrun
  intro done row rest now now' hsplit hP hstep
  have hrow : row.blockHeight = h := hrows row (hsplit ▸ List.mem_append_right _ List.mem_cons_self)
  rw [insertRune] at hstep
  split at hstep
  · rw [← Option.some.inj hstep]
    exact hP
  · split at hstep
    · cases hstep
    · rw [← Option.some.inj hstep, List.filter_append, hP, List.filter_cons_of_neg, List.filter_nil,
        List.append_nil]
      simp [hrow, hp]

/-- A flush leaves the rows off the height that waits. -/
theorem PendingAt.rowsWhere_flush {h : Nat} {p : Nat → Bool} (hp : p h = false)
    {dbCache : DbCache} {db db' : Db} (hpending : PendingAt h dbCache)
    (hflush : dbCache.flush db = some db') :
    db'.rowsWhere p = db.rowsWhere p := by
  obtain ⟨runes, hrunes, rfl⟩ := DbCache.flush_eq_some.mp hflush
  -- the balance changes have the height of the block, which the predicate excludes
  have hbalance : ∀ (increase : Bool) (changes : HashMap (RuneId × Address) DbBalanceChange)
      (rows : List BalanceRow), (∀ o c, changes.lookup o = some c → c.blockHeight = h) →
      ((chunks 500 changes.values).foldl (mergeStatement BalanceRow.owner BalanceRow.blockHeight
        DbBalanceChange.owner (mergeBalance increase)) rows).filter (fun r => p r.blockHeight) =
          rows.filter fun r => p r.blockHeight := by
    intro increase changes rows hchanges
    refine filter_foldl_mergeStatement fun batch hb c hc prev => ?_
    have hmem : c ∈ changes.values := by
      rw [← flatten_chunks 500 changes.values]
      exact List.mem_flatten_of_mem hb hc
    obtain ⟨o, ho⟩ := HashMap.mem_values_iff.mp hmem
    exact (congrArg p (hchanges o c ho)).trans hp
  -- so do the supply changes
  have hsupply :
      ((chunks 500 dbCache.supplyChanges.values).foldl (mergeStatement DbSupplyChange.runeId
        DbSupplyChange.blockHeight DbSupplyChange.runeId mergeSupply) db.supplyChanges).filter
        (fun r => p r.blockHeight) = db.supplyChanges.filter fun r => p r.blockHeight := by
    refine filter_foldl_mergeStatement fun batch hb c hc prev => ?_
    have hmem : c ∈ dbCache.supplyChanges.values := by
      rw [← flatten_chunks 500 dbCache.supplyChanges.values]
      exact List.mem_flatten_of_mem hb hc
    obtain ⟨id, hid⟩ := HashMap.mem_values_iff.mp hmem
    exact (congrArg p (hpending.rows.supplyChanges id c hid)).trans hp
  -- and the entries
  have hledger : (db.ledger ++ dbCache.ledgerEntries).filter (fun e => p e.blockHeight) =
      db.ledger.filter fun e => p e.blockHeight := by
    have hnone : dbCache.ledgerEntries.filter (fun e => p e.blockHeight) = [] := by
      rw [List.filter_eq_nil_iff]
      intro e he hek
      rw [hpending.rows.ledgerEntries e he, hp] at hek
      cases hek
    rw [List.filter_append, hnone, List.append_nil]
  simp only [Db.rowsWhere, pgInsertBalanceChanges, pgInsertSupplyChanges, BlockRows.mk.injEq]
  exact ⟨filter_foldlM_insertRune hp hpending.runes hrunes, hledger, hsupply,
    (hbalance false _ _ hpending.rows.balanceDeductions).trans
      (hbalance true _ _ hpending.rows.balanceIncreases)⟩

/-- Writing at one height leaves the rows off that height. -/
theorem Session.Writes.rowsWhere_eq {h : Nat} {s s' : Session} {es : List DbLedgerEntry}
    {rs : List DbRune} (hwrites : s.Writes es rs s') :
    PendingAt h s.cache.dbCache → (∀ e ∈ es, e.blockHeight = h) → (∀ r ∈ rs, r.blockHeight = h) →
      PendingAt h s'.cache.dbCache ∧ ∀ p, p h = false → s'.db.rowsWhere p = s.db.rowsWhere p := by
  induction hwrites with
  -- by induction on what was written: only a flush touches the tables
  | quiet hq =>
    intro hpending _ _
    exact ⟨hq.dbCache ▸ hpending, fun p _ => by rw [hq.db]⟩
  | flush hflush =>
    intro hpending _ _
    obtain ⟨db, hdb, rfl⟩ := Session.flush_eq_some.mp hflush
    exact ⟨.new h, fun p hp => hpending.rowsWhere_flush hp hdb⟩
  | pushRune s rune =>
    intro hpending _ hrs
    refine ⟨⟨?_, ⟨hpending.rows.1, hpending.rows.2, hpending.rows.3, hpending.rows.4⟩⟩,
      fun _ _ => rfl⟩
    intro r hr
    rcases List.mem_append.mp hr with hr | hr
    · exact hpending.runes r hr
    · exact hrs r hr
  | @add s s' es hadd =>
    intro hpending hes _
    obtain ⟨-, rfl⟩ := Session.addLedgerEntriesToDbCache_eq_some.mp hadd
    refine ⟨⟨?_, hpending.rows.add hes⟩, fun _ _ => rfl⟩
    intro r hr
    rw [foldl_count_runes] at hr
    exact hpending.runes r hr
  | trans _ _ ih ih' =>
    intro hpending hes hrs
    obtain ⟨hpt, hrows⟩ := ih hpending (fun e he => hes e (List.mem_append_left _ he))
      fun r hr => hrs r (List.mem_append_left _ hr)
    obtain ⟨hpu, hrows'⟩ := ih' hpt (fun e he => hes e (List.mem_append_right _ he))
      fun r hr => hrs r (List.mem_append_right _ hr)
    exact ⟨hpu, fun p hp => (hrows' p hp).trans (hrows p hp)⟩

/-- **Indexing a block leaves the rows off its own height**, and leaves nothing waiting. -/
theorem rowsWhere_indexBlock {env : Environment} {block : Block} {s s' : Session}
    (hrest : s.cache.dbCache = .new) (hrun : indexBlock env block s = some s') :
    s'.cache.dbCache = .new ∧ ∀ p, p block.height = false →
    s'.db.rowsWhere p = s.db.rowsWhere p := by
  obtain ⟨t, htxs, hflush⟩ := indexBlock_eq_some.mp hrun
  obtain ⟨es, rs, hwrites, hat, -, hrunes⟩ := indexTransactions_writes htxs
  obtain ⟨hpt, hrows⟩ := hwrites.rowsWhere_eq (h := block.height) (hrest ▸ .new _)
    (fun e he => by obtain ⟨tx, -, hat⟩ := hat e he; exact hat.blockHeight)
    (fun r hr => by obtain ⟨tx, -, hat⟩ := hrunes r hr; exact hat.blockHeight)
  obtain ⟨db, hdb, rfl⟩ := Session.flush_eq_some.mp hflush
  refine ⟨rfl, fun p hp => ?_⟩
  have hclosing : PendingAt block.height (closing env block t).cache.dbCache := hpt
  have hheight : (closing env block t).db.rowsWhere p = t.db.rowsWhere p := rfl
  rw [← hrows p hp, ← hheight]
  exact hclosing.rowsWhere_flush hp hdb

/-- **Indexing a block changes the rows of its own height only**, and leaves nothing waiting. -/
theorem rowsAt_indexBlock {env : Environment} {block : Block} {s s' : Session}
    (hrest : s.cache.dbCache = .new) (hrun : indexBlock env block s = some s') :
    s'.cache.dbCache = .new ∧ ∀ k, k ≠ block.height → rowsAt k s'.db = rowsAt k s.db := by
  obtain ⟨hnew, hrows⟩ := rowsWhere_indexBlock hrest hrun
  refine ⟨hnew, fun k hk => ?_⟩
  rw [rowsAt_eq_rowsWhere, rowsAt_eq_rowsWhere, hrows _ (decide_eq_false (Ne.symm hk))]

/-! ## Undoing -/

/-- The four tables that a rollback deletes from. -/
def Db.tables (db : Db) : BlockRows := ⟨db.runes, db.ledger, db.supplyChanges, db.balanceChanges⟩

theorem tables_rollBack (height : Nat) (db : Db) :
    (pgRollBackBlock height db).tables = db.rowsWhere (· ≠ height) := rfl

/-- Leaving out a height leaves everything exactly when the height has no rows. -/
theorem rowsWhere_ne_eq_tables_iff (height : Nat) (db : Db) :
    db.rowsWhere (· ≠ height) = db.tables ↔ db.rowsWhere (· = height) = .none := by
  have hfilter : ∀ {α : Type} (l : List α) (at' : α → Nat),
      l.filter (fun r => at' r ≠ height) = l ↔ l.filter (fun r => at' r = height) = [] := by
    intro α l at'
    rw [List.filter_eq_self, List.filter_eq_nil_iff]
    simp
  simp only [Db.rowsWhere, Db.tables, BlockRows.none, BlockRows.mk.injEq, hfilter]

/-- A run that rolls nothing back and indexes no block of a height leaves the rows of the height as
the migrations have them. -/
theorem rowsWhere_of_forward {env : Environment} {events : List Event}
    {network : Network} {cap : Nat} {hcap : 0 < cap} {s₀ s : Session} {height : Nat}
    (hstart : freshSession network cap hcap = some s₀) (hrun : runEvents env events s₀ = some s)
    (hforward : ∀ e ∈ events, e.Forward)
    (hheights : ∀ b ∈ indexedBlocks events, b.height ≠ height) :
    s.cache.dbCache = .new ∧ s.db.rowsWhere (· = height) = Db.migrated.rowsWhere (· = height) := by
  obtain ⟨hempty, hdb⟩ := freshSession_eq_some hstart
  have hind := foldlM_induction_split (P := fun _ t => t.cache.dbCache = .new ∧
    t.db.rowsWhere (· = height) = Db.migrated.rowsWhere (· = height)) ?_ ?_ hrun
  · exact hind
  · exact ⟨hempty.dbCache, by rw [hdb]⟩
  · rintro done e rest t t' hsplit ⟨hrest, hrows⟩ hstep
    -- no block of the height is indexed, so its rows stay those of the migration
    have hmem : e ∈ events := hsplit ▸ List.mem_append_right _ List.mem_cons_self
    cases e with
    | index block =>
      have hne : block.height ≠ height := hheights block (List.mem_filterMap.mpr ⟨_, hmem, rfl⟩)
      obtain ⟨hnew, hkept⟩ := rowsWhere_indexBlock hrest hstep
      exact ⟨hnew, (hkept _ (decide_eq_false hne)).trans hrows⟩
    | rollBack k => exact absurd (hforward _ hmem) id
    | restart cap hcap =>
      obtain ⟨cache, hcache, rfl⟩ := restart_eq_some hstep
      exact ⟨(IndexCache.new_empty hcache).dbCache, hrows⟩

/-- **Rolling back a block that was just indexed restores the tables exactly when its height is not
the one that the migrations give to UNCOMMON•GOODS.** -/
theorem rollBack_index_eq_iff {env : Environment} {events : List Event}
    {network : Network} {cap : Nat} {hcap : 0 < cap} {s₀ s s' : Session} {block : Block}
    (hstart : freshSession network cap hcap = some s₀) (hforward : ∀ e ∈ events, e.Forward)
    (hbelow : ∀ b ∈ indexedBlocks events, b.height < block.height)
    (hrun : runEvents env events s₀ = some s) (hindex : indexBlock env block s = some s') :
    (rollBackBlock block.height s').db.tables = s.db.tables ↔ block.height ≠ 840000 := by
  obtain ⟨hrest, hrows⟩ := rowsWhere_of_forward hstart hrun hforward fun b hb => (hbelow b hb).ne
  obtain ⟨-, hkept⟩ := rowsWhere_indexBlock hrest hindex
  have hrolled : (rollBackBlock block.height s').db.tables = s.db.rowsWhere (· ≠ block.height) :=
    (tables_rollBack _ _).trans (hkept _ (decide_eq_false fun hne => hne rfl))
  rw [hrolled, rowsWhere_ne_eq_tables_iff, hrows]
  -- the rows of the migrations at the height of the block
  simp only [Db.rowsWhere, Db.migrated, BlockRows.none, List.filter_nil,
    BlockRows.mk.injEq, and_true]
  by_cases heq : block.height = 840000
  · rw [heq]
    decide
  · simp [uncommonGoods, Ne.symm heq, heq]

/-- The theorem on `spendBlock`, indexed after `mintBlock`. -/
theorem rollBack_index_eq_spendBlock : ∃ s₀ s s', freshSession .bitcoin 2 (by decide) = some s₀ ∧
    runEvents mintEnv mintAndRestart s₀ = some s ∧ indexBlock mintEnv spendBlock s = some s' ∧
      (rollBackBlock 840002 s').db.tables = s.db.tables := by
  have hruns : ((freshSession .bitcoin 2 (by decide)).bind fun s₀ =>
      (runEvents mintEnv mintAndRestart s₀).bind (indexBlock mintEnv spendBlock)).isSome := by
    decide +kernel
  obtain ⟨s', hs'⟩ := Option.isSome_iff_exists.mp hruns
  obtain ⟨s₀, hstart, hs'⟩ := Option.bind_eq_some_iff.mp hs'
  obtain ⟨s, hrun, hindex⟩ := Option.bind_eq_some_iff.mp hs'
  have hforward : ∀ e ∈ mintAndRestart, e.Forward := by simp [mintAndRestart, Event.Forward]
  exact ⟨s₀, s, s', hstart, hrun, hindex,
    (rollBack_index_eq_iff hstart hforward (by decide) hrun hindex).mpr (by decide)⟩

/-- The block of the rune genesis. -/
def genesisBlock : Block := ⟨"0xb0", 840000, 1700000000, []⟩

/-- Rolling back the block of the rune genesis deletes UNCOMMON•GOODS too. -/
theorem exists_rollBack_index_ne : ∃ env events network cap hcap s₀ s s' block,
    freshSession network cap hcap = some s₀ ∧ (∀ e ∈ events, Event.Forward e) ∧
      (∀ b ∈ indexedBlocks events, b.height < block.height) ∧
      (getRuneGenesisBlockHeight network).any (fun genesis => genesis ≤ block.height) ∧
      runEvents env events s₀ = some s ∧ indexBlock env block s = some s' ∧
      (rollBackBlock block.height s').db.tables ≠ s.db.tables := by
  have hruns : ((freshSession .bitcoin 2 (by decide)).bind fun s₀ =>
      (indexBlock mintEnv genesisBlock s₀).map fun s' => (s₀, s')).any fun p =>
        (rollBackBlock 840000 p.2).db.tables ≠ p.1.db.tables := by
    decide +kernel
  obtain ⟨⟨s₀, s'⟩, hs, hne⟩ := (Option.any_eq_true _ _).mp hruns
  obtain ⟨t, hstart, hs⟩ := Option.bind_eq_some_iff.mp hs
  obtain ⟨u, hindex, hp⟩ := Option.map_eq_some_iff.mp hs
  obtain ⟨rfl, rfl⟩ := Prod.mk.inj hp
  exact ⟨mintEnv, [], .bitcoin, 2, by decide, t, t, u, genesisBlock, hstart,
    fun e he => absurd he List.not_mem_nil, fun b hb =>
    absurd hb List.not_mem_nil, by decide, rfl, hindex, of_decide_eq_true hne⟩

end Runehook
