import Runehook.Tables

/-! # What all rows have in common

A property of the rune and the height of a row that every entry written has is one that every row
has, whether it waits in memory or is in a table (`Session.AllRows`, `Session.AllRows.writes`). -/

namespace Runehook

open Lib

/-- Every row that waits in memory, runes apart, is about a rune and a height with a property. -/
structure DbCache.AllRows (P : RuneId → Nat → Prop) (dbCache : DbCache) : Prop where
  /-- The entries. -/
  ledgerEntries : ∀ e ∈ dbCache.ledgerEntries, P e.runeId e.blockHeight
  /-- The supply changes. -/
  supplyChanges : ∀ id c, dbCache.supplyChanges.lookup id = some c → P c.runeId c.blockHeight
  /-- The increases of balances. -/
  balanceIncreases : ∀ o c, dbCache.balanceIncreases.lookup o = some c → P c.runeId c.blockHeight
  /-- The deductions of balances. -/
  balanceDeductions : ∀ o c, dbCache.balanceDeductions.lookup o = some c → P c.runeId c.blockHeight

/-- Every row of the tables, runes apart, is about a rune and a height with a property. -/
structure Db.AllRows (P : RuneId → Nat → Prop) (db : Db) : Prop where
  /-- Those of `ledger`. -/
  ledger : ∀ e ∈ db.ledger, P e.runeId e.blockHeight
  /-- Those of `supply_changes`. -/
  supplyChanges : ∀ r ∈ db.supplyChanges, P r.runeId r.blockHeight
  /-- Those of `balance_changes`. -/
  balanceChanges : ∀ r ∈ db.balanceChanges, P r.runeId r.blockHeight

variable {P : RuneId → Nat → Prop}

theorem DbCache.AllRows.new : DbCache.AllRows P .new where
  ledgerEntries _ he := absurd he List.not_mem_nil
  supplyChanges id c hc := by
    rw [DbCache.new, HashMap.lookup_empty] at hc
    cases hc
  balanceIncreases o c hc := by
    rw [DbCache.new, HashMap.lookup_empty] at hc
    cases hc
  balanceDeductions o c hc := by
    rw [DbCache.new, HashMap.lookup_empty] at hc
    cases hc

theorem Db.AllRows.migrated : Db.AllRows P .migrated where
  ledger _ he := absurd he List.not_mem_nil
  supplyChanges _ hr := absurd hr List.not_mem_nil
  balanceChanges _ hr := absurd hr List.not_mem_nil

/-- Counting an entry in the changes of one direction. -/
theorem countDirection_all {operation : DbLedgerOperation}
    {changes : HashMap (RuneId × Address) DbBalanceChange} {e : DbLedgerEntry}
    (hchanges : ∀ o c, changes.lookup o = some c → P c.runeId c.blockHeight)
    (he : P e.runeId e.blockHeight) :
    ∀ o c, (countDirection operation changes e).lookup o = some c → P c.runeId c.blockHeight := by
  intro o c hc
  rw [lookup_countDirection] at hc
  split at hc
  · next hat =>
    obtain ⟨a, -, rfl⟩ := Option.map_eq_some_iff.mp hat.2
    rw [← Option.some.inj hc]
    cases hlookup : changes.lookup (e.runeId, a) with
    | none => exact he
    | some i => exact hchanges _ i hlookup
  · exact hchanges o c hc

theorem DbCache.AllRows.count {dbCache : DbCache} {e : DbLedgerEntry} (h : dbCache.AllRows P)
    (he : P e.runeId e.blockHeight) : (dbCache.count e).AllRows P where
  ledgerEntries := h.ledgerEntries
  supplyChanges := by
    intro id c hc
    have hc : (countSupply dbCache.supplyChanges e).lookup id = some c := hc
    rw [countSupply_eq_alter, HashMap.lookup_alter] at hc
    split at hc
    · rw [← Option.some.inj hc]
      cases hlookup : dbCache.supplyChanges.lookup e.runeId with
      | none => exact he
      | some i =>
        show P i.runeId i.blockHeight
        exact h.supplyChanges _ _ hlookup
    · exact h.supplyChanges id c hc
  balanceIncreases := countDirection_all h.balanceIncreases he
  balanceDeductions := countDirection_all h.balanceDeductions he

/-- Adding entries. -/
theorem DbCache.AllRows.add {dbCache : DbCache} {es : List DbLedgerEntry} (h : dbCache.AllRows P)
    (hes : ∀ e ∈ es, P e.runeId e.blockHeight) :
    (es.foldl DbCache.count { dbCache with ledgerEntries := dbCache.ledgerEntries ++ es }).AllRows
    P := by
  -- the counters are touched one entry at a time
  have hcount : ∀ (es : List DbLedgerEntry) (c : DbCache), (∀ e ∈ es, P e.runeId e.blockHeight) →
      c.AllRows P → (es.foldl DbCache.count c).AllRows P := by
    intro es
    induction es with
    | nil => exact fun c _ hc => hc
    | cons e es ih =>
      intro c hes hc
      exact ih _ (fun e' he' => hes e' (List.mem_cons_of_mem _ he'))
        (hc.count (hes e List.mem_cons_self))
  refine hcount es _ hes ⟨?_, h.supplyChanges, h.balanceIncreases, h.balanceDeductions⟩
  intro e he
  rcases List.mem_append.mp he with he | he
  · exact h.ledgerEntries e he
  · exact hes e he

/-- The rows that a flush inserts have the property of what waited. -/
theorem Db.AllRows.flush {dbCache : DbCache} {db db' : Db} (h : db.AllRows P)
    (hwaiting : dbCache.AllRows P) (hflush : dbCache.flush db = some db') : db'.AllRows P := by
  obtain ⟨hsupply, hbalance⟩ := DbCache.flush_tables hflush
  -- a row of a balance table after a pass is a row before it, or merged from a change
  have hpass :
      ∀ (increase : Bool) (changes : HashMap (RuneId × Address) DbBalanceChange)
      (rows : List BalanceRow), (∀ o c, changes.lookup o = some c → P c.runeId c.blockHeight) →
      (∀ r ∈ rows, P r.runeId r.blockHeight) →
      ∀ r ∈
        (chunks 500 changes.values).foldl (mergeStatement BalanceRow.owner BalanceRow.blockHeight
          DbBalanceChange.owner (mergeBalance increase)) rows, P r.runeId r.blockHeight := by
    intro increase changes rows hchanges hrows r hr
    rcases mem_foldl_mergeStatement hr with hr | ⟨batch, hbatch, c, hc, p, rfl⟩
    · exact hrows r hr
    · obtain ⟨o, ho⟩ := HashMap.mem_values_iff.mp
        (flatten_chunks 500 changes.values ▸ List.mem_flatten_of_mem hbatch hc)
      exact hchanges o c ho
  refine ⟨?_, ?_, ?_⟩
  · rw [DbCache.flush_ledger hflush]
    intro e he
    rcases List.mem_append.mp he with he | he
    · exact h.ledger e he
    · exact hwaiting.ledgerEntries e he
  · rw [hsupply]
    intro r hr
    rcases mem_foldl_mergeStatement hr with hr | ⟨batch, hbatch, c, hc, p, rfl⟩
    · exact h.supplyChanges r hr
    · obtain ⟨id, hid⟩ := HashMap.mem_values_iff.mp
        (flatten_chunks 500 dbCache.supplyChanges.values ▸ List.mem_flatten_of_mem hbatch hc)
      exact hwaiting.supplyChanges id c hid
  · rw [hbalance]
    exact hpass false _ _ hwaiting.balanceDeductions
      (hpass true _ _ hwaiting.balanceIncreases h.balanceChanges)

/-- Rows stay when others are deleted. -/
theorem Db.AllRows.rollBack {db : Db} (h : db.AllRows P) (height : Nat) :
    (pgRollBackBlock height db).AllRows P where
  ledger e he := h.ledger e (List.mem_of_mem_filter he)
  supplyChanges r hr := h.supplyChanges r (List.mem_of_mem_filter hr)
  balanceChanges r hr := h.balanceChanges r (List.mem_of_mem_filter hr)

/-- Every row of a session, runes apart, has a property. -/
structure Session.AllRows (P : RuneId → Nat → Prop) (s : Session) : Prop where
  /-- Those in memory. -/
  waiting : s.cache.dbCache.AllRows P
  /-- Those of the tables. -/
  stored : s.db.AllRows P

/-- **Writing entries with a property** gives rows with the property. -/
theorem Session.AllRows.writes {s s' : Session} {es : List DbLedgerEntry} {rs : List DbRune}
    (hwrites : s.Writes es rs s') :
    s.AllRows P → (∀ e ∈ es, P e.runeId e.blockHeight) → s'.AllRows P := by
  induction hwrites with
  | quiet hq => exact fun h _ => ⟨hq.dbCache ▸ h.waiting, hq.db ▸ h.stored⟩
  | flush hflush =>
    intro h _
    obtain ⟨db, hdb, rfl⟩ := Session.flush_eq_some.mp hflush
    exact ⟨.new, h.stored.flush h.waiting hdb⟩
  | pushRune s rune =>
    exact fun h _ => ⟨⟨h.waiting.ledgerEntries, h.waiting.supplyChanges, h.waiting.balanceIncreases,
      h.waiting.balanceDeductions⟩, h.stored⟩
  | add hadd =>
    intro h hes
    obtain ⟨-, rfl⟩ := Session.addLedgerEntriesToDbCache_eq_some.mp hadd
    exact ⟨h.waiting.add hes, h.stored⟩
  | trans _ _ ih ih' =>
    intro h hes
    exact ih' (ih h fun e he => hes e (List.mem_append_left _ he)) fun e he =>
      hes e (List.mem_append_right _ he)

end Runehook
