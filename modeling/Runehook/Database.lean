import Runehook.Environment
import Runehook.Lib.Cumulative
import Runehook.Lib.HashMap

/-! # The database

The tables written by the indexer (`Db`) and the `pg_*` functions of `db/mod.rs` as functions on
them. `NUMERIC` columns are unbounded, so the additions of the SQL statements are exact. A statement
that violates a unique constraint makes the process exit: it is `none`. -/

namespace Runehook

open Lib

/-- The tables of the migrations `V1` to `V5`. -/
structure Db where
  /-- `runes`. -/
  runes : List DbRune
  /-- `ledger`. -/
  ledger : List DbLedgerEntry
  /-- `supply_changes`. -/
  supplyChanges : List DbSupplyChange
  /-- `balance_changes`. -/
  balanceChanges : List BalanceRow
  /-- The single row of `block_height`. -/
  lastScannedHeight : Nat

/-- The row that the migration `V1` inserts: UNCOMMON•GOODS. -/
def uncommonGoods : DbRune where
  id := ⟨1, 0⟩
  number := 0
  name := "UNCOMMONGOODS"
  spacedName := "UNCOMMON•GOODS"
  blockHash := "0000000000000000000320283a032748cef8227873ff4872689bf23f1cda83a5"
  blockHeight := 840000
  txIndex := 0
  txId := ""
  divisibility := 0
  premine := 0
  symbol := "⧉"
  termsAmount := some 1
  termsCap := some 340282366920938463463374607431768211455
  termsHeightStart := some 840000
  termsHeightEnd := some 1050000
  termsOffsetStart := none
  termsOffsetEnd := none
  turbo := false
  cenotaph := false
  timestamp := 0

/-- The tables after `pg_run_migrations`. -/
def Db.migrated : Db := ⟨[uncommonGoods], [], [], [], 0⟩

/-! ## Runes -/

/-- One row of the statement of `pg_insert_runes`. A name that is taken makes the row vanish
(`ON CONFLICT (name) DO NOTHING`), any other taken unique column is an error. The statement does not
name the column `cenotaph`, which therefore takes its default. -/
def insertRune (runes : List DbRune) (row : DbRune) : Option (List DbRune) :=
  if runes.any fun r => r.name = row.name then some runes
  else if runes.any fun r => r.id = row.id ∨ r.number = row.number ∨
    r.spacedName = row.spacedName then
    none
  else some (runes ++ [{ row with cenotaph := false }])

/-- `pg_insert_runes`. -/
def pgInsertRunes (rows : List DbRune) (db : Db) : Option Db := do
  let runes ← (chunks 500 rows).foldlM (fun runes chunk => chunk.foldlM insertRune runes) db.runes
  return { db with runes := runes }

/-- `pg_get_max_rune_number`: `MAX` of no rows is `NULL`, which the `u32` cannot be read from. -/
def pgGetMaxRuneNumber (db : Db) : Option Nat := (db.runes.map DbRune.number).max?

/-- `pg_get_rune_by_id`. -/
def pgGetRuneById (id : RuneId) (db : Db) : Option DbRune := db.runes.find? fun r => r.id = id

/-! ## Supply changes -/

/-- The row the statement of `pg_insert_supply_changes` computes for a change, from the latest row
of the rune. -/
def mergeSupply (previous : Option DbSupplyChange) (c : DbSupplyChange) : DbSupplyChange where
  runeId := c.runeId
  blockHeight := c.blockHeight
  minted := (previous.map DbSupplyChange.minted).getD 0 + c.minted
  totalMints := (previous.map DbSupplyChange.totalMints).getD 0 + c.totalMints
  burned := (previous.map DbSupplyChange.burned).getD 0 + c.burned
  totalBurns := (previous.map DbSupplyChange.totalBurns).getD 0 + c.totalBurns
  totalOperations := (previous.map DbSupplyChange.totalOperations).getD 0 + c.totalOperations

/-- `pg_insert_supply_changes`. -/
def pgInsertSupplyChanges (rows : List DbSupplyChange) (db : Db) : Db :=
  { db with
    supplyChanges := (chunks 500 rows).foldl
      (mergeStatement DbSupplyChange.runeId DbSupplyChange.blockHeight
        DbSupplyChange.runeId mergeSupply) db.supplyChanges }

/-- The latest row of a rune in `supply_changes`. -/
def Db.latestSupply (db : Db) (id : RuneId) : Option DbSupplyChange :=
  latest DbSupplyChange.runeId DbSupplyChange.blockHeight id db.supplyChanges

/-- `pg_get_rune_total_mints`. -/
def pgGetRuneTotalMints (id : RuneId) (db : Db) : Option Nat :=
  (db.latestSupply id).map DbSupplyChange.totalMints

/-! ## Balance changes -/

/-- The group of a balance row: a rune and an address. -/
def BalanceRow.owner (r : BalanceRow) : RuneId × Address := (r.runeId, r.address)

/-- The group of a balance change. -/
def DbBalanceChange.owner (c : DbBalanceChange) : RuneId × Address := (c.runeId, c.address)

/-- The row the statement of `pg_insert_balance_changes` computes for a change, from the latest row
of the rune and the address. -/
def mergeBalance (increase : Bool) (previous : Option BalanceRow) (c : DbBalanceChange) :
    BalanceRow where
  runeId := c.runeId
  blockHeight := c.blockHeight
  address := c.address
  balance := (previous.map BalanceRow.balance).getD 0 +
    (if increase then (c.balance : Int) else -(c.balance : Int))
  totalOperations := (previous.map BalanceRow.totalOperations).getD 0 + c.totalOperations

/-- `pg_insert_balance_changes`. -/
def pgInsertBalanceChanges (rows : List DbBalanceChange) (increase : Bool) (db : Db) : Db :=
  { db with
    balanceChanges := (chunks 500 rows).foldl
      (mergeStatement BalanceRow.owner BalanceRow.blockHeight DbBalanceChange.owner
        (mergeBalance increase)) db.balanceChanges }

/-! ## The ledger -/

/-- `pg_insert_ledger_entries`. -/
def pgInsertLedgerEntries (rows : List DbLedgerEntry) (db : Db) : Db :=
  { db with ledger := (chunks 500 rows).foldl (fun ledger chunk => ledger ++ chunk) db.ledger }

/-- The balance that a `receive` row credits. -/
def DbLedgerEntry.balance (e : DbLedgerEntry) : InputRuneBalance := ⟨e.address, e.amount.getD 0⟩

/-- Push a balance of a rune into a map of balances. -/
def pushBalance (m : HashMap RuneId (List InputRuneBalance)) (id : RuneId) (b : InputRuneBalance) :
    HashMap RuneId (List InputRuneBalance) :=
  m.alter id fun
    | some bs => bs ++ [b]
    | none => [b]

/-- The row the query of `pg_get_input_rune_balances` makes of a ledger row and an output: a
`receive` row of the output goes with the index of the input that spends it. -/
def joinInput (l : DbLedgerEntry) (output : Nat × String × Nat) : Option (Nat × DbLedgerEntry) :=
  if l.txId = output.2.1 ∧ l.output = some output.2.2 ∧
    l.operation = .receive then some (output.1, l)
  else none

/-- The number of parameters that the protocol of Postgres has room for. -/
def bindLimit : Nat := 65535

/-- The rows the query of `pg_get_input_rune_balances` returns for the outputs
`(vin, tx_id, vout)`. -/
def inputBalanceRows (env : Environment) (outputs : List (Nat × String × Nat)) (db : Db) :
    List (Nat × DbLedgerEntry) :=
  env.rowOrder (db.ledger.flatMap fun l => outputs.filterMap (joinInput l))

/-- Push the balance of a row of the query into the results. -/
def pushRow (results : HashMap Nat (HashMap RuneId (List InputRuneBalance)))
    (row : Nat × DbLedgerEntry) :
    HashMap Nat (HashMap RuneId (List InputRuneBalance)) :=
  results.alter row.1 fun input => pushBalance (input.getD ∅) row.2.runeId row.2.balance

/-- `pg_get_input_rune_balances`: the balances of the outputs, by `vin` and by rune. -/
def pgGetInputRuneBalances (env : Environment) (outputs : List (Nat × String × Nat)) (db : Db) :
    HashMap Nat (HashMap RuneId (List InputRuneBalance)) :=
  (inputBalanceRows env outputs db).foldl pushRow ∅

/-! ## Heights -/

/-- `pg_update_block_height`. -/
def pgUpdateBlockHeight (height : Nat) (db : Db) : Db := { db with lastScannedHeight := height }

/-- `pg_roll_back_block`. -/
def pgRollBackBlock (height : Nat) (db : Db) : Db :=
  { db with
    balanceChanges := db.balanceChanges.filter fun r => r.blockHeight ≠ height
    supplyChanges := db.supplyChanges.filter fun r => r.blockHeight ≠ height
    ledger := db.ledger.filter fun e => e.blockHeight ≠ height
    runes := db.runes.filter fun r => r.blockHeight ≠ height }

/-! ## What the statements do, without their batches -/

theorem pgInsertRunes_eq_some {rows : List DbRune} {db db' : Db} :
    pgInsertRunes rows db = some db' ↔
      ∃ runes, rows.foldlM insertRune db.runes = some runes ∧ db' = { db with runes := runes } := by
  rw [pgInsertRunes, foldlM_chunks]
  constructor
  · intro h
    obtain ⟨runes, hrunes, hdb⟩ := Option.bind_eq_some_iff.mp h
    exact ⟨runes, hrunes, (Option.some.inj hdb).symm⟩
  · rintro ⟨runes, hrunes, rfl⟩
    exact Option.bind_eq_some_iff.mpr ⟨runes, hrunes, rfl⟩

@[simp] theorem pgInsertLedgerEntries_eq (rows : List DbLedgerEntry) (db : Db) :
    pgInsertLedgerEntries rows db = { db with ledger := db.ledger ++ rows } := by
  have h : ∀ (cs : List (List DbLedgerEntry)) (l : List DbLedgerEntry),
      cs.foldl (fun ledger chunk => ledger ++ chunk) l = l ++ cs.flatten := by
    intro cs
    induction cs with
    | nil => exact fun l => (List.append_nil l).symm
    | cons c cs ih =>
      intro l
      rw [List.foldl_cons, ih, List.flatten_cons, List.append_assoc]
  rw [pgInsertLedgerEntries, h, flatten_chunks]

/-- The group of a merged supply row is the group of the change. -/
theorem mergeSupply_runeId (p : Option DbSupplyChange) (c : DbSupplyChange) :
    (mergeSupply p c).runeId = c.runeId := rfl

/-- The group of a merged balance row is the group of the change. -/
theorem mergeBalance_owner (increase : Bool) (p : Option BalanceRow) (c : DbBalanceChange) :
    (mergeBalance increase p c).owner = c.owner := rfl

end Runehook
