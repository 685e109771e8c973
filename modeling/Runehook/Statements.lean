import Runehook.Database
import Runehook.Lib.Parameters
import Runehook.Mempool

/-! # The texts of the batch statements

The statements that insert rows, and those that look up or delete by a list of keys, are texts that
the program puts together itself: a list of placeholders, built row by row, between two fixed
pieces, and the list of what is bound to them (`Statement`). `WellFormed` says that the statements
for some rows are what the server accepts and mean these rows, and `Batch.wellFormed_iff` when they
are. -/

namespace Runehook

open Lib

/-! ## Statements -/

/-- A value as `ToSql` sends it. A rune id is sent as its text. -/
inductive PgValue where
  | null
  | text (value : String)
  | runeId (value : RuneId)
  | bigint (value : Nat)
  | numeric (value : Nat)
  | smallint (value : Nat)
  | boolean (value : Bool)
  | operation (value : DbLedgerOperation)
  deriving DecidableEq, Repr

/-- A column that may be missing. -/
def PgValue.ofOption {α : Type} (toSql : α → PgValue) (value : Option α) : PgValue :=
  (value.map toSql).getD .null

/-- The values of a row, under the names of their columns. -/
abbrev Fields : Type := List (String × PgValue)

/-- What the list of placeholders is for. -/
inductive ListForm where
  /-- The tuples of `VALUES`. -/
  | values
  /-- The items of `IN`, whose parentheses are in the fixed pieces. -/
  | inList
  deriving DecidableEq, Repr

/-- A statement: the fixed pieces of its text, the list that is built between them, and what is
bound. -/
structure Statement where
  /-- How the list is written. -/
  form : ListForm
  /-- The text in front of the list. -/
  head : String
  /-- The list. -/
  args : String
  /-- The text behind it. -/
  tail : String
  /-- The values that are bound. -/
  params : List PgValue
  deriving DecidableEq, Repr

namespace Statement

def text (st : Statement) : String := st.head ++ st.args ++ st.tail

/-- The placeholders of the whole text. -/
def placeholders (st : Statement) : List Nat := parameters st.text.toList

/-- The names in the first parentheses of a text. -/
def listedColumns (text : String) : List String :=
  ((((text.toList.dropWhile (· ≠ '(')).drop 1).takeWhile (· ≠ ')')).splitOn ',').map fun column =>
    String.ofList (column.filter fun c => ¬ c.isWhitespace)

/-- The name before ` IN (` at the end of a text. -/
def testedColumn (text : String) : String :=
  String.ofList ((text.toList.reverse.drop 5).takeWhile (· ≠ ' ')).reverse

/-- The rows that a statement is about, each value under the name of its column. It is `none` where
the list has a syntax error, where a placeholder is not bound, and where a tuple does not fit the
columns. -/
def rows (st : Statement) : Option (List Fields) :=
  match st.form with
  | .values => do
    let tuples ← readTuples st.args.toList
    let rows ← tuples.mapM (boundTo st.params)
    let columns := listedColumns st.head
    if rows.all fun row => row.length = columns.length then some (rows.map columns.zip) else none
  | .inList => do
    let tuples ← readTuples ('(' :: st.args.toList ++ [')'])
    let rows ← tuples.mapM (boundTo st.params)
    return rows.flatten.map fun value => [(testedColumn st.head, value)]

end Statement

/-- **The statements for some rows are well formed**: each uses the placeholders `$1`, `$2`, … once,
as many as there are parameters, and no more than the protocol allows; and the rows of all of them
are the rows, in order. -/
structure WellFormed (rows : List Fields) (statements : List Statement) : Prop where
  /-- Every placeholder is used once, in order. -/
  placeholders : ∀ st ∈ statements, st.placeholders = List.range' 1 st.params.length
  /-- The rows of the statements are the rows of the batch. -/
  rows : ∃ parts : List (List Fields), statements.map Statement.rows = parts.map some ∧
      parts.flatten = rows
  /-- No statement binds more than the protocol allows. -/
  limit : ∀ st ∈ statements, st.params.length ≤ bindLimit

/-! ## Building the list -/

/-- `String::pop`, for what it leaves. -/
def pop (s : String) : String := String.ofList s.toList.dropLast

/-- The variables of a loop over rows. The counter is an `i32`, whose limit is far over that of the
protocol. -/
structure Args where
  /-- The number of the next placeholder. -/
  argNum : Nat
  /-- The list so far. -/
  argStr : String
  /-- The values so far. -/
  params : List PgValue

/-- The loop over the columns of a row, where these are not cast: `width` placeholders, the last
comma popped. -/
def pushPlaceholders (width argNum : Nat) (argStr : String) : String :=
  pop ((List.range width).foldl (fun argStr i => argStr ++ s!"${argNum + i},")
    (argStr ++ "(")) ++ "),"

/-- A turn of a loop over rows. -/
def Args.push (tuple : Nat → String → String) (width : Nat) (args : Args) (fields : Fields) :
    Args where
  argNum := args.argNum + width
  argStr := tuple args.argNum args.argStr
  params := args.params ++ fields.map Prod.snd

/-- A statement with the rows in a list of tuples. -/
def valuesStatement (head tail : String) (tuple : Nat → String → String) (width : Nat)
    (rows : List Fields) : Statement :=
  let args := rows.foldl (Args.push tuple width) ⟨1, "", []⟩
  ⟨.values, head, pop args.argStr, tail, args.params⟩

/-! ## Runes -/

/-- What is pushed for a row of `runes`. -/
def DbRune.fields (row : DbRune) : Fields :=
  [("id", .runeId row.id), ("number", .bigint row.number), ("name", .text row.name),
    ("spaced_name", .text row.spacedName), ("block_hash", .text row.blockHash),
    ("block_height", .numeric row.blockHeight), ("tx_index", .bigint row.txIndex),
    ("tx_id", .text row.txId),
    ("divisibility", .smallint row.divisibility), ("premine", .numeric row.premine),
    ("symbol", .text row.symbol),
    ("terms_amount", .ofOption .numeric row.termsAmount),
    ("terms_cap", .ofOption .numeric row.termsCap),
    ("terms_height_start", .ofOption .numeric row.termsHeightStart),
    ("terms_height_end", .ofOption .numeric row.termsHeightEnd),
    ("terms_offset_start", .ofOption .numeric row.termsOffsetStart),
    ("terms_offset_end", .ofOption .numeric row.termsOffsetEnd), ("turbo", .boolean row.turbo),
    ("timestamp", .bigint row.timestamp)]

def insertRunesHead : String :=
  "INSERT INTO runes
                    (id, number, name, spaced_name, block_hash, block_height, tx_index, tx_id, divisibility, premine, symbol,
                    terms_amount, terms_cap, terms_height_start, terms_height_end, terms_offset_start, terms_offset_end, turbo,
                    timestamp) VALUES "

def insertRunesTail : String :=
  "
                    ON CONFLICT (name) DO NOTHING"

/-- The statements of `pg_insert_runes`. -/
def pgInsertRunesStatements (rows : List DbRune) : List Statement :=
  (chunks 500 rows).map fun chunk =>
    valuesStatement insertRunesHead insertRunesTail (pushPlaceholders 19) 19
      (chunk.map DbRune.fields)

/-! ## Supply changes -/

/-- What is pushed for a row of `supply_changes`. -/
def DbSupplyChange.fields (row : DbSupplyChange) : Fields :=
  [("rune_id", .runeId row.runeId), ("block_height", .numeric row.blockHeight),
    ("minted", .numeric row.minted),
    ("total_mints", .numeric row.totalMints), ("burned", .numeric row.burned),
    ("total_burns", .numeric row.totalBurns), ("total_operations", .numeric row.totalOperations)]

def insertSupplyChangesHead : String :=
  "
                WITH changes (rune_id, block_height, minted, total_mints, burned, total_burns, total_operations) AS (VALUES "

def insertSupplyChangesTail : String :=
  "),
                previous AS (
                    SELECT DISTINCT ON (rune_id) *
                    FROM supply_changes
                    WHERE rune_id IN (SELECT rune_id FROM changes)
                    ORDER BY rune_id, block_height DESC
                ),
                inserts AS (
                    SELECT c.rune_id,
                        c.block_height,
                        COALESCE(p.minted, 0) + c.minted AS minted,
                        COALESCE(p.total_mints, 0) + c.total_mints AS total_mints,
                        COALESCE(p.burned, 0) + c.burned AS burned,
                        COALESCE(p.total_burns, 0) + c.total_burns AS total_burns,
                        COALESCE(p.total_operations, 0) + c.total_operations AS total_operations
                    FROM changes AS c
                    LEFT JOIN previous AS p ON c.rune_id = p.rune_id
                )
                INSERT INTO supply_changes (rune_id, block_height, minted, total_mints, burned, total_burns, total_operations)
                (SELECT * FROM inserts)
                ON CONFLICT (rune_id, block_height) DO UPDATE SET
                    minted = EXCLUDED.minted,
                    total_mints = EXCLUDED.total_mints,
                    burned = EXCLUDED.burned,
                    total_burns = EXCLUDED.total_burns,
                    total_operations = EXCLUDED.total_operations
                "

/-- The tuple of a row of `supply_changes`. -/
def supplyChangeTuple (argNum : Nat) (argStr : String) : String :=
  argStr ++ s!"(${argNum},${argNum + 1}::numeric,${argNum + 2}::numeric,${argNum + 3}::numeric," ++
    s!"${argNum + 4}::numeric,${argNum + 5}::numeric,${argNum + 6}::numeric),"

/-- The statements of `pg_insert_supply_changes`. -/
def pgInsertSupplyChangesStatements (rows : List DbSupplyChange) : List Statement :=
  (chunks 500 rows).map fun chunk =>
    valuesStatement insertSupplyChangesHead insertSupplyChangesTail supplyChangeTuple 7
      (chunk.map DbSupplyChange.fields)

/-! ## Balance changes -/

/-- What is pushed for a row of `balance_changes`. -/
def DbBalanceChange.fields (row : DbBalanceChange) : Fields :=
  [("rune_id", .runeId row.runeId), ("block_height", .numeric row.blockHeight),
    ("address", .text row.address),
    ("balance", .numeric row.balance), ("total_operations", .bigint row.totalOperations)]

def insertBalanceChangesHead : String :=
  "WITH changes (rune_id, block_height, address, balance, total_operations) AS (VALUES "

def insertBalanceChangesTail (increase : Bool) : String :=
  "),
                previous AS (
                    SELECT DISTINCT ON (rune_id, address) *
                    FROM balance_changes
                    WHERE (rune_id, address) IN (SELECT rune_id, address FROM changes)
                    ORDER BY rune_id, address, block_height DESC
                ),
                inserts AS (
                    SELECT c.rune_id, c.block_height, c.address, COALESCE(p.balance, 0) " ++
  (if increase then "+" else "-") ++ " c.balance AS balance,
                        COALESCE(p.total_operations, 0) + c.total_operations AS total_operations
                    FROM changes AS c
                    LEFT JOIN previous AS p ON c.rune_id = p.rune_id AND c.address = p.address
                )
                INSERT INTO balance_changes (rune_id, block_height, address, balance, total_operations)
                (SELECT * FROM inserts)
                ON CONFLICT (rune_id, block_height, address) DO UPDATE SET
                    balance = EXCLUDED.balance,
                    total_operations = EXCLUDED.total_operations"

/-- The tuple of a row of `balance_changes`. -/
def balanceChangeTuple (argNum : Nat) (argStr : String) : String :=
  argStr ++
    s!"(${argNum},${argNum + 1}::numeric,${argNum + 2},${argNum + 3}::numeric,${argNum + 4}::bigint),"

/-- The statements of `pg_insert_balance_changes`. -/
def pgInsertBalanceChangesStatements (rows : List DbBalanceChange) (increase : Bool) :
    List Statement :=
  (chunks 500 rows).map fun chunk =>
    valuesStatement insertBalanceChangesHead (insertBalanceChangesTail increase)
      balanceChangeTuple 5 (chunk.map DbBalanceChange.fields)

/-! ## The ledger -/

/-- What is pushed for a row of `ledger`. -/
def DbLedgerEntry.fields (row : DbLedgerEntry) : Fields :=
  [("rune_id", .runeId row.runeId), ("block_hash", .text row.blockHash),
    ("block_height", .numeric row.blockHeight),
    ("tx_index", .bigint row.txIndex), ("event_index", .bigint row.eventIndex),
    ("tx_id", .text row.txId),
    ("output", .ofOption .bigint row.output), ("address", .ofOption .text row.address),
    ("receiver_address", .ofOption .text row.receiverAddress),
    ("amount", .ofOption .numeric row.amount),
    ("operation", .operation row.operation), ("timestamp", .bigint row.timestamp)]

def insertLedgerEntriesHead : String :=
  "INSERT INTO ledger
                    (rune_id, block_hash, block_height, tx_index, event_index, tx_id, output, address, receiver_address, amount,
                    operation, timestamp)
                    VALUES "

/-- The statements of `pg_insert_ledger_entries`. -/
def pgInsertLedgerEntriesStatements (rows : List DbLedgerEntry) : List Statement :=
  (chunks 500 rows).map fun chunk =>
    valuesStatement insertLedgerEntriesHead "" (pushPlaceholders 12) 12
      (chunk.map DbLedgerEntry.fields)

/-! ## Input balances -/

/-- What is pushed for an output `(vin, tx_id, vout)`. -/
def outputFields (output : Nat × String × Nat) : Fields :=
  [("index", .bigint output.1), ("tx_id", .text output.2.1), ("output", .bigint output.2.2)]

def getInputRuneBalancesHead : String :=
  "WITH inputs (index, tx_id, output) AS (VALUES "

def getInputRuneBalancesTail : String :=
  ")
                SELECT i.index, l.rune_id, l.address, l.amount
                FROM ledger AS l
                INNER JOIN inputs AS i USING (tx_id, output)
                WHERE l.operation = 'receive'"

/-- The tuple of an output. -/
def outputTuple (argNum : Nat) (argStr : String) : String :=
  argStr ++ s!"(${argNum}::bigint,${argNum + 1},${argNum + 2}::bigint),"

/-- The statement of `pg_get_input_rune_balances`. The list and the parameters are built in two
loops. -/
def pgGetInputRuneBalancesStatement (outputs : List (Nat × String × Nat)) : Statement :=
  let args :=
    outputs.foldl (fun args _ => (args.1 + 3, outputTuple args.1 args.2)) ((1, "") : Nat × String)
  let params := outputs.foldl (fun params output => params ++ (outputFields output).map Prod.snd) []
  ⟨.values, getInputRuneBalancesHead, pop args.2, getInputRuneBalancesTail, params⟩

/-! ## The mempool -/

/-- What is pushed for a row of `mempool_ledger`. -/
def DBMempoolLedgerEntry.fields (row : DBMempoolLedgerEntry) : Fields :=
  [("rune_id", .runeId row.runeId), ("event_index", .bigint row.eventIndex),
    ("tx_id", .text row.txId),
    ("output", .ofOption .bigint row.output), ("address", .ofOption .text row.address),
    ("receiver_address", .ofOption .text row.receiverAddress),
    ("amount", .ofOption .numeric row.amount), ("operation", .operation row.operation)]

def insertMempoolLedgerEntriesHead : String :=
  "INSERT INTO mempool_ledger
                    (rune_id, event_index, tx_id, output, address, receiver_address, amount,
                    operation)
                    VALUES "

/-- The statement of `pg_insert_mempool_ledger_entries`, if there are rows. -/
def pgInsertMempoolLedgerEntriesStatements (rows : List DBMempoolLedgerEntry) : List Statement :=
  if rows.isEmpty then []
  else [valuesStatement insertMempoolLedgerEntriesHead "" (pushPlaceholders 8) 8
    (rows.map DBMempoolLedgerEntry.fields)]

def removeMempoolTxHead : String := "DELETE FROM mempool_ledger WHERE tx_id IN ("

/-- The statement of `pg_remove_mempool_tx`, if there are ids. -/
def pgRemoveMempoolTxStatements (txIds : List String) : List Statement :=
  if txIds.isEmpty then []
  else
    let argStr := (List.range' 1 txIds.length).foldl (fun argStr i => argStr ++ s!"${i},") ""
    [⟨.inList, removeMempoolTxHead, pop argStr, ")", txIds.map .text⟩]

/-! ## All of them -/

/-- A batch of rows or keys that a function is called with. -/
inductive Batch where
  /-- `pg_insert_runes`. -/
  | runes (rows : List DbRune)
  /-- `pg_insert_supply_changes`. -/
  | supplyChanges (rows : List DbSupplyChange)
  /-- `pg_insert_balance_changes`. -/
  | balanceChanges (rows : List DbBalanceChange) (increase : Bool)
  /-- `pg_insert_ledger_entries`. -/
  | ledgerEntries (rows : List DbLedgerEntry)
  /-- `pg_get_input_rune_balances`. -/
  | inputRuneBalances (outputs : List (Nat × String × Nat))
  /-- `pg_insert_mempool_ledger_entries`. -/
  | mempoolLedgerEntries (rows : List DBMempoolLedgerEntry)
  /-- `remove_mempool_tx`. -/
  | removedMempoolTx (txIds : List String)

/-- The rows of a batch, as the values of their columns. -/
def Batch.rows : Batch → List Fields
  | .runes rows => rows.map DbRune.fields
  | .supplyChanges rows => rows.map DbSupplyChange.fields
  | .balanceChanges rows _ => rows.map DbBalanceChange.fields
  | .ledgerEntries rows => rows.map DbLedgerEntry.fields
  | .inputRuneBalances outputs => outputs.map outputFields
  | .mempoolLedgerEntries rows => rows.map DBMempoolLedgerEntry.fields
  | .removedMempoolTx txIds => txIds.map fun txId => [("tx_id", .text txId)]

/-- The statements that a function issues for a batch. -/
def Batch.statements : Batch → List Statement
  | .runes rows => pgInsertRunesStatements rows
  | .supplyChanges rows => pgInsertSupplyChangesStatements rows
  | .balanceChanges rows increase => pgInsertBalanceChangesStatements rows increase
  | .ledgerEntries rows => pgInsertLedgerEntriesStatements rows
  | .inputRuneBalances outputs => [pgGetInputRuneBalancesStatement outputs]
  | .mempoolLedgerEntries rows => pgInsertMempoolLedgerEntriesStatements rows
  | .removedMempoolTx txIds => pgRemoveMempoolTxStatements txIds

/-- The batches that are not too long, where the function does not cut them up. The lookup of input
balances needs a first row, too. -/
def Batch.Fits : Batch → Prop
  | .inputRuneBalances outputs => outputs ≠ [] ∧ outputs.length ≤ 21845
  | .mempoolLedgerEntries rows => rows.length ≤ 8191
  | .removedMempoolTx txIds => txIds.length ≤ 65535
  | _ => True

/-! ## What the builders write -/

@[simp] theorem toList_pop (s : String) : (pop s).toList = s.toList.dropLast := String.toList_ofList

theorem toList_placeholder (n : Nat) : (s!"${n},").toList = parameterText n ++ [','] := by
  simp [parameterText, toString]

/-- The loop over the columns writes a tuple without casts. -/
theorem toList_pushPlaceholders {width : Nat} (hwidth : 0 < width) (argNum : Nat)
    (argStr : String) :
    (pushPlaceholders width argNum argStr).toList =
      argStr.toList ++ tupleText (List.replicate width []) argNum := by
  -- the loop writes one placeholder for each column
  have hloop : ∀ width, ((List.range width).foldl (fun argStr i => argStr ++ s!"${argNum + i},")
      (argStr ++ "(")).toList = argStr.toList ++
        '(' :: itemsText (List.replicate width []) argNum := by
    intro width
    induction width with
    | zero => simp [itemsText]
    | succ width ih =>
      rw [List.range_succ, List.foldl_append, List.foldl_cons, List.foldl_nil,
        String.toList_append, ih,
        toList_placeholder, List.replicate_succ', itemsText_concat, List.length_replicate]
      simp
  have hitems : itemsText (List.replicate width []) argNum ≠ [] := by
    obtain ⟨width, rfl⟩ := Nat.exists_eq_add_of_lt hwidth
    simp [List.replicate_succ, itemsText_cons]
  rw [pushPlaceholders, String.toList_append, toList_pop, hloop, tupleText,
    List.dropLast_append_of_ne_nil (List.cons_ne_nil _ _), List.dropLast_cons_of_ne_nil hitems,
      List.append_assoc]
  rfl

/-- The casts of the columns of a supply change. -/
def supplyChangeCasts : List (List Char) :=
  ["", "::numeric", "::numeric", "::numeric", "::numeric", "::numeric"].map String.toList ++
    ["::numeric".toList]

theorem toList_supplyChangeTuple (argNum : Nat) (argStr : String) :
    (supplyChangeTuple argNum argStr).toList =
      argStr.toList ++ tupleText supplyChangeCasts argNum := by
  rw [supplyChangeCasts, tupleText_concat]
  simp [supplyChangeTuple, itemsText, parameterText, List.zipIdx_cons, toString]

/-- The casts of the columns of a balance change. -/
def balanceChangeCasts : List (List Char) :=
  ["", "::numeric", "", "::numeric"].map String.toList ++ ["::bigint".toList]

theorem toList_balanceChangeTuple (argNum : Nat) (argStr : String) :
    (balanceChangeTuple argNum argStr).toList =
      argStr.toList ++ tupleText balanceChangeCasts argNum := by
  rw [balanceChangeCasts, tupleText_concat]
  simp [balanceChangeTuple, itemsText, parameterText, List.zipIdx_cons, toString]

/-- The casts of the columns of an output. -/
def outputCasts : List (List Char) := ["::bigint", ""].map String.toList ++ ["::bigint".toList]

theorem toList_outputTuple (argNum : Nat) (argStr : String) :
    (outputTuple argNum argStr).toList = argStr.toList ++ tupleText outputCasts argNum := by
  rw [outputCasts, tupleText_concat]
  simp [outputTuple, itemsText, parameterText, List.zipIdx_cons, toString]

/-! ## What a statement binds -/

/-- The fixed pieces and the tuples of a statement fit: no placeholder is outside of the list, and a
tuple has as many items as there are columns. -/
structure TupleFormat (head tail : String) (tuple : Nat → String → String)
    (casts : List (List Char)) : Prop where
  /-- No placeholder is in front of the list. -/
  head_plain : '$' ∉ head.toList
  /-- None is behind it. -/
  tail_plain : '$' ∉ tail.toList
  /-- The text behind it does not go on with a digit. -/
  tail_ends : EndsNumber tail.toList
  /-- A tuple is appended as the casts say. -/
  tuple_eq : ∀ argNum argStr, (tuple argNum argStr).toList = argStr.toList ++ tupleText casts argNum
  /-- A cast is made of colons and letters. -/
  isCast : ∀ cast ∈ casts, IsCast cast
  /-- A tuple has items. -/
  ne_nil : casts ≠ []
  /-- It has as many as there are columns. -/
  columns : casts.length = (Statement.listedColumns head).length

/-- A statement uses its placeholders once, and it is about some rows. -/
structure Statement.Binds (st : Statement) (rows : List Fields) : Prop where
  /-- Every placeholder is used once, in order. -/
  placeholders : st.placeholders = List.range' 1 st.params.length
  /-- The rows are those that were bound. -/
  rows : st.rows = some rows

section

variable {head tail : String} {tuple : Nat → String → String} {casts : List (List Char)}
    {rows : List Fields}

/-- The parameters come in the order of the rows. -/
theorem foldl_push_params (tuple : Nat → String → String) (width : Nat) (args : Args)
    (rows : List Fields) :
    (rows.foldl (Args.push tuple width) args).params =
      args.params ++ (rows.map fun row => row.map Prod.snd).flatten := by
  induction rows generalizing args with
  | nil => simp
  | cons row rows ih => simp [ih, Args.push]

/-- The tuples number their placeholders on. -/
theorem TupleFormat.foldl_push_argStr (h : TupleFormat head tail tuple casts) (args : Args)
    (rows : List Fields) :
    (rows.foldl (Args.push tuple casts.length) args).argStr.toList =
      args.argStr.toList ++ tuplesText casts rows.length args.argNum := by
  induction rows generalizing args with
  | nil => simp [tuplesText]
  | cons row rows ih =>
    rw [List.foldl_cons, ih, Args.push, h.tuple_eq, List.length_cons, tuplesText, List.append_assoc]

theorem length_params {width : Nat} (hrows : ∀ row ∈ rows, row.length = width) :
    (valuesStatement head tail tuple width rows).params.length = width * rows.length := by
  have hwidths : ∀ rows : List Fields, (∀ row ∈ rows, row.length = width) →
      ((rows.map fun row => row.map Prod.snd).flatten).length = width * rows.length := by
    intro rows
    induction rows with
    | nil => simp
    | cons row rows ih =>
      intro h
      obtain ⟨hrow, hrows⟩ := List.forall_mem_cons.mp h
      rw [List.map_cons, List.flatten_cons, List.length_append, List.length_map, hrow, ih hrows,
        List.length_cons, Nat.mul_succ, Nat.add_comm]
  rw [valuesStatement, foldl_push_params, List.nil_append, hwidths rows hrows]

/-- A row is its values under their columns. -/
theorem zip_map_snd {columns : List String} {row : Fields} (h : row.map Prod.fst = columns) :
    columns.zip (row.map Prod.snd) = row := by
  rw [← h]
  exact (List.zip_of_prod rfl rfl).symm

/-- **A list of tuples binds the rows that it was built from.** -/
theorem TupleFormat.binds (h : TupleFormat head tail tuple casts) (hne : rows ≠ [])
    (hrows : ∀ row ∈ rows, row.map Prod.fst = Statement.listedColumns head) :
    (valuesStatement head tail tuple casts.length rows).Binds rows := by
  -- every row has one value for each placeholder of a tuple
  have hlength : ∀ row ∈ rows, row.length = casts.length := fun row hrow => by
    rw [h.columns, ← hrows row hrow, List.length_map]
  have hargs : (valuesStatement head tail tuple casts.length rows).args.toList =
      (tuplesText casts rows.length 1).dropLast := by
    rw [valuesStatement, toList_pop, h.foldl_push_argStr]
    rfl
  have hread : readTuples (valuesStatement head tail tuple casts.length rows).args.toList =
      some (blocks casts.length rows.length 1) := by
    rw [hargs]
    exact readTuples_tuplesText h.isCast h.ne_nil (List.length_eq_zero_iff.not.mpr hne) 1
  have hparams : (valuesStatement head tail tuple casts.length rows).params =
      (rows.map fun row => row.map Prod.snd).flatten := foldl_push_params _ _ _ _
  have hhead : (valuesStatement head tail tuple casts.length rows).head = head := rfl
  have htail : (valuesStatement head tail tuple casts.length rows).tail = tail := rfl
  constructor
  · -- the text has the placeholders of the list and no others
    rw [length_params hlength, Statement.placeholders, Statement.text, String.toList_append,
      String.toList_append,
      hhead, htail, parameters_append _ h.tail_ends, parameters_plain h.tail_plain, List.append_nil,
      parameters_plain_append h.head_plain,
      parameters_of_readTuples hread, flatten_blocks, Nat.mul_comm]
  -- the tuples of the text bind the parameters of the rows in order
  · have hbound : (blocks casts.length rows.length 1).mapM
        (boundTo (valuesStatement head tail tuple casts.length rows).params) =
          some (rows.map fun row => row.map Prod.snd) := by
      have hblocks := @boundTo_blocks _ casts.length (rows.map fun row => row.map Prod.snd) ?_
      · rwa [List.length_map, ← hparams] at hblocks
      · intro row hrow
        obtain ⟨row, hmem, rfl⟩ := List.mem_map.mp hrow
        rw [List.length_map, hlength row hmem]
    have hcolumns : (rows.map fun row => row.map Prod.snd).all
        (fun row => row.length = (Statement.listedColumns head).length) = true := by
      rw [List.all_eq_true]
      intro row hrow
      obtain ⟨row, hmem, rfl⟩ := List.mem_map.mp hrow
      exact decide_eq_true (by rw [List.length_map, hlength row hmem, h.columns])
    -- and the listed columns are the names of those parameters
    have hzip :
        (rows.map fun row => row.map Prod.snd).map (Statement.listedColumns head).zip = rows := by
      rw [List.map_map]
      refine (List.map_congr_left fun row hrow => ?_).trans (List.map_id rows)
      exact zip_map_snd (hrows row hrow)
    have hform : (valuesStatement head tail tuple casts.length rows).form = .values := rfl
    simp only [Statement.rows, hform, hread, hbound, hhead, hcolumns, hzip, Option.bind_eq_bind,
      Option.bind_some, if_true]

/-- The statement for the rows of a type. -/
theorem TupleFormat.binds_map {α : Type} {fields : α → Fields}
    (h : TupleFormat head tail tuple casts)
    (hfields : ∀ a, (fields a).map Prod.fst = Statement.listedColumns head) {l : List α}
    (hne : l ≠ []) :
    (valuesStatement head tail tuple casts.length (l.map fields)).Binds (l.map fields) ∧
      (valuesStatement head tail tuple casts.length (l.map fields)).params.length =
        casts.length * l.length := by
  have hrows : ∀ row ∈ l.map fields, row.map Prod.fst = Statement.listedColumns head := by
    intro row hrow
    obtain ⟨a, -, rfl⟩ := List.mem_map.mp hrow
    exact hfields a
  refine ⟨h.binds (List.map_eq_nil_iff.not.mpr hne) hrows, ?_⟩
  rw [length_params ?_, List.length_map]
  intro row hrow
  rw [h.columns, ← hrows row hrow, List.length_map]

/-! ## One statement and many -/

/-- A statement alone is well formed exactly if it is not too long. -/
theorem Statement.Binds.wellFormed_singleton {st : Statement} (h : st.Binds rows) :
    WellFormed rows [st] ↔ st.params.length ≤ bindLimit := by
  constructor
  · exact fun hst => hst.limit st List.mem_cons_self
  · intro hlimit
    refine ⟨fun st' hst' => ?_, ⟨[rows], ?_, by simp⟩, fun st' hst' => ?_⟩
    · rw [List.mem_singleton.mp hst']
      exact h.placeholders
    · rw [List.map_singleton, List.map_singleton, h.rows]
    · rw [List.mem_singleton.mp hst']
      exact hlimit

/-- One list of tuples is well formed exactly if all the values have room in one statement. -/
theorem TupleFormat.wellFormed_singleton {α : Type} {fields : α → Fields}
    (h : TupleFormat head tail tuple casts)
    (hfields : ∀ a, (fields a).map Prod.fst = Statement.listedColumns head) {l : List α}
    (hne : l ≠ []) :
    WellFormed (l.map fields) [valuesStatement head tail tuple casts.length (l.map fields)] ↔
      casts.length * l.length ≤ bindLimit := by
  obtain ⟨hbinds, hlength⟩ := h.binds_map hfields hne
  rw [hbinds.wellFormed_singleton, hlength]

/-- No rows need no statement. -/
theorem wellFormed_nil : WellFormed [] [] :=
  ⟨fun _ h => absurd h List.not_mem_nil, ⟨[], rfl, rfl⟩, fun _ h => absurd h List.not_mem_nil⟩

/-- **Chunks are well formed** as long as one of them is not too long. -/
theorem TupleFormat.wellFormed_chunks {α : Type} {fields : α → Fields}
    (h : TupleFormat head tail tuple casts)
    (hfields : ∀ a, (fields a).map Prod.fst = Statement.listedColumns head)
    (hlimit : casts.length * 500 ≤ bindLimit) (l : List α) :
    WellFormed (l.map fields) ((chunks 500 l).map fun chunk =>
      valuesStatement head tail tuple casts.length (chunk.map fields)) := by
  -- every chunk of the list is one statement
  have hbinds :
      ∀ chunk ∈ chunks 500 l,
      (valuesStatement head tail tuple casts.length (chunk.map fields)).Binds
      (chunk.map fields) ∧
        (valuesStatement head tail tuple casts.length (chunk.map fields)).params.length =
          casts.length * chunk.length :=
    fun chunk hchunk => h.binds_map hfields (length_of_mem_chunks (by omega) hchunk).1
  refine ⟨fun st hst => ?_, ⟨(chunks 500 l).map (List.map fields), ?_, ?_⟩, fun st hst => ?_⟩
  · obtain ⟨chunk, hchunk, rfl⟩ := List.mem_map.mp hst
    exact (hbinds chunk hchunk).1.placeholders
  · rw [List.map_map, List.map_map]
    exact List.map_congr_left fun chunk hchunk => (hbinds chunk hchunk).1.rows
  · rw [← List.map_flatten, flatten_chunks]
  · obtain ⟨chunk, hchunk, rfl⟩ := List.mem_map.mp hst
    rw [(hbinds chunk hchunk).2]
    exact (Nat.mul_le_mul_left _ (length_of_mem_chunks (by omega) hchunk).2).trans hlimit

end

/-! ## The formats of the statements -/

theorem isCast_of_mem (casts : List String)
    (h : ∀ cast ∈ casts, cast ∈ ["", "::numeric", "::bigint"]) :
    ∀ cast ∈ casts.map String.toList, IsCast cast := by
  intro cast hcast
  obtain ⟨name, hname, rfl⟩ := List.mem_map.mp hcast
  have hcases := h name hname
  simp only [List.mem_cons, List.not_mem_nil, or_false] at hcases
  rcases hcases with rfl | rfl | rfl <;> rw [String.toList_ofList] <;> decide

theorem isCast_replicate (width : Nat) :
    ∀ cast ∈ List.replicate width ([] : List Char), IsCast cast := by
  intro cast hcast
  rw [List.eq_of_mem_replicate hcast]
  exact fun c hc => absurd hc List.not_mem_nil

/-- A text has no placeholder if it has no dollar sign. -/
theorem dollar_notMem {text : List Char} (h : text.contains '$' = false) : '$' ∉ text := by
  simpa using h

/-! ### Runes -/

theorem listedColumns_insertRunes : Statement.listedColumns insertRunesHead =
    ["id", "number", "name", "spaced_name", "block_hash", "block_height", "tx_index", "tx_id",
      "divisibility",
      "premine", "symbol", "terms_amount", "terms_cap", "terms_height_start", "terms_height_end",
      "terms_offset_start", "terms_offset_end", "turbo", "timestamp"] := by
  rw [insertRunesHead, Statement.listedColumns, String.toList_ofList]
  rfl

set_option maxRecDepth 4000 in
theorem insertRunes_format : TupleFormat insertRunesHead insertRunesTail (pushPlaceholders 19)
    (List.replicate 19 []) where
  head_plain := dollar_notMem (by rw [insertRunesHead, String.toList_ofList]; rfl)
  tail_plain := dollar_notMem (by rw [insertRunesTail, String.toList_ofList]; rfl)
  tail_ends := by rw [insertRunesTail, String.toList_ofList]; exact endsNumber_cons rfl
  tuple_eq := toList_pushPlaceholders (by omega)
  isCast := isCast_replicate 19
  ne_nil := List.cons_ne_nil _ _
  columns := by rw [listedColumns_insertRunes]; rfl

/-! ### Supply changes -/

theorem listedColumns_insertSupplyChanges : Statement.listedColumns insertSupplyChangesHead =
    ["rune_id", "block_height", "minted", "total_mints", "burned", "total_burns",
      "total_operations"] := by
  rw [insertSupplyChangesHead, Statement.listedColumns, String.toList_ofList]
  rfl

set_option maxRecDepth 4000 in
theorem insertSupplyChanges_format :
    TupleFormat insertSupplyChangesHead insertSupplyChangesTail supplyChangeTuple
    supplyChangeCasts where
  head_plain := dollar_notMem (by rw [insertSupplyChangesHead, String.toList_ofList]; rfl)
  tail_plain := dollar_notMem (by rw [insertSupplyChangesTail, String.toList_ofList]; rfl)
  tail_ends := by rw [insertSupplyChangesTail, String.toList_ofList]; exact endsNumber_cons rfl
  tuple_eq := toList_supplyChangeTuple
  isCast :=
    isCast_of_mem ["", "::numeric", "::numeric", "::numeric", "::numeric", "::numeric", "::numeric"]
    (by decide)
  ne_nil := List.cons_ne_nil _ _
  columns := by rw [listedColumns_insertSupplyChanges]; rfl

/-! ### Balance changes -/

theorem listedColumns_insertBalanceChanges : Statement.listedColumns insertBalanceChangesHead =
    ["rune_id", "block_height", "address", "balance", "total_operations"] := by
  rw [insertBalanceChangesHead, Statement.listedColumns, String.toList_ofList]
  rfl

set_option maxRecDepth 4000 in
theorem insertBalanceChanges_format (increase : Bool) :
    TupleFormat insertBalanceChangesHead (insertBalanceChangesTail increase) balanceChangeTuple
      balanceChangeCasts where
  head_plain := dollar_notMem (by rw [insertBalanceChangesHead, String.toList_ofList]; rfl)
  tail_plain := by
    unfold insertBalanceChangesTail
    rw [String.toList_append, String.toList_append, List.mem_append, List.mem_append,
      not_or, not_or]
    refine ⟨⟨dollar_notMem ?_, ?_⟩, dollar_notMem ?_⟩
    · rw [String.toList_ofList]
      rfl
    -- neither operator has a placeholder
    · cases increase <;> decide
    · rw [String.toList_ofList]
      rfl
  tail_ends := by
    unfold insertBalanceChangesTail
    rw [String.toList_append, String.toList_append, String.toList_ofList]
    exact endsNumber_cons rfl
  tuple_eq := toList_balanceChangeTuple
  isCast := isCast_of_mem ["", "::numeric", "", "::numeric", "::bigint"] (by decide)
  ne_nil := List.cons_ne_nil _ _
  columns := by rw [listedColumns_insertBalanceChanges]; rfl

/-! ### The ledger -/

theorem listedColumns_insertLedgerEntries : Statement.listedColumns insertLedgerEntriesHead =
    ["rune_id", "block_hash", "block_height", "tx_index", "event_index", "tx_id",
      "output", "address", "receiver_address", "amount", "operation", "timestamp"] := by
  rw [insertLedgerEntriesHead, Statement.listedColumns, String.toList_ofList]
  rfl

theorem insertLedgerEntries_format : TupleFormat insertLedgerEntriesHead "" (pushPlaceholders 12)
    (List.replicate 12 []) where
  head_plain := dollar_notMem (by rw [insertLedgerEntriesHead, String.toList_ofList]; rfl)
  tail_plain := by decide
  tail_ends := by decide
  tuple_eq := toList_pushPlaceholders (by omega)
  isCast := isCast_replicate 12
  ne_nil := List.cons_ne_nil _ _
  columns := by rw [listedColumns_insertLedgerEntries]; rfl

/-! ### Input balances -/

theorem listedColumns_getInputRuneBalances : Statement.listedColumns getInputRuneBalancesHead =
    ["index", "tx_id", "output"] := by
  rw [getInputRuneBalancesHead, Statement.listedColumns, String.toList_ofList]
  rfl

theorem getInputRuneBalances_format :
    TupleFormat getInputRuneBalancesHead getInputRuneBalancesTail outputTuple
    outputCasts where
  head_plain := dollar_notMem (by rw [getInputRuneBalancesHead, String.toList_ofList]; rfl)
  tail_plain := dollar_notMem (by rw [getInputRuneBalancesTail, String.toList_ofList]; rfl)
  tail_ends := by rw [getInputRuneBalancesTail, String.toList_ofList]; exact endsNumber_cons rfl
  tuple_eq := toList_outputTuple
  isCast := isCast_of_mem ["::bigint", "", "::bigint"] (by decide)
  ne_nil := List.cons_ne_nil _ _
  columns := by rw [listedColumns_getInputRuneBalances]; rfl

/-! ### The mempool -/

theorem listedColumns_insertMempoolLedgerEntries :
    Statement.listedColumns insertMempoolLedgerEntriesHead =
      ["rune_id", "event_index", "tx_id", "output", "address", "receiver_address", "amount",
        "operation"] := by
  rw [insertMempoolLedgerEntriesHead, Statement.listedColumns, String.toList_ofList]
  rfl

theorem insertMempoolLedgerEntries_format :
    TupleFormat insertMempoolLedgerEntriesHead "" (pushPlaceholders 8)
    (List.replicate 8 []) where
  head_plain := dollar_notMem (by rw [insertMempoolLedgerEntriesHead, String.toList_ofList]; rfl)
  tail_plain := by decide
  tail_ends := by decide
  tuple_eq := toList_pushPlaceholders (by omega)
  isCast := isCast_replicate 8
  ne_nil := List.cons_ne_nil _ _
  columns := by rw [listedColumns_insertMempoolLedgerEntries]; rfl

/-! ## The functions -/

/-- The two loops of the lookup build what one loop would. -/
theorem pgGetInputRuneBalancesStatement_eq (outputs : List (Nat × String × Nat)) :
    pgGetInputRuneBalancesStatement outputs =
      valuesStatement getInputRuneBalancesHead getInputRuneBalancesTail outputTuple 3
      (outputs.map outputFields) := by
  -- the source pushes the text and the parameters in two loops
  have hargs : ∀ (outputs : List (Nat × String × Nat)) (args : Args),
      let done := (outputs.map outputFields).foldl (Args.push outputTuple 3) args
      outputs.foldl (fun args _ => (args.1 + 3, outputTuple args.1 args.2))
          (args.argNum, args.argStr) = (done.argNum, done.argStr) ∧
        outputs.foldl (fun params output => params ++ (outputFields output).map Prod.snd)
        args.params =
          done.params := by
    intro outputs
    induction outputs with
    | nil => exact fun args => ⟨rfl, rfl⟩
    | cons output outputs ih => exact fun args => ih (args.push outputTuple 3 (outputFields output))
  obtain ⟨hlist, hparams⟩ := hargs outputs ⟨1, "", []⟩
  rw [pgGetInputRuneBalancesStatement, valuesStatement]
  dsimp only at hlist hparams ⊢
  rw [hlist, hparams]

/-- The list of ids is the items of a tuple without casts. -/
theorem toList_removedIds (k : Nat) :
    ((List.range' 1 k).foldl (fun argStr i => argStr ++ s!"${i},") "").toList =
      itemsText (List.replicate k []) 1 := by
  induction k with
  | zero => rfl
  | succ k ih =>
    rw [List.range'_concat, List.foldl_append, List.foldl_cons, List.foldl_nil,
      String.toList_append, ih,
      toList_placeholder, List.replicate_succ', itemsText_concat, List.length_replicate,
        Nat.one_mul, List.append_nil]

/-- **A list of ids binds the ids.** -/
theorem removeMempoolTx_binds {txIds : List String} (hne : txIds ≠ []) :
    Statement.Binds ⟨.inList, removeMempoolTxHead, pop ((List.range' 1 txIds.length).foldl
      (fun argStr i => argStr ++ s!"${i},") ""), ")", txIds.map .text⟩
      (txIds.map fun txId => [("tx_id", .text txId)]) := by
  -- the list has one placeholder for each id
  have hcasts : List.replicate txIds.length ([] : List Char) ≠ [] := by
    rw [Ne, List.replicate_eq_nil_iff, List.length_eq_zero_iff]
    exact hne
  have hread := readTuples_itemsText (isCast_replicate txIds.length) hcasts 1
  rw [List.length_replicate] at hread
  have hcolumn : Statement.testedColumn removeMempoolTxHead = "tx_id" := by
    rw [removeMempoolTxHead, Statement.testedColumn, String.toList_ofList]
    rfl
  constructor
  · -- the parentheses around the list have no placeholder
    have hlist := parameters_of_readTuples hread
    have hopen : '$' ∉ ['('] := by decide
    have hhead : '$' ∉ removeMempoolTxHead.toList := by
      rw [removeMempoolTxHead, String.toList_ofList]
      decide
    have hclose : '$' ∉ [')'] := by decide
    rw [List.cons_append, ← List.singleton_append, parameters_plain_append hopen,
      parameters_append _ (endsNumber_cons rfl), parameters_plain hclose, List.append_nil,
      List.flatten_singleton] at hlist
    rw [Statement.placeholders, Statement.text, String.toList_append,
      String.toList_append, toList_pop,
      toList_removedIds, show (")" : String).toList = [')'] from rfl,
      parameters_append _ (endsNumber_cons rfl),
      parameters_plain hclose, List.append_nil, parameters_plain_append hhead, hlist,
        List.length_map]
  -- the placeholders bind the ids in order
  · have hbound : boundTo (txIds.map PgValue.text) (List.range' 1 txIds.length) =
        some (txIds.map PgValue.text) := by
      have h := boundTo_range' [] (txIds.map PgValue.text) []
      rwa [List.nil_append, List.append_nil, List.length_map] at h
    rw [← toList_removedIds, ← toList_pop] at hread
    simp only [Statement.rows, hread, hcolumn, Option.bind_eq_bind, Option.bind_some,
      List.mapM_cons, List.mapM_nil, hbound]
    simp

/-- The lookup of input balances needs a row, and it is not cut up. -/
theorem wellFormed_inputRuneBalances_iff (outputs : List (Nat × String × Nat)) :
    WellFormed (outputs.map outputFields) [pgGetInputRuneBalancesStatement outputs] ↔
      outputs ≠ [] ∧ outputs.length ≤ 21845 := by
  by_cases hne : outputs = []
  · -- without a row there is nothing after `VALUES`
    subst hne
    refine iff_of_false (fun h => ?_) fun h => h.1 rfl
    obtain ⟨parts, hparts, -⟩ := h.rows
    rw [List.map_singleton] at hparts
    obtain ⟨part, -, hpart⟩ := List.mem_map.mp (hparts ▸ List.mem_singleton_self _)
    cases hpart
  · have hfields : ∀ output, (outputFields output).map Prod.fst =
        Statement.listedColumns getInputRuneBalancesHead := by
      intro output
      rw [listedColumns_getInputRuneBalances]
      rfl
    have hfits : WellFormed (outputs.map outputFields) [pgGetInputRuneBalancesStatement outputs] ↔
        3 * outputs.length ≤ bindLimit := by
      rw [pgGetInputRuneBalancesStatement_eq]
      exact getInputRuneBalances_format.wellFormed_singleton hfields hne
    rw [hfits, bindLimit]
    constructor
    · exact fun h => ⟨hne, by omega⟩
    · exact fun h => by omega

/-- The rows of a scan are inserted at once. -/
theorem wellFormed_mempoolLedgerEntries_iff (rows : List DBMempoolLedgerEntry) :
    WellFormed (rows.map DBMempoolLedgerEntry.fields)
      (pgInsertMempoolLedgerEntriesStatements rows) ↔ rows.length ≤ 8191 := by
  rw [pgInsertMempoolLedgerEntriesStatements]
  by_cases hne : rows = []
  · subst hne
    exact iff_of_true wellFormed_nil (Nat.zero_le _)
  · have hfields : ∀ row : DBMempoolLedgerEntry,
        row.fields.map Prod.fst = Statement.listedColumns insertMempoolLedgerEntriesHead := by
      intro row
      rw [listedColumns_insertMempoolLedgerEntries]
      rfl
    have hfits :
        WellFormed (rows.map DBMempoolLedgerEntry.fields)
          [valuesStatement insertMempoolLedgerEntriesHead "" (pushPlaceholders 8) 8
            (rows.map DBMempoolLedgerEntry.fields)] ↔
        8 * rows.length ≤ bindLimit :=
      insertMempoolLedgerEntries_format.wellFormed_singleton hfields hne
    rw [if_neg (List.isEmpty_iff.not.mpr hne), hfits, bindLimit]
    omega

/-- The ids of a scan are deleted at once. -/
theorem wellFormed_removedMempoolTx_iff (txIds : List String) :
    WellFormed (txIds.map fun txId => [("tx_id", .text txId)]) (pgRemoveMempoolTxStatements txIds) ↔
      txIds.length ≤ 65535 := by
  rw [pgRemoveMempoolTxStatements]
  by_cases hne : txIds = []
  · subst hne
    exact iff_of_true wellFormed_nil (Nat.zero_le _)
  · rw [if_neg (List.isEmpty_iff.not.mpr hne), (removeMempoolTx_binds hne).wellFormed_singleton,
      List.length_map, bindLimit]

theorem wellFormed_runes (rows : List DbRune) :
    WellFormed (rows.map DbRune.fields) (pgInsertRunesStatements rows) := by
  refine insertRunes_format.wellFormed_chunks (fun row => ?_) (by decide) rows
  rw [listedColumns_insertRunes]
  rfl

theorem wellFormed_supplyChanges (rows : List DbSupplyChange) :
    WellFormed (rows.map DbSupplyChange.fields) (pgInsertSupplyChangesStatements rows) := by
  refine insertSupplyChanges_format.wellFormed_chunks (fun row => ?_) (by decide) rows
  rw [listedColumns_insertSupplyChanges]
  rfl

theorem wellFormed_balanceChanges (rows : List DbBalanceChange) (increase : Bool) :
    WellFormed (rows.map DbBalanceChange.fields)
    (pgInsertBalanceChangesStatements rows increase) := by
  refine (insertBalanceChanges_format increase).wellFormed_chunks (fun row => ?_) (by decide) rows
  rw [listedColumns_insertBalanceChanges]
  rfl

theorem wellFormed_ledgerEntries (rows : List DbLedgerEntry) :
    WellFormed (rows.map DbLedgerEntry.fields) (pgInsertLedgerEntriesStatements rows) := by
  refine insertLedgerEntries_format.wellFormed_chunks (fun row => ?_) (by decide) rows
  rw [listedColumns_insertLedgerEntries]
  rfl

/-- **The statements of a batch are well formed exactly if it fits**: the inserts of the index
always are, because they are cut into chunks; the others as long as all parameters have room in one
statement. -/
theorem Batch.wellFormed_iff (b : Batch) : WellFormed b.rows b.statements ↔ b.Fits := by
  cases b with
  | runes rows => exact iff_of_true (wellFormed_runes rows) trivial
  | supplyChanges rows => exact iff_of_true (wellFormed_supplyChanges rows) trivial
  | balanceChanges rows increase =>
    exact iff_of_true (wellFormed_balanceChanges rows increase) trivial
  | ledgerEntries rows => exact iff_of_true (wellFormed_ledgerEntries rows) trivial
  | inputRuneBalances outputs => exact wellFormed_inputRuneBalances_iff outputs
  | mempoolLedgerEntries rows => exact wellFormed_mempoolLedgerEntries_iff rows
  | removedMempoolTx txIds => exact wellFormed_removedMempoolTx_iff txIds

/-- A row of `mempool_ledger`. -/
def scannedEntry : DBMempoolLedgerEntry :=
  ⟨⟨1, 0⟩, 0, "tx", some 0, some "alice", none, some 1, .receive⟩

/-- A scan of the mempool that finds 8192 rows. -/
theorem not_wellFormed_scannedEntries :
    ¬WellFormed (Batch.mempoolLedgerEntries (List.replicate 8192 scannedEntry)).rows
      (Batch.mempoolLedgerEntries (List.replicate 8192 scannedEntry)).statements := by
  rw [Batch.rows, Batch.statements, wellFormed_mempoolLedgerEntries_iff, List.length_replicate]
  omega

end Runehook
