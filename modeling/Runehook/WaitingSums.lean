import Runehook.BalanceRuns
import Runehook.SameRows

/-! # Sums that wait

The maps of `DbCache` keep sums of amounts until they are inserted, each in a `u128`. What the
tables will count of a rune or of an owner is what they have and what waits (`counterCounted`,
`balanceCounted`, `operationsCounted`): a flush changes nothing of it (`InStep.flush`), and a call
adds to it what it makes of the sums that wait (`Session.Adds.waiting_eq`). -/

namespace Runehook

open Lib

/-! ## Sums -/

/-- The sums of amounts in `DbCache`. -/
inductive WaitingSum where
  /-- `minted` of the supply change of a rune. -/
  | minted (id : RuneId)
  /-- `burned` of the supply change of a rune. -/
  | burned (id : RuneId)
  /-- `balance` of the increase of an owner. -/
  | received (owner : RuneId × Address)
  /-- `balance` of the deduction of an owner. -/
  | sent (owner : RuneId × Address)
  deriving DecidableEq, Repr

/-- The rune that a sum is of. -/
def WaitingSum.runeId : WaitingSum → RuneId
  | .minted id | .burned id => id
  | .received owner | .sent owner => owner.1

/-- A sum of an owner counts one operation when it starts, a sum of a rune counts all. -/
def WaitingSum.ofOwner : WaitingSum → Bool
  | .minted _ | .burned _ => false
  | .received _ | .sent _ => true

/-- The sum that a row adds to. -/
def LedgerRow.sum (row : LedgerRow) : Option WaitingSum :=
  match row.operation with
  | .etching => none
  | .mint => some (.minted row.runeId)
  | .burn => some (.burned row.runeId)
  | .receive => row.address.map fun a => .received (row.runeId, a)
  | .send => row.address.map fun a => .sent (row.runeId, a)

/-- What rows add to a sum. -/
def added (q : WaitingSum) (rows : List LedgerRow) : Nat :=
  tally (fun row => row.sum = some q) (fun row => row.amount.getD 0) rows

/-- The sum that waits, if a change that has it waits. -/
def DbCache.waiting (dbCache : DbCache) : WaitingSum → Option Nat
  | .minted id => (dbCache.supplyChanges.lookup id).map DbSupplyChange.minted
  | .burned id => (dbCache.supplyChanges.lookup id).map DbSupplyChange.burned
  | .received owner => (dbCache.balanceIncreases.lookup owner).map DbBalanceChange.balance
  | .sent owner => (dbCache.balanceDeductions.lookup owner).map DbBalanceChange.balance

/-- The sum that waits in a session. -/
def Session.waiting (s : Session) (q : WaitingSum) : Option Nat := s.cache.dbCache.waiting q

/-- A `u128` that may be there gets an amount. -/
def accumulate (w : Option Nat) (amount : Nat) : Option Nat :=
  some ((w.map fun n => u128Add n amount).getD amount)

/-- What a row makes of a sum: a change of the rune has sums of zero at least. -/
def LedgerRow.addTo (q : WaitingSum) (w : Option Nat) (row : LedgerRow) : Option Nat :=
  if row.sum = some q then accumulate w (row.amount.getD 0)
  else if row.runeId = q.runeId ∧ q.ofOwner = false then some (w.getD 0)
  else w

theorem runeId_of_sum {row : LedgerRow} {q : WaitingSum} (h : row.sum = some q) :
    q.runeId = row.runeId := by
  unfold LedgerRow.sum at h
  split at h
  · cases h
  · cases h
    rfl
  · cases h
    rfl
  all_goals
    obtain ⟨a, -, rfl⟩ := Option.map_eq_some_iff.mp h
    rfl

@[simp] theorem added_append (q : WaitingSum) (rows rows' : List LedgerRow) :
    added q (rows ++ rows') = added q rows + added q rows' := tally_append _ _ _ _

theorem accumulate_of_fits {w : Option Nat} {amount : Nat} (h : w.getD 0 + amount < 2 ^ 128) :
    accumulate w amount = some (w.getD 0 + amount) := by
  cases w with
  | none => simp [accumulate]
  | some n => exact congrArg some (u128Add_eq h)

section

variable {q : WaitingSum} {w : Option Nat}

/-- A row that does not add to a sum leaves it. -/
theorem addTo_of_ne {row : LedgerRow} (h : row.sum ≠ some q) :
    (row.addTo q w).getD 0 = w.getD 0 := by
  rw [LedgerRow.addTo, if_neg h]
  split <;> rfl

/-- A row of another rune leaves a sum as it is. -/
theorem addTo_of_runeId_ne {row : LedgerRow} (h : row.runeId ≠ q.runeId) : row.addTo q w = w := by
  rw [LedgerRow.addTo, if_neg fun hsum => h (runeId_of_sum hsum).symm, if_neg fun hid => h hid.1]

/-- **Sums in range are exact.** -/
theorem foldl_addTo_of_fits {rows : List LedgerRow} (h : w.getD 0 + added q rows < 2 ^ 128) :
    (rows.foldl (LedgerRow.addTo q) w).getD 0 = w.getD 0 + added q rows := by
  induction rows generalizing w with
  | nil => rfl
  | cons row rows ih =>
    -- a row adds to its own sum only
    have hone : added q [row] = if row.sum = some q then row.amount.getD 0 else 0 := by
      rw [added, tally_singleton]
      simp only [decide_eq_true_eq]
    rw [← List.singleton_append, added_append, hone] at h ⊢
    by_cases hsum : row.sum = some q
    · rw [if_pos hsum] at h ⊢
      have hfits : w.getD 0 + row.amount.getD 0 < 2 ^ 128 := by omega
      have hnext : row.addTo q w = some (w.getD 0 + row.amount.getD 0) := by
        rw [LedgerRow.addTo, if_pos hsum, accumulate_of_fits hfits]
      rw [List.singleton_append, List.foldl_cons,
        ih (by rw [hnext, Option.getD_some]; omega), hnext, Option.getD_some, Nat.add_assoc]
    · have hnext : (row.addTo q w).getD 0 = w.getD 0 := addTo_of_ne hsum
      rw [if_neg hsum, Nat.zero_add] at h ⊢
      rw [List.singleton_append, List.foldl_cons, ih (by rw [hnext]; exact h), hnext]

/-- Rows none of which adds to a sum leave it. -/
theorem foldl_addTo_of_forall_ne {rows : List LedgerRow} (h : ∀ row ∈ rows, row.sum ≠ some q) :
    (rows.foldl (LedgerRow.addTo q) w).getD 0 = w.getD 0 := by
  induction rows generalizing w with
  | nil => rfl
  | cons row rows ih =>
    obtain ⟨hrow, hrows⟩ := List.forall_mem_cons.mp h
    rw [List.foldl_cons, ih hrows, addTo_of_ne hrow]

/-- Only the rows of its rune matter for a sum. -/
theorem foldl_addTo_ofRune (es : List DbLedgerEntry) :
    (es.map DbLedgerEntry.row).foldl (LedgerRow.addTo q) w =
      ((ofRune q.runeId es).map DbLedgerEntry.row).foldl (LedgerRow.addTo q) w := by
  induction es generalizing w with
  | nil => rfl
  | cons e es ih =>
    have hrow : e.row.runeId = e.runeId := rfl
    rw [List.map_cons, List.foldl_cons, ih, ← List.singleton_append, ofRune_append, List.map_append,
      List.foldl_append, ofRune_singleton]
    split
    · rfl
    · next hid => rw [addTo_of_runeId_ne (q := q) (hrow.trans_ne hid), List.map_nil, List.foldl_nil]

theorem added_ofRune (es : List DbLedgerEntry) :
    added q (es.map DbLedgerEntry.row) = added q ((ofRune q.runeId es).map DbLedgerEntry.row) := by
  induction es with
  | nil => rfl
  | cons e es ih =>
    rw [← List.singleton_append, ofRune_append, List.map_append, List.map_append, added_append,
      added_append, ih, ofRune_singleton]
    split
    · rfl
    · next hid =>
      rw [List.map_singleton, added, tally_singleton, if_neg]
      · rfl
      · exact fun hsum => hid (runeId_of_sum (of_decide_eq_true hsum)).symm

end

/-! ## Counting an entry -/

/-- Counting an entry does to each sum what its row says. -/
theorem waiting_count (dbCache : DbCache) (e : DbLedgerEntry) (q : WaitingSum) :
    (dbCache.count e).waiting q = e.row.addTo q (dbCache.waiting q) := by
  cases q with
  | minted id | burned id =>
    rw [DbCache.waiting, DbCache.count, countSupply_eq_alter, HashMap.lookup_alter, DbCache.waiting]
    -- an entry of another rune leaves the sum of this one alone
    by_cases hid : id = e.runeId
    · subst hid
      cases hop : e.operation <;> cases dbCache.supplyChanges.lookup e.runeId <;>
        simp [LedgerRow.addTo, LedgerRow.sum, DbLedgerEntry.row, WaitingSum.runeId,
          WaitingSum.ofOwner, supplyStep, accumulate, DbLedgerEntry.counts, DbLedgerEntry.value,
          hop]
    · have hother : e.row.runeId ≠ id := Ne.symm hid
      rw [if_neg hid, addTo_of_runeId_ne hother]
  | received o =>
    -- an entry adds to the sum if it receives for the owner
    have hsum : e.row.sum = some (.received o) ↔ e.operation = .receive ∧ e.owner = some o := by
      cases hop : e.operation <;> cases ha : e.address <;>
        simp [LedgerRow.sum, DbLedgerEntry.row, DbLedgerEntry.owner, hop, ha]
    rw [DbCache.waiting, DbCache.count, lookup_countDirection, DbCache.waiting, LedgerRow.addTo]
    simp only [hsum, WaitingSum.ofOwner, Bool.true_eq_false, and_false, if_false]
    split
    · cases dbCache.balanceIncreases.lookup o <;> rfl
    · rfl
  | sent o =>
    -- an entry adds to the sum if it sends from the owner
    have hsum : e.row.sum = some (.sent o) ↔ e.operation = .send ∧ e.owner = some o := by
      cases hop : e.operation <;> cases ha : e.address <;>
        simp [LedgerRow.sum, DbLedgerEntry.row, DbLedgerEntry.owner, hop, ha]
    rw [DbCache.waiting, DbCache.count, lookup_countDirection, DbCache.waiting, LedgerRow.addTo]
    simp only [hsum, WaitingSum.ofOwner, Bool.true_eq_false, and_false, if_false]
    split
    · cases dbCache.balanceDeductions.lookup o <;> rfl
    · rfl

/-- **What entries make of a sum that waits** is what their rows make of it. -/
theorem Session.Adds.waiting_eq {es : List DbLedgerEntry} {s s' : Session} (h : s.Adds es s')
    (q : WaitingSum) :
    s'.waiting q = (es.map DbLedgerEntry.row).foldl (LedgerRow.addTo q) (s.waiting q) := by
  have hcount : ∀ (es : List DbLedgerEntry) (c : DbCache), (es.foldl DbCache.count c).waiting q =
      (es.map DbLedgerEntry.row).foldl (LedgerRow.addTo q) (c.waiting q) := by
    intro es
    induction es with
    | nil => exact fun _ => rfl
    | cons e es ih =>
      intro c
      rw [List.foldl_cons, ih, List.map_cons, List.foldl_cons, waiting_count]
  obtain ⟨runes, hdbCache⟩ := h.dbCache
  rw [Session.waiting, hdbCache]
  -- neither the runes nor the entries themselves are sums
  have hruns : ∀ (c : DbCache) (runes : List DbRune),
      ({ c with runes := runes } : DbCache).waiting q = c.waiting q := by
    intro c runes
    cases q <;> rfl
  have hentries : ∀ (c : DbCache) (es : List DbLedgerEntry),
      ({ c with ledgerEntries := es } : DbCache).waiting q = c.waiting q := by
    intro c es
    cases q <;> rfl
  rw [hruns, hcount, hentries]
  rfl

/-! ## What will be counted -/

/-- The counters that are no sums of amounts. -/
def SupplyCounter.IsCount (counter : SupplyCounter) : Prop := counter ≠ .minted ∧ counter ≠ .burned

/-- What `supply_changes` will have in a counter of a rune once what waits is inserted. -/
def Session.counterCounted (counter : SupplyCounter) (id : RuneId) (s : Session) : Nat :=
  ((s.db.latestSupply id).map fun r => r.counter counter).getD 0 +
    ((s.cache.dbCache.supplyChanges.lookup id).map fun c => c.counter counter).getD 0

/-- What `balance_changes` will have of an owner once what waits is inserted. -/
def Session.balanceCounted (o : RuneId × Address) (s : Session) : Int :=
  s.db.balanceOf o + ((s.waiting (.received o)).getD 0 : Nat) - ((s.waiting (.sent o)).getD 0 : Nat)

/-- While block `h` is indexed, the tables have a row wherever the ledger asks for one, and the
changes that wait are those of the entries that wait. Nothing is said of sums of amounts. -/
structure Session.InStep (h : Nat) (s : Session) : Prop where
  /-- `supply_changes` counts mints, burns and operations. -/
  supply : SupplyTables SupplyCounter.IsCount h s
  /-- The balance changes that wait count an operation each. -/
  operations : OperationsPending h s
  /-- `balance_changes` has a row of an owner at a height at which the ledger moves its balance. -/
  owners : ∀ o k, HasRow BalanceRow.owner BalanceRow.blockHeight s.db.balanceChanges o k ↔
    ∃ e ∈ s.db.ledger, e.Moves o ∧ e.blockHeight = k
  /-- It has no two of them. -/
  unique : UniqueRows BalanceRow.owner BalanceRow.blockHeight s.db.balanceChanges

/-- **Two sessions will count the same**, of amounts and of the operations of owners. -/
structure Session.CountsLike (s t : Session) : Prop where
  /-- What is minted and burned of a rune. -/
  amounts : ∀ counter, counter = .minted ∨ counter = .burned → ∀ id,
    s.counterCounted counter id = t.counterCounted counter id
  /-- What an owner has. -/
  balances : ∀ o, s.balanceCounted o = t.balanceCounted o
  /-- The operations of an owner. -/
  operations : ∀ o, s.operationsCounted o = t.operationsCounted o

@[simp] theorem Session.counterCounted_minted (id : RuneId) (s : Session) :
    s.counterCounted .minted id =
      ((s.db.latestSupply id).map DbSupplyChange.minted).getD 0 + (s.waiting (.minted id)).getD 0 :=
  rfl

@[simp] theorem Session.counterCounted_burned (id : RuneId) (s : Session) :
    s.counterCounted .burned id =
      ((s.db.latestSupply id).map DbSupplyChange.burned).getD 0 + (s.waiting (.burned id)).getD 0 :=
  rfl

theorem suppliesFit_isCount (es : List DbLedgerEntry) : SuppliesFit SupplyCounter.IsCount es := by
  rintro counter ⟨hminted, hburned⟩ (rfl | rfl)
  · exact absurd rfl hminted
  · exact absurd rfl hburned

theorem Session.CountsLike.trans {s t u : Session} (h : s.CountsLike t) (h' : t.CountsLike u) :
    s.CountsLike u :=
  ⟨fun counter hc id => (h.amounts counter hc id).trans (h'.amounts counter hc id),
    fun o => (h.balances o).trans (h'.balances o),
    fun o => (h.operations o).trans (h'.operations o)⟩

theorem Session.CountsLike.symm {s t : Session} (h : s.CountsLike t) : t.CountsLike s :=
  ⟨fun counter hc id => (h.amounts counter hc id).symm, fun o => (h.balances o).symm,
    fun o => (h.operations o).symm⟩

/-- What moves the balance of an owner is received or sent. -/
theorem moves_iff_directed (es : List DbLedgerEntry) (o : RuneId × Address) :
    (∃ e ∈ es, e.Moves o) ↔ 0 < directed .receive o es ∨ 0 < directed .send o es := by
  rw [directed, directed, List.countP_pos_iff, List.countP_pos_iff]
  simp only [decide_eq_true_eq, DbLedgerEntry.Moves]
  constructor
  · rintro ⟨e, he, hop | hop, ho⟩
    · exact Or.inl ⟨e, he, hop, ho⟩
    · exact Or.inr ⟨e, he, hop, ho⟩
  · rintro (⟨e, he, hop, ho⟩ | ⟨e, he, hop, ho⟩)
    · exact ⟨e, he, Or.inl hop, ho⟩
    · exact ⟨e, he, Or.inr hop, ho⟩

section

variable {h : Nat} {s s' : Session}

/-- Up to a height that no row exceeds, the latest row is the one that is read. -/
theorem balanceOf_eq_reading {db : Db} (hle : ∀ r ∈ db.balanceChanges, r.blockHeight ≤ h)
    (o : RuneId × Address) : db.balanceOf o = reading BalanceRow.owner BalanceRow.blockHeight
      BalanceRow.balance o (h + 1) db.balanceChanges := by
  rw [reading, latestBefore_eq_latest fun r hr => Nat.lt_succ_of_le (hle r hr)]
  rfl

/-- One pass over the changes of a direction adds what waits, or takes it away. -/
theorem DirectionPending.balanceOf_insert {db : Db} {es : List DbLedgerEntry}
    {operation : DbLedgerOperation} {changes : HashMap (RuneId × Address) DbBalanceChange}
    (hp : DirectionPending h operation changes es) (increase : Bool)
    (hle : ∀ r ∈ db.balanceChanges, r.blockHeight ≤ h) (o : RuneId × Address) :
    (pgInsertBalanceChanges changes.values increase db).balanceOf o = db.balanceOf o +
      if increase then ((((changes.lookup o).map DbBalanceChange.balance).getD 0 : Nat) : Int)
      else -((((changes.lookup o).map DbBalanceChange.balance).getD 0 : Nat) : Int) := by
  rw [balanceOf_eq_reading (hp.insert_le increase hle), balanceOf_eq_reading hle, hp.rows_eq,
    reading_batch (mergeBalance_owner increase) (hp.mergeBalance_height increase)
      (balance_mergeBalance increase) (HashMap.nodup_values hp.owner_eq) hle,
    HashMap.find?_values hp.owner_eq, if_pos (Nat.lt_succ_self h)]
  cases changes.lookup o <;> cases increase <;> simp

/-- A flush keeps what will be counted of a rune. -/
theorem SupplyTables.counterCounted_flush {C : SupplyCounter → Prop} (hs : SupplyTables C h s)
    (hflush : s.flush = some s') (counter : SupplyCounter) (id : RuneId) :
    s'.counterCounted counter id = s.counterCounted counter id := by
  obtain ⟨db, hdb, rfl⟩ := Session.flush_eq_some.mp hflush
  -- a waiting change is filed under its rune and has the height of the step
  have hkey : ∀ id c, s.cache.dbCache.supplyChanges.lookup id = some c → c.runeId = id :=
    fun id c hc => (hs.pendingSupply.key id c hc).1
  have hheight : ∀ c ∈ s.cache.dbCache.supplyChanges.values, ∀ p,
      (mergeSupply p c).blockHeight = h := by
    intro c hc p
    obtain ⟨id, hid⟩ := HashMap.mem_values_iff.mp hc
    exact (hs.pendingSupply.key id c hid).2
  have hle := hs.supply.height_le hs.height_le
  -- the chunks of the statement merge one change after another
  have hrows : db.supplyChanges = s.cache.dbCache.supplyChanges.values.foldl
      (mergeOne DbSupplyChange.runeId DbSupplyChange.blockHeight DbSupplyChange.runeId mergeSupply)
      s.db.supplyChanges :=
    (DbCache.flush_tables hdb).1.trans
      (foldl_mergeStatement_chunks mergeSupply_runeId 500 (HashMap.nodup_values hkey) _)
  have hle' : ∀ r ∈ db.supplyChanges, r.blockHeight ≤ h := by
    intro r hr
    rw [hrows] at hr
    rcases (hasRow_batch mergeSupply_runeId hheight r.runeId r.blockHeight).mp
        ⟨r, hr, rfl, rfl⟩ with
      ⟨r', hr', -, heq⟩ | ⟨heq, -⟩
    · exact heq ▸ hle r' hr'
    · exact Nat.le_of_eq heq
  -- the latest row is the reading after the height
  have hread : ∀ {rows : List DbSupplyChange}, (∀ r ∈ rows, r.blockHeight ≤ h) →
      ((latest DbSupplyChange.runeId DbSupplyChange.blockHeight id rows).map
        fun r => r.counter counter).getD 0 =
          reading DbSupplyChange.runeId DbSupplyChange.blockHeight
          (fun r => r.counter counter) id (h + 1) rows := by
    intro rows hrows
    rw [reading, latestBefore_eq_latest fun r hr => Nat.lt_succ_of_le (hrows r hr)]
  show ((latest _ _ id db.supplyChanges).map fun r => r.counter counter).getD 0 + 0 = _
  rw [Session.counterCounted, Db.latestSupply, hread hle', hread hle, hrows,
    reading_batch mergeSupply_runeId hheight (counter_mergeSupply counter)
      (HashMap.nodup_values hkey)
      hle, HashMap.find?_values hkey, if_pos (Nat.lt_succ_self h), Nat.add_zero]

/-- **A flush keeps everything in step**, and what will be counted. -/
theorem Session.InStep.flush (hs : s.InStep h) (hflush : s.flush = some s') :
    s'.InStep h ∧ s'.CountsLike s := by
  obtain ⟨hoperations, hcounts⟩ := hs.operations.flush hflush
  have hsupply := hs.supply.flush hflush
  have hamounts := hs.supply.counterCounted_flush hflush
  obtain ⟨db, hdb, rfl⟩ := Session.flush_eq_some.mp hflush
  have hchanges := (DbCache.flush_tables hdb).2
  have hledger : db.ledger = s.db.ledger ++ s.pending := DbCache.flush_ledger hdb
  have hle := hs.operations.increases.insert_le true hs.operations.rows_le
  refine ⟨⟨hsupply, hoperations, fun o k => ?_, ?_⟩,
    ⟨fun counter _ id => hamounts counter id, fun o => ?_, fun o => (hcounts o).1⟩⟩
  -- an owner has a row at a height if an entry of that height moved something of it
  · show HasRow _ _ db.balanceChanges o k ↔ ∃ e ∈ db.ledger, e.Moves o ∧ e.blockHeight = k
    rw [hchanges, hs.operations.deductions.hasRow_insert, hs.operations.increases.hasRow_insert,
      hs.owners, hledger, or_assoc, ← and_or_left, ← moves_iff_directed]
    constructor
    · rintro (⟨e, he, hk⟩ | ⟨rfl, e, he, hmoves⟩)
      · exact ⟨e, List.mem_append_left _ he, hk⟩
      · exact ⟨e, List.mem_append_right _ he, hmoves, hs.supply.pending_height e he⟩
    · rintro ⟨e, he, hmoves, rfl⟩
      rcases List.mem_append.mp he with he | he
      · exact Or.inl ⟨e, he, hmoves, rfl⟩
      · exact Or.inr ⟨hs.supply.pending_height e he, e, he, hmoves⟩
  · show UniqueRows _ _ db.balanceChanges
    rw [hchanges, hs.operations.deductions.rows_eq, hs.operations.increases.rows_eq]
    exact hs.unique.batch.batch
  -- the balance of an owner is what the two waiting sums bring to it
  · have hbalance :
        db.balanceOf o =
          (pgInsertBalanceChanges s.cache.dbCache.balanceDeductions.values false
            (pgInsertBalanceChanges s.cache.dbCache.balanceIncreases.values true
              s.db)).balanceOf o := by
      rw [Db.balanceOf, hchanges, ← Db.balanceOf]
    show db.balanceOf o + ((0 : Nat) : Int) - ((0 : Nat) : Int) = _
    rw [hbalance, hs.operations.deductions.balanceOf_insert false hle,
      hs.operations.increases.balanceOf_insert true hs.operations.rows_le, Session.balanceCounted]
    simp only [if_true, Bool.false_eq_true, if_false, Session.waiting, DbCache.waiting]
    omega

/-- **Writing keeps everything in step**, whatever flushes there are in between. -/
theorem Session.InStep.writes {es : List DbLedgerEntry} {rs : List DbRune}
    (hwrites : s.Writes es rs s') :
    s.InStep h → (∀ e ∈ es, e.blockHeight = h) → s'.InStep h := by
  -- by induction on what was written: the sums wait until a flush
  induction hwrites with
  | quiet hq =>
    intro hs hes
    have hwrites := Session.Writes.quiet hq
    refine ⟨hs.supply.writes hwrites hes (suppliesFit_isCount _),
      hs.operations.writes hwrites hes, ?_, ?_⟩
    · rw [hq.db]
      exact hs.owners
    · rw [hq.db]
      exact hs.unique
  | flush hflush => exact fun hs _ => (hs.flush hflush).1
  | pushRune s rune =>
    intro hs hes
    have hwrites := Session.Writes.pushRune s rune
    exact ⟨hs.supply.writes hwrites hes (suppliesFit_isCount _), hs.operations.writes hwrites hes,
      hs.owners, hs.unique⟩
  | @add s s' es hadd =>
    intro hs hes
    have hsupply := hs.supply.writes (.add hadd) hes (suppliesFit_isCount _)
    have hoperations := hs.operations.writes (.add hadd) hes
    obtain ⟨-, rfl⟩ := Session.addLedgerEntriesToDbCache_eq_some.mp hadd
    exact ⟨hsupply, hoperations, hs.owners, hs.unique⟩
  | trans _ _ ih ih' =>
    intro hs hes
    exact ih' (ih hs fun e he => hes e (List.mem_append_left _ he))
      fun e he => hes e (List.mem_append_right _ he)

/-- Writing no entries changes nothing of what will be counted. -/
theorem Session.InStep.countsLike {es : List DbLedgerEntry} {rs : List DbRune}
    (hwrites : s.Writes es rs s') : s.InStep h → es = [] → s'.CountsLike s := by
  induction hwrites with
  | quiet hq =>
    intro _ _
    refine ⟨fun counter _ id => ?_, fun o => ?_, fun o => ?_⟩
    · rw [Session.counterCounted, Session.counterCounted, hq.db, hq.dbCache]
    · rw [Session.balanceCounted, Session.balanceCounted, Session.waiting, Session.waiting,
        Session.waiting, Session.waiting, hq.db, hq.dbCache]
    · rw [Session.operationsCounted, Session.operationsCounted, Session.pending, Session.pending,
        hq.db, hq.dbCache]
  | flush hflush => exact fun hs _ => (hs.flush hflush).2
  | pushRune s rune => exact fun _ _ => ⟨fun _ _ _ => rfl, fun _ => rfl, fun _ => rfl⟩
  | @add s s' es hadd =>
    -- nothing is added, so no sum changes
    rintro - rfl
    obtain ⟨-, rfl⟩ := Session.addLedgerEntriesToDbCache_eq_some.mp hadd
    refine ⟨fun _ _ _ => rfl, fun _ => rfl, fun o => ?_⟩
    rw [Session.operationsCounted, Session.operationsCounted, Session.pending, Session.pending,
      foldl_count_ledgerEntries]
    simp only [List.append_nil]
  | @trans s t u es es' rs rs' hst htu ih ih' =>
    intro hs hnil
    obtain ⟨rfl, rfl⟩ := List.append_eq_nil_iff.mp hnil
    exact (ih' (hs.writes hst fun e he => absurd he List.not_mem_nil) rfl).trans (ih hs rfl)

end

/-! ## Two processes -/

/-- **A sum comes to the same in two processes** when an amount is added to it: either the same
waits in both, or the sums stay in the range of a `u128`. Of an owner something waits in both or in
neither, since a sum that starts counts one operation. -/
def WaitingSum.Alike (q : WaitingSum) (amount : Nat) (w w' : Option Nat) : Prop :=
  w = w' ∨ w.getD 0 + amount < 2 ^ 128 ∧ w'.getD 0 + amount < 2 ^ 128 ∧
    (q.ofOwner = true → w.isSome = w'.isSome)

instance (q : WaitingSum) (amount : Nat) (w w' : Option Nat) : Decidable (q.Alike amount w w') :=
  inferInstanceAs (Decidable (_ ∨ _))

theorem SameRows.row_eq {es es' : List DbLedgerEntry} (h : SameRows es es') (id : RuneId) :
    (ofRune id es).map DbLedgerEntry.row = (ofRune id es').map DbLedgerEntry.row := by
  have hrow : ∀ l : List DbLedgerEntry, l.map DbLedgerEntry.row =
      (l.map DbLedgerEntry.unnumbered).map DbLedgerEntry.row := by
    intro l
    rw [List.map_map]
    rfl
  rw [hrow, h id, ← hrow]

section

variable {h : Nat} {s s' t t' u v : Session} {es es' : List DbLedgerEntry}

/-- **A sum grows by the same** in two processes that add the same rows to it, if it is alike. -/
theorem waiting_gain (hu : u.Adds es s') (hv : v.Adds es' t') (hrows : SameRows es es')
    {q : WaitingSum} (halike : ∀ e ∈ es, e.row.sum = some q →
      q.Alike (added q (es.map DbLedgerEntry.row)) (u.waiting q) (v.waiting q)) :
    (s'.waiting q).getD 0 + (v.waiting q).getD 0 =
      (t'.waiting q).getD 0 + (u.waiting q).getD 0 := by
  have hadded : added q (es.map DbLedgerEntry.row) = added q (es'.map DbLedgerEntry.row) := by
    rw [added_ofRune, hrows.row_eq, ← added_ofRune]
  by_cases hany : ∃ e ∈ es, e.row.sum = some q
  · obtain ⟨e, he, hsum⟩ := hany
    rcases halike e he hsum with hsame | ⟨hfits, hfits', -⟩
    · rw [hu.waiting_eq, hv.waiting_eq, hsame, foldl_addTo_ofRune,
        hrows.row_eq, ← foldl_addTo_ofRune]
    · rw [hu.waiting_eq, hv.waiting_eq, foldl_addTo_of_fits hfits,
        foldl_addTo_of_fits (hadded ▸ hfits'), hadded]
      omega
  · have hnone : ∀ row ∈ es.map DbLedgerEntry.row, row.sum ≠ some q := by
      intro row hrow hsum
      obtain ⟨e, he, rfl⟩ := List.mem_map.mp hrow
      exact hany ⟨e, he, hsum⟩
    have hnone' : ∀ row ∈ es'.map DbLedgerEntry.row, row.sum ≠ some q := by
      intro row hrow hsum
      obtain ⟨e', he', rfl⟩ := List.mem_map.mp hrow
      obtain ⟨e, he, heq⟩ := hrows.symm.exists_mem he'
      have hsame : e.row = e'.row := (congrArg DbLedgerEntry.row heq :)
      exact hany ⟨e, he, hsame ▸ hsum⟩
    rw [hu.waiting_eq, hv.waiting_eq, foldl_addTo_of_forall_ne hnone,
      foldl_addTo_of_forall_ne hnone', Nat.add_comm]

/-- A sum of an owner waits if an entry that is in it does. -/
theorem OperationsPending.waiting_isSome (hs : OperationsPending h s) (o : RuneId × Address) :
    ((s.waiting (.received o)).isSome ↔ 0 < directed .receive o s.pending) ∧
      ((s.waiting (.sent o)).isSome ↔ 0 < directed .send o s.pending) := by
  rw [← hs.increases.isSome, ← hs.deductions.isSome, Session.waiting, Session.waiting,
    DbCache.waiting, DbCache.waiting, Option.isSome_map, Option.isSome_map]
  exact ⟨Iff.rfl, Iff.rfl⟩

/-- An entry that moves the balance of an owner adds to a sum of that owner. -/
theorem sum_of_moves {e : DbLedgerEntry} {o : RuneId × Address} (ho : e.owner = some o) :
    (e.operation = .receive → e.row.sum = some (.received o)) ∧
      (e.operation = .send → e.row.sum = some (.sent o)) := by
  obtain ⟨a, ha, rfl⟩ := Option.map_eq_some_iff.mp ho
  constructor <;> intro hop <;> simp [LedgerRow.sum, DbLedgerEntry.row, hop, ha]

/-- **The same will be counted** after two processes added the same rows, if each sum that they
add to is alike. -/
theorem Session.CountsLike.adds (h : u.CountsLike v) (hu : u.Adds es s')
    (hv : v.Adds es' t') {k : Nat} (hstep : u.InStep k) (hstep' : v.InStep k)
    (hrows : SameRows es es') (halike : ∀ e ∈ es, ∀ q ∈ e.row.sum,
      q.Alike (added q (es.map DbLedgerEntry.row)) (u.waiting q) (v.waiting q)) :
      s'.CountsLike t' := by
  have hgain : ∀ q, (s'.waiting q).getD 0 + (v.waiting q).getD 0 =
      (t'.waiting q).getD 0 + (u.waiting q).getD 0 :=
    fun q => waiting_gain hu hv hrows fun e he hsum => halike e he q hsum
  refine ⟨?_, fun o => ?_, fun o => ?_⟩
  · rintro counter (rfl | rfl) id
    · have hbefore := h.amounts .minted (Or.inl rfl) id
      have hamount := hgain (.minted id)
      simp only [Session.counterCounted_minted, hu.db, hv.db] at hbefore ⊢
      omega
    · have hbefore := h.amounts .burned (Or.inr rfl) id
      have hamount := hgain (.burned id)
      simp only [Session.counterCounted_burned, hu.db, hv.db] at hbefore ⊢
      omega
  · have hbefore := h.balances o
    have hreceived := hgain (.received o)
    have hsent := hgain (.sent o)
    simp only [Session.balanceCounted, hu.db, hv.db] at hbefore ⊢
    omega
  · have hbefore := h.operations o
    -- what is moved for an owner waits in both or in none, so that it counts in both or in none
    have hwaits : ∀ operation q, (∀ e : DbLedgerEntry, e.operation = operation → e.owner = some o →
          e.row.sum = some q) → q.ofOwner = true →
        ((u.waiting q).isSome ↔ 0 < directed operation o u.pending) →
        ((v.waiting q).isSome ↔ 0 < directed operation o v.pending) → 0 < directed operation o es →
        (0 < directed operation o u.pending ↔ 0 < directed operation o v.pending) := by
      intro operation q hq howner hsome hsome' hpos
      obtain ⟨e, he, hmoves⟩ := List.countP_pos_iff.mp hpos
      obtain ⟨hop, ho⟩ := of_decide_eq_true hmoves
      rw [← hsome, ← hsome']
      rcases halike e he q (hq e hop ho) with hsame | ⟨-, -, hsame⟩
      · rw [hsame]
      · rw [hsame howner]
    have hreceive := hwaits .receive (.received o) (fun e hop ho => (sum_of_moves ho).1 hop) rfl
      (hstep.operations.waiting_isSome o).1 (hstep'.operations.waiting_isSome o).1
    have hsend := hwaits .send (.sent o) (fun e hop ho => (sum_of_moves ho).2 hop) rfl
      (hstep.operations.waiting_isSome o).2 (hstep'.operations.waiting_isSome o).2
    simp only [Session.operationsCounted, hu.db, hv.db, hu.pending, hv.pending, directed_append,
      ← hrows.directed_eq] at hbefore ⊢
    omega

end

end Runehook
