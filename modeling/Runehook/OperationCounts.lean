import Mathlib.Algebra.BigOperators.Group.List.Lemmas
import Mathlib.Algebra.Order.BigOperators.Group.List
import Mathlib.Algebra.Order.Group.Nat
import Mathlib.Data.List.Dedup
import Runehook.Stages
import Runehook.Tables

/-! # Counting the operations of addresses

`balance_changes` has a count of the operations of an address next to its balance. A change that
waits to be inserted counts one operation when it is made, and `add_ledger_entries_to_db_cache` adds
later amounts to it without counting them, where it counts every operation of `supply_changes`. The
counts are those of the ledger exactly if no two entries of one operation and owner ever wait
together (`CountedOnce`, `Stage.CountsOnce`). `OperationsTracked` is the invariant,
`OperationsTracked.call` its step, and `totalOperations_eq_iff` the result on runs. -/

namespace Runehook

open Lib

/-! ## Counts -/

instance (e : DbLedgerEntry) (owner : RuneId × Address) : Decidable (e.Moves owner) :=
  inferInstanceAs (Decidable (_ ∧ _))

/-- How many entries of one operation an owner has. -/
def directed (operation : DbLedgerOperation) (owner : RuneId × Address)
    (es : List DbLedgerEntry) : Nat :=
  es.countP fun e => e.operation = operation ∧ e.owner = some owner

/-- How many `send` and `receive` entries an owner has. -/
def operationsOf (owner : RuneId × Address) (es : List DbLedgerEntry) : Nat :=
  es.countP fun e => e.Moves owner

/-- The `total_operations` that `balance_changes` has for an address: that of the row with the
greatest block height. -/
def Db.totalOperationsOf (owner : RuneId × Address) (db : Db) : Nat :=
  ((latest BalanceRow.owner BalanceRow.blockHeight owner db.balanceChanges).map
    BalanceRow.totalOperations).getD 0

@[simp] theorem directed_nil (operation : DbLedgerOperation) (owner : RuneId × Address) :
    directed operation owner [] = 0 := rfl

@[simp] theorem directed_append (operation : DbLedgerOperation) (owner : RuneId × Address)
    (es es' : List DbLedgerEntry) :
    directed operation owner (es ++ es') = directed operation owner es +
      directed operation owner es' :=
  List.countP_append

theorem directed_singleton (operation : DbLedgerOperation) (owner : RuneId × Address)
    (e : DbLedgerEntry) :
    directed operation owner [e] = if e.operation = operation ∧ e.owner = some owner then 1
    else 0 := by
  rw [directed, List.countP_singleton]
  simp only [decide_eq_true_eq]

@[simp] theorem operationsOf_nil (owner : RuneId × Address) : operationsOf owner [] = 0 := rfl

@[simp] theorem operationsOf_append (owner : RuneId × Address) (es es' : List DbLedgerEntry) :
    operationsOf owner (es ++ es') = operationsOf owner es + operationsOf owner es' :=
  List.countP_append

theorem operationsOf_eq (owner : RuneId × Address) (es : List DbLedgerEntry) :
    operationsOf owner es = directed .receive owner es + directed .send owner es := by
  induction es with
  | nil => rfl
  | cons e es ih =>
    rw [← List.singleton_append, operationsOf_append, directed_append, directed_append, ih,
      directed_singleton, directed_singleton, operationsOf, List.countP_singleton]
    -- an entry moves something of its owner by a receive or by a send
    by_cases hreceive : e.operation = .receive
    · simp only [DbLedgerEntry.Moves, hreceive, true_or, true_and, decide_eq_true_eq,
        reduceCtorEq, false_and, if_false]
      omega
    · by_cases hsend : e.operation = .send
      · simp only [DbLedgerEntry.Moves, hsend, or_true, true_and, decide_eq_true_eq,
          reduceCtorEq, false_and, if_false]
        omega
      · simp only [DbLedgerEntry.Moves, hreceive, hsend, or_self, false_and, decide_false,
          Bool.false_eq_true, if_false]
        omega

/-- An owner has no two entries of one operation. -/
def CountedOnce (owner : RuneId × Address) (es : List DbLedgerEntry) : Prop :=
  directed .receive owner es ≤ 1 ∧ directed .send owner es ≤ 1

instance (owner : RuneId × Address) (es : List DbLedgerEntry) : Decidable (CountedOnce owner es) :=
  inferInstanceAs (Decidable (_ ∧ _))

theorem CountedOnce.left {owner : RuneId × Address} {es es' : List DbLedgerEntry}
    (h : CountedOnce owner (es ++ es')) : CountedOnce owner es := by
  simp only [CountedOnce, directed_append] at h ⊢
  omega

/-! ## The changes that wait -/

/-- The changes of one direction that wait to be inserted are those of the owners of the entries
`es` of height `h`, and each counts one operation. -/
structure DirectionPending (h : Nat) (operation : DbLedgerOperation)
    (changes : HashMap (RuneId × Address) DbBalanceChange) (es : List DbLedgerEntry) : Prop where
  /-- A change is one operation of its owner, at the height. -/
  change : ∀ o c, changes.lookup o = some c → c.owner = o ∧ c.blockHeight = h ∧
      c.totalOperations = 1
  /-- There is one for each owner of an entry. -/
  isSome : ∀ o, (changes.lookup o).isSome ↔ 0 < directed operation o es

theorem DirectionPending.nil (h : Nat) (operation : DbLedgerOperation) :
    DirectionPending h operation ∅ [] where
  change o c hc := by
    rw [HashMap.lookup_empty] at hc
    cases hc
  isSome o := by simp

/-- One more entry makes a change, or adds to one without counting. -/
theorem DirectionPending.add {h : Nat} {operation : DbLedgerOperation}
    {changes : HashMap (RuneId × Address) DbBalanceChange} {es : List DbLedgerEntry}
    {e : DbLedgerEntry} (hp : DirectionPending h operation changes es) (he : e.blockHeight = h) :
    DirectionPending h operation (countDirection operation changes e) (es ++ [e]) := by
  constructor
  · intro o c hc
    rw [lookup_countDirection] at hc
    split at hc
    · rw [← Option.some.inj hc]
      cases hlookup : changes.lookup o with
      | none => exact ⟨rfl, he, rfl⟩
      | some i => exact hp.change o i hlookup
    · exact hp.change o c hc
  · intro o
    rw [lookup_countDirection, directed_append, directed_singleton]
    split
    · exact iff_of_true rfl (by omega)
    · rw [hp.isSome, Nat.add_zero]

theorem DirectionPending.foldl_count {h : Nat} {dbCache : DbCache} {done : List DbLedgerEntry}
    (hinc : DirectionPending h .receive dbCache.balanceIncreases done)
    (hdec : DirectionPending h .send dbCache.balanceDeductions done) {es : List DbLedgerEntry}
    (hes : ∀ e ∈ es, e.blockHeight = h) :
    DirectionPending h .receive (es.foldl DbCache.count dbCache).balanceIncreases (done ++ es) ∧
      DirectionPending h .send (es.foldl DbCache.count dbCache).balanceDeductions (done ++ es) := by
  induction es generalizing dbCache done with
  | nil =>
    rw [List.append_nil]
    exact ⟨hinc, hdec⟩
  | cons e es ih =>
    obtain ⟨he, hes⟩ := List.forall_mem_cons.mp hes
    rw [← List.singleton_append, ← List.append_assoc]
    exact ih (hinc.add he) (hdec.add he) hes

/-! ## Inserting -/

theorem totalOperations_mergeBalance (increase : Bool) (p : Option BalanceRow)
    (c : DbBalanceChange) :
    (mergeBalance increase p c).totalOperations =
      (p.map BalanceRow.totalOperations).getD 0 + c.totalOperations := rfl

/-- The count is what the table says at every height that no row exceeds. -/
theorem totalOperationsOf_eq {db : Db} {h : Nat} (hle : ∀ r ∈ db.balanceChanges, r.blockHeight ≤ h)
    (owner : RuneId × Address) :
      db.totalOperationsOf owner = reading BalanceRow.owner BalanceRow.blockHeight
      BalanceRow.totalOperations owner (h + 1) db.balanceChanges := by
  rw [reading, latestBefore_eq_latest fun r hr => Nat.lt_succ_of_le (hle r hr)]
  rfl

section

variable {db : Db} {es : List DbLedgerEntry} {h : Nat} {operation : DbLedgerOperation}
  {changes : HashMap (RuneId × Address) DbBalanceChange}

/-- The owner of a change that waits is its key. -/
theorem DirectionPending.owner_eq (hp : DirectionPending h operation changes es) :
    ∀ o c, changes.lookup o = some c → c.owner = o := fun o c hc => (hp.change o c hc).1

/-- What is inserted for a change that waits is at the height of the block. -/
theorem DirectionPending.mergeBalance_height (hp : DirectionPending h operation changes es)
    (increase : Bool) : ∀ c ∈ changes.values, ∀ p, (mergeBalance increase p c).blockHeight = h := by
  intro c hc _
  obtain ⟨o, ho⟩ := HashMap.mem_values_iff.mp hc
  exact (hp.change o c ho).2.1

/-- One pass over the changes of a direction is one batch. -/
theorem DirectionPending.rows_eq (hp : DirectionPending h operation changes es) (increase : Bool) :
    (pgInsertBalanceChanges changes.values increase db).balanceChanges =
      changes.values.foldl (mergeOne BalanceRow.owner BalanceRow.blockHeight DbBalanceChange.owner
        (mergeBalance increase)) db.balanceChanges :=
  foldl_mergeStatement_chunks (mergeBalance_owner increase) 500
    (HashMap.nodup_values hp.owner_eq) db.balanceChanges

/-- **The rows after one pass**: there is one more for each owner that something waits for. -/
theorem DirectionPending.hasRow_insert (hp : DirectionPending h operation changes es)
    (increase : Bool) (o : RuneId × Address) (k : Nat) :
    HasRow BalanceRow.owner BalanceRow.blockHeight
        (pgInsertBalanceChanges changes.values increase db).balanceChanges o k ↔
      HasRow BalanceRow.owner BalanceRow.blockHeight db.balanceChanges o k ∨
        (k = h ∧ 0 < directed operation o es) := by
  rw [hp.rows_eq, hasRow_batch (mergeBalance_owner increase) (hp.mergeBalance_height increase),
    ← hp.isSome]
  refine or_congr_right (and_congr_right fun _ => ?_)
  constructor
  · rintro ⟨c, hc, rfl⟩
    obtain ⟨o, ho⟩ := HashMap.mem_values_iff.mp hc
    rw [hp.owner_eq o c ho, ho]
    rfl
  · intro hsome
    obtain ⟨c, hc⟩ := Option.isSome_iff_exists.mp hsome
    exact ⟨c, HashMap.mem_values_of_lookup hc, hp.owner_eq o c hc⟩

/-- No row is above the block. -/
theorem DirectionPending.insert_le (hp : DirectionPending h operation changes es) (increase : Bool)
    (hle : ∀ r ∈ db.balanceChanges, r.blockHeight ≤ h) :
    ∀ r ∈ (pgInsertBalanceChanges changes.values increase db).balanceChanges,
    r.blockHeight ≤ h := by
  intro r hr
  rcases (hp.hasRow_insert increase r.owner r.blockHeight).mp ⟨r, hr, rfl, rfl⟩ with
    ⟨r', hr', -, heq⟩ | ⟨heq, -⟩
  · exact heq ▸ hle r' hr'
  · exact Nat.le_of_eq heq

/-- **One pass over the changes of a direction** counts one operation for each owner that has
any. -/
theorem DirectionPending.operations_insert (hp : DirectionPending h operation changes es)
    (increase : Bool) (hle : ∀ r ∈ db.balanceChanges, r.blockHeight ≤ h) (o : RuneId × Address) :
    (pgInsertBalanceChanges changes.values increase db).totalOperationsOf o =
        db.totalOperationsOf o + min 1 (directed operation o es) ∧
      ((∃ r ∈ (pgInsertBalanceChanges changes.values increase db).balanceChanges, r.owner = o) ↔
        (∃ r ∈ db.balanceChanges, r.owner = o) ∨ 0 < directed operation o es) := by
  refine ⟨?_, ?_⟩
  -- the latest row of the owner adds the one operation of the merged change
  · rw [totalOperationsOf_eq (hp.insert_le increase hle), totalOperationsOf_eq hle, hp.rows_eq,
      reading_batch (mergeBalance_owner increase) (hp.mergeBalance_height increase)
        (totalOperations_mergeBalance increase) (HashMap.nodup_values hp.owner_eq) hle,
      HashMap.find?_values hp.owner_eq, if_pos (Nat.lt_succ_self h)]
    have hsome := hp.isSome o
    cases hlookup : changes.lookup o with
    | none =>
      rw [hlookup] at hsome
      have hzero : ¬ 0 < directed operation o es := fun hpos => Bool.noConfusion (hsome.mpr hpos)
      rw [Option.map_none, Option.getD_none, Nat.eq_zero_of_not_pos hzero]
      rfl
    | some c =>
      rw [hlookup] at hsome
      have hpos : 0 < directed operation o es := hsome.mp rfl
      rw [Option.map_some, Option.getD_some, (hp.change o c hlookup).2.2, Nat.min_eq_left hpos]
  -- the owner has a row if it had one or a change waits for it
  · constructor
    · rintro ⟨r, hr, rfl⟩
      rcases (hp.hasRow_insert increase r.owner r.blockHeight).mp ⟨r, hr, rfl, rfl⟩ with
        ⟨r', hr', heq, -⟩ | ⟨-, hpos⟩
      · exact Or.inl ⟨r', hr', heq⟩
      · exact Or.inr hpos
    · rintro (⟨r, hr, rfl⟩ | hpos)
      · obtain ⟨r', hr', heq, -⟩ :=
          (hp.hasRow_insert increase r.owner r.blockHeight).mpr (Or.inl ⟨r, hr, rfl, rfl⟩)
        exact ⟨r', hr', heq⟩
      · obtain ⟨r', hr', heq, -⟩ := (hp.hasRow_insert increase o h).mpr (Or.inr ⟨rfl, hpos⟩)
        exact ⟨r', hr', heq⟩

end

/-! ## Sessions -/

/-- While block `h` is indexed, `balance_changes` has no row above it, and the changes that wait are
those of the entries that wait. -/
structure OperationsPending (h : Nat) (s : Session) : Prop where
  /-- The table has no row above the height. -/
  rows_le : ∀ r ∈ s.db.balanceChanges, r.blockHeight ≤ h
  /-- The increases that wait are those of the `receive` entries. -/
  increases : DirectionPending h .receive s.cache.dbCache.balanceIncreases s.pending
  /-- The deductions that wait are those of the `send` entries. -/
  deductions : DirectionPending h .send s.cache.dbCache.balanceDeductions s.pending

/-- The operations of an owner that `balance_changes` counts once what waits is inserted. -/
def Session.operationsCounted (owner : RuneId × Address) (s : Session) : Nat :=
  s.db.totalOperationsOf owner + min 1 (directed .receive owner s.pending) +
    min 1 (directed .send owner s.pending)

section

variable {h : Nat} {s s' : Session}

/-- **A flush** counts what is there to be counted, for the owners of what waits. -/
theorem OperationsPending.flush (hs : OperationsPending h s) (hflush : s.flush = some s') :
    OperationsPending h s' ∧ ∀ o, s'.db.totalOperationsOf o = s.operationsCounted o ∧
      ((∃ r ∈ s'.db.balanceChanges, r.owner = o) ↔
        (∃ r ∈ s.db.balanceChanges, r.owner = o) ∨ 0 < operationsOf o s.pending) := by
  obtain ⟨db, hdb, rfl⟩ := Session.flush_eq_some.mp hflush
  have hchanges := (DbCache.flush_tables hdb).2
  have hle := hs.increases.insert_le true hs.rows_le
  have hle' := hs.deductions.insert_le false hle
  have hinc := hs.increases.operations_insert true hs.rows_le
  have hdec := hs.deductions.operations_insert false hle
  refine ⟨⟨hchanges ▸ hle', .nil h _, .nil h _⟩, fun o => ⟨?_, ?_⟩⟩
  · rw [Session.operationsCounted, Db.totalOperationsOf, hchanges, ← (hinc o).1, ← (hdec o).1]
    rfl
  · show (∃ r ∈ db.balanceChanges, r.owner = o) ↔ _
    rw [hchanges, (hdec o).2, (hinc o).2, operationsOf_eq, or_assoc]
    refine or_congr_right ?_
    omega

/-- **Writing** keeps what waits in step with the entries. -/
theorem OperationsPending.writes {es : List DbLedgerEntry} {rs : List DbRune}
    (hwrites : s.Writes es rs s') :
    OperationsPending h s → (∀ e ∈ es, e.blockHeight = h) → OperationsPending h s' := by
  induction hwrites with
  | quiet hq =>
    rintro ⟨h1, h2, h3⟩ _
    simp only [Session.pending] at h2 h3
    constructor <;> simp only [Session.pending, hq.db, hq.dbCache] <;> assumption
  | flush hflush => exact fun hs _ => (hs.flush hflush).1
  | pushRune s rune => exact fun hs _ => ⟨hs.1, hs.2, hs.3⟩
  -- the entries wait in both directions, one after another
  | @add s s' es hadd =>
    intro hs hes
    obtain ⟨-, rfl⟩ := Session.addLedgerEntriesToDbCache_eq_some.mp hadd
    let dbCache : DbCache := { s.cache.dbCache with
      ledgerEntries := s.cache.dbCache.ledgerEntries ++ es }
    have hpending :=
      @DirectionPending.foldl_count h dbCache s.pending hs.increases hs.deductions es hes
    refine ⟨hs.rows_le, ?_, ?_⟩ <;> rw [Session.pending, foldl_count_ledgerEntries]
    · exact hpending.1
    · exact hpending.2
  | trans _ _ ih ih' =>
    intro hs hes
    exact ih' (ih hs fun e he => hes e (List.mem_append_left _ he)) fun e he =>
      hes e (List.mem_append_right _ he)

end

/-- While block `h` is indexed, `balance_changes` counts no more operations of an owner than the
ledger has, of the owners that the ledger has, and the changes that wait are those of the entries
that wait. -/
structure OperationsTracked (h : Nat) (s : Session) : Prop where
  /-- The table has no row above the height. -/
  rows_le : ∀ r ∈ s.db.balanceChanges, r.blockHeight ≤ h
  /-- It has rows of the owners of entries, and of no others. -/
  rows : ∀ o, (∃ r ∈ s.db.balanceChanges, r.owner = o) ↔ 0 < operationsOf o s.db.ledger
  /-- It counts no more operations than there are entries. -/
  le : ∀ o, s.db.totalOperationsOf o ≤ operationsOf o s.db.ledger
  /-- The increases that wait are those of the `receive` entries. -/
  increases : DirectionPending h .receive s.cache.dbCache.balanceIncreases s.pending
  /-- The deductions that wait are those of the `send` entries. -/
  deductions : DirectionPending h .send s.cache.dbCache.balanceDeductions s.pending

/-- Nothing is miscounted: the table counts what the ledger has of an owner, and what waits will be
counted. -/
def AllCounted (owner : RuneId × Address) (s : Session) : Prop :=
  s.db.totalOperationsOf owner = operationsOf owner s.db.ledger ∧ CountedOnce owner s.pending

section

variable {h : Nat} {s s' : Session}

theorem OperationsTracked.operationsPending (hs : OperationsTracked h s) : OperationsPending h s :=
  ⟨hs.rows_le, hs.increases, hs.deductions⟩

/-- **A flush** keeps the counts in step, and miscounts exactly what waits more than once. -/
theorem OperationsTracked.flush (hs : OperationsTracked h s) (hflush : s.flush = some s') :
    OperationsTracked h s' ∧ ∀ o, AllCounted o s' ↔ AllCounted o s := by
  obtain ⟨hpending, hcounts⟩ := hs.operationsPending.flush hflush
  obtain ⟨db, hdb, rfl⟩ := Session.flush_eq_some.mp hflush
  have hledger : db.ledger = s.db.ledger ++ s.pending := DbCache.flush_ledger hdb
  have htotal :
      ∀ o, db.totalOperationsOf o = s.db.totalOperationsOf o +
        min 1 (directed .receive o s.pending) +
      min 1 (directed .send o s.pending) := fun o => (hcounts o).1
  have hentries : ∀ o, operationsOf o db.ledger =
      operationsOf o s.db.ledger + directed .receive o s.pending + directed .send o s.pending := by
    intro o
    rw [hledger, operationsOf_append, operationsOf_eq o s.pending, Nat.add_assoc]
  refine ⟨⟨hpending.rows_le, fun o => ?_, fun o => ?_, hpending.increases, hpending.deductions⟩,
    fun o => ?_⟩
  · show (∃ r ∈ db.balanceChanges, r.owner = o) ↔ 0 < operationsOf o db.ledger
    rw [(hcounts o).2, hs.rows, hledger, operationsOf_append]
    omega
  · show db.totalOperationsOf o ≤ operationsOf o db.ledger
    have hbefore := hs.le o
    rw [htotal, hentries]
    omega
  · show db.totalOperationsOf o = operationsOf o db.ledger ∧ CountedOnce o [] ↔
      s.db.totalOperationsOf o = operationsOf o s.db.ledger ∧ CountedOnce o s.pending
    have hbefore := hs.le o
    simp only [CountedOnce, directed_nil]
    rw [htotal, hentries]
    omega

/-- **Writing** keeps the counts in step, whatever flushes there are in between. -/
theorem OperationsTracked.writes {es : List DbLedgerEntry} {rs : List DbRune}
    (hwrites : s.Writes es rs s') :
    OperationsTracked h s → (∀ e ∈ es, e.blockHeight = h) → OperationsTracked h s' := by
  induction hwrites with
  | quiet hq =>
    rintro ⟨h1, h2, h3, h4, h5⟩ _
    simp only [Session.pending] at h4 h5
    constructor <;> simp only [Session.pending, hq.db, hq.dbCache] <;> assumption
  | flush hflush => exact fun hs _ => (hs.flush hflush).1
  | pushRune s rune => exact fun hs _ => ⟨hs.1, hs.2, hs.3, hs.4, hs.5⟩
  | @add s s' es hadd =>
    intro hs hes
    -- the table is untouched until the flush
    obtain ⟨hle, hinc, hdec⟩ := OperationsPending.writes (.add hadd) hs.operationsPending hes
    obtain ⟨-, rfl⟩ := Session.addLedgerEntriesToDbCache_eq_some.mp hadd
    exact ⟨hle, hs.rows, hs.le, hinc, hdec⟩
  | trans _ _ ih ih' =>
    intro hs hes
    exact ih' (ih hs fun e he => hes e (List.mem_append_left _ he)) fun e he =>
      hes e (List.mem_append_right _ he)

/-- Writing no entries miscounts nothing that was not miscounted. -/
theorem OperationsTracked.allCounted {es : List DbLedgerEntry} {rs : List DbRune}
    (hwrites : s.Writes es rs s') :
    OperationsTracked h s → es = [] → ∀ o, AllCounted o s' ↔ AllCounted o s := by
  induction hwrites with
  | quiet hq =>
    intro _ _ o
    rw [AllCounted, AllCounted, Session.pending, Session.pending, hq.db, hq.dbCache]
  | flush hflush => exact fun hs _ => (hs.flush hflush).2
  | pushRune s rune => exact fun _ _ _ => Iff.rfl
  | @add s s' es hadd =>
    rintro - rfl o
    obtain ⟨-, rfl⟩ := Session.addLedgerEntriesToDbCache_eq_some.mp hadd
    rw [AllCounted, AllCounted, Session.pending, Session.pending, foldl_count_ledgerEntries]
    simp only [List.append_nil]
  | @trans s t u es es' rs rs' hst htu ih ih' =>
    intro hs hnil o
    obtain ⟨rfl, rfl⟩ := List.append_eq_nil_iff.mp hnil
    have ht := OperationsTracked.writes hst hs fun e he => absurd he List.not_mem_nil
    exact (ih' ht rfl o).trans (ih hs rfl o)

end

/-! ## Calls -/

section

variable {env : Environment} {block : Block}

/-- The session that the lookups of a call leave: they flush what waits if what they look for is not
cached. -/
def Action.lookups (s : Session) : Action → Option Session
  | .mint id | .cenotaphMint id => do
    let (rune, s) ← s.getCachedRuneByRuneId id
    match rune with
    | none => return s
    -- the mints so far are asked for only if the rune is known
    | some _ =>
      let (_, s) ← s.getCachedRuneTotalMints id
      return s
  | .edict e => do
    let (_, s) ← s.getCachedRuneByRuneId e.id
    return s
  | _ => some s

/-- Entries were added to what waits in a session, and nothing was flushed. An etched rune may wait,
too. -/
structure Session.Adds (es : List DbLedgerEntry) (s s' : Session) : Prop where
  /-- The tables stay. -/
  db : s'.db = s.db
  /-- The entries wait, and are counted; an etched rune may wait, too. -/
  dbCache : ∃ runes, s'.cache.dbCache = { es.foldl DbCache.count
    { s.cache.dbCache with ledgerEntries := s.cache.dbCache.ledgerEntries ++ es }
      with runes := runes }

theorem Session.Adds.pending {es : List DbLedgerEntry} {s s' : Session} (h : s.Adds es s') :
    s'.pending = s.pending ++ es := by
  obtain ⟨runes, hdbCache⟩ := h.dbCache
  rw [Session.pending, hdbCache, foldl_count_ledgerEntries]
  rfl

theorem Session.Adds.of_eq {s s' : Session} (hdb : s'.db = s.db)
    (hdbCache : s'.cache.dbCache = s.cache.dbCache) :
    s.Adds [] s' :=
  ⟨hdb, s.cache.dbCache.runes, by rw [hdbCache, List.append_nil]; rfl⟩

/-- Entries are added to a session with the tables and the waiting entries of another. -/
theorem Session.Adds.of_add {s t s' : Session} {es : List DbLedgerEntry} {runes : List DbRune}
    (hadd : t.addLedgerEntriesToDbCache es = some s') (hdb : t.db = s.db)
    (hdbCache : t.cache.dbCache = { s.cache.dbCache with runes := runes }) : s.Adds es s' := by
  obtain ⟨-, rfl⟩ := Session.addLedgerEntriesToDbCache_eq_some.mp hadd
  refine ⟨hdb, runes, ?_⟩
  -- counting does not look at the runes
  have hruns : ∀ (es : List DbLedgerEntry) (c : DbCache),
      es.foldl DbCache.count { c with runes := runes } =
        { es.foldl DbCache.count c with runes := runes } := by
    intro es
    induction es with
    | nil => exact fun _ => rfl
    | cons e es ih => exact fun c => ih (c.count e)
  rw [hdbCache]
  exact hruns es { s.cache.dbCache with ledgerEntries := s.cache.dbCache.ledgerEntries ++ es }

/-- A mint looks up its rune and the mints so far before it adds its entry. -/
theorem Session.applyMintWith_lookups
    {apply : TransactionCache → RuneId → Nat → DbRune → TransactionCache × Option DbLedgerEntry}
    {id : RuneId} {s s' : Session} (h : s.applyMintWith apply id = some s') :
    ∃ t es, (Action.mint id).lookups s = some t ∧ s.Writes [] [] t ∧ t.Adds es s' := by
  rw [applyMintWith] at h
  obtain ⟨⟨rune, t⟩, hrune, h⟩ := Option.bind_eq_some_iff.mp h
  have hlook := (runeLookup_of_eq_some hrune).writes
  cases rune with
  | none =>
    cases Option.some.inj h
    exact ⟨_, [], by rw [Action.lookups, hrune]; rfl, hlook, .of_eq rfl rfl⟩
  | some rune =>
    obtain ⟨⟨total, u⟩, htotal, h⟩ := Option.bind_eq_some_iff.mp h
    have hlook' := (mintsLookup_of_eq_some htotal).writes
    have hlookups : (Action.mint id).lookups s = some u := by
      rw [Action.lookups, hrune, Option.bind_eq_bind, Option.bind_some]
      dsimp only
      rw [htotal]
      rfl
    dsimp only at h
    split at h
    · cases Option.some.inj h
      exact ⟨u, [], hlookups, hlook.nil_trans hlook', .of_eq rfl rfl⟩
    · obtain ⟨v, hadd, h⟩ := Option.bind_eq_some_iff.mp h
      cases Option.some.inj h
      obtain ⟨hdb, hdbCache⟩ : u.Adds _ v := .of_add hadd rfl rfl
      exact ⟨u, _, hlookups, hlook.nil_trans hlook', hdb, hdbCache⟩

/-- **A call looks up before it writes**: the flushes are those of its lookups. -/
theorem Action.lookups_of_run {a : Action} {s s' : Session} (hrun : a.run env block s = some s') :
    ∃ t es, a.lookups s = some t ∧ s.Writes [] [] t ∧ t.Adds es s' := by
  have hstart : s.Writes [] [] s := .quiet (.refl s)
  cases a with
  | beginTransaction tx =>
    have hquiet := beginTransaction_quiet hrun
    exact ⟨s, [], rfl, hstart, .of_eq hquiet.db hquiet.dbCache⟩
  | runestone r =>
    cases Option.some.inj hrun
    refine ⟨s, [], rfl, hstart, ?_⟩
    rw [Session.applyRunestone]
    cases r.pointer <;> exact .of_eq rfl rfl
  | cenotaph =>
    rw [Action.run, Session.applyCenotaph] at hrun
    exact ⟨s, _, rfl, hstart, .of_add hrun rfl rfl⟩
  | etching e =>
    rw [Action.run, Session.applyEtching, Session.recordEtching] at hrun
    obtain ⟨t, hentry, hs⟩ := Option.bind_eq_some_iff.mp hrun
    cases Option.some.inj hs
    -- the entry is added first, the row of the rune after it
    obtain ⟨hdb, hdbCache⟩ : s.Adds _ t := .of_add hentry rfl rfl
    exact ⟨s, _, rfl, hstart, hdb, hdbCache⟩
  | cenotaphEtching rune =>
    rw [Action.run, Session.applyCenotaphEtching, Session.recordEtching] at hrun
    obtain ⟨t, hentry, hs⟩ := Option.bind_eq_some_iff.mp hrun
    cases Option.some.inj hs
    obtain ⟨hdb, hdbCache⟩ : s.Adds _ t := .of_add hentry rfl rfl
    exact ⟨s, _, rfl, hstart, hdb, hdbCache⟩
  | mint id => exact @Session.applyMintWith_lookups TransactionCache.applyMint id s s' hrun
  | cenotaphMint id =>
    exact @Session.applyMintWith_lookups TransactionCache.applyCenotaphMint id s s' hrun
  | edict e =>
    rw [Action.run, Session.applyEdict] at hrun
    obtain ⟨⟨rune, t⟩, hrune, hrun⟩ := Option.bind_eq_some_iff.mp hrun
    have hlook := (Session.runeLookup_of_eq_some hrune).writes
    -- the lookup of the rune is the only one of an edict
    have hlookups : (Action.edict e).lookups s = some t := by
      rw [Action.lookups, hrune]
      rfl
    cases rune with
    | none =>
      cases Option.some.inj hrun
      exact ⟨_, [], hlookups, hlook, .of_eq rfl rfl⟩
    | some rune => exact ⟨t, _, hlookups, hlook, .of_add hrun rfl rfl⟩
  | endTransaction =>
    rw [Action.run, Session.endTransaction] at hrun
    exact ⟨s, _, rfl, hstart, .of_add hrun rfl rfl⟩

/-- **A call flushes before it writes**: what it adds waits when it is done. -/
theorem Action.adds_of_run {a : Action} {s s' : Session} {es : List DbLedgerEntry}
    (hrun : a.run env block s = some s') (hentries : s'.entries = s.entries ++ es) :
    ∃ t, a.lookups s = some t ∧ s.Writes [] [] t ∧ t.Adds es s' := by
  obtain ⟨t, added, hlookups, hbefore, hadds⟩ := Action.lookups_of_run hrun
  have hadded : s.entries ++ added = s.entries ++ es :=
    calc s.entries ++ added = t.entries ++ added := by rw [hbefore.entries_eq, List.append_nil]
      _ = s'.db.ledger ++ s'.pending := by rw [hadds.pending, hadds.db, ← List.append_assoc]; rfl
      _ = s.entries ++ es := hentries
  exact ⟨t, hlookups, hbefore, List.append_cancel_left hadded ▸ hadds⟩

/-- **After a call everything is counted** if it was before, and nothing waits twice. -/
theorem OperationsTracked.call {a : Action} {h : Nat} {s s' : Session} (hs : OperationsTracked h s)
    (hrun : a.run env block s = some s') (owner : RuneId × Address) :
    AllCounted owner s' ↔ AllCounted owner s ∧ CountedOnce owner s'.pending := by
  obtain ⟨t, es, -, hbefore, hadds⟩ := Action.lookups_of_run hrun
  have hsame := hs.allCounted hbefore rfl owner
  rw [← hsame, AllCounted, AllCounted, hadds.db]
  constructor
  · rintro ⟨htotal, honce⟩
    exact ⟨⟨htotal, CountedOnce.left (hadds.pending ▸ honce)⟩, honce⟩
  · rintro ⟨⟨htotal, -⟩, honce⟩
    exact ⟨htotal, honce⟩

theorem Action.exists_writes {a : Action} {s s' : Session} (hrun : a.run env block s = some s') :
    ∃ es rs, s.Writes es rs s' := by
  by_cases hbegin : ∃ tx, a = .beginTransaction tx
  · obtain ⟨tx, rfl⟩ := hbegin
    exact ⟨[], [], .quiet (beginTransaction_quiet hrun)⟩
  · obtain ⟨es, rs, hwrites, -⟩ := Action.run_step (fun tx ha => hbegin ⟨tx, ha⟩) hrun
    exact ⟨es, rs, hwrites⟩

/-- Calls only add entries. -/
theorem runStages_entries {l : List Stage} (hl : ∀ stage ∈ l, ∃ a, stage = .call block a)
    {s s' : Session} (hrun : runStages env l s = some s') : ∃ es, s'.entries = s.entries ++ es := by
  refine foldlM_induction_split (P := fun _ t => ∃ es, t.entries = s.entries ++ es)
    ⟨[], (List.append_nil _).symm⟩ ?_ hrun
  rintro done stage rest t t' rfl ⟨es, hes⟩ hstep
  obtain ⟨a, rfl⟩ := hl stage (List.mem_append_right _ List.mem_cons_self)
  obtain ⟨es', rs, hwrites⟩ := Action.exists_writes hstep
  exact ⟨es ++ es', by rw [hwrites.entries_eq, hes, List.append_assoc]⟩

end

/-! ## Blocks -/

/-- No two entries of one operation of an owner wait to be inserted before a stage. -/
def Stage.CountsOnce (owner : RuneId × Address) (s : Session) (_ : Stage) : Prop :=
  CountedOnce owner s.pending

instance (owner : RuneId × Address) (s : Session) (stage : Stage) :
    Decidable (stage.CountsOnce owner s) :=
  inferInstanceAs (Decidable (CountedOnce owner s.pending))

section

variable {env : Environment}

/-- The calls of a block. -/
theorem OperationsTracked.calls {block : Block} {l : List Stage}
    (hl : ∀ stage ∈ l, ∃ a, stage = .call block a) {s s' : Session} {es : List DbLedgerEntry}
    (hs : OperationsTracked block.height s) (hes : ∀ e ∈ es, e.blockHeight = block.height)
    (hentries : s'.entries = s.entries ++ es) (hrun : runStages env l s = some s')
    (owner : RuneId × Address) :
    OperationsTracked block.height s' ∧ (AllCounted owner s' ↔ AllCounted owner s ∧
      EveryStage env (Stage.CountsOnce owner) l s ∧ CountedOnce owner s'.pending) := by
  have hind := foldlM_induction_split (P := fun done t => runStages env done s = some t ∧
    OperationsTracked block.height t ∧ (AllCounted owner t ↔ AllCounted owner s ∧
      EveryStage env (Stage.CountsOnce owner) done s ∧ CountedOnce owner t.pending))
      ⟨rfl, hs, ?_⟩ ?_ hrun
  · exact hind.2
  · have hnone : EveryStage env (Stage.CountsOnce owner) [] s :=
      .of_forall fun stage hstage => absurd hstage List.not_mem_nil
    exact ⟨fun hall => ⟨hall, hnone, hall.2⟩, fun hall => hall.1⟩
  · rintro done stage rest t t' rfl ⟨hdone, ht, hcounted⟩ hstep
    obtain ⟨a, rfl⟩ := hl stage (List.mem_append_right _ List.mem_cons_self)
    have hstep : a.run env block t = some t' := hstep
    -- what the call adds is among what the calls of the block add
    obtain ⟨es', rs, hwrites⟩ := Action.exists_writes hstep
    obtain ⟨before, hbefore⟩ :=
      runStages_entries (fun stage h => hl stage (List.mem_append_left _ h)) hdone
    obtain ⟨v, hv, hrest⟩ := foldlM_append_eq_some.mp hrun
    cases Option.some.inj (hdone.symm.trans hv)
    obtain ⟨v, hv, hrest⟩ := foldlM_cons_eq_some.mp hrest
    cases Option.some.inj (hstep.symm.trans hv)
    obtain ⟨after, hafter⟩ := runStages_entries
      (fun stage h => hl stage (List.mem_append_right _ (List.mem_cons_of_mem _ h))) hrest
    rw [hwrites.entries_eq, hbefore, hentries, List.append_assoc, List.append_assoc] at hafter
    have hes' : ∀ e ∈ es', e.blockHeight = block.height := by
      intro e he
      refine hes e ?_
      rw [List.append_cancel_left hafter]
      exact List.mem_append_right _ (List.mem_append_left _ he)
    refine ⟨foldlM_append_eq_some.mpr ⟨t, hdone, foldlM_singleton_eq_some.mpr hstep⟩,
      ht.writes hwrites hes', ?_⟩
    rw [ht.call hstep owner, hcounted, everyStage_concat hdone]
    simp only [Stage.CountsOnce, and_assoc]

/-- Between two blocks, `balance_changes` is in step with the ledger up to a height, and nothing
waits. -/
structure OperationsAtRest (h : Nat) (s : Session) : Prop where
  /-- Nothing waits in memory. -/
  dbCache : s.cache.dbCache = .new
  /-- The table is in step with the ledger. -/
  tracked : OperationsTracked h s

theorem OperationsAtRest.pending {h : Nat} {s : Session} (hs : OperationsAtRest h s) :
    s.pending = [] := by
  rw [Session.pending, hs.dbCache]
  rfl

/-- The height may be any greater one. -/
theorem OperationsAtRest.mono {h h' : Nat} {s : Session} (hs : OperationsAtRest h s)
    (hle : h ≤ h') :
    OperationsAtRest h' s := by
  refine ⟨hs.dbCache, fun r hr => (hs.tracked.rows_le r hr).trans hle, hs.tracked.rows,
    hs.tracked.le, ?_, ?_⟩
  · rw [hs.pending, hs.dbCache]
    exact .nil h' _
  · rw [hs.pending, hs.dbCache]
    exact .nil h' _

/-- **A block** leaves everything counted exactly if it was, and if nothing waited twice before a
stage of it. -/
theorem OperationsAtRest.indexBlock {block : Block} {s s' : Session}
    (hs : OperationsAtRest block.height s) (hrun : indexBlock env block s = some s')
    (owner : RuneId × Address) :
    OperationsAtRest block.height s' ∧ (AllCounted owner s' ↔ AllCounted owner s ∧
      EveryStage env (Stage.CountsOnce owner) (block.stages env) s) := by
  -- what the block writes, as a whole
  obtain ⟨u, htxs, hflush⟩ := indexBlock_eq_some.mp hrun
  obtain ⟨es, _, hwrites, hat, -⟩ := indexTransactions_writes htxs
  have hes : ∀ e ∈ es, e.blockHeight = block.height := by
    intro e he
    obtain ⟨tx, -, hat⟩ := hat e he
    exact hat.blockHeight
  have hfinal : s'.entries = s.entries ++ es := by
    rw [(Session.Writes.flush hflush).entries_eq, List.append_nil]
    exact hwrites.entries_eq
  -- its stages
  rw [indexBlock_eq_runStages, Block.stages] at hrun
  obtain ⟨t₀, hopen, hrun⟩ := foldlM_cons_eq_some.mp hrun
  obtain ⟨number, ht₀, -⟩ :=
    resetMaxRuneNumber_eq_some (show s.resetMaxRuneNumber = some t₀ from hopen)
  obtain ⟨t, hcalls, hclose⟩ := foldlM_append_eq_some.mp hrun
  have hclose : (closing env block t).flush = some s' := foldlM_singleton_eq_some.mp hclose
  have htracked : OperationsTracked block.height t₀ := by
    rw [ht₀]
    exact ⟨hs.tracked.1, hs.tracked.2, hs.tracked.3, hs.tracked.4, hs.tracked.5⟩
  have hentries : t.entries = t₀.entries ++ es := by
    have hclosed : s'.entries = t.entries := by
      rw [(Session.Writes.flush hclose).entries_eq, List.append_nil]
      rfl
    rw [← hclosed, hfinal, ht₀]
    rfl
  obtain ⟨ht, hcounted⟩ :=
    htracked.calls (fun stage => exists_call_of_mem_stages) hes hentries hcalls owner
  have hclosing : OperationsTracked block.height (closing env block t) :=
    ⟨ht.1, ht.2, ht.3, ht.4, ht.5⟩
  obtain ⟨hs', hall⟩ := hclosing.flush hclose
  refine ⟨⟨?_, hs'⟩, ?_⟩
  · obtain ⟨db, -, rfl⟩ := Session.flush_eq_some.mp hclose
    rfl
  · have hsame : AllCounted owner (closing env block t) ↔ AllCounted owner t := Iff.rfl
    have hsame₀ : AllCounted owner t₀ ↔ AllCounted owner s := by rw [ht₀]; exact Iff.rfl
    have honce : Stage.CountsOnce owner s (.openBlock block) := by
      rw [Stage.CountsOnce, hs.pending]
      exact ⟨Nat.zero_le 1, Nat.zero_le 1⟩
    rw [hall owner, hsame, hcounted, hsame₀, Block.stages, everyStage_cons hopen,
      and_iff_right honce, everyStage_concat hcalls]
    rfl

/-- **A run at increasing heights** leaves everything counted exactly if nothing waited twice before
a stage. -/
theorem runEvents_operations {network : Network} {cap : Nat} {hcap : 0 < cap} {events : List Event}
    {s₀ s : Session} (hforward : ∀ e ∈ events, e.Forward)
    (hheights : (indexedBlocks events).Pairwise fun b b' => b.height < b'.height)
    (hstart : freshSession network cap hcap = some s₀) (hrun : runEvents env events s₀ = some s) :
    ∃ h, OperationsAtRest h s ∧
      ∀ owner, AllCounted owner s ↔
      EveryStage env (Stage.CountsOnce owner) (stages env events) s₀ := by
  obtain ⟨hempty, hdb⟩ := freshSession_eq_some hstart
  -- after every prefix of the events, at rest and counted as the stages of the prefix say
  have hind := foldlM_induction_split (P := fun done t => runEvents env done s₀ = some t ∧
    (∃ h, OperationsAtRest h t ∧ ∀ k, (∀ b ∈ indexedBlocks done, b.height < k) → h ≤ k) ∧
    ∀ owner, AllCounted owner t ↔ EveryStage env (Stage.CountsOnce owner) (stages env done) s₀)
    ⟨rfl, ?_, ?_⟩ ?_ hrun
  · obtain ⟨-, ⟨h, hs, -⟩, hcounted⟩ := hind
    exact ⟨h, hs, hcounted⟩
  · refine ⟨0, ⟨hempty.dbCache, ?_, ?_, ?_, ?_, ?_⟩, fun k _ => Nat.zero_le k⟩
    · rw [hdb]
      exact fun r hr => absurd hr List.not_mem_nil
    · rw [hdb]
      exact fun o => iff_of_false (fun ⟨r, hr, _⟩ => List.not_mem_nil hr) (Nat.lt_irrefl 0)
    · rw [hdb]
      exact fun o => Nat.le_refl 0
    · rw [Session.pending, hempty.dbCache]
      exact .nil 0 _
    · rw [Session.pending, hempty.dbCache]
      exact .nil 0 _
  · intro owner
    refine iff_of_true ⟨by rw [hdb]; rfl, ?_⟩
      (.of_forall fun stage hstage => absurd hstage List.not_mem_nil)
    rw [Session.pending, hempty.dbCache]
    exact ⟨Nat.zero_le 1, Nat.zero_le 1⟩
  · rintro done e rest t t' hsplit ⟨hdone, ⟨h, ht, hlow⟩, hcounted⟩ hstep
    -- the stages of one more event run from the state in which the earlier ones ended
    have hstages : stages env (done ++ [e]) = stages env done ++ e.stages env := by
      rw [stages, List.flatMap_append, stages, List.flatMap_singleton]
    have hrunStages := runEvents_eq_runStages env done s₀ ▸ hdone
    have hnext : ∀ owner, (AllCounted owner t' ↔ AllCounted owner t ∧
        EveryStage env (Stage.CountsOnce owner) (e.stages env) t) →
        (AllCounted owner t' ↔
          EveryStage env (Stage.CountsOnce owner) (stages env (done ++ [e])) s₀) := by
      intro owner hstep
      rw [hstep, hcounted, hstages]
      constructor
      · rintro ⟨hbefore, hlast⟩
        refine hbefore.append fun u hu => ?_
        cases Option.some.inj (hrunStages.symm.trans hu)
        exact hlast
      · exact fun hall => ⟨hall.left, hall.right hrunStages⟩
    refine ⟨foldlM_append_eq_some.mpr ⟨t, hdone, foldlM_singleton_eq_some.mpr hstep⟩, ?_⟩
    have hmem : e ∈ events := hsplit ▸ List.mem_append_right _ List.mem_cons_self
    cases e with
    | index block =>
      -- a later block is higher, so no recorded row is of its height
      have habove : ∀ b ∈ indexedBlocks done, b.height < block.height := by
        rw [hsplit, indexedBlocks_append] at hheights
        exact fun b hb => (List.pairwise_append.mp hheights).2.2 b hb block List.mem_cons_self
      have hblock := fun owner => (ht.mono (hlow _ habove)).indexBlock hstep owner
      refine ⟨⟨block.height, (hblock (⟨0, 0⟩, "")).1, fun k hk => ?_⟩,
        fun owner => hnext owner (hblock owner).2⟩
      refine (hk block ?_).le
      rw [indexedBlocks_append]
      exact List.mem_append_right _ List.mem_cons_self
    | rollBack height => exact absurd (hforward _ hmem) id
    | restart cap hcap =>
      obtain ⟨cache, hcache, rfl⟩ := restart_eq_some hstep
      have hnew := (IndexCache.new_empty hcache).dbCache
      have hpending : Session.pending ⟨cache, t.db⟩ = [] := by
        rw [Session.pending, hnew]
        rfl
      refine ⟨⟨h, ⟨hnew, ht.tracked.rows_le, ht.tracked.rows, ht.tracked.le, ?_, ?_⟩,
        fun k hk => hlow k fun b hb =>
        hk b ?_⟩, fun owner => hnext owner ?_⟩
      · rw [hpending, hnew]
        exact .nil h _
      · rw [hpending, hnew]
        exact .nil h _
      · rw [indexedBlocks_append]
        exact List.mem_append_left _ hb
      · -- nothing waits before a restart or after it
        have honce : EveryStage env (Stage.CountsOnce owner) [.restart cap hcap] t := by
          refine (everyStage_cons (show Stage.run env t (.restart cap hcap) = _ from hstep)).mpr
            ⟨?_, .of_forall fun stage hstage => absurd hstage List.not_mem_nil⟩
          rw [Stage.CountsOnce, ht.pending]
          exact ⟨Nat.zero_le 1, Nat.zero_le 1⟩
        rw [AllCounted, AllCounted, hpending, ht.pending]
        exact ⟨fun hall => ⟨hall, honce⟩, fun hall => hall.1⟩

end

/-! ## What the API counts -/

/-- The column `total` of the query of `getAddressActivity`: the sum, over the runes that
`balance_changes` has rows of for an address, of the latest `total_operations`. (`getActivity` does
not pass the column on: the total that it answers with is the number of rows on the page.) -/
def Db.addressOperations (a : Address) (db : Db) : Nat :=
  (((db.balanceChanges.filter fun r => r.address = a).map BalanceRow.runeId).dedup.map fun id =>
    db.totalOperationsOf (id, a)).sum

/-- The `send` and `receive` entries of an address. -/
def movesOf (a : Address) (es : List DbLedgerEntry) : List DbLedgerEntry :=
  es.filter fun e => (e.operation = .receive ∨ e.operation = .send) ∧ e.address = some a

theorem count_movesOf (a : Address) (id : RuneId) (es : List DbLedgerEntry) :
    ((movesOf a es).map DbLedgerEntry.runeId).count id = operationsOf (id, a) es := by
  rw [List.count, List.countP_map, movesOf, List.countP_filter, operationsOf]
  refine List.countP_congr fun e _ => ?_
  simp only [DbLedgerEntry.Moves, DbLedgerEntry.owner, Function.comp_apply,
    Bool.and_eq_true, beq_iff_eq, decide_eq_true_eq, Option.map_eq_some_iff, Prod.mk.injEq]
  constructor
  · rintro ⟨hid, hop, haddress⟩
    exact ⟨hop, a, haddress, hid, rfl⟩
  · rintro ⟨hop, a', haddress, hid, rfl⟩
    exact ⟨hid, hop, haddress⟩

/-- The total is that of the ledger exactly if the counts of all its runes are. -/
theorem OperationsTracked.addressOperations_eq_iff {h : Nat} {s : Session}
    (hs : OperationsTracked h s) (a : Address) :
    s.db.addressOperations a = (movesOf a s.db.ledger).length ↔
      ∀ id, s.db.totalOperationsOf (id, a) = operationsOf (id, a) s.db.ledger := by
  -- the runes with rows are those with entries
  have hids : ∀ id, id ∈ (s.db.balanceChanges.filter fun r => r.address = a).map BalanceRow.runeId ↔
      0 < operationsOf (id, a) s.db.ledger := by
    intro id
    rw [← hs.rows]
    simp only [List.mem_map, List.mem_filter, decide_eq_true_eq, BalanceRow.owner, Prod.mk.injEq]
    exact exists_congr fun r => ⟨fun ⟨⟨hr, ha⟩, hid⟩ => ⟨hr, hid, ha⟩,
      fun ⟨hr, hid, ha⟩ => ⟨⟨hr, ha⟩, hid⟩⟩
  have hperm : ((movesOf a s.db.ledger).map DbLedgerEntry.runeId).dedup.Perm
      ((s.db.balanceChanges.filter fun r => r.address = a).map BalanceRow.runeId).dedup := by
    refine (List.perm_ext_iff_of_nodup (List.nodup_dedup _) (List.nodup_dedup _)).mpr fun id => ?_
    rw [List.mem_dedup, List.mem_dedup, hids, ← count_movesOf, List.count_pos_iff]
  have hlength : (movesOf a s.db.ledger).length =
      (((s.db.balanceChanges.filter fun r => r.address = a).map BalanceRow.runeId).dedup.map
        fun id =>
        operationsOf (id, a) s.db.ledger).sum := by
    rw [← (hperm.map _).sum_eq, ← List.length_map (f := DbLedgerEntry.runeId), ←
      List.sum_map_count_dedup_eq_length]
    simp only [count_movesOf]
  rw [Db.addressOperations, hlength]
  constructor
  · intro hsum id
    by_cases hid : id ∈
      ((s.db.balanceChanges.filter fun r => r.address = a).map BalanceRow.runeId).dedup
    · by_contra hne
      have hlt :=
        List.sum_lt_sum _ _ (fun id' _ => hs.le (id', a))
          ⟨id, hid, Nat.lt_of_le_of_ne (hs.le (id, a)) hne⟩
      omega
    · rw [List.mem_dedup, hids] at hid
      have hle := hs.le (id, a)
      omega
  · exact fun hall => congrArg List.sum (List.map_congr_left fun id _ => hall id)

/-- **The operations of an address are counted exactly if no two of one direction wait together**:
in every run at increasing heights, for every rune and address, and for the sum over all runes that
the query of `getAddressActivity` selects of an address. -/
theorem totalOperations_eq_iff {env : Environment} {network : Network} {cap : Nat} {hcap : 0 < cap}
    {events : List Event} {s₀ s : Session} (hforward : ∀ e ∈ events, e.Forward)
    (hheights : (indexedBlocks events).Pairwise fun b b' => b.height < b'.height)
    (hstart : freshSession network cap hcap = some s₀) (hrun : runEvents env events s₀ = some s) :
    (∀ owner, s.db.totalOperationsOf owner = operationsOf owner s.db.ledger ↔
      EveryStage env (Stage.CountsOnce owner) (stages env events) s₀) ∧
    ∀ a, s.db.addressOperations a = (movesOf a s.db.ledger).length ↔
      ∀ id, EveryStage env (Stage.CountsOnce (id, a)) (stages env events) s₀ := by
  obtain ⟨h, hs, hcounted⟩ := runEvents_operations hforward hheights hstart hrun
  have hexact : ∀ owner, s.db.totalOperationsOf owner = operationsOf owner s.db.ledger ↔
      EveryStage env (Stage.CountsOnce owner) (stages env events) s₀ := by
    intro owner
    rw [← hcounted, AllCounted, hs.pending]
    exact ⟨fun htotal => ⟨htotal, Nat.zero_le 1, Nat.zero_le 1⟩, fun hall => hall.1⟩
  refine ⟨hexact, fun a => ?_⟩
  rw [hs.tracked.addressOperations_eq_iff a]
  exact forall_congr' fun id => hexact (id, a)

/-- What alice mints in two blocks is sent on to bob in the block after each. -/
def paidInTurn : List Event :=
  [.index mintBlock, .restart 2 Nat.two_pos, .index forkBlock, .index joinBlock]

/-- Alice receives and sends twice; bob receives twice and sends once. -/
theorem totalOperations_eq_iff_paidInTurn : ∃ s₀ s, freshSession .bitcoin 2 Nat.two_pos = some s₀ ∧
    runEvents mintEnv paidInTurn s₀ = some s ∧ operationsOf (⟨1, 0⟩, "alice") s.db.ledger = 4 ∧
    operationsOf (⟨1, 0⟩, "bob") s.db.ledger = 3 ∧
    ∀ a ∈ ["alice", "bob"],
      EveryStage mintEnv (Stage.CountsOnce (⟨1, 0⟩, a)) (stages mintEnv paidInTurn) s₀ ∧
      s.db.totalOperationsOf (⟨1, 0⟩, a) = operationsOf (⟨1, 0⟩, a) s.db.ledger := by
  have hruns : (freshSession .bitcoin 2 Nat.two_pos).any fun s₀ =>
      ((runEvents mintEnv paidInTurn s₀).any fun s =>
        operationsOf (⟨1, 0⟩, "alice") s.db.ledger = 4 ∧
          operationsOf (⟨1, 0⟩, "bob") s.db.ledger = 3) ∧
      ∀ a ∈ ["alice", "bob"], checkStages mintEnv (fun s stage => stage.CountsOnce (⟨1, 0⟩, a) s)
        (stages mintEnv paidInTurn) s₀ = true := by
    decide +kernel
  obtain ⟨s₀, hstart, h⟩ := (Option.any_eq_true _ _).mp hruns
  obtain ⟨hany, hcheck⟩ := of_decide_eq_true h
  obtain ⟨s, hrun, h⟩ := (Option.any_eq_true _ _).mp hany
  obtain ⟨hfour, hthree⟩ := of_decide_eq_true h
  have hforward : ∀ e ∈ paidInTurn, e.Forward := by simp [paidInTurn, Event.Forward]
  refine ⟨s₀, s, hstart, hrun, hfour, hthree, fun a ha => ?_⟩
  have honce : EveryStage mintEnv (Stage.CountsOnce (⟨1, 0⟩, a)) (stages mintEnv paidInTurn) s₀ :=
    .of_check (fun _ _ h => of_decide_eq_true h) (hcheck a ha)
  exact ⟨honce, ((totalOperations_eq_iff hforward (by decide) hstart hrun).1 (⟨1, 0⟩, a)).mpr honce⟩

/-- A block in which alice mints twice. -/
def twiceBlock : Block := { mintBlock with transactions := [mintTx, mintAgainTx] }

/-- **Two receipts in a block count as one**: alice receives from two mints, and `balance_changes`
has one operation of hers, which is also the sum that the query of `getAddressActivity` selects. -/
theorem exists_totalOperations_ne : ∃ s₀ s, freshSession .bitcoin 2 Nat.two_pos = some s₀ ∧
    runEvents mintEnv [.index twiceBlock] s₀ = some s ∧
      operationsOf (⟨1, 0⟩, "alice") s.db.ledger = 2 ∧
      s.db.totalOperationsOf (⟨1, 0⟩, "alice") = 1 ∧ (movesOf "alice" s.db.ledger).length = 2 ∧
      s.db.addressOperations "alice" = 1 := by
  have hruns : (freshSession .bitcoin 2 Nat.two_pos).any fun s₀ =>
      (runEvents mintEnv [.index twiceBlock] s₀).any fun s =>
        operationsOf (⟨1, 0⟩, "alice") s.db.ledger = 2 ∧
        s.db.totalOperationsOf (⟨1, 0⟩, "alice") = 1 ∧ (movesOf "alice" s.db.ledger).length = 2 ∧
        s.db.addressOperations "alice" = 1 := by decide +kernel
  obtain ⟨s₀, hstart, h⟩ := (Option.any_eq_true _ _).mp hruns
  obtain ⟨s, hrun, h⟩ := (Option.any_eq_true _ _).mp h
  exact ⟨s₀, s, hstart, hrun, of_decide_eq_true h⟩

end Runehook
