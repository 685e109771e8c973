import Runehook.Pending

/-! # The cumulative tables are folds of the ledger

`supply_changes` and `balance_changes` say at every height what the rows of the ledger below it add
up to (`SupplySound`, `BalanceSound`). Inserting what waits in a `DbCache` keeps that, and so does a
rollback of the greatest height, which takes its rows out of the tables and of the ledger alike. -/

namespace Runehook

open Lib

/-! ## Supply changes -/

/-- The readings of `supply_changes` in the counters that `C` follows, and its rows, are those of a
ledger. -/
structure SupplySound (C : SupplyCounter → Prop) (rows : List DbSupplyChange)
    (ledger : List DbLedgerEntry) : Prop where
  /-- At every height, a counter is the sum over the entries up to it. -/
  reading : ∀ counter, C counter → ∀ id k,
    reading DbSupplyChange.runeId DbSupplyChange.blockHeight
      (fun c => c.counter counter) id k rows = counted counter id (below k ledger)
  /-- A rune has a row at the heights of its entries. -/
  hasRow : ∀ id h, HasRow DbSupplyChange.runeId DbSupplyChange.blockHeight rows id h ↔
    ∃ e ∈ ledger, e.runeId = id ∧ e.blockHeight = h
  /-- It has no more than one at a height. -/
  unique : UniqueRows DbSupplyChange.runeId DbSupplyChange.blockHeight rows

theorem SupplySound.nil (C : SupplyCounter → Prop) : SupplySound C [] [] where
  reading _ _ _ _ := rfl
  hasRow id h := by simp [HasRow]
  unique := List.Pairwise.nil

theorem SupplySound.height_le {C : SupplyCounter → Prop} {rows : List DbSupplyChange}
    {ledger : List DbLedgerEntry} {h : Nat} (hs : SupplySound C rows ledger)
    (hledger : ∀ e ∈ ledger, e.blockHeight ≤ h) :
    ∀ r ∈ rows, r.blockHeight ≤ h := by
  intro r hr
  obtain ⟨e, he, -, heq⟩ := (hs.hasRow r.runeId r.blockHeight).mp ⟨r, hr, rfl, rfl⟩
  exact heq ▸ hledger e he

theorem counter_mergeSupply (counter : SupplyCounter) (p : Option DbSupplyChange)
    (c : DbSupplyChange) :
    (mergeSupply p c).counter counter =
      (p.map fun r => r.counter counter).getD 0 + c.counter counter := by
  cases counter <;> cases p <;> rfl

/-- Inserting the pending supply changes adds the pending entries to the ledger of the table. -/
theorem SupplySound.insert {C : SupplyCounter → Prop} {db : Db}
    {ledger es : List DbLedgerEntry} {h : Nat} {changes : HashMap RuneId DbSupplyChange}
    (hs : SupplySound C db.supplyChanges ledger) (hledger : ∀ e ∈ ledger, e.blockHeight ≤ h)
    (hes : ∀ e ∈ es, e.blockHeight = h) (hp : SupplyPending C h changes es) :
    SupplySound C (pgInsertSupplyChanges changes.values db).supplyChanges (ledger ++ es) := by
  -- every waiting change is filed under its rune and has the height of the block
  have hkey : ∀ id c, changes.lookup id = some c → c.runeId = id :=
    fun id c hc => (hp.key id c hc).1
  have hheight : ∀ c ∈ changes.values, ∀ p, (mergeSupply p c).blockHeight = h := by
    intro c hc p
    obtain ⟨id, hid⟩ := HashMap.mem_values_iff.mp hc
    exact (hp.key id c hid).2
  have hnodup := HashMap.nodup_values hkey
  have hle := hs.height_le hledger
  show SupplySound C ((chunks 500 changes.values).foldl (mergeStatement DbSupplyChange.runeId
    DbSupplyChange.blockHeight DbSupplyChange.runeId mergeSupply) db.supplyChanges) (ledger ++ es)
  rw [foldl_mergeStatement_chunks mergeSupply_runeId 500 hnodup]
  constructor
  · intro counter hC id k
    rw [reading_batch mergeSupply_runeId hheight (counter_mergeSupply counter) hnodup hle,
      hs.reading counter hC, HashMap.find?_values hkey, hp.counter counter hC, below_append,
      counted_append, below_pending hes]
    split <;> rfl
  · intro id k
    rw [hasRow_batch mergeSupply_runeId hheight, hs.hasRow]
    constructor
    · rintro (⟨e, he, hid, hk⟩ | ⟨rfl, c, hc, rfl⟩)
      · exact ⟨e, List.mem_append_left _ he, hid, hk⟩
      · obtain ⟨id, hid⟩ := HashMap.mem_values_iff.mp hc
        obtain ⟨e, he, heq⟩ := (hp.isSome id).mp (by rw [hid]; rfl)
        exact ⟨e, List.mem_append_right _ he, heq.trans (hkey id c hid).symm, hes e he⟩
    · rintro ⟨e, he, rfl, rfl⟩
      rcases List.mem_append.mp he with he | he
      · exact Or.inl ⟨e, he, rfl, rfl⟩
      · obtain ⟨c, hc⟩ := Option.isSome_iff_exists.mp ((hp.isSome e.runeId).mpr ⟨e, he, rfl⟩)
        exact Or.inr ⟨hes e he, c, HashMap.mem_values_of_lookup hc, hkey _ c hc⟩
  · exact hs.unique.batch

/-- A rollback of the greatest height keeps the table and the ledger together. -/
theorem SupplySound.rollBack {C : SupplyCounter → Prop} {rows : List DbSupplyChange}
    {ledger : List DbLedgerEntry} {h : Nat} (hs : SupplySound C rows ledger)
    (hledger : ∀ e ∈ ledger, e.blockHeight ≤ h) :
    SupplySound C (rows.filter fun r => r.blockHeight ≠ h)
    (ledger.filter fun e => e.blockHeight ≠ h) where
  reading := by
    intro counter hC id k
    rw [reading_delete (hs.height_le hledger), hs.reading counter hC, below_delete hledger]
  hasRow := by
    intro id k
    rw [hasRow_delete, hs.hasRow]
    constructor
    · rintro ⟨⟨e, he, rfl, rfl⟩, hne⟩
      exact ⟨e, List.mem_filter.mpr ⟨he, decide_eq_true hne⟩, rfl, rfl⟩
    · rintro ⟨e, he, rfl, rfl⟩
      rw [List.mem_filter, decide_eq_true_iff] at he
      exact ⟨⟨e, he.1, rfl, rfl⟩, he.2⟩
  unique := hs.unique.delete

/-! ## Balance changes -/

/-- What the ledger says an owner has: what was received minus what was sent. -/
def netBalance (owner : RuneId × Address) (es : List DbLedgerEntry) : Int :=
  (moved .receive owner es : Int) - moved .send owner es

theorem netBalance_append (owner : RuneId × Address) (es es' : List DbLedgerEntry) :
    netBalance owner (es ++ es') = netBalance owner es + netBalance owner es' := by
  rw [netBalance, moved_append, moved_append, netBalance, netBalance]
  omega

/-- The entry moves the balance of an owner. -/
def DbLedgerEntry.Moves (e : DbLedgerEntry) (owner : RuneId × Address) : Prop :=
  (e.operation = .receive ∨ e.operation = .send) ∧ e.owner = some owner

/-- The readings of `balance_changes`, and its rows, are those of a ledger. -/
structure BalanceSound (rows : List BalanceRow) (ledger : List DbLedgerEntry) : Prop where
  /-- At every height, a balance is the sum over the entries up to it. -/
  reading : ∀ o k, reading BalanceRow.owner BalanceRow.blockHeight BalanceRow.balance o k rows =
    netBalance o (below k ledger)
  /-- An owner has a row at the heights of the entries that move its balance. -/
  hasRow : ∀ o h, HasRow BalanceRow.owner BalanceRow.blockHeight rows o h ↔
    ∃ e ∈ ledger, e.Moves o ∧ e.blockHeight = h
  /-- It has no more than one at a height. -/
  unique : UniqueRows BalanceRow.owner BalanceRow.blockHeight rows

theorem BalanceSound.nil : BalanceSound [] [] where
  reading _ _ := rfl
  hasRow o h := by simp [HasRow]
  unique := List.Pairwise.nil

theorem BalanceSound.height_le {rows : List BalanceRow} {ledger : List DbLedgerEntry} {h : Nat}
    (hs : BalanceSound rows ledger) (hledger : ∀ e ∈ ledger, e.blockHeight ≤ h) :
    ∀ r ∈ rows, r.blockHeight ≤ h := by
  intro r hr
  obtain ⟨e, he, -, heq⟩ := (hs.hasRow r.owner r.blockHeight).mp ⟨r, hr, rfl, rfl⟩
  exact heq ▸ hledger e he

theorem balance_mergeBalance (increase : Bool) (p : Option BalanceRow) (c : DbBalanceChange) :
    (mergeBalance increase p c).balance = (p.map BalanceRow.balance).getD 0 +
      if increase then (c.balance : Int) else -(c.balance : Int) := by
  cases p <;> rfl

/-- What one pass over the pending changes of a direction does to the readings and the rows. -/
theorem pgInsertBalanceChanges_spec (db : Db) (increase : Bool) {es : List DbLedgerEntry} {h : Nat}
    {operation : DbLedgerOperation} {changes : HashMap (RuneId × Address) DbBalanceChange}
    (hle : ∀ r ∈ db.balanceChanges, r.blockHeight ≤ h)
    (hunique : UniqueRows BalanceRow.owner BalanceRow.blockHeight db.balanceChanges)
    (hp : BalancePending h operation changes es) :
    (∀ o k, reading BalanceRow.owner BalanceRow.blockHeight BalanceRow.balance o k
        (pgInsertBalanceChanges changes.values increase db).balanceChanges =
      reading BalanceRow.owner BalanceRow.blockHeight BalanceRow.balance o k db.balanceChanges +
        if h < k then (if increase then (moved operation o es : Int)
          else -(moved operation o es : Int))
        else 0) ∧
    (∀ o k, HasRow BalanceRow.owner BalanceRow.blockHeight
        (pgInsertBalanceChanges changes.values increase db).balanceChanges o k ↔
      HasRow BalanceRow.owner BalanceRow.blockHeight db.balanceChanges o k ∨
        (k = h ∧ ∃ e ∈ es, e.operation = operation ∧ e.owner = some o)) ∧
    UniqueRows BalanceRow.owner BalanceRow.blockHeight
      (pgInsertBalanceChanges changes.values increase db).balanceChanges := by
  -- every waiting change is filed under its owner and has the height of the block
  have hkey : ∀ o c, changes.lookup o = some c → c.owner = o := fun o c hc => (hp.key o c hc).1
  have hheight : ∀ c ∈ changes.values, ∀ p, (mergeBalance increase p c).blockHeight = h := by
    intro c hc p
    obtain ⟨o, ho⟩ := HashMap.mem_values_iff.mp hc
    exact (hp.key o c ho).2
  have hnodup := HashMap.nodup_values hkey
  -- the chunks of the statement merge one change after another
  have hrows : (pgInsertBalanceChanges changes.values increase db).balanceChanges =
      changes.values.foldl (mergeOne BalanceRow.owner BalanceRow.blockHeight DbBalanceChange.owner
        (mergeBalance increase)) db.balanceChanges :=
    foldl_mergeStatement_chunks (mergeBalance_owner increase) 500 hnodup db.balanceChanges
  rw [hrows]
  refine ⟨?_, ?_, hunique.batch⟩
  · intro o k
    rw [reading_batch (mergeBalance_owner increase) hheight
      (balance_mergeBalance increase) hnodup hle, HashMap.find?_values hkey, ← hp.balance]
    cases changes.lookup o <;> cases increase <;> simp
  · intro o k
    rw [hasRow_batch (mergeBalance_owner increase) hheight, ← hp.isSome]
    refine or_congr_right (and_congr_right fun _ => ?_)
    constructor
    · rintro ⟨c, hc, rfl⟩
      obtain ⟨o, ho⟩ := HashMap.mem_values_iff.mp hc
      rw [hkey o c ho, ho]
      rfl
    · intro hsome
      obtain ⟨c, hc⟩ := Option.isSome_iff_exists.mp hsome
      exact ⟨c, HashMap.mem_values_of_lookup hc, hkey o c hc⟩

/-- Inserting the pending balance changes, the increases and then the deductions, adds the pending
entries to the ledger of the table. -/
theorem BalanceSound.insert {db : Db} {ledger es : List DbLedgerEntry} {h : Nat}
    {increases deductions : HashMap (RuneId × Address) DbBalanceChange}
    (hs : BalanceSound db.balanceChanges ledger) (hledger : ∀ e ∈ ledger, e.blockHeight ≤ h)
    (hes : ∀ e ∈ es, e.blockHeight = h) (hinc : BalancePending h .receive increases es)
    (hdec : BalancePending h .send deductions es) :
    BalanceSound (pgInsertBalanceChanges deductions.values false
      (pgInsertBalanceChanges increases.values true db)).balanceChanges (ledger ++ es) := by
  -- the increases are inserted first, the deductions into what they leave
  have hle := hs.height_le hledger
  obtain ⟨hread, hrow, hunique⟩ :=
    pgInsertBalanceChanges_spec db true hle hs.unique hinc
  have hle' : ∀ r ∈ (pgInsertBalanceChanges increases.values true db).balanceChanges,
      r.blockHeight ≤ h := by
    intro r hr
    rcases (hrow r.owner r.blockHeight).mp ⟨r, hr, rfl, rfl⟩ with ⟨r', hr', -, heq⟩ | ⟨heq, -⟩
    · exact heq ▸ hle r' hr'
    · exact Nat.le_of_eq heq
  obtain ⟨hread', hrow', hunique'⟩ := pgInsertBalanceChanges_spec _ false hle' hunique hdec
  constructor
  · intro o k
    rw [hread', hread, hs.reading, below_append, netBalance_append, below_pending hes]
    by_cases hk : h < k
    · simp only [if_pos hk, netBalance, if_true, Bool.false_eq_true, if_false]
      omega
    · simp [hk, netBalance]
  · intro o k
    rw [hrow', hrow, hs.hasRow]
    constructor
    · rintro ((⟨e, he, hm, hk⟩ | ⟨rfl, e, he, hop, ho⟩) | ⟨rfl, e, he, hop, ho⟩)
      · exact ⟨e, List.mem_append_left _ he, hm, hk⟩
      · exact ⟨e, List.mem_append_right _ he, ⟨Or.inl hop, ho⟩, hes e he⟩
      · exact ⟨e, List.mem_append_right _ he, ⟨Or.inr hop, ho⟩, hes e he⟩
    · rintro ⟨e, he, ⟨hop, ho⟩, rfl⟩
      rcases List.mem_append.mp he with he | he
      · exact Or.inl (Or.inl ⟨e, he, ⟨hop, ho⟩, rfl⟩)
      · rcases hop with hop | hop
        · exact Or.inl (Or.inr ⟨hes e he, e, he, hop, ho⟩)
        · exact Or.inr ⟨hes e he, e, he, hop, ho⟩
  · exact hunique'

/-- A rollback of the greatest height keeps the table and the ledger together. -/
theorem BalanceSound.rollBack {rows : List BalanceRow} {ledger : List DbLedgerEntry} {h : Nat}
    (hs : BalanceSound rows ledger) (hledger : ∀ e ∈ ledger, e.blockHeight ≤ h) :
    BalanceSound (rows.filter fun r => r.blockHeight ≠ h)
    (ledger.filter fun e => e.blockHeight ≠ h) where
  reading := by
    intro o k
    rw [reading_delete (hs.height_le hledger), hs.reading, below_delete hledger]
  hasRow := by
    intro o k
    rw [hasRow_delete, hs.hasRow]
    constructor
    · rintro ⟨⟨e, he, hm, rfl⟩, hne⟩
      exact ⟨e, List.mem_filter.mpr ⟨he, decide_eq_true hne⟩, hm, rfl⟩
    · rintro ⟨e, he, hm, rfl⟩
      rw [List.mem_filter, decide_eq_true_iff] at he
      exact ⟨⟨e, he.1, hm, rfl⟩, he.2⟩
  unique := hs.unique.delete

/-! ## Sessions -/

/-- The entries that wait to be inserted. -/
def Session.pending (s : Session) : List DbLedgerEntry := s.cache.dbCache.ledgerEntries

/-- While block `h` is indexed, `supply_changes` is sound in the counters that `C` follows, and what
waits in memory adds up what waits. -/
structure SupplyTables (C : SupplyCounter → Prop) (h : Nat) (s : Session) : Prop where
  /-- The ledger has nothing above the block. -/
  height_le : ∀ e ∈ s.db.ledger, e.blockHeight ≤ h
  /-- `supply_changes` is the fold of the ledger. -/
  supply : SupplySound C s.db.supplyChanges s.db.ledger
  /-- The entries that wait are of the block. -/
  pending_height : ∀ e ∈ s.pending, e.blockHeight = h
  /-- The supply changes that wait add them up. -/
  pendingSupply : SupplyPending C h s.cache.dbCache.supplyChanges s.pending

/-- While block `h` is indexed, the tables are sound and what waits in memory adds up what waits. -/
structure TablesSound (h : Nat) (s : Session) : Prop extends SupplyTables (fun _ => True) h s where
  /-- `balance_changes` is the fold of the ledger. -/
  balance : BalanceSound s.db.balanceChanges s.db.ledger
  /-- The increases that wait add up the `receive` entries that wait. -/
  pendingIncreases : BalancePending h .receive s.cache.dbCache.balanceIncreases s.pending
  /-- The deductions that wait add up the `send` entries that wait. -/
  pendingDeductions : BalancePending h .send s.cache.dbCache.balanceDeductions s.pending

/-- The tables after a flush. -/
theorem DbCache.flush_tables {dbCache : DbCache} {db db' : Db} (h : dbCache.flush db = some db') :
    db'.supplyChanges = (pgInsertSupplyChanges dbCache.supplyChanges.values db).supplyChanges ∧
    db'.balanceChanges = (pgInsertBalanceChanges dbCache.balanceDeductions.values false
      (pgInsertBalanceChanges dbCache.balanceIncreases.values true db)).balanceChanges := by
  obtain ⟨runes, -, rfl⟩ := DbCache.flush_eq_some.mp h
  exact ⟨rfl, rfl⟩

/-- A flush keeps `supply_changes` sound, and leaves nothing waiting. -/
theorem SupplyTables.flush {C : SupplyCounter → Prop} {h : Nat} {s s' : Session}
    (hs : SupplyTables C h s) (hflush : s.flush = some s') : SupplyTables C h s' := by
  obtain ⟨db, hdb, rfl⟩ := Session.flush_eq_some.mp hflush
  have hledger : db.ledger = s.db.ledger ++ s.pending := DbCache.flush_ledger hdb
  refine ⟨?_, ?_, fun e he => absurd he List.not_mem_nil, .nil C h⟩
  · show ∀ e ∈ db.ledger, e.blockHeight ≤ h
    rw [hledger]
    intro e he
    rcases List.mem_append.mp he with he | he
    · exact hs.height_le e he
    · exact Nat.le_of_eq (hs.pending_height e he)
  · show SupplySound C db.supplyChanges db.ledger
    rw [hledger, (DbCache.flush_tables hdb).1]
    exact hs.supply.insert hs.height_le hs.pending_height hs.pendingSupply

/-- A flush keeps the tables sound, and leaves nothing waiting. -/
theorem TablesSound.flush {h : Nat} {s s' : Session} (hs : TablesSound h s)
    (hflush : s.flush = some s') :
    TablesSound h s' := by
  refine ⟨hs.toSupplyTables.flush hflush, ?_, ?_, ?_⟩ <;>
    obtain ⟨db, hdb, rfl⟩ := Session.flush_eq_some.mp hflush
  · show BalanceSound db.balanceChanges db.ledger
    rw [DbCache.flush_ledger hdb, (DbCache.flush_tables hdb).2]
    exact hs.balance.insert hs.height_le hs.pending_height hs.pendingIncreases hs.pendingDeductions
  · exact .nil h _
  · exact .nil h _

/-- The supply changes that wait in memory while entries are added one after the other. -/
theorem SupplyPending.foldl_count {C : SupplyCounter → Prop} {h : Nat} {dbCache : DbCache}
    {done : List DbLedgerEntry} (hp : SupplyPending C h dbCache.supplyChanges done)
    (es : List DbLedgerEntry) (hes : ∀ e ∈ es, e.blockHeight = h)
    (hfits : SuppliesFit C (done ++ es)) :
    SupplyPending C h (es.foldl DbCache.count dbCache).supplyChanges (done ++ es) := by
  induction es generalizing dbCache done with
  | nil => rwa [List.append_nil]
  | cons e es ih =>
    rw [← List.singleton_append, ← List.append_assoc] at hfits ⊢
    exact ih (hp.add (hes e List.mem_cons_self) (hfits.sublist (List.sublist_append_left _ _)))
      (fun e' he' => hes e' (List.mem_cons_of_mem _ he')) hfits

/-- The balance changes that wait in memory while entries are added one after the other. -/
theorem BalancePending.foldl_count {h : Nat} {dbCache : DbCache} {done : List DbLedgerEntry}
    (hinc : BalancePending h .receive dbCache.balanceIncreases done)
    (hdec : BalancePending h .send dbCache.balanceDeductions done) (es : List DbLedgerEntry)
    (hes : ∀ e ∈ es, e.blockHeight = h) (hfits : Fits (done ++ es)) :
    BalancePending h .receive (es.foldl DbCache.count dbCache).balanceIncreases (done ++ es) ∧
      BalancePending h .send (es.foldl DbCache.count dbCache).balanceDeductions (done ++ es) := by
  induction es generalizing dbCache done with
  | nil =>
    rw [List.append_nil]
    exact ⟨hinc, hdec⟩
  | cons e es ih =>
    rw [← List.singleton_append, ← List.append_assoc] at hfits ⊢
    have hone : Fits (done ++ [e]) := hfits.sublist (List.sublist_append_left _ _)
    have he := hes e List.mem_cons_self
    exact ih (hinc.add he hone) (hdec.add he hone)
      (fun e' he' => hes e' (List.mem_cons_of_mem _ he')) hfits

/-- What waits after some moves waited before or was added. -/
theorem Session.Writes.pending_sublist {s s' : Session} {es : List DbLedgerEntry} {rs : List DbRune}
    (h : s.Writes es rs s') :
    s'.pending.Sublist (s.pending ++ es) := by
  induction h with
  | quiet h =>
    rw [Session.pending, h.dbCache, List.append_nil]
    exact List.Sublist.refl _
  | flush h =>
    obtain ⟨db, -, rfl⟩ := Session.flush_eq_some.mp h
    exact List.nil_sublist _
  | pushRune s rune =>
    rw [List.append_nil]
    exact List.Sublist.refl _
  -- adding an entry puts it behind those that wait
  | add h =>
    obtain ⟨-, rfl⟩ := Session.addLedgerEntriesToDbCache_eq_some.mp h
    rw [Session.pending, foldl_count_ledgerEntries]
    exact List.Sublist.refl _
  | trans _ _ ih ih' =>
    rw [← List.append_assoc]
    exact ih'.trans (ih.append (List.Sublist.refl _))

/-- **Writing keeps `supply_changes` sound**, whatever flushes there are in between. -/
theorem SupplyTables.writes {C : SupplyCounter → Prop} {h : Nat} {s s' : Session}
    {es : List DbLedgerEntry} {rs : List DbRune} (hwrites : s.Writes es rs s') :
    SupplyTables C h s → (∀ e ∈ es, e.blockHeight = h) → SuppliesFit C (s.pending ++ es) →
      SupplyTables C h s' := by
  induction hwrites with
  | quiet hq =>
    rintro ⟨h1, h2, h3, h4⟩ _ _
    simp only [Session.pending] at h3 h4
    constructor <;> simp only [Session.pending, hq.db, hq.dbCache] <;> assumption
  | flush hflush => exact fun hs _ _ => hs.flush hflush
  | pushRune s rune => exact fun hs _ _ => ⟨hs.1, hs.2, hs.3, hs.4⟩
  | @add s s' es hadd =>
    intro hs hes hfits
    obtain ⟨-, rfl⟩ := Session.addLedgerEntriesToDbCache_eq_some.mp hadd
    let dbCache : DbCache := { s.cache.dbCache with
      ledgerEntries := s.cache.dbCache.ledgerEntries ++ es }
    -- the entries wait under the same height, one after another
    have hpending := @SupplyPending.foldl_count C h dbCache s.pending hs.pendingSupply es hes hfits
    refine ⟨hs.height_le, hs.supply, ?_, ?_⟩ <;> rw [Session.pending, foldl_count_ledgerEntries]
    · intro e he
      rcases List.mem_append.mp he with he | he
      · exact hs.pending_height e he
      · exact hes e he
    · exact hpending
  | @trans s t u es es' rs rs' hst htu ih ih' =>
    intro hs hes hfits
    have ht := ih hs (fun e he => hes e (List.mem_append_left _ he))
      (hfits.sublist ((List.Sublist.refl _).append (List.sublist_append_left _ _)))
    refine ih' ht (fun e he => hes e (List.mem_append_right _ he)) (hfits.sublist ?_)
    rw [← List.append_assoc]
    exact hst.pending_sublist.append (List.Sublist.refl _)

/-- **Writing keeps the tables sound**, whatever flushes there are in between. -/
theorem TablesSound.writes {h : Nat} {s s' : Session} {es : List DbLedgerEntry} {rs : List DbRune}
    (hwrites : s.Writes es rs s') :
    TablesSound h s → (∀ e ∈ es, e.blockHeight = h) → Fits (s.pending ++ es) →
    TablesSound h s' := by
  induction hwrites with
  | @quiet s s' hq =>
    intro hs hes hfits
    refine ⟨hs.toSupplyTables.writes (.quiet hq) hes hfits.supplies, ?_, ?_, ?_⟩ <;>
      simp only [Session.pending, hq.db, hq.dbCache]
    · exact hs.balance
    · exact hs.pendingIncreases
    · exact hs.pendingDeductions
  | flush hflush => exact fun hs _ _ => hs.flush hflush
  | pushRune s rune =>
    exact fun hs hes hfits => ⟨hs.toSupplyTables.writes (.pushRune s rune) hes hfits.supplies,
      -- the entries are counted one by one, after the supply side
      hs.balance, hs.pendingIncreases, hs.pendingDeductions⟩
  | @add s s' es hadd =>
    intro hs hes hfits
    have hsupply := hs.toSupplyTables.writes (.add hadd) hes hfits.supplies
    obtain ⟨-, rfl⟩ := Session.addLedgerEntriesToDbCache_eq_some.mp hadd
    let dbCache : DbCache := { s.cache.dbCache with
      ledgerEntries := s.cache.dbCache.ledgerEntries ++ es }
    -- the increases and the deductions wait under the same entries
    have hpending := @BalancePending.foldl_count h dbCache s.pending hs.pendingIncreases
      hs.pendingDeductions es hes hfits
    refine ⟨hsupply, hs.balance, ?_, ?_⟩ <;> rw [Session.pending, foldl_count_ledgerEntries]
    · exact hpending.1
    · exact hpending.2
  | @trans s t u es es' rs rs' hst htu ih ih' =>
    intro hs hes hfits
    have ht := ih hs (fun e he => hes e (List.mem_append_left _ he))
      (hfits.sublist ((List.Sublist.refl _).append (List.sublist_append_left _ _)))
    refine ih' ht (fun e he => hes e (List.mem_append_right _ he)) (hfits.sublist ?_)
    rw [← List.append_assoc]
    exact hst.pending_sublist.append (List.Sublist.refl _)

end Runehook
