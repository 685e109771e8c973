import Runehook.Shares

/-! # Runes do not interfere

What a transaction writes about a rune is a function of what concerns the rune (`concerning`,
`aloneRows`): its balances, its premine and mints, the edicts that mean it, the pointer and the
outputs. The other runes, and the order in which the runes are walked, make no difference.
`TransactionOperation.projects` is about one operation, `operationEntries_rows` about a transaction,
and `entries_of_agreeOn` compares two. -/

namespace Runehook

open Lib

/-! ## What concerns a rune -/

/-- An operation on the cache of a transaction, with what the caller looked up for it. -/
inductive TransactionOperation
  /-- An etching, under the next number. -/
  | etching (e : Etching) (number : Nat)
  /-- An etching by a cenotaph, under the next number. -/
  | cenotaphEtching (rune : Rune) (number : Nat)
  /-- A mint, with the count and the rune. -/
  | mint (id : RuneId) (totalMints : Nat) (dbRune : DbRune)
  /-- A mint by a cenotaph, with the count and the rune. -/
  | cenotaphMint (id : RuneId) (totalMints : Nat) (dbRune : DbRune)
  /-- An edict. -/
  | edict (e : Edict)

/-- What the operations of a transaction end with. -/
inductive TransactionEnd
  /-- What is left goes to the pointer. -/
  | allocateRemainingBalances
  /-- What came in is burned. -/
  | cenotaphInputBurn

/-- What an operation means for one rune. -/
inductive RuneOperation
  /-- The rune is etched. -/
  | etch (premine : Option Nat)
  /-- An amount comes in. -/
  | mint (amount : Nat)
  /-- An amount is minted and burned at once. -/
  | burnMint (amount : Nat)
  /-- An edict moves an amount. -/
  | move (amount output : Nat)
  deriving DecidableEq, Repr

/-- The operation, run on the cache. -/
def TransactionOperation.run (env : Environment) (tx : TransactionCache) :
    TransactionOperation → TransactionCache × List DbLedgerEntry
  | .etching e number => ((tx.applyEtching e number).1, [(tx.applyEtching e number).2.2.2])
  | .cenotaphEtching rune number =>
    ((tx.applyCenotaphEtching rune number).1, [(tx.applyCenotaphEtching rune number).2.2.2])
  | .mint id totalMints dbRune =>
    ((tx.applyMint id totalMints dbRune).1, (tx.applyMint id totalMints dbRune).2.toList)
  | .cenotaphMint id totalMints dbRune =>
    ((tx.applyCenotaphMint id totalMints dbRune).1,
      (tx.applyCenotaphMint id totalMints dbRune).2.toList)
  | .edict e => tx.applyEdict env e

/-- The entries of the end. -/
def TransactionEnd.entries (env : Environment) (tx : TransactionCache) :
    TransactionEnd → List DbLedgerEntry
  | .allocateRemainingBalances => (tx.allocateRemainingBalances env).2
  | .cenotaphInputBurn => (tx.applyCenotaphInputBurn env).2

/-- The entries of some operations and of the end. -/
def operationEntries (env : Environment) (ending : TransactionEnd) :
    List TransactionOperation → TransactionCache → List DbLedgerEntry
  | [], tx => ending.entries env tx
  | op :: ops, tx => (op.run env tx).2 ++ operationEntries env ending ops (op.run env tx).1

section

variable (r : RuneId) (location : TransactionLocation)

/-- The rune that `0:0` means after the operation. -/
def TransactionOperation.etched (etched : Option RuneId) : TransactionOperation → Option RuneId
  | .etching .. | .cenotaphEtching .. => some location.runeId
  | _ => etched

/-- What an operation means for a rune, if it concerns it, where `0:0` means the etched rune. -/
def TransactionOperation.on (etched : Option RuneId) : TransactionOperation → Option RuneOperation
  | .etching e _ => if location.runeId = r then some (.etch e.premine) else none
  | .cenotaphEtching .. => if location.runeId = r then some (.etch none) else none
  | .mint id totalMints dbRune =>
    if id = r ∧ isRuneMintable dbRune totalMints location then dbRune.termsAmount.map .mint
      else none
  | .cenotaphMint id totalMints dbRune =>
    if id = r ∧ isRuneMintable dbRune totalMints location then dbRune.termsAmount.map .burnMint
      else none
  | .edict e =>
    if (if e.id.block = 0 ∧ e.id.tx = 0 then etched else some e.id) =
      some r then some (.move e.amount e.output)
    else none

/-- The operations that concern a rune, as what they mean for it. -/
def concerning : Option RuneId → List TransactionOperation → List RuneOperation
  | _, [] => []
  | etched, op :: ops =>
    (op.on r location etched).toList ++ concerning (op.etched location etched) ops

end

/-- Two caches have the same of a rune, and send it to the same outputs. -/
structure TransactionCache.AgreeOn (r : RuneId) (tx tx' : TransactionCache) : Prop where
  /-- The same network. -/
  network : tx.location.network = tx'.location.network
  /-- The same balances of the rune. -/
  available : tx.available r = tx'.available r
  /-- The same pointer. -/
  outputPointer : tx.outputPointer = tx'.outputPointer
  /-- The same outputs that can get runes. -/
  eligibleOutputs : tx.eligibleOutputs = tx'.eligibleOutputs
  /-- As many outputs. -/
  totalOutputs : tx.totalOutputs = tx'.totalOutputs

/-! ## One rune by itself -/

section

variable (receiver : Option Nat → Option Address)
    (moves : Edict → Nat → List (Option Nat × Nat)) (r : RuneId)

/-- The rows of an operation on a rune. -/
def RuneOperation.rows (balances : List InputRuneBalance) : RuneOperation → List LedgerRow
  | .etch _ => [⟨r, .etching, none, none, none, none⟩]
  | .mint amount => [⟨r, .mint, some amount, none, none, none⟩]
  | .burnMint amount => [⟨r, .burn, some amount, none, none, none⟩]
  | .move amount output =>
    movesRows receiver r
      (moves ⟨r, amount, output⟩ (TransactionCache.unallocated balances)) balances

/-- The balances of a rune after an operation on it. -/
def RuneOperation.rest (balances : List InputRuneBalance) : RuneOperation → List InputRuneBalance
  | .etch premine => balances ++ (premine.map fun p => ⟨none, p⟩).toList
  | .mint amount => balances ++ [⟨none, amount⟩]
  | .burnMint _ => balances
  | .move amount output =>
    movesRest (moves ⟨r, amount, output⟩ (TransactionCache.unallocated balances)) balances

/-- The rows of the end of a transaction. -/
def TransactionEnd.rows (pointer : Option Nat) (balances : List InputRuneBalance) :
    TransactionEnd → List LedgerRow
  | .allocateRemainingBalances => movesRows receiver r [(pointer, 0)] balances
  | .cenotaphInputBurn => balances.map (burnRow r)

/-- **The rows of a rune** that is alone in a transaction. -/
def aloneRows (pointer : Option Nat) (ending : TransactionEnd) :
    List RuneOperation → List InputRuneBalance → List LedgerRow
  | [], balances => ending.rows receiver r pointer balances
  | op :: ops, balances => op.rows receiver moves r balances ++
      aloneRows pointer ending ops (op.rest moves r balances)

end

/-! ## Projection -/

section

variable {env : Environment} {tx : TransactionCache} {r : RuneId}

theorem ofRune_plainEntry (tx : TransactionCache) (amount : Option Nat) (id : RuneId)
    (operation : DbLedgerOperation) :
    (ofRune r [tx.plainEntry amount id operation]).map DbLedgerEntry.row =
      if id = r then [⟨r, operation, amount, none, none, none⟩] else [] := by
  have hid : (tx.plainEntry amount id operation).runeId = id := rfl
  by_cases h : id = r
  · subst h
    rw [if_pos rfl, ofRune_eq_self fun e he => by rw [List.mem_singleton.mp he, hid]]
    rfl
  · rw [if_neg h, ofRune_eq_nil fun e he => by rwa [List.mem_singleton.mp he, hid]]
    rfl

/-- The fields of a cache that an operation leaves as they are. -/
structure TransactionCache.SameOutputs (tx tx' : TransactionCache) : Prop where
  /-- The place of the transaction. -/
  location : tx'.location = tx.location
  /-- The pointer. -/
  outputPointer : tx'.outputPointer = tx.outputPointer
  /-- The outputs that can get runes. -/
  eligibleOutputs : tx'.eligibleOutputs = tx.eligibleOutputs
  /-- The number of outputs. -/
  totalOutputs : tx'.totalOutputs = tx.totalOutputs

/-- What an operation does to a rune is what it means for it: its rows, the balances that it leaves
and the rune that `0:0` means afterwards. -/
structure TransactionOperation.Projects (env : Environment) (tx : TransactionCache) (r : RuneId)
    (op : TransactionOperation) (on : Option RuneOperation) : Prop where
  /-- The rows of the rune that are written. -/
  rows : (ofRune r (op.run env tx).2).map DbLedgerEntry.row = on.elim []
    (RuneOperation.rows (receiverAddress env tx.location tx.eligibleOutputs) tx.edictMoves r
      (tx.available r))
  /-- The balances of the rune that are left. -/
  rest : (op.run env tx).1.available r = on.elim (tx.available r)
    (RuneOperation.rest tx.edictMoves r (tx.available r))
  /-- The rune that `0:0` means afterwards. -/
  etched : (op.run env tx).1.etching.map DbRune.runeId =
      op.etched tx.location (tx.etching.map DbRune.runeId)
  /-- The outputs stay. -/
  outputs : tx.SameOutputs (op.run env tx).1

/-- The cache after an etching has the same outputs, and the etched rune. -/
theorem withEtching_sameOutputs (tx : TransactionCache) (rune : DbRune) (premine : Option Nat) :
    tx.SameOutputs (tx.withEtching rune premine) ∧
    (tx.withEtching rune premine).etching = some rune := by
  cases premine <;> exact ⟨⟨rfl, rfl, rfl, rfl⟩, rfl⟩

/-- An etching concerns the rune of the transaction. -/
theorem projects_of_withEtching {op : TransactionOperation} (rune : DbRune) {premine : Option Nat}
    (hrun : op.run env tx =
      (tx.withEtching rune premine, [tx.plainEntry none tx.location.runeId .etching]))
    (hrune : rune.runeId = tx.location.runeId)
    (hetched : op.etched tx.location (tx.etching.map DbRune.runeId) = some tx.location.runeId) :
    op.Projects env tx r (if tx.location.runeId = r then some (.etch premine) else none) := by
  obtain ⟨hsame, hetching⟩ := withEtching_sameOutputs tx rune premine
  refine ⟨?_, ?_, ?_, ?_⟩ <;> rw [hrun]
  · rw [ofRune_plainEntry]
    split <;> rfl
  · rw [TransactionCache.available_withEtching]
    split <;> rfl
  · rw [hetched, hetching, Option.map_some, hrune]
  · exact hsame

/-- **An operation does to a rune what it means for it.** -/
theorem TransactionOperation.projects (env : Environment) (tx : TransactionCache) (r : RuneId)
    (op : TransactionOperation) :
    op.Projects env tx r (op.on r tx.location (tx.etching.map DbRune.runeId)) := by
  cases op with
  | etching e number =>
    refine projects_of_withEtching (.fromEtching e number tx.location) ?_ rfl rfl
    rw [run, TransactionCache.applyEtching_eq]
  | cenotaphEtching rune number => exact projects_of_withEtching _ rfl rfl rfl
  | mint id totalMints dbRune =>
    rcases tx.applyMint_cases id totalMints dbRune with ⟨hmint, h⟩ | ⟨hmint, amount, hamount, h⟩
    · -- a refused mint does nothing
      have hrun : (TransactionOperation.mint id totalMints dbRune).run env tx = (tx, []) := by
        rw [run, h]; rfl
      have hon : (TransactionOperation.mint id totalMints dbRune).on r tx.location
          (tx.etching.map DbRune.runeId) = none := by simp [on, hmint]
      rw [hon]
      exact ⟨by rw [hrun]; rfl, by rw [hrun]; rfl, by rw [hrun]; rfl, by
        rw [hrun]; exact ⟨rfl, rfl, rfl, rfl⟩⟩
    -- an accepted mint writes its entry and adds to the deque of its rune only
    · have hrun : (TransactionOperation.mint id totalMints dbRune).run env tx =
          ((tx.addInputRunes id ⟨none, amount⟩).nextEvent,
            [tx.plainEntry (some amount) id .mint]) := by
        rw [run, h]
        rfl
      have hon : (TransactionOperation.mint id totalMints dbRune).on r tx.location
          (tx.etching.map DbRune.runeId) = if id = r then some (.mint amount) else none := by
        simp [on, hmint, hamount]
      rw [hon]
      refine ⟨?_, ?_, ?_, ?_⟩ <;> rw [hrun]
      · rw [ofRune_plainEntry]
        split <;> rfl
      · refine (TransactionCache.available_addInputRunes tx id r ⟨none, amount⟩).trans ?_
        by_cases hid : id = r
        · rw [if_pos hid.symm, if_pos hid, hid]
          rfl
        · rw [if_neg (Ne.symm hid), if_neg hid]
          rfl
      · rfl
      · exact ⟨rfl, rfl, rfl, rfl⟩
  | cenotaphMint id totalMints dbRune =>
    rcases tx.applyCenotaphMint_cases id totalMints dbRune
        with ⟨hmint, h⟩ | ⟨hmint, amount, hamount, h⟩
    · have hrun : (TransactionOperation.cenotaphMint id totalMints dbRune).run env tx =
          (tx, []) := by rw [run, h]; rfl
      have hon : (TransactionOperation.cenotaphMint id totalMints dbRune).on r tx.location
          (tx.etching.map DbRune.runeId) = none := by simp [on, hmint]
      rw [hon]
      exact ⟨by rw [hrun]; rfl, by rw [hrun]; rfl, by rw [hrun]; rfl, by
        rw [hrun]; exact ⟨rfl, rfl, rfl, rfl⟩⟩
    -- a burned mint writes its entry and changes no deque
    · have hrun : (TransactionOperation.cenotaphMint id totalMints dbRune).run env tx =
          (tx.nextEvent, [tx.plainEntry (some amount) id .burn]) := by
        rw [run, h]
        rfl
      have hon : (TransactionOperation.cenotaphMint id totalMints dbRune).on r tx.location
          (tx.etching.map DbRune.runeId) = if id = r then some (.burnMint amount) else none := by
        simp [on, hmint, hamount]
      rw [hon]
      refine ⟨?_, ?_, ?_, ?_⟩ <;> rw [hrun]
      · rw [ofRune_plainEntry]
        split <;> rfl
      · split <;> rfl
      · rfl
      · exact ⟨rfl, rfl, rfl, rfl⟩
  | edict e =>
    -- an edict changes the deque of its own rune, and the event index of all
    obtain ⟨hrows, hrest⟩ := TransactionCache.applyEdict_rows env tx e r
    obtain ⟨inputRunes, n, hfst⟩ := TransactionCache.applyEdict_fst env tx e
    have hon : (TransactionOperation.edict e).on r tx.location (tx.etching.map DbRune.runeId) =
        if tx.edictRuneId e.id = some r then some (.move e.amount e.output) else none := rfl
    rw [hon]
    refine ⟨hrows.trans ?_, hrest.trans ?_, ?_, ?_⟩
    · split <;> rfl
    · split <;> rfl
    · rw [run, hfst]
      rfl
    · rw [run, hfst]
      exact ⟨rfl, rfl, rfl, rfl⟩

/-- **The rows of a rune** are those that it has by itself. -/
theorem operationEntries_rows (env : Environment) (ending : TransactionEnd) (r : RuneId)
    (ops : List TransactionOperation) (tx : TransactionCache) :
    (ofRune r (operationEntries env ending ops tx)).map DbLedgerEntry.row =
      aloneRows (receiverAddress env tx.location tx.eligibleOutputs) tx.edictMoves r
        tx.outputPointer ending
        (concerning r tx.location (tx.etching.map DbRune.runeId) ops) (tx.available r) := by
  induction ops generalizing tx with
  | nil =>
    cases ending with
    | allocateRemainingBalances => exact TransactionCache.allocateRemainingBalances_rows env tx r
    | cenotaphInputBurn => exact TransactionCache.applyCenotaphInputBurn_rows env tx r
  | cons op ops ih =>
    obtain ⟨hrows, hrest, hetched, hlocation, hpointer, heligible, htotal⟩ := op.projects env tx r
    -- the moves of an edict read only what an operation leaves alone
    have hmoves : (op.run env tx).1.edictMoves = tx.edictMoves := by
      funext e unallocated
      simp only [TransactionCache.edictMoves, heligible, htotal]
    rw [operationEntries, ofRune_append, List.map_append, ih, hrows, hrest, hetched, hlocation,
      heligible, hpointer, hmoves, concerning]
    cases op.on r tx.location (tx.etching.map DbRune.runeId) <;> rfl

end

/-- **Runes do not interfere.** Two transactions that agree on a rune, and whose operations mean the
same for it, write the same about it, in the same order, whatever else is in them and in whatever
order the runes are walked. -/
theorem entries_of_agreeOn {env env' : Environment} {tx tx' : TransactionCache}
    {ops ops' : List TransactionOperation}
    (haddress : env.addressFromScript = env'.addressFromScript) {r : RuneId}
    (hagree : tx.AgreeOn r tx')
    (hops : concerning r tx.location (tx.etching.map DbRune.runeId) ops =
        concerning r tx'.location (tx'.etching.map DbRune.runeId) ops') (ending : TransactionEnd) :
    (ofRune r (operationEntries env ending ops tx)).map DbLedgerEntry.row =
      (ofRune r (operationEntries env' ending ops' tx')).map DbLedgerEntry.row := by
  obtain ⟨hnetwork, havailable, hpointer, heligible, htotal⟩ := hagree
  have hreceiver : receiverAddress env tx.location tx.eligibleOutputs =
      receiverAddress env' tx'.location tx'.eligibleOutputs := by
    funext output
    simp only [receiverAddress, haddress, hnetwork, heligible]
  have hmoves : tx.edictMoves = tx'.edictMoves := by
    funext e unallocated
    simp only [TransactionCache.edictMoves, heligible, htotal]
  rw [operationEntries_rows, operationEntries_rows, hreceiver, hmoves, hpointer, hops, havailable]

/-- The environment that walks the runes of a transaction backwards. -/
def backwardsEnv : Environment :=
  { Environment.plain fun _ => none with
    runeOrder := fun _ l => l.reverse
    runeOrder_perm := fun _ l => List.reverse_perm l }

/-- The transaction with seven units of a rune, and with another rune in front. -/
def mixedTx : TransactionCache :=
  { TransactionCache.sharingTx with
    inputRunes := TransactionCache.sharingTx.inputRunes.insert ⟨840000, 2⟩ [⟨some "dave", 9⟩] }

/-- An etching and the edicts of two other runes make no difference. -/
theorem entries_of_agreeOn_mixedTx :
    (ofRune ⟨840000, 1⟩ (operationEntries (.plain fun _ => none) .allocateRemainingBalances
      [.edict ⟨⟨840000, 1⟩, 5, 1⟩] TransactionCache.sharingTx)).map DbLedgerEntry.row =
    (ofRune ⟨840000, 1⟩ (operationEntries backwardsEnv .allocateRemainingBalances
      [.cenotaphEtching 100000000000000 0, .edict ⟨⟨840000, 2⟩, 4, 1⟩, .edict ⟨⟨840000, 1⟩, 5, 1⟩,
        .edict ⟨⟨0, 0⟩, 1, 0⟩] mixedTx)).map DbLedgerEntry.row := by
  have hagree : TransactionCache.AgreeOn ⟨840000, 1⟩ TransactionCache.sharingTx mixedTx :=
    ⟨rfl, by decide, rfl, rfl, rfl⟩
  have haddress : (Environment.plain fun _ => none).addressFromScript =
      backwardsEnv.addressFromScript := rfl
  exact entries_of_agreeOn haddress hagree (by decide) .allocateRemainingBalances

end Runehook
