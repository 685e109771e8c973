import Runehook.Allocation

/-! # What a transaction of the mempool writes

The rows of `parse_mempool_tx`, rune by rune (`parseMempoolTx_writes`): those of `Artifact.rows` as
well, off a deque that is the vector of the balances backwards (`deque`). The rest goes to the
pointer of the runestone, or nowhere. `Emit.Writes` says which rows an emitter writes, and each part
of the parser has a lemma about it. -/

namespace Runehook

open Lib

/-- The row of an entry of the mempool. -/
def DBMempoolLedgerEntry.row (e : DBMempoolLedgerEntry) : LedgerRow :=
  ⟨e.runeId, e.operation, e.amount, e.output, e.address, e.receiverAddress⟩

/-- The outputs that a transaction spends, as the ledger names them. -/
def MempoolTransaction.spends (tx : MempoolTransaction) : List (String × Nat) :=
  tx.inputs.map fun (txid, vout) => (txid.toText, vout)

namespace Mempool

/-! ## Emitters -/

/-- The rows of the entries, from whatever index on they are numbered. -/
def Emit.Writes (emit : Emit) (rows : List LedgerRow) : Prop :=
  ∀ n, (emit n).1.map DBMempoolLedgerEntry.row = rows

theorem Emit.Writes.none : Emit.none.Writes [] := fun _ => rfl

theorem newMempoolEntry_writes (amount : Option Nat) (runeId : RuneId) (output : Option Nat)
    (address receiver : Option Address) (operation : DbLedgerOperation) (txId : String) :
    (newMempoolEntryWithIdxIncr amount runeId output address receiver operation txId).Writes
      [⟨runeId, operation, amount, output, address, receiver⟩] := fun _ => rfl

theorem Emit.Writes.ite {emit : Emit} {rows : List LedgerRow} (c : Prop) [Decidable c]
    (h : emit.Writes rows) :
    (if c then emit else .none).Writes (if c then rows else []) := by
  split
  · exact h
  · exact .none

theorem Emit.Writes.append {first second : Emit} {rows rows' : List LedgerRow}
    (h : first.Writes rows) (h' : second.Writes rows') :
    (first.append second).Writes (rows ++ rows') := by
  intro n
  show ((first n).1 ++ (second (first n).2).1).map DBMempoolLedgerEntry.row = rows ++ rows'
  rw [List.map_append, h, h']

theorem Emit.all_append (emits emits' : List Emit) :
    Emit.all (emits ++ emits') = (Emit.all emits).append (Emit.all emits') := by
  induction emits with
  | nil => rfl
  | cons emit emits ih =>
    rw [List.cons_append]
    show emit.append (Emit.all (emits ++ emits')) =
        (emit.append (Emit.all emits)).append (Emit.all emits')
    rw [ih]
    funext n
    simp only [Emit.append, List.append_assoc]

theorem Emit.Writes.all_flatMap {α : Type} {l : List α} {emits : α → List Emit}
    {rows : α → List LedgerRow} (h : ∀ a ∈ l, (Emit.all (emits a)).Writes (rows a)) :
    (Emit.all (l.flatMap emits)).Writes (l.flatMap rows) := by
  induction l with
  | nil => exact .none
  | cons a l ih =>
    obtain ⟨ha, hl⟩ := List.forall_mem_cons.mp h
    rw [List.flatMap_cons, List.flatMap_cons, Emit.all_append]
    exact ha.append (ih hl)

theorem Emit.Writes.all_map {α : Type} {l : List α} {emit : α → Emit} {rows : α → List LedgerRow}
    (h : ∀ a ∈ l, (emit a).Writes (rows a)) : (Emit.all (l.map emit)).Writes (l.flatMap rows) := by
  rw [List.map_eq_flatMap]
  refine .all_flatMap fun a ha => ?_
  rw [← List.append_nil (rows a)]
  exact (h a ha).append .none

/-! ## Moves -/

section

variable (env : MempoolEnvironment) (network : Network) (txId : String)

theorem moveRuneBalanceToOutput_writes (output : Option Nat) (runeId : RuneId)
    (inputBalances : List InputRuneBalance) (outputs : HashMap Nat ScriptBuf) (amount : Nat) :
    (moveRuneBalanceToOutput env network output runeId inputBalances outputs amount txId).1.Writes
        (moveRows (receiverAddress env network outputs) runeId output
          (Runehook.takeBalances amount inputBalances.reverse 0 [])) ∧
      (moveRuneBalanceToOutput env network output runeId inputBalances outputs amount txId).2 =
        (Runehook.takeBalances amount inputBalances.reverse 0 []).balances.reverse := by
  refine ⟨?_, rfl⟩
  rw [moveRows, List.map_eq_flatMap]
  refine Emit.Writes.append (.ite _ (newMempoolEntry_writes _ _ _ _ _ _ _)) (.all_map fun s _ => ?_)
  obtain ⟨balanceTaken, senderAddress⟩ := s
  exact newMempoolEntry_writes _ _ _ _ _ _ _

/-- **Moves off the back of a vector** are moves off the front of the vector backwards. -/
theorem applyMoves_writes (runeId : RuneId) (outputs : HashMap Nat ScriptBuf)
    (moves : List (Option Nat × Nat)) (balances : List InputRuneBalance) :
    (applyMoves env network runeId outputs txId moves balances).1.Writes
        (movesRows (receiverAddress env network outputs) runeId moves balances.reverse) ∧
      (applyMoves env network runeId outputs txId moves balances).2 =
        (movesRest moves balances.reverse).reverse := by
  induction moves generalizing balances with
  | nil => exact ⟨.none, (List.reverse_reverse balances).symm⟩
  | cons move moves ih =>
    obtain ⟨hfirst, hleft⟩ :=
      moveRuneBalanceToOutput_writes env network txId move.1 runeId balances outputs move.2
    obtain ⟨hrows, hrest⟩ :=
      ih (moveRuneBalanceToOutput env network move.1 runeId balances outputs move.2 txId).2
    rw [hleft, List.reverse_reverse] at hrows hrest
    exact ⟨hfirst.append hrows, hrest⟩

/-! ## Edicts -/

/-- The balances of a rune as a deque: the back of the vector is the front. -/
def deque (id : RuneId) (inputRunesBalances : HashMap RuneId (List InputRuneBalance)) :
    List InputRuneBalance :=
  (inputRunesBalances.getD id []).reverse

theorem deque_insert (id id' : RuneId) (balances : List InputRuneBalance)
    (inputRunesBalances : HashMap RuneId (List InputRuneBalance)) :
    deque id (inputRunesBalances.insert id' balances) =
      if id' = id then balances.reverse else deque id inputRunesBalances := by
  rw [deque, HashMap.getD, HashMap.lookup_insert]
  by_cases h : id = id'
  · rw [if_pos h, if_pos h.symm, Option.getD_some]
  · rw [if_neg h, if_neg (Ne.symm h), deque, HashMap.getD]

/-- The rows of one rune. -/
def rowsOf (id : RuneId) (rows : List LedgerRow) : List LedgerRow :=
  rows.filter fun r => r.runeId = id

theorem moveRows_runeId {receiver : Option Nat → Option Address} {id : RuneId} {output : Option Nat}
    {taking : Taking} :
    ∀ r ∈ moveRows receiver id output taking, r.runeId = id := by
  intro r hr
  rcases List.mem_append.mp hr with hr | hr
  · split at hr
    · rw [List.mem_singleton.mp hr]
    · exact absurd hr List.not_mem_nil
  · obtain ⟨s, -, rfl⟩ := List.mem_map.mp hr
    rfl

theorem movesRows_runeId {receiver : Option Nat → Option Address} {id : RuneId}
    {moves : List (Option Nat × Nat)} {balances : List InputRuneBalance} :
    ∀ r ∈ movesRows receiver id moves balances, r.runeId = id := by
  induction moves generalizing balances with
  | nil => exact fun r hr => absurd hr List.not_mem_nil
  | cons move moves ih =>
    intro r hr
    rcases List.mem_append.mp hr with hr | hr
    · exact moveRows_runeId r hr
    · exact ih r hr

theorem rowsOf_eq_self {id : RuneId} {rows : List LedgerRow} (h : ∀ r ∈ rows, r.runeId = id) :
    rowsOf id rows = rows :=
  List.filter_eq_self.mpr fun r hr => decide_eq_true (h r hr)

theorem rowsOf_eq_nil {id id' : RuneId} {rows : List LedgerRow} (h : ∀ r ∈ rows, r.runeId = id')
    (hne : id' ≠ id) :
    rowsOf id rows = [] :=
  List.filter_eq_nil_iff.mpr fun r hr => by simpa [h r hr] using hne

@[simp] theorem rowsOf_append (id : RuneId) (rows rows' : List LedgerRow) :
    rowsOf id (rows ++ rows') = rowsOf id rows ++ rowsOf id rows' := List.filter_append rows rows'

/-- **An edict** makes its moves of its rune. -/
theorem collectEdicts_writes {edict : Edict} (hid : edict.id ≠ .placeholder)
    (inputRunesBalances : HashMap RuneId (List InputRuneBalance))
    (eligibleOutputs : HashMap Nat ScriptBuf) (txTotalOutputs : Nat) :
    (collectEdicts env network edict inputRunesBalances eligibleOutputs txId
        txTotalOutputs).1.Writes
        (movesRows (receiverAddress env network eligibleOutputs) edict.id
          (edictMoves edict eligibleOutputs txTotalOutputs
            (TransactionCache.unallocated (inputRunesBalances.getD edict.id [])))
          (deque edict.id inputRunesBalances)) ∧
      ∀ id,
        deque id (collectEdicts env network edict inputRunesBalances eligibleOutputs txId
          txTotalOutputs).2 =
          if edict.id = id then movesRest (edictMoves edict eligibleOutputs txTotalOutputs
            (TransactionCache.unallocated (inputRunesBalances.getD edict.id [])))
          (deque edict.id inputRunesBalances)
        else deque id inputRunesBalances := by
  rw [collectEdicts, if_neg fun h => hid ((RuneId.eq_placeholder_iff _).mp h)]
  cases hlookup : inputRunesBalances.lookup edict.id with
  | none =>
    -- nothing is there to move
    have hnone : deque edict.id inputRunesBalances = [] := by
      rw [deque, HashMap.getD, hlookup, Option.getD_none, List.reverse_nil]
    rw [hnone, (movesRows_nil_balances _ _ _).1,
      (movesRows_nil_balances (fun _ => none) edict.id _).2]
    refine ⟨.none, fun id => ?_⟩
    dsimp only
    split
    · rename_i he
      exact he ▸ hnone
    · rfl
  | some availableInputs =>
    obtain ⟨hrows, hrest⟩ :=
      applyMoves_writes env network txId edict.id eligibleOutputs (edictMoves edict eligibleOutputs
        txTotalOutputs (TransactionCache.unallocated availableInputs)) availableInputs
    rw [deque, HashMap.getD_of_lookup hlookup]
    refine ⟨hrows, fun id => ?_⟩
    dsimp only
    rw [deque_insert, hrest, List.reverse_reverse]

/-- The sum over a vector is that over its deque. -/
theorem unallocated_getD {id : RuneId} {m : HashMap RuneId (List InputRuneBalance)}
    (hfits : totalAmount (deque id m) < 2 ^ 128) :
    TransactionCache.unallocated (m.getD id []) = totalAmount (deque id m) := by
  have hreverse : totalAmount (deque id m) = totalAmount (m.getD id []) :=
    totalAmount_perm (List.reverse_perm _)
  rw [hreverse] at hfits ⊢
  exact TransactionCache.unallocated_eq hfits

/-- The rows of one rune among the entries so far. -/
def Parse.rowsOf (id : RuneId) (p : Parse) : List LedgerRow :=
  Mempool.rowsOf id (p.ledgerEntries.map DBMempoolLedgerEntry.row)

theorem Parse.rowsOf_extend {emit : Emit} {rows : List LedgerRow} (h : emit.Writes rows)
    (id : RuneId) (p : Parse) :
    (p.extend emit).rowsOf id = p.rowsOf id ++ Mempool.rowsOf id rows := by
  rw [Parse.rowsOf, Parse.extend, List.map_append, h, rowsOf_append, Parse.rowsOf]

/-- **The edicts**, rune by rune. -/
theorem applyEdicts_writes {edicts : List Edict} (hids : ∀ e ∈ edicts, e.id ≠ .placeholder)
    (txTotalOutputs : Nat) {id : RuneId} {p : Parse}
    (hpos : ∀ b ∈ deque id p.inputRunesBalances, 0 < b.amount)
    (hfits : totalAmount (deque id p.inputRunesBalances) < 2 ^ 128) :
    (applyEdicts env network txId txTotalOutputs edicts p).rowsOf id = p.rowsOf id ++
        movesRows (receiverAddress env network p.eligibleOutputs) id
          (edictsMoves (fun e => edictMoves e p.eligibleOutputs txTotalOutputs) id edicts
            (totalAmount (deque id p.inputRunesBalances))) (deque id p.inputRunesBalances) ∧
      deque id (applyEdicts env network txId txTotalOutputs edicts p).inputRunesBalances =
        movesRest (edictsMoves (fun e => edictMoves e p.eligibleOutputs txTotalOutputs) id edicts
          (totalAmount (deque id p.inputRunesBalances))) (deque id p.inputRunesBalances) ∧
      (applyEdicts env network txId txTotalOutputs edicts p).eligibleOutputs =
        p.eligibleOutputs := by
  induction edicts generalizing p with
  | nil => exact ⟨(List.append_nil _).symm, rfl, rfl⟩
  | cons e edicts ih =>
    obtain ⟨hid, hids⟩ := List.forall_mem_cons.mp hids
    obtain ⟨hwrites, hrest⟩ :=
      collectEdicts_writes env network txId hid p.inputRunesBalances p.eligibleOutputs
        txTotalOutputs
    have hrest := hrest id
    have hextend := p.rowsOf_extend hwrites id
    -- the moves of the edict on this rune are those of the total
    have hmoves : e.id = id → TransactionCache.unallocated (p.inputRunesBalances.getD e.id []) =
        totalAmount (deque id p.inputRunesBalances) := by
      rintro rfl
      exact unallocated_getD hfits
    have hrows :
          rowsOf id (movesRows (receiverAddress env network p.eligibleOutputs) e.id (edictMoves e
            p.eligibleOutputs txTotalOutputs
            (TransactionCache.unallocated (p.inputRunesBalances.getD e.id [])))
            (deque e.id p.inputRunesBalances)) =
        if e.id = id then movesRows (receiverAddress env network p.eligibleOutputs) id
          (edictMoves e p.eligibleOutputs
            txTotalOutputs (totalAmount (deque id p.inputRunesBalances)))
          (deque id p.inputRunesBalances) else [] := by
      split
      · rename_i he
        rw [hmoves he, he]
        exact rowsOf_eq_self movesRows_runeId
      · rename_i he
        exact rowsOf_eq_nil movesRows_runeId he
    have hrest : deque id (collectEdicts env network e p.inputRunesBalances p.eligibleOutputs txId
          txTotalOutputs).2 =
        if e.id = id then
          movesRest (edictMoves e p.eligibleOutputs txTotalOutputs
            (totalAmount (deque id p.inputRunesBalances))) (deque id p.inputRunesBalances)
          else deque id p.inputRunesBalances := by
      rw [hrest]
      split
      · rename_i he
        rw [hmoves he, he]
      · rfl
    -- the edict leaves positive balances, of the total that its moves leave
    have hnext :
          (∀ b ∈ deque id (collectEdicts env network e p.inputRunesBalances p.eligibleOutputs txId
            txTotalOutputs).2, 0 < b.amount) ∧
        totalAmount
          (deque id (collectEdicts env network e p.inputRunesBalances p.eligibleOutputs txId
            txTotalOutputs).2) =
            if e.id = id then movesLeave (edictMoves e p.eligibleOutputs txTotalOutputs
              (totalAmount (deque id p.inputRunesBalances)))
            (totalAmount (deque id p.inputRunesBalances))
          else totalAmount (deque id p.inputRunesBalances) := by
      rw [hrest]
      split
      · exact movesRest_left hpos hfits
      · exact ⟨hpos, rfl⟩
    have hle :
        totalAmount
        (deque id (collectEdicts env network e p.inputRunesBalances p.eligibleOutputs txId
          txTotalOutputs).2) < 2 ^ 128 := by
      rw [hnext.2]
      split
      · exact (movesLeave_le _ _).trans_lt hfits
      · exact hfits
    obtain ⟨hrows', hrest', houtputs⟩ :=
      @ih hids { p.extend (collectEdicts env network e p.inputRunesBalances
        p.eligibleOutputs txId txTotalOutputs).1 with inputRunesBalances :=
        (collectEdicts env network e
          p.inputRunesBalances p.eligibleOutputs txId txTotalOutputs).2 } hnext.1 hle
    rw [hrows] at hextend
    rw [applyEdicts, if_neg hid, edictsMoves]
    dsimp only at hrows' hrest' houtputs ⊢
    rw [hnext.2, hrest] at hrows' hrest'
    refine ⟨hrows'.trans ?_, hrest'.trans ?_, houtputs⟩
    · rw [Parse.rowsOf] at hextend ⊢
      rw [hextend, List.append_assoc]
      split
      · rw [movesRows_append]
        rfl
      · rfl
    · split
      · exact (movesRest_append _ _ _).symm
      · rfl

/-! ## The end of a transaction, and cenotaphs -/

/-- A rune that the map does not have has no balances. -/
theorem deque_of_not_mem {id : RuneId} {m : HashMap RuneId (List InputRuneBalance)}
    (h : id ∉ m.keys) :
    deque id m = [] := by
  rw [deque, HashMap.getD, (HashMap.lookup_eq_none_iff _ _).mpr h, Option.getD_none,
    List.reverse_nil]

theorem inputRuneOrder_nodup (m : HashMap RuneId (List InputRuneBalance)) :
    (env.inputRuneOrder m.keys).Nodup :=
  (env.inputRuneOrder_perm _).nodup_iff.mpr (AList.keys_nodup _)

/-- The rows that are written rune by rune have, of a rune of the map, what is written for it. -/
theorem rowsOf_flatMap {m : HashMap RuneId (List InputRuneBalance)} (rows : RuneId → List LedgerRow)
    (hrows : ∀ id, ∀ r ∈ rows id, r.runeId = id) {id : RuneId}
    (hnone : id ∉ m.keys → rows id = []) :
    rowsOf id ((env.inputRuneOrder m.keys).flatMap rows) = rows id := by
  have hpieces := filter_flatMap_key LedgerRow.runeId hrows (inputRuneOrder_nodup env m) id
  rw [rowsOf, hpieces]
  split
  · rfl
  · rename_i hid
    exact (hnone fun hmem => hid ((env.inputRuneOrder_perm _).mem_iff.mpr hmem)).symm

/-- **The final allocation**, rune by rune: everything goes to the pointer. -/
theorem allocateRemainingBalances_writes (outputPointer : Option Nat)
    (m : HashMap RuneId (List InputRuneBalance)) (eligibleOutputs : HashMap Nat ScriptBuf) :
    ∃ rows,
      (allocateRemainingBalances env network txId outputPointer m eligibleOutputs).Writes rows ∧
      ∀ id, rowsOf id rows =
        movesRows (receiverAddress env network eligibleOutputs) id [(outputPointer, 0)]
        (deque id m) := by
  refine ⟨_, .all_map fun id _ => (moveRuneBalanceToOutput_writes env network txId outputPointer id
    (m.getD id []) eligibleOutputs 0).1, fun id => ?_⟩
  rw [movesRows, movesRows, List.append_nil]
  refine rowsOf_flatMap env (fun id => moveRows (receiverAddress env network eligibleOutputs)
    id outputPointer
    (Runehook.takeBalances 0 (deque id m) 0 [])) (fun id => moveRows_runeId) fun hid => ?_
  have hnone :=
    (movesRows_nil_balances (receiverAddress env network eligibleOutputs) id [(outputPointer, 0)]).1
  rw [movesRows, movesRows, List.append_nil] at hnone
  rw [deque_of_not_mem hid, hnone]

/-- **A cenotaph**, rune by rune: everything is burned. -/
theorem burnInput_writes (m : HashMap RuneId (List InputRuneBalance)) :
    ∃ rows, (burnInput env txId m).Writes rows ∧
      ∀ id, rowsOf id rows = (deque id m).reverse.map (burnRow id) := by
  refine ⟨_, .all_flatMap fun id _ => .all_map fun b _ =>
    newMempoolEntry_writes _ _ _ _ _ _ _, fun id => ?_⟩
  refine (rowsOf_flatMap env _ (fun id r hr => ?_) fun hid => ?_).trans ?_
  · obtain ⟨b, -, hr⟩ := List.mem_flatMap.mp hr
    rw [List.mem_singleton.mp hr]
  · have hnone := deque_of_not_mem hid
    rw [deque, List.reverse_eq_nil_iff] at hnone
    rw [hnone, List.flatMap_nil]
  · rw [deque, List.reverse_reverse, ← List.map_eq_flatMap]
    rfl

/-! ## The transaction -/

/-- Both scans of the outputs find the same eligible ones. -/
theorem collectEligibleOutputs_eq (tx : MempoolTransaction) :
    collectEligibleOutputs env tx = (scanOutputs env.toEnvironment tx.outputs).eligibleOutputs := by
  have hscan : ∀ (l : List (ScriptBuf × Nat)) (scan : OutputScan),
      l.foldl (fun eligibleOutputs (output : ScriptBuf × Nat) =>
        if env.isOpReturn output.1 then eligibleOutputs
          else eligibleOutputs.insert output.2 output.1)
          scan.eligibleOutputs = (l.foldl (scanOutput env.toEnvironment) scan).eligibleOutputs := by
    intro l
    induction l with
    | nil => exact fun scan => rfl
    | cons output l ih =>
      intro scan
      rw [List.foldl_cons, List.foldl_cons, ← ih, scanOutput]
      split <;> rfl
  exact hscan tx.outputs.zipIdx ⟨∅, none⟩

/-- **The balances** that are collected are those of the outputs that are spent, in some order. -/
theorem deque_collect_perm (tx : MempoolTransaction) (db : Db) (id : RuneId) :
    (deque id (collectInputRuneBalancesPg env tx.inputs db)).Perm
    (spentBalances id tx.spends db.ledger) := by
  refine (List.reverse_perm _).trans ?_
  obtain ⟨outputs, houtputs⟩ : ∃ outputs, outputs = tx.inputs.zipIdx.map fun p =>
      (p.2, p.1.1.toText, p.1.2) :=
    ⟨_, rfl⟩
  have hcollect : collectInputRuneBalancesPg env tx.inputs db =
      (env.inputOrder (pgGetInputRuneBalances env.toEnvironment outputs db).keys).foldl
      (fun acc input =>
        extendBalances acc ((pgGetInputRuneBalances env.toEnvironment outputs db).getD input ∅))
          ∅ := by
    rw [houtputs]
    rfl
  rw [hcollect]
  have hfst : outputs.map Prod.fst = List.range tx.inputs.length := by
    rw [houtputs, List.map_map, List.range_eq_range', ← List.zipIdx_map_snd 0 tx.inputs]
    rfl
  have hsnd : outputs.map Prod.snd = tx.spends := by
    rw [houtputs, List.map_map, MempoolTransaction.spends]
    conv_rhs => rw [← List.zipIdx_map_fst 0 tx.inputs, List.map_map]
    rfl
  have hnd : (outputs.map Prod.fst).Nodup := hfst ▸ List.nodup_range
  generalize hfound : pgGetInputRuneBalances env.toEnvironment outputs db = found
  -- the inputs that were found are among those of the transaction
  have hkeys :
      (env.inputOrder found.keys).Perm ((outputs.map Prod.fst).filter (· ∈ found.keys)) := by
    refine (env.inputOrder_perm _).trans
      ((List.perm_ext_iff_of_nodup (AList.keys_nodup _) (hnd.filter _)).mpr ?_)
    intro i
    rw [List.mem_filter, decide_eq_true_eq]
    refine ⟨fun hi => ⟨?_, hi⟩, And.right⟩
    by_contra hnot
    have hnone := lookup_pgGetInputRuneBalances_eq_none env.toEnvironment db hnot
    rw [hfound] at hnone
    exact (HashMap.lookup_eq_none_iff _ _).mp hnone hi
  rw [getD_foldl_extendBalances, HashMap.getD_empty, List.nil_append]
  refine (hkeys.flatMap_right _).trans ?_
  rw [flatMap_filter_keys, List.flatMap_map, spentBalances, ← hsnd, List.flatMap_map]
  refine List.Perm.flatMap_left _ fun o ho => ?_
  rw [← hfound]
  exact (getD_pgGetInputRuneBalances env.toEnvironment db hnd ho id).1

end

/-- **What `parse_mempool_tx` writes** for a transaction whose artifact only moves: the rows of the
artifact, rune by rune, off a deque of the balances that its inputs spend. -/
theorem parseMempoolTx_writes {env : MempoolEnvironment} {tx : MempoolTransaction}
    {artifact : Artifact} {known : RuneId → Prop} {db : Db}
    (hartifact : env.decipher tx.outputs = some artifact) (honly : artifact.OnlyMoves known)
    (hcredits : CreditsOk db.ledger)
    (hfits : ∀ id, totalAmount (spentBalances id tx.spends db.ledger) < 2 ^ 128) (network : Network)
    (txId : String) (id : RuneId) :
    ∃ balances, balances.Perm (spentBalances id tx.spends db.ledger) ∧
      rowsOf id ((parseMempoolTx env network tx txId db).map DBMempoolLedgerEntry.row) =
        artifact.rows (receiverIn env.toEnvironment network tx.outputs)
          (movesIn env.toEnvironment tx.outputs) id (outputPointer artifact) balances := by
  -- the collected deque of a rune holds its spent balances in some order
  have hperm := deque_collect_perm env tx db id
  have hheld : ∀ b ∈ deque id (collectInputRuneBalancesPg env tx.inputs db), b.Held := fun b hb =>
    spentBalances_held hcredits b (hperm.mem_iff.mp hb)
  have hle := (totalAmount_perm hperm).trans_lt (hfits id)
  rw [parseMempoolTx, hartifact]
  dsimp only
  rw [collectEligibleOutputs_eq]
  generalize collectInputRuneBalancesPg env tx.inputs db = m at *
  generalize houtputs : (scanOutputs env.toEnvironment tx.outputs).eligibleOutputs = eligibleOutputs
  -- the scanned outputs give the receivers and the moves that the spec speaks of
  have hreceiver : receiverIn env.toEnvironment network tx.outputs =
      receiverAddress env network eligibleOutputs := by
    funext output
    rw [receiverIn, receiverAddress, houtputs]
  have hmoves : movesIn env.toEnvironment tx.outputs =
      fun e => edictMoves e eligibleOutputs tx.outputs.length := by
    funext e unallocated
    rw [movesIn, houtputs]
  rw [hreceiver, hmoves]
  cases artifact with
  | runestone r =>
    -- the edicts come first, and the pointer gets what they leave
    obtain ⟨hrows, hrest, heligible⟩ :=
      @applyEdicts_writes env network txId r.edicts (fun e he => (honly.2.2 e he).1)
        tx.outputs.length id ⟨[], m, eligibleOutputs, 0⟩ (fun b hb => (hheld b hb).pos) hle
    rw [applyArtifact]
    generalize applyEdicts env network txId tx.outputs.length r.edicts ⟨[], m,
      eligibleOutputs, 0⟩ = p at *
    obtain ⟨rows, hwrites, hallocate⟩ := allocateRemainingBalances_writes env network txId r.pointer
      p.inputRunesBalances p.eligibleOutputs
    have hend := p.rowsOf_extend hwrites id
    refine ⟨_, hperm, hend.trans ?_⟩
    rw [hrows, hallocate, hrest, heligible, Artifact.rows, runeMoves, movesRows_append]
    rfl
  | cenotaph c =>
    obtain ⟨rows, hwrites, hburn⟩ := burnInput_writes env txId m
    have hburnt := Parse.rowsOf_extend hwrites id ⟨[], m, eligibleOutputs, 0⟩
    have hempty : deque id ∅ = [] := by rw [deque, HashMap.getD_empty, List.reverse_nil]
    rw [applyArtifact, honly.1]
    dsimp only
    -- the burn leaves no deque to allocate
    obtain ⟨rest, hrest, hallocate⟩ :=
      allocateRemainingBalances_writes env network txId none ∅ eligibleOutputs
    refine ⟨(deque id m).reverse, (List.reverse_perm _).trans hperm,
      (Parse.rowsOf_extend hrest id _).trans ?_⟩
    rw [hallocate, hempty, (movesRows_nil_balances _ id _).1, List.append_nil,
      Artifact.rows, ← hburn]
    exact hburnt

end Mempool

end Runehook
