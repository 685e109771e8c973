import Runehook.MempoolRows
import Runehook.Shares

/-! # Two orders of taking

The edicts of a transaction are carried out twice: the mempool takes balances from the back of a
vector, and the index from the front of a deque. The senders can differ, but what is received, what
is debited for a destination and what is left are the same (`SameTransfers`), because they depend on
the totals alone. The two stay in step edict by edict (`InStep`, `InStep.edict`), which gives
`edicts_sameTransfers`. -/

namespace Runehook

open Lib

/-- The balances of the mempool are in step with those of the index: all are held, and the totals
are the same. -/
structure InStep (tx : TransactionCache) (m : HashMap RuneId (List InputRuneBalance)) : Prop where
  /-- All balances of the index have owners and are not empty. -/
  indexHeld : ∀ id, ∀ b ∈ tx.available id, b.Held
  /-- So have those of the mempool. -/
  mempoolHeld : ∀ id, ∀ b ∈ Mempool.deque id m, b.Held
  /-- The totals are in the range of a `u128`. -/
  fits : ∀ id, totalAmount (tx.available id) < 2 ^ 128
  /-- The totals are the same. -/
  total : ∀ id, totalAmount (Mempool.deque id m) = totalAmount (tx.available id)

/-- The same is received and debited for each destination. -/
structure SameTransfers (rows rows' : List LedgerRow) : Prop where
  /-- The same is received, in the same order. -/
  receives : receives rows = receives rows'
  /-- The same is debited from each address for each output. -/
  debited : ∀ id output address,
      debitedFor id output address rows = debitedFor id output address rows'

theorem SameTransfers.append {rows₁ rows₂ rows₁' rows₂' : List LedgerRow}
    (h₁ : SameTransfers rows₁ rows₁') (h₂ : SameTransfers rows₂ rows₂') :
    SameTransfers (rows₁ ++ rows₂) (rows₁' ++ rows₂') := by
  refine ⟨?_, fun id output address => ?_⟩
  · rw [receives_append, receives_append, h₁.receives, h₂.receives]
  · have hfirst := h₁.debited id output address
    have hsecond := h₂.debited id output address
    rw [debitedFor, debitedFor] at hfirst hsecond
    rw [debitedFor, debitedFor, tally_append, tally_append, hfirst, hsecond]

/-- **The same moves of the same total** transfer the same, whatever the balances are. -/
theorem SameTransfers.movesRows {receiver : Option Nat → Option Address} {id : RuneId}
    {moves : List (Option Nat × Nat)} {balances balances' : List InputRuneBalance}
    (hheld : ∀ b ∈ balances, b.Held) (hheld' : ∀ b ∈ balances', b.Held)
    (hfits : totalAmount balances < 2 ^ 128)
    (htotal : totalAmount balances' = totalAmount balances) :
    SameTransfers (movesRows receiver id moves balances)
    (movesRows receiver id moves balances') := by
  have hfits' : totalAmount balances' < 2 ^ 128 := htotal ▸ hfits
  refine ⟨?_, fun id' output address => ?_⟩
  · rw [receives_movesRows (fun b hb => (hheld b hb).pos) hfits,
      receives_movesRows (fun b hb => (hheld' b hb).pos) hfits', htotal]
  · by_cases hid : id = id'
    · subst hid
      rw [debitedFor_movesRows hheld hfits, debitedFor_movesRows hheld' hfits', htotal]
    · rw [debitedFor_of_ne hid output address Mempool.movesRows_runeId,
        debitedFor_of_ne hid output address Mempool.movesRows_runeId]

section

variable {env : MempoolEnvironment} {tx : TransactionCache}
    {m : HashMap RuneId (List InputRuneBalance)}

variable (env) in
/-- **An edict keeps both in step** and transfers the same. -/
theorem InStep.edict (h : InStep tx m) {e : Edict} (hid : e.id ≠ .placeholder) (txId : String) :
    InStep (tx.applyEdict env.toEnvironment e).1
        (Mempool.collectEdicts env tx.location.network e m tx.eligibleOutputs txId
          tx.totalOutputs).2 ∧
      ∃ rows,
        (Mempool.collectEdicts env tx.location.network e m tx.eligibleOutputs txId
          tx.totalOutputs).1.Writes rows ∧
        SameTransfers ((tx.applyEdict env.toEnvironment e).2.map DbLedgerEntry.row) rows := by
  have hmeans : tx.edictRuneId e.id = some e.id := TransactionCache.edictRuneId_of_ne hid
  obtain ⟨hrows, hrest⟩ := TransactionCache.applyEdict_moves env.toEnvironment hmeans
  obtain ⟨hwrites, hleft⟩ :=
    Mempool.collectEdicts_writes env tx.location.network txId hid m tx.eligibleOutputs
      tx.totalOutputs
  have hfits := h.fits e.id
  have htotal := h.total e.id
  -- both deques have the same total, which fits, so the same moves are asked for
  rw [Mempool.unallocated_getD (htotal.trans_lt hfits), htotal] at hwrites hleft
  rw [TransactionCache.unallocated_eq hfits] at hrows hrest
  refine ⟨⟨fun id => ?_, fun id => ?_, fun id => ?_, fun id => ?_⟩, _, hwrites, ?_⟩
  -- what is left was held, in either order
  · rw [hrest]
    split
    · exact movesRest_held (h.indexHeld e.id)
    · exact h.indexHeld id
  · rw [hleft]
    split
    · exact movesRest_held (h.mempoolHeld e.id)
    · exact h.mempoolHeld id
  · rw [hrest]
    split
    · rw [(movesRest_left (fun b hb => (h.indexHeld e.id b hb).pos) hfits).2]
      exact (movesLeave_le _ _).trans_lt hfits
    -- the total left is a function of the total before
    · exact h.fits id
  · rw [hrest, hleft]
    split
    · rw [(movesRest_left (fun b hb => (h.indexHeld e.id b hb).pos) hfits).2,
        (movesRest_left (fun b hb => (h.mempoolHeld e.id b hb).pos) (htotal.trans_lt hfits)).2,
          htotal]
      rfl
    · exact h.total id
  · rw [hrows]
    exact .movesRows (h.indexHeld e.id) (h.mempoolHeld e.id) hfits htotal

variable (env) in
/-- **All edicts keep both in step** and transfer the same. -/
theorem InStep.edicts {p : Mempool.Parse} {edicts : List Edict} (h : InStep tx p.inputRunesBalances)
    (hids : ∀ e ∈ edicts, e.id ≠ .placeholder) (houtputs : p.eligibleOutputs = tx.eligibleOutputs)
    (txId : String) :
    InStep (tx.applyEdicts env.toEnvironment edicts).1
        (Mempool.applyEdicts env tx.location.network txId
          tx.totalOutputs edicts p).inputRunesBalances ∧
      ∃ rows,
          (Mempool.applyEdicts env tx.location.network txId
            tx.totalOutputs edicts p).ledgerEntries.map
          DBMempoolLedgerEntry.row = p.ledgerEntries.map DBMempoolLedgerEntry.row ++ rows ∧
        SameTransfers ((tx.applyEdicts env.toEnvironment edicts).2.map DbLedgerEntry.row) rows := by
  induction edicts generalizing tx p with
  | nil => exact ⟨h, [], (List.append_nil _).symm, rfl, fun _ _ _ => rfl⟩
  | cons e edicts ih =>
    obtain ⟨hid, hids⟩ := List.forall_mem_cons.mp hids
    obtain ⟨hstep, rows, hwrites, hsame⟩ := h.edict env hid txId
    obtain ⟨inputRunes, n, hfst⟩ := TransactionCache.applyEdict_fst env.toEnvironment tx e
    -- an edict changes the deques and the event index, nothing else
    have hlocation : (tx.applyEdict env.toEnvironment e).1.location = tx.location := by rw [hfst]
    have heligible : (tx.applyEdict env.toEnvironment e).1.eligibleOutputs =
        tx.eligibleOutputs := by rw [hfst]
    have htotalOutputs : (tx.applyEdict env.toEnvironment e).1.totalOutputs =
        tx.totalOutputs := by rw [hfst]
    -- the edicts behind it go on from the two caches it leaves
    obtain ⟨hend, rows', hrows', hsame'⟩ := @ih (tx.applyEdict env.toEnvironment e).1
      { p.extend (Mempool.collectEdicts env tx.location.network e p.inputRunesBalances
          tx.eligibleOutputs txId tx.totalOutputs).1 with
        inputRunesBalances :=
          (Mempool.collectEdicts env tx.location.network e p.inputRunesBalances tx.eligibleOutputs
            txId tx.totalOutputs).2 } hstep hids (houtputs.trans heligible.symm)
    rw [hlocation, htotalOutputs] at hend hrows'
    rw [Mempool.applyEdicts, if_neg hid, houtputs]
    refine ⟨hend, rows ++ rows', hrows'.trans ?_, ?_⟩
    · rw [← List.append_assoc, ← hwrites p.nextEventIndex, ← List.map_append]
      rfl
    · rw [TransactionCache.applyEdicts, List.map_append]
      exact hsame.append hsame'

end

/-- **Both orders credit the same outputs.** After every edict of a list on real rune ids, the
mempool and the index have received the same, in the same order, have debited the same for every
destination and have the same total of every rune left, from balances that the two hold in any two
orders. -/
theorem edicts_sameTransfers (env : MempoolEnvironment) (txId : String) (tx : TransactionCache)
    (m : HashMap RuneId (List InputRuneBalance)) (edicts : List Edict) (n : Nat)
    (hheld : ∀ id, ∀ b ∈ tx.available id, b.amount ≠ 0 ∧ b.address.isSome)
    (hfits : ∀ id, totalAmount (tx.available id) < 2 ^ 128)
    (hperm : ∀ id, (m.getD id []).Perm (tx.available id)) (hids : ∀ e ∈ edicts, e.id ≠ .placeholder)
    (k : Nat) :
    SameTransfers ((tx.applyEdicts env.toEnvironment (edicts.take k)).2.map DbLedgerEntry.row)
        ((Mempool.applyEdicts env tx.location.network txId tx.totalOutputs (edicts.take k)
          ⟨[], m, tx.eligibleOutputs, n⟩).ledgerEntries.map DBMempoolLedgerEntry.row) ∧
      ∀ id, totalAmount ((tx.applyEdicts env.toEnvironment (edicts.take k)).1.available id) =
        totalAmount
          ((Mempool.applyEdicts env tx.location.network txId tx.totalOutputs (edicts.take k)
            ⟨[], m, tx.eligibleOutputs, n⟩).inputRunesBalances.getD id []) := by
  have hdeque : ∀ id, (Mempool.deque id m).Perm (tx.available id) :=
    fun id => (List.reverse_perm _).trans (hperm id)
  have hindex : ∀ id, ∀ b ∈ tx.available id, b.Held := fun id b hb =>
    ⟨(hheld id b hb).2, Nat.pos_of_ne_zero (hheld id b hb).1⟩
  have hstart : InStep tx m :=
    ⟨hindex, fun id b hb => hindex id b ((hdeque id).mem_iff.mp hb), hfits,
      fun id => totalAmount_perm (hdeque id)⟩
  obtain ⟨hend, rows, hrows, hsame⟩ := hstart.edicts env (p := ⟨[], m, tx.eligibleOutputs, n⟩)
    (fun e he => hids e (List.mem_of_mem_take he)) rfl txId
  refine ⟨?_, fun id => ?_⟩
  · rw [hrows]
    exact hsame
  · rw [← hend.total id]
    exact totalAmount_perm (List.reverse_perm _)

/-- A transaction with balances of two owners. -/
def ownersTx : TransactionCache :=
  { TransactionCache.sharingTx with
    inputRunes := (∅ : HashMap RuneId (List InputRuneBalance)).insert ⟨840000, 1⟩
      [⟨some "carol", 3⟩, ⟨some "dave", 4⟩] }

/-- The mempool takes one unit from carol and the index takes two from dave, but five go to the
second output. -/
theorem edicts_sameTransfers_ownersTx :
    SameTransfers ((ownersTx.applyEdicts (MempoolEnvironment.plain fun _ => none).toEnvironment
        [⟨⟨840000, 1⟩, 5, 1⟩]).2.map DbLedgerEntry.row)
      ((Mempool.applyEdicts (.plain fun _ => none) .bitcoin "0xtx" 3 [⟨⟨840000, 1⟩, 5, 1⟩]
        ⟨[], ownersTx.inputRunes, ownersTx.eligibleOutputs, 0⟩).ledgerEntries.map
        DBMempoolLedgerEntry.row) ∧
    (ownersTx.applyEdicts (MempoolEnvironment.plain fun _ => none).toEnvironment
        [⟨⟨840000, 1⟩, 5, 1⟩]).2.map DbLedgerEntry.row ≠
      (Mempool.applyEdicts (.plain fun _ => none) .bitcoin "0xtx" 3 [⟨⟨840000, 1⟩, 5, 1⟩]
        ⟨[], ownersTx.inputRunes, ownersTx.eligibleOutputs, 0⟩).ledgerEntries.map
        DBMempoolLedgerEntry.row := by
  have havailable : ∀ id, ownersTx.available id =
      if id = ⟨840000, 1⟩ then [⟨some "carol", 3⟩, ⟨some "dave", 4⟩] else [] := by
    intro id
    rw [TransactionCache.available, ownersTx, HashMap.getD, HashMap.lookup_insert]
    split <;> rfl
  refine ⟨(edicts_sameTransfers (.plain fun _ => none) "0xtx" ownersTx ownersTx.inputRunes
    [⟨⟨840000, 1⟩, 5, 1⟩] 0
    (fun id b hb => ?_) (fun id => ?_) (fun _ => .refl _) (by decide) 1).1, by decide⟩
  · rw [havailable] at hb
    split at hb
    · revert b
      decide
    · exact absurd hb List.not_mem_nil
  · rw [havailable]
    split <;> decide

end Runehook
