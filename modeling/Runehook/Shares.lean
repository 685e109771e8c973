import Runehook.Lib.Sharing
import Runehook.MinedRows

/-! # The shares of the outputs

What an output receives of a rune does not depend on the balances that the rune came in, but on
their total alone. The rule is stated on totals here (`runeShares`, `allotted`), and the moves of
the deques follow it: `serve_edictMoves` and `serve_runeMoves` connect the two, and
`TransactionCache.receivedAt_eq_allotted` is the result. -/

namespace Runehook

open Lib

/-! ## Moves of a total -/

/-- Part of the rows that say who receives. -/
def receives (rows : List LedgerRow) : List LedgerRow := rows.filter fun r => r.operation = .receive

/-- How much of a rune the rows bring to an output. -/
def receivedAt (id : RuneId) (output : Option Nat) (rows : List LedgerRow) : Nat :=
  tally (fun r => r.operation = .receive ∧ r.runeId = id ∧ r.output = output)
    (fun r => r.amount.getD 0) rows

/-- How much of a rune the rows take from its senders for a destination: an output, and who receives
there. -/
def debitedFor (id : RuneId) (output : Option Nat) (address : Option Address)
    (rows : List LedgerRow) : Nat :=
  tally (fun r => (r.operation = .send ∨ r.operation = .burn) ∧ r.runeId = id ∧ r.output = output ∧
    r.receiverAddress = address) (fun r => r.amount.getD 0) rows

/-- The rows that the outputs receive their shares in. -/
def receiveRows (receiver : Option Nat → Option Address) (id : RuneId)
    (shares : List (Option Nat × Nat)) :
    List LedgerRow :=
  shares.flatMap fun s => if (receiver s.1).isSome ∧ 0 < s.2 then
    [⟨id, .receive, some s.2, s.1, receiver s.1, none⟩] else []

@[simp] theorem receives_append (rows rows' : List LedgerRow) :
    receives (rows ++ rows') = receives rows ++ receives rows' := List.filter_append rows rows'

theorem amountLeft_eq (amount total : Nat) :
    amountLeft amount total = total - grant amount total := by
  unfold amountLeft grant
  split <;> omega

/-- What some moves leave is what is not given away. -/
theorem movesLeave_eq (moves : List (Option Nat × Nat)) (total : Nat) :
    movesLeave moves total = total - given (serve moves total) := by
  induction moves generalizing total with
  | nil => rfl
  | cons move moves ih =>
    have hstep : movesLeave (move :: moves) total =
        movesLeave moves (amountLeft move.2 total) := rfl
    rw [hstep, ih, amountLeft_eq, serve, given_cons, Nat.sub_sub]

section

variable {receiver : Option Nat → Option Address} {id : RuneId} {moves : List (Option Nat × Nat)}
  {balances : List InputRuneBalance}

/-- A move sends what it asks for, as far as it is there. -/
theorem takeBalances_grant (amount : Nat) (hpos : ∀ b ∈ balances, 0 < b.amount)
    (hfits : totalAmount balances < 2 ^ 128) :
    (takeBalances amount balances 0 []).totalSent = grant amount (totalAmount balances) ∧
      totalAmount (takeBalances amount balances 0 []).balances =
        totalAmount balances - grant amount (totalAmount balances) := by
  have hexact := @takeBalances_exact amount balances 0 [] (by omega)
  have hleft := @takeBalances_left amount balances 0 [] hpos (by omega) Nat.pos_of_ne_zero
  have hle := grant_le amount (totalAmount balances)
  rw [Nat.zero_add, amountLeft_eq] at hleft
  exact ⟨by omega, hleft⟩

/-- **The moves serve the total.** What is received does not depend on the balances. -/
theorem receives_movesRows (hpos : ∀ b ∈ balances, 0 < b.amount)
    (hfits : totalAmount balances < 2 ^ 128) :
    receives (movesRows receiver id moves balances) =
      receiveRows receiver id (serve moves (totalAmount balances)) := by
  induction moves generalizing balances with
  | nil => rfl
  | cons move moves ih =>
    obtain ⟨hsent, hleft⟩ := takeBalances_grant move.2 hpos hfits
    have hrest := ih (takeBalances_pos move.2 hpos) (by rw [hleft]; omega)
    -- the senders do not receive
    have hmove : receives (moveRows receiver id move.1 (takeBalances move.2 balances 0 [])) =
        receiveRows receiver id [(move.1, grant move.2 (totalAmount balances))] := by
      rw [moveRows, receives_append, hsent, receiveRows, List.flatMap_singleton]
      have hnone : receives ((takeBalances move.2 balances 0 []).senders.map fun s => (⟨id,
          if (receiver move.1).isSome then .send else .burn, some s.1, move.1, some s.2,
            receiver move.1⟩ :
            LedgerRow)) = [] := by
        refine List.filter_eq_nil_iff.mpr fun r hr => ?_
        obtain ⟨s, -, rfl⟩ := List.mem_map.mp hr
        cases receiver move.1 <;> simp
      rw [hnone, List.append_nil]
      split <;> rfl
    rw [movesRows, receives_append, hrest, hleft, hmove, serve]
    simp [receiveRows]

/-- What an output receives, if it has an address, is its share. -/
theorem receivedAt_receiveRows (output : Option Nat) (shares : List (Option Nat × Nat)) :
    receivedAt id output (receiveRows receiver id shares) =
      if (receiver output).isSome then shareOf output shares else 0 := by
  induction shares with
  | nil => simp [receivedAt, receiveRows]
  | cons s shares ih =>
    have hcons : receiveRows receiver id (s :: shares) = (if (receiver s.1).isSome ∧ 0 < s.2 then
        [⟨id, .receive, some s.2, s.1, receiver s.1, none⟩] else []) ++
          receiveRows receiver id shares := rfl
    rw [hcons, receivedAt, tally_append]
    rw [receivedAt] at ih
    rw [ih, shareOf_cons]
    -- the share of the first move is counted or not
    by_cases hs : s.1 = output
    · subst hs
      by_cases hreceiver : (receiver s.1).isSome <;> by_cases hzero : 0 < s.2 <;>
        simp [hreceiver, hzero]
      omega
    · split <;> simp [hs]

theorem receivedAt_receives (id : RuneId) (output : Option Nat) (rows : List LedgerRow) :
    receivedAt id output (receives rows) = receivedAt id output rows := by
  rw [receivedAt, tally, receives, List.filter_filter, receivedAt, tally]
  congr 2
  refine List.filter_congr fun r _ => ?_
  by_cases h : r.operation = .receive <;> simp [h]

/-- Only the entries of a rune bring it to an output. -/
theorem receivedAt_ofRune (id : RuneId) (output : Option Nat) (es : List DbLedgerEntry) :
    receivedAt id output ((ofRune id es).map DbLedgerEntry.row) =
      receivedAt id output (es.map DbLedgerEntry.row) := by
  rw [receivedAt, tally_map, receivedAt, tally_map]
  exact tally_ofRune (fun _ h => (of_decide_eq_true h).2.1) es

/-- The rows of another rune debit nothing. -/
theorem debitedFor_of_ne {id' : RuneId} (hne : id ≠ id') (output : Option Nat)
    (address : Option Address) {rows : List LedgerRow} (hrows : ∀ r ∈ rows, r.runeId = id) :
    debitedFor id' output address rows = 0 :=
  tally_eq_zero _ _ fun r hr => decide_eq_false fun h => hne ((hrows r hr).symm.trans h.2.1)

/-- A move debits the senders of held balances for its own destination, and what it sends. -/
theorem debitedFor_moveRows (amount : Nat) (hheld : ∀ b ∈ balances, b.Held)
    (hfits : totalAmount balances < 2 ^ 128) (target output : Option Nat)
    (address : Option Address) :
    debitedFor id output address (moveRows receiver id target (takeBalances amount balances 0 [])) =
      if target = output ∧ receiver target = address then grant amount (totalAmount balances)
      else 0 := by
  obtain ⟨hsent, -⟩ := takeBalances_grant amount (fun b hb => (hheld b hb).pos) hfits
  have hsenders := @takeBalances_senders amount balances 0 [] hheld (by omega) rfl
  -- only the rows of the senders debit
  rw [← hsent, ← hsenders, debitedFor, tally_moveRows receiver id target _
    (b := decide (target = output ∧ receiver target = address)) (fun _ => by simp)
      fun _ _ => by simp]
  simp only [decide_eq_true_eq]

/-- **The senders of held balances** are debited what their destination gets. -/
theorem debitedFor_movesRows (hheld : ∀ b ∈ balances, b.Held)
    (hfits : totalAmount balances < 2 ^ 128) (output : Option Nat) (address : Option Address) :
    debitedFor id output address (movesRows receiver id moves balances) =
      if receiver output = address then shareOf output (serve moves (totalAmount balances))
      else 0 := by
  induction moves generalizing balances with
  | nil => exact (ite_self 0).symm
  | cons move moves ih =>
    -- what the first move takes is its share, and the others see the rest
    obtain ⟨-, hleft⟩ := takeBalances_grant move.2 (fun b hb => (hheld b hb).pos) hfits
    have hrest := ih (takeBalances_held move.2 hheld) (by rw [hleft]; omega)
    have hmove := @debitedFor_moveRows receiver id balances move.2 hheld hfits move.1 output address
    rw [movesRows, debitedFor, tally_append, serve, shareOf_cons, ← hleft]
    rw [debitedFor] at hrest hmove
    rw [hrest, hmove]
    by_cases ho : move.1 = output
    · subst ho
      split <;> simp_all
    · simp [ho]

end

/-! ## The rule -/

namespace TransactionCache

/-- The outputs that can receive, in ascending order. -/
def eligible (tx : TransactionCache) : List (Option Nat) :=
  (tx.eligibleOutputs.keys.insertionSort (· ≤ ·)).map some

/-- **The rule for an edict**, on the total of its rune: an edict to one output gives it the amount,
or everything; an edict to all of them divides the total, or gives the amount to each until nothing
is left. Without eligible outputs the amount goes nowhere. -/
def edictShares (tx : TransactionCache) (edict : Edict) (total : Nat) : List (Option Nat × Nat) :=
  if tx.eligible = [] then [(none, grant edict.amount total)]
  else if edict.output = tx.totalOutputs then
    if edict.amount = 0 then divide total tx.eligible else giveEach edict.amount tx.eligible total
  else [(some edict.output, grant edict.amount total)]

/-- **The rule for a rune**: its edicts take their shares one after the other, and the rest goes to
the pointer. -/
def runeShares (tx : TransactionCache) (id : RuneId) : List Edict → Nat → List (Option Nat × Nat)
  | [], total => [(tx.outputPointer, total)]
  | edict :: edicts, total =>
    if tx.edictRuneId edict.id = some id then
      tx.edictShares edict total ++
        tx.runeShares id edicts (total - given (tx.edictShares edict total))
    else tx.runeShares id edicts total

/-- What an output gets of a rune: its shares, if it has an address. Other shares are burned. -/
def allotted (env : Environment) (tx : TransactionCache) (edicts : List Edict) (id : RuneId)
    (output : Nat) : Nat :=
  if (receiverAddress env tx.location tx.eligibleOutputs (some output)).isSome then
    shareOf (some output) (tx.runeShares id edicts (totalAmount (tx.available id)))
  else 0

variable {tx : TransactionCache}

theorem length_eligible (tx : TransactionCache) :
    tx.eligible.length = tx.eligibleOutputs.keys.length := by
  rw [eligible, List.length_map, List.length_insertionSort]

/-- An edict gives no more than there is. -/
theorem given_edictShares_le (tx : TransactionCache) (edict : Edict) (total : Nat) :
    given (tx.edictShares edict total) ≤ total := by
  unfold edictShares
  split
  · simpa using grant_le edict.amount total
  · split
    · split
      · exact (given_divide total ‹_›).le
      · rename_i hne
        rw [← serve_same hne tx.eligible (Nat.le_refl total)]
        exact given_serve_le _ total
    · simpa using grant_le edict.amount total

/-- The shares of a rune are all of it. -/
theorem given_runeShares (tx : TransactionCache) (id : RuneId) (edicts : List Edict) (total : Nat) :
    given (tx.runeShares id edicts total) = total := by
  induction edicts generalizing total with
  | nil => simp [runeShares]
  | cons edict edicts ih =>
    have hle := tx.given_edictShares_le edict total
    rw [runeShares]
    split
    · rw [given_append, ih]
      omega
    · exact ih total

theorem evenShares_eq_parts (perOutput : Nat) (outputs : List Nat) (remainder : Nat) :
    evenShares perOutput outputs remainder = parts perOutput (outputs.map some) remainder := by
  induction outputs generalizing remainder with
  | nil => rfl
  | cons output outputs ih => rw [evenShares, ih, List.map_cons, parts]

/-- **An edict follows the rule**: its moves, with amounts of zero and amounts that are no longer
there, give the shares. -/
theorem serve_edictMoves {edict : Edict} (houtput : edict.output ≤ tx.totalOutputs) (total : Nat) :
    serve (tx.edictMoves edict total) total = tx.edictShares edict total := by
  have hnil : tx.eligible = [] ↔ tx.eligibleOutputs.keys.length = 0 := by
    rw [← List.length_eq_zero_iff, length_eligible]
  rw [edictMoves, edictShares]
  simp only [hnil]
  split
  · rfl
  · rename_i hsome
    split
    · split
      · -- the total is divided
        have hne : tx.eligible ≠ [] := fun h => hsome (hnil.mp h)
        rw [evenShares_eq_parts, ← length_eligible]
        show serve (parts (total / tx.eligible.length) tx.eligible
            (total % tx.eligible.length)) total = _
        rw [← divide_eq_parts, serve_divide total hne]
      · rename_i hamount
        rw [← serve_same hamount tx.eligible (Nat.le_refl total), eligible, List.map_map]
        rfl
    · rw [if_pos (by omega)]
      -- an edict of zero asks for the whole total by its amount
      split
      · rename_i hzero
        rw [serve, serve, hzero, grant_self, grant_zero]
      · rfl

/-- **The moves of a rune follow the rule.** -/
theorem serve_runeMoves (tx : TransactionCache) (id : RuneId) {edicts : List Edict}
    (houtputs : ∀ e ∈ edicts, e.output ≤ tx.totalOutputs) (total : Nat) :
    serve (runeMoves tx.edictMoves id (tx.resolve edicts) tx.outputPointer total) total =
      tx.runeShares id edicts total := by
  induction edicts generalizing total with
  | nil => rfl
  | cons edict edicts ih =>
    obtain ⟨houtput, houtputs⟩ := List.forall_mem_cons.mp houtputs
    rw [runeMoves, edictsMoves_resolve_cons, runeShares]
    split
    · rw [List.append_assoc, serve_append, serve_edictMoves houtput, movesLeave_eq,
        serve_edictMoves houtput, ← ih houtputs]
      rfl
    · exact ih houtputs total

/-- **Allocation refines the rule on totals.** After any edicts and the final allocation of a
transaction whose balances are not empty and whose sums fit, each output has received of each rune
what the rule allots to it. -/
theorem receivedAt_eq_allotted (env : Environment) (tx : TransactionCache) (edicts : List Edict)
    (hne : ∀ id, ∀ b ∈ tx.available id, b.amount ≠ 0)
    (hfits : ∀ id, totalAmount (tx.available id) < 2 ^ 128)
    (houtputs : ∀ e ∈ edicts, e.output ≤ tx.totalOutputs) (id : RuneId) (output : Nat) :
    receivedAt id (some output) (((tx.applyEdicts env edicts).2 ++
      ((tx.applyEdicts env edicts).1.allocateRemainingBalances env).2).map DbLedgerEntry.row) =
        tx.allotted env edicts id output := by
  have hpos : ∀ b ∈ tx.available id, 0 < b.amount := fun b hb => Nat.pos_of_ne_zero (hne id b hb)
  obtain ⟨hrows, hrest⟩ := applyEdicts_rows env edicts hpos (hfits id)
  obtain ⟨m, n, hfst⟩ := applyEdicts_fst env edicts tx
  -- the rows of the rune are those of its moves, of which the pointer's is the last
  have hall : (ofRune id ((tx.applyEdicts env edicts).2 ++
      ((tx.applyEdicts env edicts).1.allocateRemainingBalances env).2)).map DbLedgerEntry.row =
        movesRows (receiverAddress env tx.location tx.eligibleOutputs) id
          (runeMoves tx.edictMoves id
            (tx.resolve edicts) tx.outputPointer (totalAmount (tx.available id)))
          (tx.available id) := by
    rw [ofRune_append, List.map_append, allocateRemainingBalances_rows, hrest, hrows, hfst,
      runeMoves, movesRows_append]
  rw [← receivedAt_ofRune, hall, ← receivedAt_receives, receives_movesRows hpos (hfits id),
    receivedAt_receiveRows, serve_runeMoves tx id houtputs]
  rfl

/-- A transaction with seven units of a rune, to the outputs of two addresses and an `OP_RETURN`. -/
def sharingTx : TransactionCache where
  location := ⟨.bitcoin, "0xb", 840001, 0, 1, "0xtx"⟩
  nextEventIndex := 0
  etching := none
  outputPointer := some 0
  inputRunes :=
    (∅ : HashMap RuneId (List InputRuneBalance)).insert ⟨840000, 1⟩ [⟨some "carol", 3⟩, ⟨none, 4⟩]
  eligibleOutputs := AList.insert 1 [2] ((∅ : HashMap Nat ScriptBuf).insert 0 [1])
  totalOutputs := 3

/-- An edict of five to the second output and then one that divides the other two units. -/
theorem receivedAt_sharingTx :
    receivedAt ⟨840000, 1⟩ (some 1) (((sharingTx.applyEdicts (.plain fun _ => none)
        [⟨⟨840000, 1⟩, 5, 1⟩, ⟨⟨840000, 1⟩, 0, 3⟩]).2 ++
      ((sharingTx.applyEdicts (.plain fun _ => none)
        [⟨⟨840000, 1⟩, 5, 1⟩, ⟨⟨840000, 1⟩, 0, 3⟩]).1.allocateRemainingBalances
        (.plain fun _ => none)).2).map DbLedgerEntry.row) = 6 := by
  -- only one rune comes in
  have havailable : ∀ id, sharingTx.available id =
      if id = ⟨840000, 1⟩ then [⟨some "carol", 3⟩, ⟨none, 4⟩] else [] := by
    intro id
    rw [available, sharingTx, HashMap.getD, HashMap.lookup_insert]
    split <;> rfl
  refine (receivedAt_eq_allotted (.plain fun _ => none) sharingTx _ (fun id b hb => ?_)
    (fun id => ?_) (by decide) ⟨840000, 1⟩ 1).trans (by decide)
  · rw [havailable] at hb
    split at hb
    · revert b
      decide
    · exact absurd hb List.not_mem_nil
  · rw [havailable]
    split <;> decide

end TransactionCache

end Runehook
