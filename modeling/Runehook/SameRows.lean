import Runehook.EventIndexes
import Runehook.OperationCounts

/-! # The same rows

Two ledgers are compared up to the numbers of their entries: `SameRows` says that the entries of
every rune are the same, in the same order, and `SameLedger` that this is so transaction by
transaction. Whatever is summed or counted over the entries of one rune, without looking at their
numbers, is then the same. -/

namespace Runehook

open Lib

/-- An entry without its number. -/
def DbLedgerEntry.unnumbered (e : DbLedgerEntry) : DbLedgerEntry := { e with eventIndex := 0 }

/-- The entry of a row of the transaction at a location, without a number. -/
def LedgerRow.entry (location : TransactionLocation) (row : LedgerRow) : DbLedgerEntry :=
  .fromValues row.amount row.runeId location.blockHash location.blockHeight location.txIndex 0
    location.txId row.output row.address row.receiverAddress row.operation location.timestamp

/-- The entries of every rune are the same, in the same order. -/
def SameRows (es es' : List DbLedgerEntry) : Prop :=
  ∀ id, (ofRune id es).map DbLedgerEntry.unnumbered = (ofRune id es').map DbLedgerEntry.unnumbered

/-- **Two ledgers are the same** but for the order in which the entries of different runes are
numbered: transaction by transaction both have the same entries of every rune, in the same order,
and number them from zero on. -/
inductive SameLedger : List DbLedgerEntry → List DbLedgerEntry → Prop
  /-- No transaction has entries. -/
  | nil : SameLedger [] []
  /-- Both have the entries of one more transaction. -/
  | transaction {l l' es es' : List DbLedgerEntry} {location : TransactionLocation} {n n' : Nat}
      (h : SameLedger l l') (hat : ∀ e ∈ es, e.At location) (hat' : ∀ e ∈ es', e.At location)
      (hnumbered : Consecutive DbLedgerEntry.eventIndex 0 es n)
      (hnumbered' : Consecutive DbLedgerEntry.eventIndex 0 es' n') (hrows : SameRows es es') :
    SameLedger (l ++ es) (l' ++ es')

section

variable {es es' fs fs' : List DbLedgerEntry}

theorem SameRows.append (h : SameRows es es') (h' : SameRows fs fs') :
    SameRows (es ++ fs) (es' ++ fs') := by
  intro id
  rw [ofRune_append, ofRune_append, List.map_append, List.map_append, h id, h' id]

theorem SameLedger.rows (h : SameLedger es es') : SameRows es es' := by
  induction h with
  | nil => exact fun _ => rfl
  | transaction _ _ _ _ _ hrows ih => exact ih.append hrows

/-- The entries of one transaction are its rows. -/
theorem SameRows.of_rows {location : TransactionLocation} (hat : ∀ e ∈ es, e.At location)
    (hat' : ∀ e ∈ es', e.At location)
    (h : ∀ id, (ofRune id es).map DbLedgerEntry.row = (ofRune id es').map DbLedgerEntry.row) :
    SameRows es es' := by
  have hentry : ∀ {l : List DbLedgerEntry}, (∀ e ∈ l, e.At location) → ∀ id,
      (ofRune id l).map DbLedgerEntry.unnumbered =
        ((ofRune id l).map DbLedgerEntry.row).map (LedgerRow.entry location) := by
    intro l hl id
    rw [List.map_map]
    refine List.map_congr_left fun e he => ?_
    obtain ⟨h₁, h₂, h₃, h₄, h₅⟩ := hl e (List.mem_of_mem_filter he)
    simp only [DbLedgerEntry.unnumbered, Function.comp_apply, LedgerRow.entry,
      DbLedgerEntry.fromValues, DbLedgerEntry.row, ← h₁, ← h₂, ← h₃, ← h₄, ← h₅]
  intro id
  rw [hentry hat, hentry hat', h id]

/-- A test of the entries of one rune that does not look at their numbers finds the same. -/
theorem SameRows.filter (h : SameRows es es') {p : DbLedgerEntry → Bool}
    (hp : ∀ e, p e.unnumbered = p e) {id : RuneId} (hid : ∀ e, p e = true → e.runeId = id) :
    (es.filter p).map DbLedgerEntry.unnumbered = (es'.filter p).map DbLedgerEntry.unnumbered := by
  have hof : ∀ l : List DbLedgerEntry, (l.filter p).map DbLedgerEntry.unnumbered =
      ((ofRune id l).map DbLedgerEntry.unnumbered).filter p := by
    intro l
    have hcomp : p ∘ DbLedgerEntry.unnumbered = p := funext hp
    rw [List.filter_map, hcomp, ofRune, List.filter_filter]
    congr 1
    refine List.filter_congr fun e _ => ?_
    cases he : p e with
    | false => rfl
    | true => rw [hid e he, decide_eq_true rfl, Bool.and_self]
  rw [hof, hof, h id]

/-- What is summed over the entries of one rune, without looking at their numbers, is the same. -/
theorem SameRows.tally_eq (h : SameRows es es') {p : DbLedgerEntry → Bool} {f : DbLedgerEntry → Nat}
    (hp : ∀ e, p e.unnumbered = p e) (hf : ∀ e, f e.unnumbered = f e) {id : RuneId}
    (hid : ∀ e, p e = true → e.runeId = id) : tally p f es = tally p f es' := by
  have hcomp : f ∘ DbLedgerEntry.unnumbered = f := funext hf
  have hmap : ∀ l : List DbLedgerEntry,
      tally p f l = (((l.filter p).map DbLedgerEntry.unnumbered).map f).sum := by
    intro l
    rw [List.map_map, hcomp, tally]
  rw [hmap, hmap, h.filter hp hid]

theorem SameRows.counted_eq (h : SameRows es es') (counter : SupplyCounter) (id : RuneId) :
    counted counter id es = counted counter id es' :=
  h.tally_eq (fun _ => rfl) (fun e => by cases counter <;> rfl) fun _ he => of_decide_eq_true he

theorem runeId_of_owner {e : DbLedgerEntry} {owner : RuneId × Address} (h : e.owner = some owner) :
    e.runeId = owner.1 := by
  obtain ⟨a, -, ha⟩ := Option.map_eq_some_iff.mp h
  exact congrArg Prod.fst ha

theorem SameRows.directed_eq (h : SameRows es es') (operation : DbLedgerOperation)
    (owner : RuneId × Address) :
    directed operation owner es = directed operation owner es' := by
  have hfilter :=
    h.filter (p := fun e => e.operation = operation ∧ e.owner = some owner) (fun _ => rfl)
      fun _ he => runeId_of_owner (of_decide_eq_true he).2
  rw [directed, directed, List.countP_eq_length_filter, List.countP_eq_length_filter,
    ← List.length_map DbLedgerEntry.unnumbered, hfilter, List.length_map]

theorem SameRows.credits_eq (h : SameRows es es') (k : String × Nat) (id : RuneId) :
    credits k id es = credits k id es' := by
  have hfilter :=
    h.filter (p := fun e => e.operation = .receive ∧ e.outputKey = some k ∧ e.runeId = id)
      (fun _ => rfl)
    fun _ he => (of_decide_eq_true he).2.2
  have hbalance : ∀ l : List DbLedgerEntry, l.map DbLedgerEntry.balance =
      (l.map DbLedgerEntry.unnumbered).map DbLedgerEntry.balance := by
    intro l
    rw [List.map_map]
    rfl
  rw [credits, credits, hbalance, hfilter, ← hbalance]

/-- The rows below a height. -/
theorem SameRows.below (h : SameRows es es') (k : Nat) : SameRows (below k es) (below k es') := by
  intro id
  have hof : ∀ l : List DbLedgerEntry, ofRune id (Runehook.below k l) =
      l.filter fun e => e.runeId = id ∧ e.blockHeight < k := by
    intro l
    rw [ofRune, Runehook.below, List.filter_filter]
    simp only [Bool.decide_and]
  rw [hof, hof]
  exact h.filter (fun _ => rfl) fun _ he => (of_decide_eq_true he).1

/-- What there is in one ledger, there is in the other. -/
theorem SameRows.exists_mem (h : SameRows es es') {e : DbLedgerEntry} (he : e ∈ es) :
    ∃ e' ∈ es', e'.unnumbered = e.unnumbered := by
  have hmem : e.unnumbered ∈ (ofRune e.runeId es').map DbLedgerEntry.unnumbered := by
    rw [← h e.runeId]
    exact List.mem_map_of_mem (List.mem_filter.mpr ⟨he, decide_eq_true rfl⟩)
  obtain ⟨e', he', heq⟩ := List.mem_map.mp hmem
  exact ⟨e', List.mem_of_mem_filter he', heq⟩

theorem SameRows.symm (h : SameRows es es') : SameRows es' es := fun id => (h id).symm

end

end Runehook
