import Runehook.Lib.RunningTotals
import Runehook.LookupAgreement

/-! # What waits to be inserted

The maps of `DbCache` add up the ledger entries that wait to be inserted: `SupplyPending` and
`BalancePending` say so, entry by entry, as long as no sum leaves the range of a `u128` (`Fits`). -/

namespace Runehook

open Lib

/-! ## What an entry counts -/

/-- The counters of a row of `supply_changes`. -/
inductive SupplyCounter where
  | minted
  | totalMints
  | burned
  | totalBurns
  | totalOperations
  deriving DecidableEq, Repr

/-- The value of a counter. -/
def DbSupplyChange.counter (c : DbSupplyChange) : SupplyCounter → Nat
  | .minted => c.minted
  | .totalMints => c.totalMints
  | .burned => c.burned
  | .totalBurns => c.totalBurns
  | .totalOperations => c.totalOperations

/-- What an entry adds to a counter of its rune. -/
def DbLedgerEntry.counts (counter : SupplyCounter) (e : DbLedgerEntry) : Nat :=
  match counter with
  | .minted => if e.operation = .mint then e.value else 0
  | .totalMints => if e.operation = .mint then 1 else 0
  | .burned => if e.operation = .burn then e.value else 0
  | .totalBurns => if e.operation = .burn then 1 else 0
  | .totalOperations => 1

/-- What entries add to a counter of a rune. -/
def counted (counter : SupplyCounter) (id : RuneId) (es : List DbLedgerEntry) : Nat :=
  tally (fun e => e.runeId = id) (DbLedgerEntry.counts counter) es

/-- The rune and the address that an entry is about. -/
def DbLedgerEntry.owner (e : DbLedgerEntry) : Option (RuneId × Address) :=
  e.address.map fun a => (e.runeId, a)

/-- What the entries of one operation move to, or from, an owner. -/
def moved (operation : DbLedgerOperation) (owner : RuneId × Address)
    (es : List DbLedgerEntry) : Nat :=
  tally (fun e => e.operation = operation ∧ e.owner = some owner) DbLedgerEntry.value es

/-- The entries below a height. -/
def below (k : Nat) (es : List DbLedgerEntry) : List DbLedgerEntry :=
  es.filter fun e => e.blockHeight < k

@[simp] theorem below_append (k : Nat) (es es' : List DbLedgerEntry) :
    below k (es ++ es') = below k es ++ below k es' := List.filter_append es es'

theorem below_of_lt {k : Nat} {es : List DbLedgerEntry} (h : ∀ e ∈ es, e.blockHeight < k) :
    below k es = es :=
  List.filter_eq_self.mpr fun e he => decide_eq_true (h e he)

theorem below_of_le {k : Nat} {es : List DbLedgerEntry} (h : ∀ e ∈ es, k ≤ e.blockHeight) :
    below k es = [] :=
  List.filter_eq_nil_iff.mpr fun e he hlt => Nat.not_lt.mpr (h e he) (of_decide_eq_true hlt)

/-- The entries of the current height are below every greater height and no other. -/
theorem below_pending {h k : Nat} {es : List DbLedgerEntry} (hes : ∀ e ∈ es, e.blockHeight = h) :
    below k es = if h < k then es else [] := by
  split
  · exact below_of_lt fun e he => by rwa [hes e he]
  · exact below_of_le fun e he => by rw [hes e he]; omega

/-- Taking out the rows of the greatest height leaves the rows below it. -/
theorem below_delete {h : Nat} {es : List DbLedgerEntry} (hle : ∀ e ∈ es, e.blockHeight ≤ h)
    (k : Nat) :
    below k (es.filter fun e => e.blockHeight ≠ h) = below (min k h) es := by
  rw [below, List.filter_filter, below]
  refine List.filter_congr fun e he => ?_
  have := hle e he
  by_cases hk : e.blockHeight < k <;> by_cases hh : e.blockHeight = h <;> simp [hk, hh]
  omega

@[simp] theorem counted_append (counter : SupplyCounter) (id : RuneId)
    (es es' : List DbLedgerEntry) :
    counted counter id (es ++ es') = counted counter id es + counted counter id es' :=
  tally_append _ _ es es'

@[simp] theorem counted_nil (counter : SupplyCounter) (id : RuneId) :
    counted counter id [] = 0 := rfl

@[simp] theorem moved_append (operation : DbLedgerOperation) (owner : RuneId × Address)
    (es es' : List DbLedgerEntry) :
    moved operation owner (es ++ es') = moved operation owner es + moved operation owner es' :=
  tally_append _ _ es es'

@[simp] theorem moved_nil (operation : DbLedgerOperation) (owner : RuneId × Address) :
    moved operation owner [] = 0 := rfl

/-- No sum over these entries leaves the range of a `u128`. -/
structure Fits (es : List DbLedgerEntry) : Prop where
  /-- The minted amounts of a rune. -/
  minted : ∀ id, counted .minted id es < 2 ^ 128
  /-- The burned amounts of a rune. -/
  burned : ∀ id, counted .burned id es < 2 ^ 128
  /-- What an owner gets, or sends, of a rune. -/
  moved : ∀ operation owner, moved operation owner es < 2 ^ 128

theorem Fits.sublist {es es' : List DbLedgerEntry} (h : Fits es')
    (hsub : es.Sublist es') : Fits es where
  minted id := (tally_sublist hsub).trans_lt (h.minted id)
  burned id := (tally_sublist hsub).trans_lt (h.burned id)
  moved operation owner := (tally_sublist hsub).trans_lt (h.moved operation owner)

/-- Entries that together fit. -/
theorem Fits.of_values {es : List DbLedgerEntry} (h : (es.map DbLedgerEntry.value).sum < 2 ^ 128) :
    Fits es := by
  have hcounts : ∀ counter, counter = .minted ∨ counter = .burned → ∀ e : DbLedgerEntry,
      e.counts counter ≤ e.value := by
    rintro counter (rfl | rfl) e <;> simp only [DbLedgerEntry.counts] <;> split <;> omega
  refine ⟨fun id => ?_, fun id => ?_, fun operation owner => ?_⟩
  · exact (tally_le_sum (hcounts _ (Or.inl rfl))).trans_lt h
  · exact (tally_le_sum (hcounts _ (Or.inr rfl))).trans_lt h
  · exact (tally_le_sum fun _ => le_rfl).trans_lt h

/-- No sum of amounts in a counter that `C` follows leaves the range of a `u128`. -/
def SuppliesFit (C : SupplyCounter → Prop) (es : List DbLedgerEntry) : Prop :=
  ∀ counter, C counter → counter = .minted ∨ counter = .burned → ∀ id,
    counted counter id es < 2 ^ 128

theorem Fits.supplies {C : SupplyCounter → Prop} {es : List DbLedgerEntry} (h : Fits es) :
    SuppliesFit C es := by
  rintro counter - (rfl | rfl)
  · exact h.minted
  · exact h.burned

theorem SuppliesFit.sublist {C : SupplyCounter → Prop} {es es' : List DbLedgerEntry}
    (h : SuppliesFit C es') (hsub : es.Sublist es') : SuppliesFit C es :=
  fun counter hC hsum id => (tally_sublist hsub).trans_lt (h counter hC hsum id)

/-- Mints are counted one by one. -/
theorem suppliesFit_totalMints (es : List DbLedgerEntry) : SuppliesFit (· = .totalMints) es := by
  rintro counter rfl (h | h) <;> cases h

/-! ## Pending supply changes -/

/-- The supply changes that wait to be inserted add up the entries `es` of height `h` in the
counters that `C` follows. -/
structure SupplyPending (C : SupplyCounter → Prop) (h : Nat)
    (changes : HashMap RuneId DbSupplyChange) (es : List DbLedgerEntry) : Prop where
  /-- A change is filed under its rune, at the height. -/
  key : ∀ id c, changes.lookup id = some c → c.runeId = id ∧ c.blockHeight = h
  /-- There is one for each rune of an entry. -/
  isSome : ∀ id, (changes.lookup id).isSome ↔ ∃ e ∈ es, e.runeId = id
  /-- It adds up the entries of the rune. -/
  counter : ∀ counter, C counter → ∀ id,
    ((changes.lookup id).map fun c => c.counter counter).getD 0 = counted counter id es

/-- What an entry does to the change of its rune. -/
def supplyStep (e : DbLedgerEntry) : Option DbSupplyChange → DbSupplyChange
  | some i => { i with
      minted := if e.operation = .mint then u128Add i.minted e.value else i.minted
      totalMints := i.totalMints + e.counts .totalMints
      burned := if e.operation = .burn then u128Add i.burned e.value else i.burned
      totalBurns := i.totalBurns + e.counts .totalBurns
      totalOperations := i.totalOperations + 1 }
  | none => ⟨e.runeId, e.blockHeight, e.counts .minted, e.counts .totalMints, e.counts .burned,
      e.counts .totalBurns, 1⟩

/-- The arms of `add_ledger_entries_to_db_cache` do one thing to the supply changes. -/
theorem countSupply_eq_alter (changes : HashMap RuneId DbSupplyChange) (e : DbLedgerEntry) :
    countSupply changes e = changes.alter e.runeId (supplyStep e) := by
  cases h : e.operation <;>
    simp only [countSupply, h, countOperation, countMint, countBurn] <;>
    (refine congrArg (changes.alter e.runeId) (funext fun o => ?_)) <;>
    cases o <;>
    simp [supplyStep, h, DbLedgerEntry.counts, DbSupplyChange.fromOperation,
      DbSupplyChange.fromMint, DbSupplyChange.fromBurn, DbLedgerEntry.value]

theorem counter_supplyStep {e : DbLedgerEntry} {o : Option DbSupplyChange} {counter : SupplyCounter}
    (hfits : counter = .minted ∨ counter = .burned →
      (o.map fun c => c.counter counter).getD 0 + e.counts counter < 2 ^ 128) :
    (supplyStep e o).counter counter = (o.map fun c => c.counter counter).getD 0 +
      e.counts counter := by
  cases o with
  | none => cases counter <;> simp [supplyStep, DbSupplyChange.counter, DbLedgerEntry.counts]
  | some i =>
    simp only [Option.map_some, Option.getD_some] at hfits ⊢
    cases counter with
    | minted =>
      have hminted := hfits (Or.inl rfl)
      simp only [supplyStep, DbSupplyChange.counter, DbLedgerEntry.counts] at hminted ⊢
      split
      · rename_i hop
        rw [if_pos hop] at hminted
        exact u128Add_eq hminted
      · rfl
    | burned =>
      have hburned := hfits (Or.inr rfl)
      simp only [supplyStep, DbSupplyChange.counter, DbLedgerEntry.counts] at hburned ⊢
      split
      · rename_i hop
        rw [if_pos hop] at hburned
        exact u128Add_eq hburned
      · rfl
    | _ => rfl

theorem SupplyPending.nil (C : SupplyCounter → Prop) (h : Nat) : SupplyPending C h ∅ [] where
  key := by
    intro id c hc
    rw [HashMap.lookup_empty] at hc
    cases hc
  isSome := by
    intro id
    simp
  counter := by
    intro counter _ id
    rw [HashMap.lookup_empty]
    rfl

/-- One more entry counts. -/
theorem SupplyPending.add {C : SupplyCounter → Prop} {h : Nat}
    {changes : HashMap RuneId DbSupplyChange} {es : List DbLedgerEntry} {e : DbLedgerEntry}
    (hp : SupplyPending C h changes es) (he : e.blockHeight = h)
    (hfits : SuppliesFit C (es ++ [e])) :
    SupplyPending C h (countSupply changes e) (es ++ [e]) := by
  -- one entry counts for its own rune only
  have hone : ∀ counter id, counted counter id [e] = if e.runeId = id then e.counts counter
      else 0 := by
    intro counter id
    rw [counted, tally_singleton]
    simp
  rw [countSupply_eq_alter]
  constructor
  · intro id c hc
    rw [HashMap.lookup_alter] at hc
    split at hc
    · rename_i hid
      rw [← Option.some.inj hc]
      cases hlookup : changes.lookup e.runeId with
      | none => exact ⟨hid.symm, he⟩
      | some i =>
        have hkey := hp.key _ _ hlookup
        exact ⟨hkey.1.trans hid.symm, hkey.2⟩
    · exact hp.key id c hc
  · intro id
    rw [HashMap.lookup_alter]
    by_cases hid : id = e.runeId
    · rw [if_pos hid]
      simp [hid]
    · rw [if_neg hid, hp.isSome]
      simp [Ne.symm hid]
  · intro counter hC id
    rw [HashMap.lookup_alter, counted_append, hone]
    by_cases hid : id = e.runeId
    · rw [if_pos hid, if_pos hid.symm, Option.map_some, Option.getD_some,
        hid, ← hp.counter counter hC]
      refine counter_supplyStep fun hsum => ?_
      have hlt := hfits counter hC hsum id
      rwa [counted_append, hone, if_pos hid.symm, ← hp.counter counter hC, hid] at hlt
    · rw [if_neg hid, if_neg (Ne.symm hid), hp.counter counter hC, Nat.add_zero]

/-! ## Pending balance changes -/

/-- The balance changes of one direction that wait to be inserted add up the entries `es` of height
`h`. -/
structure BalancePending (h : Nat) (operation : DbLedgerOperation)
    (changes : HashMap (RuneId × Address) DbBalanceChange) (es : List DbLedgerEntry) : Prop where
  /-- A change is filed under its owner, at the height. -/
  key : ∀ o c, changes.lookup o = some c → c.owner = o ∧ c.blockHeight = h
  /-- There is one for each owner of an entry of the direction. -/
  isSome : ∀ o, (changes.lookup o).isSome ↔ ∃ e ∈ es, e.operation = operation ∧ e.owner = some o
  /-- It adds up the entries of the owner. -/
  balance : ∀ o, ((changes.lookup o).map DbBalanceChange.balance).getD 0 = moved operation o es

theorem BalancePending.nil (h : Nat) (operation : DbLedgerOperation) :
    BalancePending h operation ∅ [] where
  key := by
    intro o c hc
    rw [HashMap.lookup_empty] at hc
    cases hc
  isSome := by
    intro o
    simp
  balance := by
    intro o
    rw [HashMap.lookup_empty]
    rfl

/-- An entry is counted in the change of its owner, if it goes in the direction, and in no other. -/
theorem lookup_countDirection (operation : DbLedgerOperation)
    (changes : HashMap (RuneId × Address) DbBalanceChange) (e : DbLedgerEntry)
    (o : RuneId × Address) :
    (countDirection operation changes e).lookup o =
      if e.operation = operation ∧ e.owner = some o then
        some (((changes.lookup o).map fun i => { i with balance := u128Add i.balance e.value }).getD
          (.fromOperation o.1 e.blockHeight o.2 e.value))
      else changes.lookup o := by
  rw [countDirection]
  -- the entry counts only in its own direction and with an owner
  by_cases hop : e.operation = operation
  · rw [if_pos hop]
    cases ha : e.address with
    | none => simp [DbLedgerEntry.owner, ha]
    | some a =>
      have howner : e.owner = some (e.runeId, a) := by rw [DbLedgerEntry.owner, ha, Option.map_some]
      dsimp only
      rw [countBalance, HashMap.lookup_alter, howner]
      by_cases ho : o = (e.runeId, a)
      · rw [if_pos ho, if_pos ⟨hop, by rw [ho]⟩, ho]
        cases changes.lookup (e.runeId, a) <;> rfl
      · rw [if_neg ho, if_neg fun h => ho (Option.some.inj h.2).symm]
  · rw [if_neg hop, if_neg fun h => hop h.1]

/-- One more entry counts. -/
theorem BalancePending.add {h : Nat} {operation : DbLedgerOperation}
    {changes : HashMap (RuneId × Address) DbBalanceChange} {es : List DbLedgerEntry}
    {e : DbLedgerEntry} (hp : BalancePending h operation changes es) (he : e.blockHeight = h)
    (hfits : Fits (es ++ [e])) :
    BalancePending h operation (countDirection operation changes e) (es ++ [e]) := by
  -- one entry moves something for its own owner only
  have hone : ∀ o, moved operation o [e] =
      if e.operation = operation ∧ e.owner = some o then e.value else 0 := by
    intro o
    rw [moved, tally_singleton]
    simp
  constructor
  · intro o c hc
    rw [lookup_countDirection] at hc
    split at hc
    -- a new change is filed with the owner and the height of the entry
    · rw [← Option.some.inj hc]
      cases hlookup : changes.lookup o with
      | none => exact ⟨rfl, he⟩
      | some i => exact hp.key o i hlookup
    · exact hp.key o c hc
  · intro o
    rw [lookup_countDirection]
    by_cases hat : e.operation = operation ∧ e.owner = some o
    · simp [hat]
    · rw [if_neg hat, hp.isSome]
      simp [hat]
  · intro o
    have hmoved := hfits.moved operation o
    rw [lookup_countDirection, moved_append, hone]
    rw [moved_append, hone] at hmoved
    by_cases hat : e.operation = operation ∧ e.owner = some o
    · rw [if_pos hat, Option.map_some, Option.getD_some, if_pos hat, ← hp.balance]
      rw [if_pos hat, ← hp.balance] at hmoved
      cases hlookup : changes.lookup o with
      | none => exact (Nat.zero_add _).symm
      | some i =>
        rw [hlookup] at hmoved
        exact u128Add_eq hmoved
    · rw [if_neg hat, hp.balance, if_neg hat, Nat.add_zero]

end Runehook
