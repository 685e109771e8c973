import Runehook.Steps

/-! # What moving balances conserves

The laws of `move_rune_balance_to_output` and of the transaction's cache that hold whatever the
amounts: a move credits at most what it takes (`u128` sums only lose by wrapping around), and the
entries it writes debit every owner by exactly what it takes from them. The measures are `received`,
`minted`, `debited` and `totalAmount`; the laws of the loop are `takeBalances_total` and
`takeBalances_debits`, and `Step.received_le` is that of a call. -/

namespace Runehook

open Lib

/-! ## Measures -/

/-- The amount of an entry, zero for an etching. -/
def DbLedgerEntry.value (e : DbLedgerEntry) : Nat := e.amount.getD 0

/-- The entry was written for the transaction at a location. -/
structure DbLedgerEntry.At (location : TransactionLocation) (e : DbLedgerEntry) : Prop where
  /-- The hash of the block. -/
  blockHash : e.blockHash = stripHexPrefix location.blockHash
  /-- The height of the block. -/
  blockHeight : e.blockHeight = location.blockHeight
  /-- The index of the transaction in the block. -/
  txIndex : e.txIndex = location.txIndex
  /-- The id of the transaction. -/
  txId : e.txId = stripHexPrefix location.txId
  /-- The timestamp of the block. -/
  timestamp : e.timestamp = location.timestamp

/-- The rune was etched by the transaction at a location. -/
structure DbRune.At (location : TransactionLocation) (r : DbRune) : Prop where
  /-- Its id is that of the location. -/
  id : r.id = location.runeId
  /-- The hash of the block. -/
  blockHash : r.blockHash = stripHexPrefix location.blockHash
  /-- The height of the block. -/
  blockHeight : r.blockHeight = location.blockHeight
  /-- The index of the transaction in the block. -/
  txIndex : r.txIndex = location.txIndex
  /-- The id of the transaction. -/
  txId : r.txId = stripHexPrefix location.txId

/-- How much of a rune the entries credit to outputs. -/
def received (id : RuneId) (es : List DbLedgerEntry) : Nat :=
  tally (fun e => e.operation = .receive ∧ e.runeId = id) DbLedgerEntry.value es

/-- How much of a rune the entries mint. -/
def minted (id : RuneId) (es : List DbLedgerEntry) : Nat :=
  tally (fun e => e.operation = .mint ∧ e.runeId = id) DbLedgerEntry.value es

/-- How much of a rune the entries take from an address, to send it on or to burn it. -/
def debited (id : RuneId) (a : Address) (es : List DbLedgerEntry) : Nat :=
  tally (fun e => (e.operation = .send ∨ e.operation = .burn) ∧ e.runeId = id ∧ e.address = some a)
    DbLedgerEntry.value es

/-- The sum of some balances. -/
def totalAmount (balances : List InputRuneBalance) : Nat :=
  (balances.map InputRuneBalance.amount).sum

/-- What an address owns of some balances. -/
def ownedAmount (a : Address) (balances : List InputRuneBalance) : Nat :=
  tally (fun b => b.address = some a) InputRuneBalance.amount balances

/-- What a list of senders takes from an address. -/
def sentAmount (a : Address) (senders : List (Nat × Address)) : Nat :=
  tally (fun s => s.2 = a) Prod.fst senders

@[simp] theorem received_nil (id : RuneId) : received id [] = 0 := rfl

@[simp] theorem received_append (id : RuneId) (es es' : List DbLedgerEntry) :
    received id (es ++ es') = received id es + received id es' := tally_append _ _ es es'

@[simp] theorem minted_nil (id : RuneId) : minted id [] = 0 := rfl

@[simp] theorem minted_append (id : RuneId) (es es' : List DbLedgerEntry) :
    minted id (es ++ es') = minted id es + minted id es' := tally_append _ _ es es'

@[simp] theorem debited_nil (id : RuneId) (a : Address) : debited id a [] = 0 := rfl

@[simp] theorem debited_append (id : RuneId) (a : Address) (es es' : List DbLedgerEntry) :
    debited id a (es ++ es') = debited id a es + debited id a es' := tally_append _ _ es es'

@[simp] theorem totalAmount_nil : totalAmount [] = 0 := rfl

@[simp] theorem totalAmount_cons (b : InputRuneBalance) (l : List InputRuneBalance) :
    totalAmount (b :: l) = b.amount + totalAmount l := by
  rw [totalAmount, List.map_cons, List.sum_cons, totalAmount]

@[simp] theorem totalAmount_append (l l' : List InputRuneBalance) :
    totalAmount (l ++ l') = totalAmount l + totalAmount l' := by
  rw [totalAmount, List.map_append, List.sum_append, totalAmount, totalAmount]

theorem totalAmount_perm {l l' : List InputRuneBalance} (h : l.Perm l') :
    totalAmount l = totalAmount l' :=
  (h.map _).sum_eq

@[simp] theorem ownedAmount_nil (a : Address) : ownedAmount a [] = 0 := rfl

@[simp] theorem ownedAmount_cons (a : Address) (b : InputRuneBalance) (l : List InputRuneBalance) :
    ownedAmount a (b :: l) = (if b.address = some a then b.amount else 0) + ownedAmount a l := by
  rw [ownedAmount, tally_cons, ownedAmount]
  simp

@[simp] theorem ownedAmount_append (a : Address) (l l' : List InputRuneBalance) :
    ownedAmount a (l ++ l') = ownedAmount a l + ownedAmount a l' := tally_append _ _ l l'

@[simp] theorem sentAmount_nil (a : Address) : sentAmount a [] = 0 := rfl

@[simp] theorem sentAmount_append (a : Address) (l l' : List (Nat × Address)) :
    sentAmount a (l ++ l') = sentAmount a l + sentAmount a l' := tally_append _ _ l l'

theorem sentAmount_cons (a : Address) (s : Nat × Address) (l : List (Nat × Address)) :
    sentAmount a (s :: l) = (if s.2 = a then s.1 else 0) + sentAmount a l := by
  rw [sentAmount, tally_cons, sentAmount]
  simp

/-! ## Taking -/

/-- What the loop takes from the front of the deque is at most what is there. -/
theorem balanceTaken_le (amount totalSent : Nat) (bal : InputRuneBalance) :
    (if amount = 0 then bal.amount else min bal.amount (amount - totalSent)) ≤ bal.amount := by
  split
  · exact Nat.le_refl _
  · exact Nat.min_le_left _ _

/-- **Taking conserves.** What is sent and what is left are at most what was there. -/
theorem takeBalances_total (amount : Nat) (balances : List InputRuneBalance) (totalSent : Nat)
    (senders : List (Nat × Address)) :
    (takeBalances amount balances totalSent senders).totalSent +
      totalAmount (takeBalances amount balances totalSent senders).balances ≤
        totalSent + totalAmount balances := by
  induction balances generalizing totalSent senders with
  | nil => exact Nat.le_refl _
  | cons bal rest ih =>
    rw [takeBalances]
    have htaken := balanceTaken_le amount totalSent bal
    generalize (if amount = 0 then bal.amount else min bal.amount (amount - totalSent)) =
      taken at htaken
    -- a sum that wraps around only gets smaller
    have hadd := u128Add_le totalSent taken
    split
    · simp only [totalAmount_cons]
      omega
    · split
      · simp only [totalAmount_cons]
        omega
      · refine (ih _ _).trans ?_
        rw [totalAmount_cons]
        omega

/-- **Taking is exact.** What is sent and what is left are what was there. -/
theorem takeBalances_exact (amount : Nat) {balances : List InputRuneBalance} {totalSent : Nat}
    {senders : List (Nat × Address)} (h : totalSent + totalAmount balances < 2 ^ 128) :
    (takeBalances amount balances totalSent senders).totalSent +
      totalAmount (takeBalances amount balances totalSent senders).balances =
        totalSent + totalAmount balances := by
  induction balances generalizing totalSent senders with
  | nil => rfl
  | cons bal rest ih =>
    rw [takeBalances]
    have htaken := balanceTaken_le amount totalSent bal
    generalize (if amount = 0 then bal.amount else min bal.amount (amount - totalSent)) =
      taken at htaken
    rw [totalAmount_cons] at h
    have hadd : u128Add totalSent taken = totalSent + taken := u128Add_eq (by omega)
    rw [hadd]
    split
    · simp only [totalAmount_cons]
      omega
    -- the loop goes on only where the balance was taken whole
    · have hall : taken = bal.amount := by omega
      split
      · simp only [totalAmount_cons]
        omega
      · rw [ih (by omega), totalAmount_cons]
        omega

/-- **Taking debits.** What the senders with a property are debited is what the balances of such
owners lost. -/
theorem takeBalances_debits (q : Address → Bool) (amount : Nat) (balances : List InputRuneBalance)
    (totalSent : Nat) (senders : List (Nat × Address)) :
    tally (fun s => q s.2) Prod.fst (takeBalances amount balances totalSent senders).senders +
      tally (fun b => b.address.any q) InputRuneBalance.amount
        (takeBalances amount balances totalSent senders).balances =
      tally (fun s => q s.2) Prod.fst senders +
        tally (fun b => b.address.any q) InputRuneBalance.amount balances := by
  induction balances generalizing totalSent senders with
  | nil => rfl
  | cons bal rest ih =>
    obtain ⟨address, available⟩ := bal
    rw [takeBalances]
    have htaken := balanceTaken_le amount totalSent ⟨address, available⟩
    dsimp only at htaken ⊢
    generalize (if amount = 0 then available else min available (amount - totalSent)) =
      taken at htaken
    -- the sender of this balance is debited by `taken`
    have hsenders :
        tally (fun s => q s.2) Prod.fst (senders ++ (address.map fun b => (taken, b)).toList) =
          tally (fun s => q s.2) Prod.fst senders + if address.any q then taken else 0 := by
      cases address with
      | none => simp
      | some b => simp
    split
    · dsimp only
      rw [hsenders, tally_cons, tally_cons]
      dsimp only
      split <;> omega
    · have hall : taken = available := by omega
      split
      · dsimp only
        rw [hsenders, tally_cons]
        dsimp only
        split <;> omega
      · rw [ih, hsenders, tally_cons]
        dsimp only
        split <;> omega

/-- What the senders of an address are debited is what its balances lost. -/
theorem takeBalances_owned (amount : Nat) (a : Address) (balances : List InputRuneBalance)
    (totalSent : Nat) (senders : List (Nat × Address)) :
    sentAmount a (takeBalances amount balances totalSent senders).senders +
      ownedAmount a (takeBalances amount balances totalSent senders).balances =
        sentAmount a senders + ownedAmount a balances := by
  have howned : ∀ balances, ownedAmount a balances =
      tally (fun b => b.address.any fun b => decide (b = a)) InputRuneBalance.amount balances := by
    intro balances
    refine tally_congr fun b _ => ?_
    cases b.address <;> simp
  rw [howned, howned]
  exact takeBalances_debits (fun b => decide (b = a)) amount balances totalSent senders

/-! ## Moving -/

theorem fromValues_at (location : TransactionLocation) (amount : Option Nat) (id : RuneId) (n : Nat)
    (output : Option Nat) (address receiver : Option Address) (operation : DbLedgerOperation) :
    (newSequentialLedgerEntry location amount id output address receiver operation n).1.At
    location :=
  ⟨rfl, rfl, rfl, rfl, rfl⟩

/-- What the entries of a move look like. -/
structure DbLedgerEntry.MoveOf (location : TransactionLocation) (id : RuneId) (output : Option Nat)
    (receiver : Option Address) (e : DbLedgerEntry) : Prop where
  /-- It was written for the transaction. -/
  at_location : e.At location
  /-- It is about the rune that is moved. -/
  runeId : e.runeId = id
  /-- It names the output of the move. -/
  output : e.output = output
  /-- It has an amount. -/
  amount : e.amount.isSome
  /-- It credits the receiver with something, or it names a sender. -/
  operation : (e.operation = .receive ∧ e.address = receiver ∧ receiver.isSome ∧ 0 < e.value) ∨
    (e.operation = (if receiver.isSome then .send else .burn) ∧ e.address.isSome)

/-- The fields that a credit has. -/
structure DbLedgerEntry.Credit (e : DbLedgerEntry) : Prop where
  /-- An owner. -/
  address : e.address.isSome
  /-- An output. -/
  output : e.output.isSome
  /-- An amount. -/
  amount : e.amount.isSome
  /-- The amount is not zero. -/
  pos : 0 < e.value

theorem DbLedgerEntry.MoveOf.credit {env : Environment} {location : TransactionLocation}
    {id : RuneId} {output : Option Nat} {outputs : HashMap Nat ScriptBuf} {e : DbLedgerEntry}
    (h : e.MoveOf location id output (Runehook.receiverAddress env location outputs output))
    (hop : e.operation = .receive) : e.Credit := by
  rcases h.operation with ⟨-, haddress, hsome, hpos⟩ | ⟨hother, -⟩
  · refine ⟨haddress ▸ hsome, ?_, h.amount, hpos⟩
    rw [h.output]
    cases output with
    | some o => rfl
    | none => cases hsome
  · rw [hop] at hother
    split at hother <;> cases hother

theorem senderEntries_moveOf {location : TransactionLocation} {id : RuneId} {output : Option Nat}
    {receiver : Option Address} {senders : List (Nat × Address)} {n : Nat} :
    ∀ e ∈ (senderEntries location id output receiver (if receiver.isSome then .send else .burn)
      senders n).1, e.MoveOf location id output receiver := by
  induction senders generalizing n with
  | nil => exact fun e he => absurd he List.not_mem_nil
  | cons s senders ih =>
    intro e he
    rcases List.mem_cons.mp he with rfl | he
    · exact ⟨fromValues_at _ _ _ _ _ _ _ _, rfl, rfl, rfl, Or.inr ⟨rfl, rfl⟩⟩
    · exact ih e he

/-- **The entries of a move.** They are all about the rune, the transaction and the output of the
move, with a credit only if the output has an address. -/
theorem moveRuneBalanceToOutput_moveOf {env : Environment} {location : TransactionLocation}
    {output : Option Nat} {id : RuneId} {balances : List InputRuneBalance}
    {outputs : HashMap Nat ScriptBuf} {amount n : Nat} :
    ∀ e ∈ (moveRuneBalanceToOutput env location output id balances outputs amount n).entries,
      e.MoveOf location id output (receiverAddress env location outputs output) := by
  intro e he
  rw [moveRuneBalanceToOutput] at he
  dsimp only at he
  split at he
  · rename_i hsent
    rw [List.mem_append, List.mem_singleton] at he
    rcases he with rfl | he
    · exact ⟨fromValues_at _ _ _ _ _ _ _ _, rfl, rfl, rfl, Or.inl ⟨rfl, rfl, hsent.1, hsent.2⟩⟩
    · exact senderEntries_moveOf e he
  · exact senderEntries_moveOf e he

theorem senderEntries_received (location : TransactionLocation) (id id' : RuneId)
    (output : Option Nat) (receiver : Option Address) {operation : DbLedgerOperation}
    (hop : operation ≠ .receive) (senders : List (Nat × Address)) (n : Nat) :
    received id' (senderEntries location id output receiver operation senders n).1 = 0 := by
  refine tally_eq_zero _ _ ?_
  induction senders generalizing n with
  | nil => exact fun e he => absurd he List.not_mem_nil
  | cons s senders ih =>
    intro e he
    rcases List.mem_cons.mp he with rfl | he
    · exact decide_eq_false fun h => hop h.1
    · exact ih _ e he

theorem senderEntries_debited (location : TransactionLocation) (id id' : RuneId)
    (output : Option Nat) (receiver : Option Address) {operation : DbLedgerOperation}
    (hop : operation = .send ∨ operation = .burn) (a : Address)
    (senders : List (Nat × Address)) (n : Nat) :
    debited id' a (senderEntries location id output receiver operation senders n).1 =
      if id = id' then sentAmount a senders else 0 := by
  induction senders generalizing n with
  | nil => simp [senderEntries]
  | cons s senders ih =>
    have ih' := ih (n + 1)
    simp only [debited, senderEntries, newSequentialLedgerEntry,
      DbLedgerEntry.fromValues, tally_cons,
      sentAmount_cons, Option.some.injEq, DbLedgerEntry.value, Option.getD_some, hop,
      Bool.decide_and] at ih' ⊢
    rw [ih']
    by_cases hid : id = id' <;> by_cases ha : s.2 = a <;> simp [hid, ha]

/-- What a move credits: what it takes, if the output has an address. -/
theorem moveRuneBalanceToOutput_received (env : Environment) (location : TransactionLocation)
    (output : Option Nat) (id id' : RuneId) (balances : List InputRuneBalance)
    (outputs : HashMap Nat ScriptBuf) (amount n : Nat) :
    received id' (moveRuneBalanceToOutput env location output id balances
      outputs amount n).entries =
        if id = id' ∧ (receiverAddress env location outputs output).isSome then
        (takeBalances amount balances 0 []).totalSent else 0 := by
  rw [moveRuneBalanceToOutput]
  dsimp only
  have hop : (if (receiverAddress env location outputs output).isSome then DbLedgerOperation.send
      else .burn) ≠ .receive := by
    split <;> decide
  split
  · rename_i hsent
    rw [received_append, senderEntries_received _ _ _ _ _ hop, Nat.add_zero]
    by_cases hid : id = id' <;>
      simp [received, newSequentialLedgerEntry, DbLedgerEntry.fromValues,
        DbLedgerEntry.value, hid, hsent.1]
  · rename_i hsent
    rw [received_append, senderEntries_received _ _ _ _ _ hop, received_nil]
    by_cases hr : (receiverAddress env location outputs output).isSome
    · have hzero : (takeBalances amount balances 0 []).totalSent = 0 := by
        by_contra hne
        exact hsent ⟨hr, Nat.pos_of_ne_zero hne⟩
      rw [hzero]
      split <;> rfl
    · rw [if_neg fun h => hr h.2]

/-- What a move debits an address: what it takes from its balances. -/
theorem moveRuneBalanceToOutput_debited (env : Environment) (location : TransactionLocation)
    (output : Option Nat) (id id' : RuneId) (balances : List InputRuneBalance)
    (outputs : HashMap Nat ScriptBuf) (amount n : Nat) (a : Address) :
    debited id' a (moveRuneBalanceToOutput env location output id balances
      outputs amount n).entries =
        if id = id' then sentAmount a (takeBalances amount balances 0 []).senders else 0 := by
  rw [moveRuneBalanceToOutput]
  dsimp only
  -- a sender's entry is a send or a burn
  have hop : (if (receiverAddress env location outputs output).isSome then DbLedgerOperation.send
      else .burn) = .send ∨
      (if (receiverAddress env location outputs output).isSome then DbLedgerOperation.send
        else .burn) = .burn := by
    split
    · exact Or.inl rfl
    · exact Or.inr rfl
  split
  · rw [debited_append, senderEntries_debited _ _ _ _ _ hop]
    simp [debited, newSequentialLedgerEntry, DbLedgerEntry.fromValues]
  · rw [debited_append, senderEntries_debited _ _ _ _ _ hop, debited_nil, Nat.zero_add]

/-- A move credits at most what it takes from the deque. -/
theorem moveRuneBalanceToOutput_received_le (env : Environment) (location : TransactionLocation)
    (output : Option Nat) (id : RuneId) (balances : List InputRuneBalance)
    (outputs : HashMap Nat ScriptBuf) (amount n : Nat) :
    received id (moveRuneBalanceToOutput env location output id balances outputs amount n).entries +
      totalAmount (moveRuneBalanceToOutput env location output id balances
        outputs amount n).balances ≤ totalAmount balances := by
  have htotal := takeBalances_total amount balances 0 []
  rw [moveRuneBalanceToOutput_received]
  have hbal : (moveRuneBalanceToOutput env location output id balances outputs amount n).balances =
      (takeBalances amount balances 0 []).balances := rfl
  rw [hbal]
  split <;> omega

/-- What a move debits an address and what it leaves it are what it owned. -/
theorem moveRuneBalanceToOutput_owned (env : Environment) (location : TransactionLocation)
    (output : Option Nat) (id : RuneId) (balances : List InputRuneBalance)
    (outputs : HashMap Nat ScriptBuf) (amount n : Nat) (a : Address) :
    debited id a (moveRuneBalanceToOutput env location output id balances
      outputs amount n).entries +
        ownedAmount a (moveRuneBalanceToOutput env location output id balances
          outputs amount n).balances = ownedAmount a balances := by
  have howned := takeBalances_owned amount a balances 0 []
  rw [moveRuneBalanceToOutput_debited, if_pos rfl]
  rw [sentAmount_nil, Nat.zero_add] at howned
  exact howned

/-- What a call adds to the supply of a rune: the premine of an etching at this location. -/
def Action.premine (location : TransactionLocation) (id : RuneId) : Action → Nat
  | .etching e => if location.runeId = id then e.premine.getD 0 else 0
  | _ => 0

/-! ## The entries of one rune -/

/-- The entries that are about a rune. -/
def ofRune (id : RuneId) (es : List DbLedgerEntry) : List DbLedgerEntry :=
  es.filter fun e => e.runeId = id

@[simp] theorem ofRune_nil (id : RuneId) : ofRune id [] = [] := rfl

@[simp] theorem ofRune_append (id : RuneId) (es es' : List DbLedgerEntry) :
    ofRune id (es ++ es') = ofRune id es ++ ofRune id es' := List.filter_append es es'

theorem ofRune_eq_self {id : RuneId} {es : List DbLedgerEntry} (h : ∀ e ∈ es, e.runeId = id) :
    ofRune id es = es :=
  List.filter_eq_self.mpr fun e he => decide_eq_true (h e he)

theorem ofRune_eq_nil {id : RuneId} {es : List DbLedgerEntry} (h : ∀ e ∈ es, e.runeId ≠ id) :
    ofRune id es = [] :=
  List.filter_eq_nil_iff.mpr fun e he => by simpa using h e he

theorem ofRune_singleton (id : RuneId) (e : DbLedgerEntry) :
    ofRune id [e] = if e.runeId = id then [e] else [] := by
  split
  · next h => exact ofRune_eq_self fun e' he' => List.mem_singleton.mp he' ▸ h
  · next h => exact ofRune_eq_nil fun e' he' => List.mem_singleton.mp he' ▸ h

/-- Only the entries of a rune count towards a tally of it. -/
theorem tally_ofRune {p : DbLedgerEntry → Bool} {f : DbLedgerEntry → Nat} {id : RuneId}
    (hp : ∀ e, p e → e.runeId = id) (es : List DbLedgerEntry) :
    tally p f (ofRune id es) = tally p f es := by
  rw [tally, ofRune, List.filter_filter, tally]
  congr 2
  refine List.filter_congr ?_
  intro e _
  cases hpe : p e with
  | false => rfl
  | true => simp [hp e hpe]

theorem received_ofRune (id : RuneId) (es : List DbLedgerEntry) :
    received id (ofRune id es) = received id es :=
  tally_ofRune (fun _ h => (of_decide_eq_true h).2) es

theorem debited_ofRune (id : RuneId) (a : Address) (es : List DbLedgerEntry) :
    debited id a (ofRune id es) = debited id a es :=
  tally_ofRune (fun _ h => (of_decide_eq_true h).2.1) es

namespace TransactionCache

/-- Running over distinct runes writes for each rune what the run of that rune writes. -/
theorem ofRune_overRunes {f : RuneId → Nat → List DbLedgerEntry × Nat}
    (hf : ∀ id n, ∀ e ∈ (f id n).1, e.runeId = id) (id : RuneId) :
    ∀ (ids : List RuneId) (n : Nat), ids.Nodup →
      (id ∉ ids → ofRune id (overRunes f ids n).1 = []) ∧
        (id ∈ ids → ∃ m, ofRune id (overRunes f ids n).1 = (f id m).1) := by
  intro ids
  induction ids with
  | nil => exact fun n _ => ⟨fun _ => rfl, fun h => absurd h List.not_mem_nil⟩
  | cons id' ids ih =>
    intro n hnd
    rw [List.nodup_cons] at hnd
    have ih := ih (f id' n).2 hnd.2
    constructor
    -- the part of another rune adds nothing
    · intro hid
      rw [List.mem_cons, not_or] at hid
      rw [overRunes]
      dsimp only
      rw [ofRune_append, ih.1 hid.2, List.append_nil]
      exact ofRune_eq_nil fun e he => (hf id' n e he).trans_ne (Ne.symm hid.1)
    · intro hid
      rw [overRunes]
      dsimp only
      rw [ofRune_append]
      -- the rune is the first one or among the rest
      rcases List.mem_cons.mp hid with rfl | hid
      · refine ⟨n, ?_⟩
        rw [ih.1 hnd.1, List.append_nil, ofRune_eq_self (hf id n)]
      · obtain ⟨m, hm⟩ := ih.2 hid
        refine ⟨m, ?_⟩
        have hne : id' ≠ id := fun he => hnd.1 (he ▸ hid)
        rw [hm, ofRune_eq_nil fun e he => (hf id' n e he).trans_ne hne, List.nil_append]

/-- What holds of all entries of each run holds of all entries. -/
theorem forall_mem_overRunes {f : RuneId → Nat → List DbLedgerEntry × Nat}
    {P : DbLedgerEntry → Prop} (hf : ∀ id n, ∀ e ∈ (f id n).1, P e) :
    ∀ (ids : List RuneId) (n : Nat), ∀ e ∈ (overRunes f ids n).1, P e := by
  intro ids
  induction ids with
  | nil => exact fun n e he => absurd he List.not_mem_nil
  | cons id ids ih =>
    intro n e he
    rcases List.mem_append.mp he with he | he
    · exact hf id n e he
    · exact ih _ e he

/-! ## Sequences of moves -/

theorem foldl_u128Add {balances : List InputRuneBalance} {n : Nat}
    (h : n + totalAmount balances < 2 ^ 128) :
    balances.foldl (fun acc e => u128Add acc e.amount) n = n + totalAmount balances := by
  induction balances generalizing n with
  | nil => rfl
  | cons bal rest ih =>
    rw [totalAmount_cons] at h ⊢
    rw [List.foldl_cons, u128Add_eq (by omega), ih (by omega), Nat.add_assoc]

/-- The sum that an edict splits is exact. -/
theorem unallocated_eq {balances : List InputRuneBalance} (h : totalAmount balances < 2 ^ 128) :
    unallocated balances = totalAmount balances := by
  cases balances with
  | nil => rfl
  | cons bal rest => exact foldl_u128Add h

theorem applyMoves_moveOf {env : Environment} {location : TransactionLocation} {id : RuneId}
    {outputs : HashMap Nat ScriptBuf} (moves : List (Option Nat × Nat))
    (balances : List InputRuneBalance) (n : Nat) :
      ∀ e ∈ (applyMoves env location id outputs moves balances n).entries,
      ∃ output, e.MoveOf location id output (receiverAddress env location outputs output) := by
  induction moves generalizing balances n with
  | nil => exact fun e he => absurd he List.not_mem_nil
  | cons move moves ih =>
    intro e he
    rcases List.mem_append.mp he with he | he
    · exact ⟨move.1, moveRuneBalanceToOutput_moveOf e he⟩
    · exact ih _ _ e he

/-- Moves of one rune write no entries of another one. -/
theorem ofRune_applyMoves_of_ne {env : Environment} {location : TransactionLocation}
    {id id' : RuneId} (hne : id ≠ id') {outputs : HashMap Nat ScriptBuf}
    {moves : List (Option Nat × Nat)} {balances : List InputRuneBalance} {n : Nat} :
    ofRune id' (applyMoves env location id outputs moves balances n).entries = [] := by
  refine ofRune_eq_nil fun e he => ?_
  obtain ⟨output, hmove⟩ := applyMoves_moveOf _ _ _ e he
  exact hmove.runeId.trans_ne hne

theorem applyMoves_received_le (env : Environment) (location : TransactionLocation) (id : RuneId)
    (outputs : HashMap Nat ScriptBuf) (moves : List (Option Nat × Nat))
    (balances : List InputRuneBalance) (n : Nat) :
    received id (applyMoves env location id outputs moves balances n).entries +
      totalAmount (applyMoves env location id outputs moves balances n).balances ≤
        totalAmount balances := by
  induction moves generalizing balances n with
  | nil => simp [applyMoves]
  | cons move moves ih =>
    have hfirst :=
      moveRuneBalanceToOutput_received_le env location move.1 id balances outputs move.2 n
    have hrest :=
      ih (moveRuneBalanceToOutput env location move.1 id balances outputs move.2 n).balances
        (moveRuneBalanceToOutput env location move.1 id balances outputs move.2 n).nextEventIndex
    rw [applyMoves]
    dsimp only
    rw [received_append]
    omega

theorem applyMoves_owned (env : Environment) (location : TransactionLocation) (id : RuneId)
    (outputs : HashMap Nat ScriptBuf) (moves : List (Option Nat × Nat))
    (balances : List InputRuneBalance) (n : Nat) (a : Address) :
    debited id a (applyMoves env location id outputs moves balances n).entries +
      ownedAmount a (applyMoves env location id outputs moves balances n).balances =
        ownedAmount a balances := by
  induction moves generalizing balances n with
  | nil => simp [applyMoves]
  | cons move moves ih =>
    have hfirst := moveRuneBalanceToOutput_owned env location move.1 id balances outputs move.2 n a
    have hrest :=
      ih (moveRuneBalanceToOutput env location move.1 id balances outputs move.2 n).balances
        (moveRuneBalanceToOutput env location move.1 id balances outputs move.2 n).nextEventIndex
    rw [applyMoves]
    dsimp only
    rw [debited_append]
    omega

/-! ## The calls -/

theorem available_addInputRunes (tx : TransactionCache) (id id' : RuneId) (b : InputRuneBalance) :
    (tx.addInputRunes id b).available id' =
      if id' = id then tx.available id ++ [b] else tx.available id' := by
  rw [available, addInputRunes, HashMap.getD_alter]
  by_cases h : id' = id
  · rw [if_pos h, if_pos h, available, HashMap.getD]
    cases tx.inputRunes.lookup id with
    | none => rfl
    | some v => rfl
  · rw [if_neg h, if_neg h, available]

/-- What an edict can do: nothing, or a sequence of moves of the balances of one rune. -/
theorem applyEdict_cases (env : Environment) (tx : TransactionCache) (e : Edict) :
    tx.applyEdict env e = (tx, []) ∨ ∃ id balances, tx.edictRuneId e.id = some id ∧
      tx.inputRunes.lookup id = some balances ∧
      tx.applyEdict env e =
        ({ tx with
            inputRunes := tx.inputRunes.insert id (applyMoves env tx.location id tx.eligibleOutputs
              (tx.edictMoves e (unallocated balances)) balances tx.nextEventIndex).balances
            nextEventIndex := (applyMoves env tx.location id tx.eligibleOutputs
              (tx.edictMoves e (unallocated balances)) balances tx.nextEventIndex).nextEventIndex },
          (applyMoves env tx.location id tx.eligibleOutputs
            (tx.edictMoves e (unallocated balances)) balances tx.nextEventIndex).entries) := by
  rw [applyEdict]
  cases hid : tx.edictRuneId e.id with
  | none => exact Or.inl rfl
  | some id =>
    cases hlookup : tx.inputRunes.lookup id with
    | none =>
      dsimp only
      rw [hlookup]
      exact Or.inl rfl
    | some balances =>
      refine Or.inr ⟨id, balances, rfl, hlookup, ?_⟩
      dsimp only
      rw [hlookup]

theorem available_insert (tx : TransactionCache) (id id' : RuneId)
    (balances : List InputRuneBalance) (n : Nat) :
    ({ tx with
        inputRunes := tx.inputRunes.insert id balances
        nextEventIndex := n } : TransactionCache).available id' =
      if id' = id then balances else tx.available id' := by
  rw [available, HashMap.getD, HashMap.lookup_insert]
  by_cases h : id' = id
  · rw [if_pos h, if_pos h, Option.getD_some]
  · rw [if_neg h, if_neg h, available, HashMap.getD]

theorem moveToPointer_moveOf (env : Environment) (tx : TransactionCache) (id : RuneId) (n : Nat) :
    ∀ e ∈ (tx.moveToPointer env id n).1, e.MoveOf tx.location id tx.outputPointer
      (receiverAddress env tx.location tx.eligibleOutputs tx.outputPointer) :=
  moveRuneBalanceToOutput_moveOf

theorem burnEntries_spec (location : TransactionLocation) (id : RuneId)
    (balances : List InputRuneBalance) (n : Nat) : ∀ e ∈ (burnEntries location id balances n).1,
      e.At location ∧ e.runeId = id ∧ e.operation = .burn ∧ e.amount.isSome := by
  induction balances generalizing n with
  | nil => exact fun e he => absurd he List.not_mem_nil
  | cons b balances ih =>
    intro e he
    rcases List.mem_cons.mp he with rfl | he
    · exact ⟨fromValues_at _ _ _ _ _ _ _ _, rfl, rfl, rfl⟩
    · exact ih _ e he

/-- The runes over which the allocation and the burn run are the runes of the map, each once. -/
theorem runeOrder_nodup (env : Environment) (tx : TransactionCache) :
    (env.runeOrder tx.location tx.inputRunes.keys).Nodup :=
  (env.runeOrder_perm _ _).nodup_iff.mpr (AList.keys_nodup _)

theorem mem_runeOrder (env : Environment) (tx : TransactionCache) (id : RuneId) :
    id ∈ env.runeOrder tx.location tx.inputRunes.keys ↔ id ∈ tx.inputRunes.keys :=
  (env.runeOrder_perm _ _).mem_iff

theorem available_of_not_mem {tx : TransactionCache} {id : RuneId} (h : id ∉ tx.inputRunes.keys) :
    tx.available id = [] := by
  rw [available, HashMap.getD, (HashMap.lookup_eq_none_iff _ _).mpr h, Option.getD_none]

/-- The entries of one rune that the final allocation writes: those of the move to the pointer. -/
theorem ofRune_allocate (env : Environment) (tx : TransactionCache) (id : RuneId) :
    (id ∉ tx.inputRunes.keys → ofRune id (tx.allocateRemainingBalances env).2 = []) ∧
      (id ∈ tx.inputRunes.keys → ∃ m,
        ofRune id (tx.allocateRemainingBalances env).2 = (tx.moveToPointer env id m).1) := by
  have h := ofRune_overRunes (f := tx.moveToPointer env)
    (fun id n e he => (moveToPointer_moveOf env tx id n e he).runeId) id
    (env.runeOrder tx.location tx.inputRunes.keys) tx.nextEventIndex (runeOrder_nodup env tx)
  rw [mem_runeOrder] at h
  exact h

/-- The entries of one rune that a cenotaph writes: its balances are burned. -/
theorem ofRune_applyCenotaphInputBurn (env : Environment) (tx : TransactionCache) (id : RuneId) :
    (id ∉ tx.inputRunes.keys → ofRune id (tx.applyCenotaphInputBurn env).2 = []) ∧
      (id ∈ tx.inputRunes.keys → ∃ m, ofRune id (tx.applyCenotaphInputBurn env).2 =
        (burnEntries tx.location id (tx.available id) m).1) := by
  have h := ofRune_overRunes (f := fun id => burnEntries tx.location id (tx.available id))
    (fun id n e he => (burnEntries_spec _ id _ n e he).2.1) id
    (env.runeOrder tx.location tx.inputRunes.keys) tx.nextEventIndex (runeOrder_nodup env tx)
  rw [mem_runeOrder] at h
  exact h

variable {env : Environment} {tx tx' : TransactionCache} {a : Action} {es : List DbLedgerEntry}
  {rs : List DbRune}

/-- The transaction stays where it is, with its outputs. -/
theorem Step.location_eq (h : tx.Step env a es rs tx') : tx'.location = tx.location := by
  cases h with
  | etching e => cases hp : e.premine <;> simp [withEtching, nextEvent, addInputRunes]
  | edict e =>
    rcases applyEdict_cases env tx e with he | ⟨id, balances, -, -, he⟩ <;> rw [he]
  | _ => rfl

theorem Step.totalOutputs_eq (h : tx.Step env a es rs tx') :
    tx'.totalOutputs = tx.totalOutputs := by
  cases h with
  | etching e => cases hp : e.premine <;> simp [withEtching, nextEvent, addInputRunes]
  | edict e =>
    rcases applyEdict_cases env tx e with he | ⟨id, balances, -, -, he⟩ <;> rw [he]
  | _ => rfl

/-- The entries of a call are entries of the transaction. -/
theorem Step.at_location (h : tx.Step env a es rs tx') : ∀ e ∈ es, e.At tx.location := by
  -- an entry made on its own has the place of its transaction
  have hplain : ∀ amount id operation, ∀ e ∈ [tx.plainEntry amount id operation],
      e.At tx.location := by
    intro amount id operation e he
    rw [List.mem_singleton.mp he]
    exact fromValues_at _ _ _ _ _ _ _ _
  cases h with
  | runestone | noMint | noCenotaphMint | noEdict => exact fun e he => absurd he List.not_mem_nil
  | cenotaph =>
    exact forall_mem_overRunes (fun id n e he => (burnEntries_spec _ _ _ n e he).1) _ _
  | etching | cenotaphEtching | mint | cenotaphMint => exact hplain _ _ _
  | edict e =>
    rcases applyEdict_cases env tx e with he | ⟨id, balances, -, -, he⟩ <;> rw [he]
    · exact fun e he => absurd he List.not_mem_nil
    · intro e' he'
      obtain ⟨output, hmove⟩ := applyMoves_moveOf _ _ _ e' he'
      exact hmove.at_location
  | endTransaction =>
    exact forall_mem_overRunes
      (fun id n e he => (moveToPointer_moveOf env tx id n e he).at_location) _ _

/-- The runes that a call records are etched by the transaction. -/
theorem Step.rune_at_location (h : tx.Step env a es rs tx') : ∀ r ∈ rs, r.At tx.location := by
  cases h with
  | etching | cenotaphEtching =>
    intro r hr
    rw [List.mem_singleton.mp hr]
    exact ⟨rfl, rfl, rfl, rfl, rfl⟩
  | _ => exact fun r hr => absurd hr List.not_mem_nil

/-- A call credits with all fields in place. -/
theorem Step.credit (h : tx.Step env a es rs tx') :
    ∀ e ∈ es, e.operation = .receive → e.Credit := by
  -- an entry made on its own is no receive
  have hplain : ∀ amount id operation, operation ≠ .receive →
      ∀ e ∈ [tx.plainEntry amount id operation], e.operation = .receive → e.Credit := by
    intro amount id operation hop e he hrec
    rw [List.mem_singleton.mp he] at hrec
    exact absurd hrec hop
  cases h with
  | runestone | noMint | noCenotaphMint | noEdict => exact fun e he => absurd he List.not_mem_nil
  | cenotaph =>
    refine forall_mem_overRunes (fun id n e he hrec => ?_) _ _
    rw [(burnEntries_spec _ _ _ n e he).2.2.1] at hrec
    cases hrec
  | etching | cenotaphEtching | mint | cenotaphMint => exact hplain _ _ _ (by decide)
  | edict e =>
    rcases applyEdict_cases env tx e with he | ⟨id, balances, -, -, he⟩ <;> rw [he]
    · exact fun e he => absurd he List.not_mem_nil
    · intro e' he'
      obtain ⟨output, hmove⟩ := applyMoves_moveOf _ _ _ e' he'
      exact hmove.credit
  | endTransaction =>
    exact forall_mem_overRunes (fun id n e he => (moveToPointer_moveOf env tx id n e he).credit) _ _

/-- What a call writes has an amount, unless it is the entry of an etching. -/
theorem Step.amount (h : tx.Step env a es rs tx') :
    ∀ e ∈ es, e.amount.isSome ∨ (e.operation = .etching ∧ e.output = none) := by
  have hmove : ∀ {id output receiver} {e : DbLedgerEntry}, e.MoveOf tx.location id output receiver →
      e.amount.isSome ∨ (e.operation = .etching ∧ e.output = none) :=
    fun hmove => Or.inl hmove.amount
  cases h with
  | runestone | noMint | noCenotaphMint | noEdict => exact fun e he => absurd he List.not_mem_nil
  | cenotaph =>
    exact forall_mem_overRunes (fun id n e he => Or.inl (burnEntries_spec _ _ _ n e he).2.2.2) _ _
  | etching | cenotaphEtching => exact List.forall_mem_singleton.mpr (Or.inr ⟨rfl, rfl⟩)
  | mint | cenotaphMint => exact List.forall_mem_singleton.mpr (Or.inl rfl)
  | edict e =>
    rcases applyEdict_cases env tx e with he | ⟨id, balances, -, -, he⟩ <;> rw [he]
    · exact fun e he => absurd he List.not_mem_nil
    · intro e' he'
      obtain ⟨output, hentry⟩ := applyMoves_moveOf _ _ _ e' he'
      exact hmove hentry
  | endTransaction =>
    exact forall_mem_overRunes (fun id n e he => hmove (moveToPointer_moveOf env tx id n e he)) _ _

/-! ## Conservation -/

theorem totalAmount_available_nextEvent (tx : TransactionCache) (id : RuneId) :
    totalAmount (tx.nextEvent.available id) = totalAmount (tx.available id) := rfl

theorem available_withEtching (tx : TransactionCache) (rune : DbRune) (premine : Option Nat)
    (id : RuneId) :
    (tx.withEtching rune premine).available id =
      if tx.location.runeId = id then tx.available id ++ (premine.map fun p => ⟨none, p⟩).toList
      else tx.available id := by
  cases premine with
  | none => simp [withEtching, nextEvent, available]
  | some p =>
    refine (available_addInputRunes { tx with etching := some rune } tx.location.runeId
      id ⟨none, p⟩).trans ?_
    by_cases hid : tx.location.runeId = id
    · rw [if_pos hid.symm, if_pos hid, hid]
      rfl
    · rw [if_neg (Ne.symm hid), if_neg hid]
      rfl

theorem minted_plainEntry (tx : TransactionCache) (amount : Option Nat) (id id' : RuneId)
    (operation : DbLedgerOperation) :
    minted id [tx.plainEntry amount id' operation] =
      if operation = .mint ∧ id' = id then amount.getD 0 else 0 := by
  simp [minted, plainEntry, newSequentialLedgerEntry, DbLedgerEntry.fromValues, DbLedgerEntry.value]

theorem received_plainEntry (tx : TransactionCache) (amount : Option Nat) (id id' : RuneId)
    {operation : DbLedgerOperation} (h : operation ≠ .receive) :
    received id [tx.plainEntry amount id' operation] = 0 := by
  simp [received, plainEntry, newSequentialLedgerEntry, DbLedgerEntry.fromValues, h]

theorem debited_plainEntry (tx : TransactionCache) (amount : Option Nat) (id id' : RuneId)
    (addr : Address) (operation : DbLedgerOperation) :
    debited id addr [tx.plainEntry amount id' operation] = 0 := by
  simp [debited, plainEntry, newSequentialLedgerEntry, DbLedgerEntry.fromValues]

theorem available_clear (tx : TransactionCache) (n : Nat) (id : RuneId) :
    ({ tx with
        inputRunes := ∅
        nextEventIndex := n } : TransactionCache).available id = [] :=
  HashMap.getD_empty id []

/-- A cenotaph credits nothing. -/
theorem received_applyCenotaphInputBurn (env : Environment) (tx : TransactionCache) (id : RuneId) :
    received id (tx.applyCenotaphInputBurn env).2 = 0 := by
  refine tally_eq_zero _ _ ?_
  refine forall_mem_overRunes (fun id n e he => decide_eq_false fun h => ?_) _ _
  rw [(burnEntries_spec _ _ _ n e he).2.2.1] at h
  cases h.1

/-- **No call inflates.** What a call credits of a rune, and what it leaves to allocate, are at most
what there was to allocate, what it mints and what it premines. -/
theorem Step.received_le (h : tx.Step env a es rs tx') (id : RuneId) :
    received id es + totalAmount (tx'.available id) ≤
      totalAmount (tx.available id) + minted id es + a.premine tx.location id := by
  cases h with
  | runestone => exact Nat.le_of_eq (Nat.zero_add _)
  | noMint | noCenotaphMint | noEdict => exact Nat.le_of_eq (Nat.zero_add _)
  | cenotaph =>
    have hempty : (tx.applyCenotaphInputBurn env).1.available id = [] := available_clear tx _ id
    rw [received_applyCenotaphInputBurn, hempty]
    simp
  | etching e =>
    rw [received_plainEntry _ _ _ _ (by decide), available_withEtching, Action.premine]
    split
    · cases e.premine <;> simp
    · simp
  | cenotaphEtching =>
    rw [received_plainEntry _ _ _ _ (by decide), available_withEtching, minted_plainEntry]
    split <;> simp [Action.premine]
  | @mint id' rune n amount _ hamount =>
    rw [received_plainEntry _ _ _ _ (by decide), totalAmount_available_nextEvent,
      available_addInputRunes, minted_plainEntry]
    -- the mint adds its amount to the unallocated balance of its own rune
    by_cases hid : id = id'
    · simp [hid]
    · simp [hid, Ne.symm hid]
  | cenotaphMint =>
    rw [received_plainEntry _ _ _ _ (by decide), totalAmount_available_nextEvent, minted_plainEntry]
    simp
  | edict e =>
    rcases applyEdict_cases env tx e with he | ⟨id', balances, -, hlookup, he⟩ <;> rw [he]
    · simp
    · have hmoves := applyMoves_received_le env tx.location id' tx.eligibleOutputs
        (tx.edictMoves e (unallocated balances)) balances tx.nextEventIndex
      dsimp only
      rw [available_insert]
      -- only the deque of the named rune changes
      by_cases hid : id = id'
      · subst hid
        have hav : tx.available id = balances := by
          rw [available, HashMap.getD, hlookup, Option.getD_some]
        rw [if_pos rfl, hav]
        omega
      · rw [if_neg hid, ← received_ofRune, ofRune_applyMoves_of_ne (Ne.symm hid), received_nil]
        omega
  | endTransaction =>
    have hempty : (tx.allocateRemainingBalances env).1.available id = [] := available_clear tx _ id
    rw [hempty, ← received_ofRune]
    obtain ⟨hnone, hsome⟩ := ofRune_allocate env tx id
    -- a rune without a deque has nothing to allocate
    by_cases hid : id ∈ tx.inputRunes.keys
    · obtain ⟨m, hm⟩ := hsome hid
      have hmove := moveRuneBalanceToOutput_received_le env tx.location tx.outputPointer id
        (tx.available id) tx.eligibleOutputs 0 m
      rw [hm, moveToPointer, totalAmount_nil]
      dsimp only
      omega
    · rw [hnone hid, received_nil, totalAmount_nil]
      omega

end TransactionCache

end Runehook
