import Runehook.Holdings
import Runehook.Reorgs

/-! # The balances of addresses

What the balances of an address lose in a transaction is debited from it, by `send` entries or by
`burn` entries (`Step.debited_eq`). `balance_changes` follows the `send` entries only, so it agrees
with the outputs that the address holds as long as nothing that an address owns is burned
(`TransactionCache.BurnsUnowned`, `Step.sent_eq`, `moved_receive_eq_holding`). -/

namespace Runehook

open Lib

/-! ## Owned balances -/

/-- The balances of addresses are at the front of a deque, and none of them is empty. -/
inductive OwnedFirst : List InputRuneBalance → Prop
  /-- Nobody owns what is left. -/
  | unowned {l : List InputRuneBalance} (h : ∀ b ∈ l, b.address = none) : OwnedFirst l
  /-- A balance that is not empty is in front of such a deque. -/
  | cons {b : InputRuneBalance} {l : List InputRuneBalance} (hpos : 0 < b.amount)
      (h : OwnedFirst l) :
    OwnedFirst (b :: l)

theorem OwnedFirst.of_pos {l : List InputRuneBalance} (h : ∀ b ∈ l, 0 < b.amount) :
    OwnedFirst l := by
  induction l with
  | nil => exact .unowned fun b hb => absurd hb List.not_mem_nil
  | cons b l ih =>
    exact .cons (h b List.mem_cons_self) (ih fun b' hb' => h b' (List.mem_cons_of_mem _ hb'))

/-- Premined and minted runes go to the back. -/
theorem OwnedFirst.concat {l : List InputRuneBalance} (h : OwnedFirst l) (amount : Nat) :
    OwnedFirst (l ++ [⟨none, amount⟩]) := by
  induction h with
  | unowned h =>
    refine .unowned fun b hb => ?_
    rcases List.mem_append.mp hb with hb | hb
    · exact h b hb
    · rw [List.mem_singleton.mp hb]
  | cons hpos _ ih => exact .cons hpos ih

theorem ownedAmount_eq_zero {a : Address} {l : List InputRuneBalance}
    (h : ∀ b ∈ l, b.address = none) :
    ownedAmount a l = 0 :=
  tally_eq_zero _ _ fun b hb => decide_eq_false fun heq => by cases (h b hb).symm.trans heq

/-- Taking from balances that nobody owns leaves such balances, and has no senders. -/
theorem takeBalances_unowned (amount : Nat) {l : List InputRuneBalance}
    (h : ∀ b ∈ l, b.address = none) (totalSent : Nat) (senders : List (Nat × Address)) :
    (∀ b ∈ (takeBalances amount l totalSent senders).balances, b.address = none) ∧
      (takeBalances amount l totalSent senders).senders = senders := by
  induction l generalizing totalSent senders with
  | nil => exact ⟨h, rfl⟩
  | cons b l ih =>
    obtain ⟨hb, hl⟩ := List.forall_mem_cons.mp h
    rw [takeBalances, hb, Option.map_none, Option.toList_none, List.append_nil]
    generalize (if amount = 0 then b.amount else min b.amount (amount - totalSent)) = taken
    split
    · exact ⟨List.forall_mem_cons.mpr ⟨rfl, hl⟩, rfl⟩
    · split
      · exact ⟨hl, rfl⟩
      · exact ih hl _ _

/-- Taking from the front keeps what is owned at the front. -/
theorem OwnedFirst.take {l : List InputRuneBalance} (h : OwnedFirst l) (amount totalSent : Nat)
    (senders : List (Nat × Address)) :
    OwnedFirst (takeBalances amount l totalSent senders).balances := by
  induction h generalizing totalSent senders with
  | unowned h => exact .unowned (takeBalances_unowned amount h totalSent senders).1
  | @cons b l hpos h ih =>
    rw [takeBalances]
    generalize (if amount = 0 then b.amount else min b.amount (amount - totalSent)) = taken
    split
    · exact .cons (Nat.sub_pos_of_lt ‹_›) h
    · split
      · exact h
      · exact ih _ _

/-- Taking everything leaves nothing that is owned: as long as the sum fits, the loop does not stop
at a total of zero behind an owned balance. -/
theorem OwnedFirst.take_all {l : List InputRuneBalance} (h : OwnedFirst l) (totalSent : Nat)
    (senders : List (Nat × Address)) (hfits : totalSent + totalAmount l < 2 ^ 128) :
    ∀ b ∈ (takeBalances 0 l totalSent senders).balances, b.address = none := by
  induction h generalizing totalSent senders with
  | unowned h => exact (takeBalances_unowned 0 h totalSent senders).1
  | @cons b l hpos h ih =>
    rw [totalAmount_cons] at hfits
    have hadd : u128Add totalSent b.amount = totalSent + b.amount := Nat.mod_eq_of_lt (by omega)
    rw [takeBalances]
    simp only [if_true, Nat.lt_irrefl, if_false, hadd]
    rw [if_neg (by omega)]
    exact ih _ _ (by omega)

/-! ## Debits -/

namespace TransactionCache

theorem burnEntries_debited (location : TransactionLocation) (id : RuneId)
    (balances : List InputRuneBalance) (n : Nat) (a : Address) :
    debited id a (burnEntries location id balances n).1 = ownedAmount a balances := by
  induction balances generalizing n with
  | nil => rfl
  | cons b balances ih =>
    have ih' := ih (n + 1)
    rw [burnEntries]
    dsimp only
    rw [debited, tally_cons, ← debited, ownedAmount_cons]
    rw [newSequentialLedgerEntry] at *
    dsimp only at *
    rw [ih']
    congr 1
    simp [DbLedgerEntry.fromValues, DbLedgerEntry.value]

variable {env : Environment} {tx tx' : TransactionCache} {act : Action} {es : List DbLedgerEntry}
  {rs : List DbRune}

/-- **What a call takes from an address is debited from it**, the last call taking all that is
owned. -/
theorem Step.debited_eq (h : tx.Step env act es rs tx') (id : RuneId) (a : Address)
    (hall : act = .endTransaction →
      ownedAmount a (takeBalances 0 (tx.available id) 0 []).balances = 0) :
    debited id a es + ownedAmount a (tx'.available id) = ownedAmount a (tx.available id) := by
  cases h with
  | runestone | noMint | noCenotaphMint | noEdict => exact Nat.zero_add _
  | cenotaph =>
    have hempty : (tx.applyCenotaphInputBurn env).1.available id = [] := available_clear tx _ id
    -- the burn entries of a rune are those of its own deque
    rw [hempty, ownedAmount_nil, Nat.add_zero, ← debited_ofRune]
    obtain ⟨hnone, hsome⟩ := ofRune_applyCenotaphInputBurn env tx id
    by_cases hid : id ∈ tx.inputRunes.keys
    · obtain ⟨m, hm⟩ := hsome hid
      rw [hm, burnEntries_debited]
    · rw [hnone hid, available_of_not_mem hid]
      rfl
  | etching e =>
    rw [debited_plainEntry, available_withEtching]
    split
    · cases e.premine <;> simp
    · simp
  | cenotaphEtching =>
    rw [debited_plainEntry, available_withEtching]
    split <;> simp
  | @mint id' rune n amount =>
    rw [debited_plainEntry, Nat.zero_add]
    show ownedAmount a ((tx.addInputRunes id' ⟨none, amount⟩).available id) = _
    rw [available_addInputRunes]
    -- the minted balance has no owner
    by_cases hid : id = id' <;> simp [hid]
  | cenotaphMint =>
    rw [debited_plainEntry, Nat.zero_add]
    rfl
  | edict e =>
    rcases applyEdict_cases env tx e with he | ⟨id', balances, -, hlookup, he⟩ <;> rw [he]
    · exact Nat.zero_add _
    · dsimp only
      -- only the deque of the named rune changes
      rw [available_insert]
      by_cases hid : id = id'
      · subst hid
        have hav : tx.available id = balances := by
          rw [available, HashMap.getD, hlookup, Option.getD_some]
        rw [if_pos rfl, hav]
        exact applyMoves_owned _ _ _ _ _ _ _ _
      · rw [if_neg hid, ← debited_ofRune, ofRune_applyMoves_of_ne (Ne.symm hid),
          debited_nil, Nat.zero_add]
  | endTransaction =>
    have hempty : (tx.allocateRemainingBalances env).1.available id = [] := available_clear tx _ id
    rw [hempty, ownedAmount_nil, Nat.add_zero, ← debited_ofRune]
    obtain ⟨hnone, hsome⟩ := ofRune_allocate env tx id
    by_cases hid : id ∈ tx.inputRunes.keys
    · obtain ⟨m, hm⟩ := hsome hid
      -- the taken balances leave nothing that has an owner
      have howned := takeBalances_owned 0 a (tx.available id) 0 []
      rw [hall rfl, sentAmount_nil, Nat.zero_add, Nat.add_zero] at howned
      rw [hm, moveToPointer]
      dsimp only
      rw [moveRuneBalanceToOutput_debited, if_pos rfl, howned]
    · rw [hnone hid, available_of_not_mem hid]
      rfl

/-- The last call leaves nothing to allocate. -/
theorem Step.available_endTransaction (h : tx.Step env .endTransaction es rs tx') (id : RuneId) :
    tx'.available id = [] := by
  cases h
  exact available_clear tx _ id

/-- A call keeps what is owned at the front of the deques. -/
theorem Step.ownedFirst (h : tx.Step env act es rs tx')
    (howned : ∀ id, OwnedFirst (tx.available id)) :
    ∀ id, OwnedFirst (tx'.available id) := by
  -- an empty deque has no balance out of order
  have hempty : OwnedFirst [] := .unowned fun b hb => absurd hb List.not_mem_nil
  intro id
  cases h with
  | cenotaph => exact (available_clear tx _ id).symm ▸ hempty
  | endTransaction => exact (available_clear tx _ id).symm ▸ hempty
  | etching e =>
    rw [available_withEtching]
    split
    · cases e.premine with
      | none => exact (List.append_nil _).symm ▸ howned id
      | some p => exact (howned id).concat p
    · exact howned id
  | cenotaphEtching =>
    rw [available_withEtching]
    split
    · exact (List.append_nil _).symm ▸ howned id
    · exact howned id
  | @mint id' rune n amount =>
    show OwnedFirst ((tx.addInputRunes id' ⟨none, amount⟩).available id)
    rw [available_addInputRunes]
    split
    · exact (howned id').concat amount
    · exact howned id
  | edict e =>
    rcases applyEdict_cases env tx e with he | ⟨id', balances, -, hlookup, he⟩ <;> rw [he]
    · exact howned id
    · rw [available_insert]
      split
      · have hav : tx.available id' = balances := by
          rw [available, HashMap.getD, hlookup, Option.getD_some]
        -- over the moves of the edict, each of which takes from the front
        have hbalances := hav ▸ howned id'
        generalize tx.edictMoves e (unallocated balances) = moves
        generalize tx.nextEventIndex = n
        clear he hlookup hav
        induction moves generalizing balances n with
        | nil => exact hbalances
        | cons move moves ih => exact ih _ (hbalances.take move.2 0 []) _
      · exact howned id
  | _ => exact howned id

end TransactionCache

/-! ## Burns of owned balances -/

/-- A move does not burn what an address owns: its output has an address, or nothing is owned. -/
def KeepsOwned (env : Environment) (location : TransactionLocation)
    (outputs : HashMap Nat ScriptBuf) (output : Option Nat)
    (balances : List InputRuneBalance) : Prop :=
  receiverAddress env location outputs output = none → ∀ b ∈ balances, b.address = none

/-- The moves of an edict, each on the balances that the moves before it leave. -/
def MovesKeepOwned (env : Environment) (location : TransactionLocation)
    (outputs : HashMap Nat ScriptBuf) :
    List (Option Nat × Nat) → List InputRuneBalance → Prop
  | [], _ => True
  | (output, amount) :: moves, balances => KeepsOwned env location outputs output balances ∧
      MovesKeepOwned env location outputs moves (takeBalances amount balances 0 []).balances

/-- A call burns nothing that an address owns, and the balances that are left at the end of a
transaction add up to a `u128`. -/
def TransactionCache.BurnsUnowned (env : Environment) (tx : TransactionCache) : Action → Prop
  | .cenotaph => ∀ id, ∀ b ∈ tx.available id, b.address = none
  | .edict e =>
    ∀ id balances, tx.edictRuneId e.id = some id → tx.inputRunes.lookup id = some balances →
      MovesKeepOwned env tx.location tx.eligibleOutputs
      (tx.edictMoves e (unallocated balances)) balances
  | .endTransaction => ∀ id, totalAmount (tx.available id) < 2 ^ 128 ∧
      KeepsOwned env tx.location tx.eligibleOutputs tx.outputPointer (tx.available id)
  | _ => True

namespace TransactionCache

variable {env : Environment} {tx tx' : TransactionCache} {act : Action} {es : List DbLedgerEntry}
  {rs : List DbRune}

/-- A move that keeps what is owned burns nothing. -/
theorem ne_burn_of_keepsOwned {location : TransactionLocation} {outputs : HashMap Nat ScriptBuf}
    {output : Option Nat} {balances : List InputRuneBalance}
    (h : KeepsOwned env location outputs output balances) (id : RuneId) (amount n : Nat) :
    ∀ e ∈ (moveRuneBalanceToOutput env location output id balances outputs amount n).entries,
      e.operation ≠ .burn := by
  intro e he hop
  cases hreceiver : receiverAddress env location outputs output with
  | some a =>
    rcases (moveRuneBalanceToOutput_moveOf e he).operation with ⟨hop', -⟩ | ⟨hop', -⟩
    · cases hop.symm.trans hop'
    · rw [hreceiver] at hop'
      cases hop.symm.trans hop'
  | none =>
    -- without a receiver the entries are those of the senders, and there are none
    rw [moveRuneBalanceToOutput, hreceiver,
      (takeBalances_unowned amount (h hreceiver) 0 []).2] at he
    simp [senderEntries] at he

theorem ne_burn_of_movesKeepOwned {location : TransactionLocation} {outputs : HashMap Nat ScriptBuf}
    (id : RuneId) (moves : List (Option Nat × Nat)) {balances : List InputRuneBalance}
    (h : MovesKeepOwned env location outputs moves balances) (n : Nat) :
    ∀ e ∈ (applyMoves env location id outputs moves balances n).entries, e.operation ≠ .burn := by
  induction moves generalizing balances n with
  | nil => exact fun e he => absurd he List.not_mem_nil
  | cons move moves ih =>
    intro e he
    rcases List.mem_append.mp he with he | he
    · exact ne_burn_of_keepsOwned h.1 id move.2 n e he
    · exact ih h.2 _ e he

/-- The burns of such a call are not from an address. -/
theorem Step.burn_address (h : tx.Step env act es rs tx') (hsafe : tx.BurnsUnowned env act) :
    ∀ e ∈ es, e.operation = .burn → e.address = none := by
  have hplain : ∀ {amount : Option Nat} {id : RuneId} {operation : DbLedgerOperation},
      ∀ e ∈ [tx.plainEntry amount id operation], e.operation = .burn → e.address = none := by
    intro amount id operation e he _
    rw [List.mem_singleton.mp he]
    rfl
  cases h with
  | runestone | noMint | noCenotaphMint | noEdict => exact fun e he => absurd he List.not_mem_nil
  | etching | cenotaphEtching | mint | cenotaphMint => exact hplain
  | cenotaph =>
    refine forall_mem_overRunes (fun id n e he _ => ?_) _ _
    have hnone := hsafe id
    generalize tx.available id = balances at hnone he
    induction balances generalizing n with
    | nil => exact absurd he List.not_mem_nil
    | cons b balances ih =>
      obtain ⟨hb, hbalances⟩ := List.forall_mem_cons.mp hnone
      rcases List.mem_cons.mp he with rfl | he
      · exact hb
      · exact ih _ hbalances he
  | edict e =>
    rcases applyEdict_cases env tx e with he | ⟨id, balances, hid, hlookup, he⟩ <;> rw [he]
    · exact fun e he => absurd he List.not_mem_nil
    · exact fun e' he' hop =>
        absurd hop (ne_burn_of_movesKeepOwned id _ (hsafe id balances hid hlookup) _ e' he')
  | endTransaction =>
    refine forall_mem_overRunes (fun id n e he hop => ?_) _ _
    exact absurd hop (ne_burn_of_keepsOwned (hsafe id).2 id 0 n e he)

/-- What such a call takes from an address is sent. -/
theorem Step.sent_eq (h : tx.Step env act es rs tx') (hsafe : tx.BurnsUnowned env act)
    (howned : ∀ id, OwnedFirst (tx.available id)) (id : RuneId) (a : Address) :
    moved .send (id, a) es + ownedAmount a (tx'.available id) =
      ownedAmount a (tx.available id) := by
  -- the only debits besides sends are burns, which the condition leaves without an owner
  have hsent : moved .send (id, a) es = debited id a es := by
    refine tally_congr fun e he => decide_eq_decide.mpr ?_
    rw [DbLedgerEntry.owner]
    cases haddress : e.address with
    | none => simp
    | some a' =>
      have hburn : e.operation ≠ .burn := fun hop => by
        cases haddress.symm.trans (h.burn_address hsafe e he hop)
      simp [hburn]
  rw [hsent]
  refine h.debited_eq id a fun hend => ?_
  subst hend
  obtain ⟨hfits, -⟩ := hsafe id
  exact ownedAmount_eq_zero ((howned id).take_all 0 [] (by omega))

end TransactionCache

/-- What an address receives is credited to outputs. -/
theorem moved_receive_eq_holding (id : RuneId) (a : Address) (es : List DbLedgerEntry) :
    moved .receive (id, a) es = holding (fun address => address = some a) id [] es := by
  refine tally_congr fun e _ => decide_eq_decide.mpr ?_
  rw [DbLedgerEntry.owner]
  cases e.address <;> simp

end Runehook
