import Runehook.Accounting

/-! # What a transaction loses

Of each rune, what comes into a transaction, is premined and is minted goes out of it in `receive`
and `burn` entries, except for what the moves lose: a move to an output without address writes no
entry for what nobody owns, a sum can wrap around, and the last move can leave something behind
(`MoveAccounts`, `Exhausts`). The conditions of the moves are collected call by call
(`Stage.Accounts`, `Action.accounts`), and `accounted_iff` says that they decide whether a
transaction accounts for a rune. -/

namespace Runehook

open Lib

/-! ## Measures -/

/-- How much of a rune the entries burn. -/
def burned (id : RuneId) (es : List DbLedgerEntry) : Nat :=
  tally (fun e => e.operation = .burn ∧ e.runeId = id) DbLedgerEntry.value es

/-- The sum of the balances that have an owner. -/
def ownedTotal (balances : List InputRuneBalance) : Nat := owned Option.isSome balances

/-- The sum of the balances that nobody owns: they were premined or minted in the transaction. -/
def ownerless (balances : List InputRuneBalance) : Nat := owned Option.isNone balances

@[simp] theorem burned_nil (id : RuneId) : burned id [] = 0 := rfl

@[simp] theorem burned_append (id : RuneId) (es es' : List DbLedgerEntry) :
    burned id (es ++ es') = burned id es + burned id es' := tally_append _ _ es es'

theorem burned_ofRune (id : RuneId) (es : List DbLedgerEntry) :
    burned id (ofRune id es) = burned id es :=
  tally_ofRune (fun _ h => (of_decide_eq_true h).2) es

theorem burned_eq_zero {id : RuneId} {es : List DbLedgerEntry} (h : ∀ e ∈ es, e.operation ≠ .burn) :
    burned id es = 0 := tally_eq_zero _ _ fun e he => decide_eq_false fun hop => h e he hop.1

/-- Every balance has an owner or not. -/
theorem ownedTotal_add_ownerless (balances : List InputRuneBalance) :
    ownedTotal balances + ownerless balances = totalAmount balances := by
  induction balances with
  | nil => rfl
  | cons b balances ih =>
    obtain ⟨address, amount⟩ := b
    rw [ownedTotal, ownerless, owned, owned] at *
    rw [tally_cons, tally_cons, totalAmount_cons, ← ih]
    cases address with
    | none =>
      simp
      omega
    | some a =>
      simp
      omega

/-- What the senders send is what the balances of owners lost. -/
theorem takeBalances_ownedTotal (amount : Nat) (balances : List InputRuneBalance) (totalSent : Nat)
    (senders : List (Nat × Address)) :
    ((takeBalances amount balances totalSent senders).senders.map Prod.fst).sum +
      ownedTotal (takeBalances amount balances totalSent senders).balances =
        (senders.map Prod.fst).sum + ownedTotal balances := by
  have hsent : ∀ senders : List (Nat × Address), (senders.map Prod.fst).sum =
      tally (fun _ => true) Prod.fst senders := fun senders => by
    rw [tally, List.filter_eq_self.mpr fun _ _ => rfl]
  have howned : ∀ balances, ownedTotal balances =
      tally (fun b => b.address.any fun _ => true) InputRuneBalance.amount balances := by
    intro balances
    refine tally_congr fun b _ => ?_
    cases b.address <;> rfl
  rw [hsent, hsent, howned, howned]
  exact takeBalances_debits (fun _ => true) amount balances totalSent senders

/-- Taking leaves part of what there was, of every kind. -/
theorem takeBalances_owned_le (q : Option Address → Bool) (amount : Nat)
    (balances : List InputRuneBalance) (totalSent : Nat) (senders : List (Nat × Address)) :
    owned q (takeBalances amount balances totalSent senders).balances ≤ owned q balances := by
  have hcons : ∀ (b : InputRuneBalance) (l : List InputRuneBalance),
      owned q (b :: l) = (if q b.address then b.amount else 0) + owned q l :=
    fun b l => tally_cons _ _ _ _
  induction balances generalizing totalSent senders with
  | nil => exact Nat.le_refl _
  | cons bal rest ih =>
    rw [takeBalances]
    generalize (if amount = 0 then bal.amount else min bal.amount (amount - totalSent)) = taken
    split
    · rw [hcons, hcons]
      dsimp only
      split <;> omega
    · split
      · rw [hcons]
        exact Nat.le_add_left _ _
      · rw [hcons]
        exact (ih _ _).trans (Nat.le_add_left _ _)

/-! ## One move -/

/-- Everything that a move takes shows in its entries: to an output with an address the sum fits,
and to any other output only what has an owner is taken. -/
def MoveAccounts (env : Environment) (location : TransactionLocation)
    (outputs : HashMap Nat ScriptBuf) (output : Option Nat) (amount : Nat)
    (balances : List InputRuneBalance) : Prop :=
  if (receiverAddress env location outputs output).isSome then SumFits amount balances
  else ownerless (takeBalances amount balances 0 []).balances = ownerless balances

/-- The moves of an edict, each on the balances that the moves before it leave. -/
def MovesAccount (env : Environment) (location : TransactionLocation)
    (outputs : HashMap Nat ScriptBuf) :
    List (Option Nat × Nat) → List InputRuneBalance → Prop
  | [], _ => True
  | (output, amount) :: moves, balances =>
    MoveAccounts env location outputs output amount balances ∧
      MovesAccount env location outputs moves (takeBalances amount balances 0 []).balances

/-- A move of everything comes to the end: no balances at the front add up to zero, modulo
`2 ^ 128`, while something is left behind them. -/
def Exhausts (balances : List InputRuneBalance) : Prop :=
  ∀ front back, balances = front ++ back → front ≠ [] → totalAmount front % 2 ^ 128 = 0 →
    totalAmount back = 0

/-- **A move of everything leaves nothing** exactly if it comes to the end. -/
theorem takeBalances_exhausts_iff (balances : List InputRuneBalance) :
    totalAmount (takeBalances 0 balances 0 []).balances = 0 ↔ Exhausts balances := by
  -- the loop is in the middle of the deque, after some balances
  have hloop : ∀ (balances : List InputRuneBalance) (sent : Nat) (senders : List (Nat × Address)),
      totalAmount (takeBalances 0 balances (sent % 2 ^ 128) senders).balances = 0 ↔
        ∀ front back, balances = front ++ back → front ≠ [] →
          (sent + totalAmount front) % 2 ^ 128 = 0 → totalAmount back = 0 := by
    intro balances
    induction balances with
    | nil =>
      intro sent senders
      refine iff_of_true rfl fun front back hsplit hfront => ?_
      exact absurd (List.append_eq_nil_iff.mp hsplit.symm).1 hfront
    | cons bal rest ih =>
      intro sent senders
      have hadd : u128Add (sent % 2 ^ 128) bal.amount = (sent + bal.amount) % 2 ^ 128 :=
        Nat.mod_add_mod _ _ _
      rw [takeBalances]
      simp only [if_true, Nat.lt_irrefl, if_false, hadd]
      split
      · -- the loop stops here
        next hstop =>
        constructor
        · intro hrest front back hsplit hfront _
          obtain ⟨b, front, rfl⟩ := List.exists_cons_of_ne_nil hfront
          rw [List.cons_append] at hsplit
          obtain ⟨-, rfl⟩ := List.cons.inj hsplit
          rw [totalAmount_append] at hrest
          omega
        · intro hall
          refine hall [bal] rest rfl (List.cons_ne_nil _ _) ?_
          rw [totalAmount_cons, totalAmount_nil, Nat.add_zero]
          exact hstop
      · next hgo =>
        rw [ih (sent + bal.amount)]
        constructor
        · intro hrest front back hsplit hfront hzero
          obtain ⟨b, front, rfl⟩ := List.exists_cons_of_ne_nil hfront
          obtain ⟨rfl, rfl⟩ := List.cons.inj hsplit
          rw [totalAmount_cons, ← Nat.add_assoc] at hzero
          cases front with
          | nil => exact absurd hzero hgo
          | cons b' front => exact hrest _ back rfl (List.cons_ne_nil _ _) hzero
        · rintro hall front back rfl hfront hzero
          refine hall (bal :: front) back rfl (List.cons_ne_nil _ _) ?_
          rw [totalAmount_cons, ← Nat.add_assoc]
          exact hzero
  have h := hloop balances 0 []
  simp only [Nat.zero_mod, Nat.zero_add] at h
  exact h

instance (env : Environment) (location : TransactionLocation) (outputs : HashMap Nat ScriptBuf)
    (output : Option Nat) (amount : Nat) (balances : List InputRuneBalance) :
    Decidable (MoveAccounts env location outputs output amount balances) :=
  inferInstanceAs
    (Decidable (if (receiverAddress env location outputs output).isSome then SumFits amount balances
      else ownerless (takeBalances amount balances 0 []).balances = ownerless balances))

/-- Whether everything that the moves of an edict take shows in their entries. -/
instance MovesAccount.decide (env : Environment) (location : TransactionLocation)
    (outputs : HashMap Nat ScriptBuf) :
    ∀ moves balances, Decidable (MovesAccount env location outputs moves balances)
  | [], _ => .isTrue trivial
  | (_, amount) :: moves, balances =>
    have :=
      MovesAccount.decide env location outputs moves (takeBalances amount balances 0 []).balances
    inferInstanceAs (Decidable (_ ∧ _))

instance (balances : List InputRuneBalance) : Decidable (Exhausts balances) :=
  decidable_of_iff _ (takeBalances_exhausts_iff balances)

namespace TransactionCache

theorem senderEntries_burned (location : TransactionLocation) (id : RuneId) (output : Option Nat)
    (receiver : Option Address) (senders : List (Nat × Address)) (n : Nat) :
    burned id (senderEntries location id output receiver .burn senders n).1 =
      (senders.map Prod.fst).sum := by
  induction senders generalizing n with
  | nil => rfl
  | cons s senders ih =>
    rw [senderEntries, List.map_cons, List.sum_cons, ← ih (n + 1)]
    dsimp only
    rw [burned, tally_cons, ← burned]
    simp [newSequentialLedgerEntry, DbLedgerEntry.fromValues, DbLedgerEntry.value]

theorem burnEntries_burned (location : TransactionLocation) (id : RuneId)
    (balances : List InputRuneBalance) (n : Nat) :
    burned id (burnEntries location id balances n).1 = totalAmount balances := by
  induction balances generalizing n with
  | nil => rfl
  | cons b balances ih =>
    rw [burnEntries, totalAmount_cons, ← ih (n + 1)]
    dsimp only
    rw [burned, tally_cons, ← burned]
    simp [newSequentialLedgerEntry, DbLedgerEntry.fromValues, DbLedgerEntry.value]

/-- What a move burns: what it takes from owners, if the output has no address. -/
theorem moveRuneBalanceToOutput_burned (env : Environment) (location : TransactionLocation)
    (output : Option Nat) (id : RuneId) (balances : List InputRuneBalance)
    (outputs : HashMap Nat ScriptBuf) (amount n : Nat) :
    burned id (moveRuneBalanceToOutput env location output id balances outputs amount n).entries =
      if (receiverAddress env location outputs output).isSome then 0
      else ((takeBalances amount balances 0 []).senders.map Prod.fst).sum := by
  split
  · next hsome =>
    refine burned_eq_zero fun e he hop => ?_
    rcases (moveRuneBalanceToOutput_moveOf e he).operation with ⟨hreceive, -⟩ | ⟨hsend, -⟩
    · cases hop.symm.trans hreceive
    · rw [if_pos hsome] at hsend
      cases hop.symm.trans hsend
  · next hnone =>
    rw [moveRuneBalanceToOutput]
    simp only [hnone, Bool.false_eq_true, false_and, if_false, List.nil_append]
    exact senderEntries_burned _ _ _ _ _ _

/-- **What a move loses.** -/
theorem moveRuneBalanceToOutput_accounts (env : Environment) (location : TransactionLocation)
    (output : Option Nat) (id : RuneId) (balances : List InputRuneBalance)
    (outputs : HashMap Nat ScriptBuf) (amount n : Nat) :
    ∃ lost,
        received id (moveRuneBalanceToOutput env location output id balances
          outputs amount n).entries +
          burned id (moveRuneBalanceToOutput env location output id balances
            outputs amount n).entries +
          totalAmount (takeBalances amount balances 0 []).balances + lost = totalAmount balances ∧
      (lost = 0 ↔ MoveAccounts env location outputs output amount balances) := by
  rw [moveRuneBalanceToOutput_received, moveRuneBalanceToOutput_burned, MoveAccounts]
  by_cases hsome : (receiverAddress env location outputs output).isSome
  · -- what wraps around is lost
    have hle := takeBalances_total amount balances 0 []
    rw [if_pos ⟨rfl, hsome⟩, if_pos hsome, if_pos hsome, ← takeBalances_exact_iff]
    refine ⟨totalAmount balances - ((takeBalances amount balances 0 []).totalSent +
      totalAmount (takeBalances amount balances 0 []).balances), by omega, ?_⟩
    omega
  · -- what nobody owns is lost
    have hsent := takeBalances_ownedTotal amount balances 0 []
    have htotal := takeBalances_total amount balances 0 []
    have hbefore := ownedTotal_add_ownerless balances
    have hafter := ownedTotal_add_ownerless (takeBalances amount balances 0 []).balances
    have hle : ownerless (takeBalances amount balances 0 []).balances ≤ ownerless balances :=
      takeBalances_owned_le _ amount balances 0 []
    rw [if_neg fun h => hsome h.2, if_neg hsome, if_neg hsome]
    simp only [List.map_nil, List.sum_nil, Nat.zero_add] at hsent ⊢
    exact ⟨ownerless balances - ownerless (takeBalances amount balances 0 []).balances, by
      omega, by omega⟩

/-- **What the moves of an edict lose.** -/
theorem applyMoves_accounts (env : Environment) (location : TransactionLocation) (id : RuneId)
    (outputs : HashMap Nat ScriptBuf) (moves : List (Option Nat × Nat))
    (balances : List InputRuneBalance) (n : Nat) :
    ∃ lost, received id (applyMoves env location id outputs moves balances n).entries +
        burned id (applyMoves env location id outputs moves balances n).entries +
          totalAmount (applyMoves env location id outputs moves balances n).balances + lost =
      totalAmount balances ∧ (lost = 0 ↔ MovesAccount env location outputs moves balances) := by
  induction moves generalizing balances n with
  | nil => exact ⟨0, by simp [applyMoves], iff_of_true rfl trivial⟩
  | cons move moves ih =>
    obtain ⟨lost, htotal, hlost⟩ :=
      moveRuneBalanceToOutput_accounts env location move.1 id balances outputs move.2 n
    obtain ⟨lost', htotal', hlost'⟩ := ih (takeBalances move.2 balances 0 []).balances
      (moveRuneBalanceToOutput env location move.1 id balances outputs move.2 n).nextEventIndex
    have hrest :
        (moveRuneBalanceToOutput env location move.1 id balances outputs move.2 n).balances =
          (takeBalances move.2 balances 0 []).balances := rfl
    -- what the moves lose adds up
    refine ⟨lost + lost', ?_, ?_⟩
    · rw [applyMoves]
      dsimp only
      rw [received_append, burned_append, hrest]
      omega
    · rw [MovesAccount, ← hlost, ← hlost']
      omega

variable {env : Environment} {r : RuneId} {tx tx' : TransactionCache} {act : Action}
  {es : List DbLedgerEntry} {rs : List DbRune}

/-- **What an edict loses**: what its moves lose, if they are of the rune. -/
theorem applyEdict_accounts (env : Environment) (tx : TransactionCache) (e : Edict) (r : RuneId) :
    ∃ lost, received r (tx.applyEdict env e).2 + burned r (tx.applyEdict env e).2 +
        totalAmount ((tx.applyEdict env e).1.available r) + lost = totalAmount (tx.available r) ∧
      (lost = 0 ↔ (tx.edictRuneId e.id = some r → MovesAccount env tx.location tx.eligibleOutputs
        (tx.edictMoves e (unallocated (tx.available r))) (tx.available r))) := by
  -- where nothing is available the moves lose nothing
  have hnone : ∀ moves, MovesAccount env tx.location tx.eligibleOutputs moves [] := by
    intro moves
    induction moves with
    | nil => trivial
    | cons move moves ih =>
      refine ⟨?_, ih⟩
      rw [MoveAccounts]
      split
      · exact .inl (show (0 : Nat) < 2 ^ 128 by omega)
      · rfl
  rw [applyEdict]
  cases hid : tx.edictRuneId e.id with
  | none => exact ⟨0, by simp, iff_of_true rfl fun h => (Option.some_ne_none _ h.symm).elim⟩
  | some id =>
    dsimp only
    cases hlookup : tx.inputRunes.lookup id with
    | none =>
      refine ⟨0, by simp, iff_of_true rfl fun h => ?_⟩
      cases Option.some.inj h
      have hempty : tx.available r = [] := by
        rw [available, HashMap.getD, hlookup, Option.getD_none]
      rw [hempty]
      exact hnone _
    | some balances =>
      dsimp only
      rw [available_insert]
      by_cases hr : r = id
      · subst hr
        -- the deque of the named rune is what the moves are made from
        have hav : tx.available r = balances := by rw [available, HashMap.getD_of_lookup hlookup]
        obtain ⟨lost, htotal, hlost⟩ := applyMoves_accounts env tx.location r tx.eligibleOutputs
          (tx.edictMoves e (unallocated balances)) balances tx.nextEventIndex
        rw [if_pos rfl, hav]
        exact ⟨lost, htotal, hlost.trans ⟨fun h _ => h, fun h => h rfl⟩⟩
      -- another rune is left as it was
      · rw [if_neg hr, ← received_ofRune, ← burned_ofRune, ofRune_applyMoves_of_ne (Ne.symm hr)]
        exact ⟨0, by simp, iff_of_true rfl fun h => absurd (Option.some.inj h).symm hr⟩

/-- **What the last call loses**: what its move loses, and what it leaves behind. -/
theorem allocateRemainingBalances_accounts (env : Environment) (tx : TransactionCache)
    (r : RuneId) :
    ∃ lost, received r (tx.allocateRemainingBalances env).2 +
        burned r (tx.allocateRemainingBalances env).2 + lost = totalAmount (tx.available r) ∧
      (lost = 0 ↔
        MoveAccounts env tx.location tx.eligibleOutputs tx.outputPointer 0 (tx.available r) ∧
        Exhausts (tx.available r)) := by
  obtain ⟨hnone, hsome⟩ := ofRune_allocate env tx r
  rw [← received_ofRune, ← burned_ofRune, ← takeBalances_exhausts_iff]
  by_cases hr : r ∈ tx.inputRunes.keys
  · obtain ⟨m, hm⟩ := hsome hr
    obtain ⟨lost, htotal, hlost⟩ :=
      moveRuneBalanceToOutput_accounts env tx.location tx.outputPointer r
        (tx.available r) tx.eligibleOutputs 0 m
    rw [hm, moveToPointer]
    refine ⟨lost + totalAmount (takeBalances 0 (tx.available r) 0 []).balances, ?_, ?_⟩
    · dsimp only
      omega
    · rw [← hlost]
      omega
  · rw [hnone hr, available_of_not_mem hr]
    refine ⟨0, rfl, iff_of_true rfl ⟨?_, rfl⟩⟩
    rw [MoveAccounts]
    split
    · exact .inl (show (0 : Nat) < 2 ^ 128 by omega)
    · rfl

/-- A cenotaph burns everything. -/
theorem applyCenotaphInputBurn_burned (env : Environment) (tx : TransactionCache) (r : RuneId) :
    burned r (tx.applyCenotaphInputBurn env).2 = totalAmount (tx.available r) := by
  obtain ⟨hnone, hsome⟩ := ofRune_applyCenotaphInputBurn env tx r
  rw [← burned_ofRune]
  by_cases hr : r ∈ tx.inputRunes.keys
  · obtain ⟨m, hm⟩ := hsome hr
    rw [hm, burnEntries_burned]
  · rw [hnone hr, available_of_not_mem hr]
    rfl

/-- Other calls lose nothing: what a mint adds and what a cenotaph mints are in their entries. -/
theorem Step.accounts (h : tx.Step env act es rs tx') (hedict : ∀ e, act ≠ .edict e)
    (hend : act ≠ .endTransaction) :
    received r es + burned r es + totalAmount (tx'.available r) =
      totalAmount (tx.available r) + minted r es + (if act.step = 3 then burned r es else 0) +
        act.premine tx.location r := by
  -- an entry of a kind other than a burn adds nothing to the burns
  have hplain : ∀ {amount : Option Nat} {id : RuneId} {operation : DbLedgerOperation},
      operation ≠ .burn →
      burned r [tx.plainEntry amount id operation] = 0 := fun hne => burned_eq_zero fun e he => by
    rw [List.mem_singleton.mp he]
    exact hne
  have hminted : act.step ≠ 3 → minted r es = 0 := fun hstep =>
    minted_eq_zero fun e he hop => absurd hop (h.operation_ne_mint hstep e he)
  cases h with
  | runestone => exact (Nat.zero_add _)
  | noMint | noCenotaphMint => exact (Nat.zero_add _)
  | cenotaph =>
    -- the burned balances leave the deques and come back as burn entries
    have hempty : (tx.applyCenotaphInputBurn env).1.available r = [] := available_clear tx _ r
    rw [received_applyCenotaphInputBurn, applyCenotaphInputBurn_burned, hempty, hminted (by decide)]
    simp [Action.step, Action.premine]
  | etching e =>
    rw [received_plainEntry _ _ _ _ (by decide), hplain (by decide), available_withEtching,
      Action.premine, minted_plainEntry]
    split
    · cases e.premine <;> simp [Action.step]
    · simp [Action.step]
  | cenotaphEtching =>
    rw [received_plainEntry _ _ _ _ (by decide), hplain (by decide), available_withEtching,
      minted_plainEntry]
    split <;> simp [Action.premine, Action.step]
  | @mint id rune n amount _ hamount =>
    rw [received_plainEntry _ _ _ _ (by decide), hplain (by decide),
      totalAmount_available_nextEvent, available_addInputRunes, minted_plainEntry]
    by_cases hid : r = id
    · simp [hid, Action.premine]
    · simp [hid, Ne.symm hid, Action.premine]
  | @cenotaphMint id rune n amount _ hamount =>
    rw [received_plainEntry _ _ _ _ (by decide), totalAmount_available_nextEvent, minted_plainEntry]
    simp [Action.premine, Action.step, Nat.add_comm]
  | edict e | noEdict e => exact absurd rfl (hedict e)
  | endTransaction => exact absurd rfl hend

end TransactionCache

/-! ## Calls -/

/-- How much of a rune a call mints, normally or in a cenotaph. -/
def Action.mintedAmount (r : RuneId) (s : Session) : Action → Nat
  | .mint id | .cenotaphMint id => if id = r ∧ s.acceptsMint id then s.mintAmount id else 0
  | _ => 0

/-- How much of a rune the calls of a transaction mint. -/
def mintedIn (env : Environment) (block : Block) (r : RuneId) : List Action → Session → Nat
  | [], _ => 0
  | a :: as, s => a.mintedAmount r s + ((a.run env block s).map (mintedIn env block r as)).getD 0

/-- A rune is found: its edicts are carried out. -/
def Session.findsRune (id : RuneId) (s : Session) : Bool :=
  (s.getCachedRuneByRuneId id).any fun p => p.1.isSome

/-- An edict does what is read: nothing on a rune that is not found. -/
theorem Session.applyEdict_read {env : Environment} {e : Edict} {s s' : Session}
    (h : s.applyEdict env e = some s') :
    (s.findsRune e.id = false ∧ s.Writes [] [] s' ∧ s'.cache.txCache = s.cache.txCache) ∨
      (s.findsRune e.id = true ∧ s.Writes (s.cache.txCache.applyEdict env e).2 [] s' ∧
        s'.cache.txCache = (s.cache.txCache.applyEdict env e).1) := by
  rw [Session.applyEdict] at h
  obtain ⟨⟨rune, t⟩, hrune, h⟩ := Option.bind_eq_some_iff.mp h
  have hlook := Session.runeLookup_of_eq_some hrune
  cases rune with
  | none =>
    cases Option.some.inj h
    have hfinds : s.findsRune e.id = false := by rw [Session.findsRune, hrune, Option.any_some]; rfl
    exact Or.inl ⟨hfinds, hlook.writes, hlook.txCache_eq⟩
  | some rune =>
    have hfinds : s.findsRune e.id = true := by rw [Session.findsRune, hrune, Option.any_some]; rfl
    have hadd : (t.setTxCache (t.cache.txCache.applyEdict env e).1).addLedgerEntriesToDbCache
        (t.cache.txCache.applyEdict env e).2 = some s' := h
    obtain ⟨hw, hnext⟩ := Session.writes_add hadd
    rw [hlook.txCache_eq] at hw hnext
    exact Or.inr ⟨hfinds, hlook.writes.nil_trans hw, hnext⟩

/-- Everything of a rune that a call takes shows in its entries. -/
def Stage.Accounts (env : Environment) (r : RuneId) (s : Session) : Stage → Prop
  | .call _ (.edict e) => s.findsRune e.id → s.cache.txCache.edictRuneId e.id = some r →
      MovesAccount env s.cache.txCache.location s.cache.txCache.eligibleOutputs
        (s.cache.txCache.edictMoves e (TransactionCache.unallocated (s.cache.txCache.available r)))
        (s.cache.txCache.available r)
  | .call _ .endTransaction =>
      MoveAccounts env s.cache.txCache.location s.cache.txCache.eligibleOutputs
        s.cache.txCache.outputPointer 0
        (s.cache.txCache.available r) ∧ Exhausts (s.cache.txCache.available r)
  | _ => True

instance (env : Environment) (r : RuneId) (s : Session) :
    ∀ stage : Stage, Decidable (stage.Accounts env r s)
  | .call _ (.edict _) => inferInstanceAs (Decidable (_ → _ → _))
  | .call _ .endTransaction => inferInstanceAs (Decidable (_ ∧ _))
  | .call _ (.beginTransaction _) | .call _ (.runestone _) | .call _ .cenotaph | .call
      _ (.etching _)
  | .call _ (.cenotaphEtching _) | .call _ (.mint _) | .call _ (.cenotaphMint _) => .isTrue trivial
  | .openBlock _ | .closeBlock _ | .rollBack _ | .restart _ _ => .isTrue trivial

namespace Session

/-- A mint that is accepted writes its amount, and one that is not writes nothing. -/
theorem MintOutcome.amount {apply : TransactionCache → RuneId → Nat → DbRune →
      TransactionCache × Option DbLedgerEntry}
    {operation : DbLedgerOperation} {id r : RuneId} {s s' : Session} {es : List DbLedgerEntry}
    (happly : ∀ tx total rune entry, (apply tx id total rune).2 = some entry →
      entry.amount = rune.termsAmount ∧ entry.runeId = id ∧ entry.operation = operation)
    (h : MintOutcome apply id s s') (hentries : s'.entries = s.entries ++ es) :
    tally (fun e => e.operation = operation ∧ e.runeId = r) DbLedgerEntry.value es =
      if id = r ∧ s.acceptsMint id then s.mintAmount id else 0 := by
  have hnil : s.acceptsMint id = false → s.Writes [] [] s' →
      tally (fun e => e.operation = operation ∧ e.runeId = r) DbLedgerEntry.value es =
        if id = r ∧ s.acceptsMint id then s.mintAmount id else 0 := by
    intro haccepts hwrites
    rw [List.append_cancel_left (hentries.symm.trans hwrites.entries_eq), haccepts]
    simp
  cases h with
  | unknown haccepts hrune => exact hnil haccepts hrune.writes
  | refused haccepts hrune htotal =>
    exact hnil haccepts ((hrune.writes.nil_trans htotal.writes).nil_trans
      (.quiet (.setTxCache _ _)))
  | @accepted t u v rune total entry haccepts hrune htotal _ hsome hadd =>
    obtain ⟨hamount, hid, hop⟩ := happly _ _ _ _ hsome
    obtain ⟨hv, -⟩ := writes_add hadd
    have hall := (hrune.writes.nil_trans htotal.writes).nil_trans hv
    -- the accepted mint writes one entry
    have hes : es = [entry] := List.append_cancel_left (hentries.symm.trans hall.entries_eq)
    have hmint : s.mintAmount id = entry.value := by
      rw [mintAmount, hrune.eq_some, DbLedgerEntry.value, hamount]
      rfl
    rw [hes, tally_singleton, hmint, haccepts]
    simp [hop, hid]

end Session

theorem TransactionCache.applyMint_entry {tx : TransactionCache} {id : RuneId} {total : Nat}
    {rune : DbRune} {entry : DbLedgerEntry} (h : (tx.applyMint id total rune).2 = some entry) :
    entry.amount = rune.termsAmount ∧ entry.runeId = id ∧ entry.operation = .mint := by
  refine ⟨applyMint_amount _ _ _ _ _ h, ?_⟩
  obtain ⟨-, heq⟩ | ⟨-, amount, -, heq⟩ := tx.applyMint_cases id total rune <;> rw [heq] at h
  · cases h
  · cases Option.some.inj h
    exact ⟨rfl, rfl⟩

theorem TransactionCache.applyCenotaphMint_entry {tx : TransactionCache} {id : RuneId} {total : Nat}
    {rune : DbRune} {entry : DbLedgerEntry}
    (h : (tx.applyCenotaphMint id total rune).2 = some entry) :
    entry.amount = rune.termsAmount ∧ entry.runeId = id ∧ entry.operation = .burn := by
  refine ⟨applyCenotaphMint_amount _ _ _ _ _ h, ?_⟩
  obtain ⟨-, heq⟩ | ⟨-, amount, -, heq⟩ :=
    tx.applyCenotaphMint_cases id total rune <;> rw [heq] at h
  · cases h
  · cases Option.some.inj h
    exact ⟨rfl, rfl⟩

/-- **What a call loses** of a rune: nothing exactly if everything that it takes shows in its
entries. -/
theorem Action.accounts {env : Environment} {block : Block} {r : RuneId} {a : Action}
    {s s' : Session} (ha : ∀ tx, a ≠ .beginTransaction tx) (hrun : a.run env block s = some s') :
    ∃ es lost, s'.entries = s.entries ++ es ∧ s'.cache.txCache.location = s.cache.txCache.location ∧
      received r es + burned r es + totalAmount (s'.cache.txCache.available r) + lost =
        totalAmount (s.cache.txCache.available r) + a.premine s.cache.txCache.location r +
      a.mintedAmount r s ∧ (lost = 0 ↔ (Stage.call block a).Accounts env r s) := by
  obtain ⟨es, rs, hwrites, hstep⟩ := Action.run_step ha hrun
  have hlocation := hstep.location_eq
  have hentries := hwrites.entries_eq
  cases a with
  | beginTransaction tx => exact absurd rfl (ha tx)
  | mint id =>
    have htotal := hstep.accounts (r := r) (fun _ heq => by cases heq) (fun heq => by cases heq)
    -- the minted sum of the call is the amount that its outcome allows
    have hminted : minted r es = _ := (Session.applyMint_cases hrun).amount
      (fun _ _ _ _ => TransactionCache.applyMint_entry) hentries
    have hburned : burned r es = 0 := burned_eq_zero fun e he => by
      generalize s'.cache.txCache = tx' at hstep
      cases hstep with
      | mint =>
        rw [List.mem_singleton.mp he]
        exact DbLedgerOperation.noConfusion
      | noMint => exact absurd he List.not_mem_nil
    refine ⟨es, 0, hentries, hlocation, ?_, iff_of_true rfl trivial⟩
    rw [hminted, hburned] at htotal
    rw [Action.mintedAmount, hburned]
    simp only [ite_self] at htotal
    omega
  | cenotaphMint id =>
    have htotal := hstep.accounts (r := r) (fun _ heq => by cases heq) (fun heq => by cases heq)
    have hburned : burned r es = _ := (Session.applyCenotaphMint_cases hrun).amount
      (fun _ _ _ _ => TransactionCache.applyCenotaphMint_entry) hentries
    have hminted : minted r es = 0 := minted_eq_zero fun e he hop => by
      generalize s'.cache.txCache = tx' at hstep
      cases hstep with
      | cenotaphMint =>
        rw [List.mem_singleton.mp he] at hop
        cases hop
      | noCenotaphMint => exact absurd he List.not_mem_nil
    refine ⟨es, 0, hentries, hlocation, ?_, iff_of_true rfl trivial⟩
    rw [hminted, if_pos (show (Action.cenotaphMint id).step = 3 from rfl), hburned] at htotal
    rw [Action.mintedAmount, hburned]
    omega
  | edict e =>
    -- an edict whose rune is not found does nothing and loses nothing
    obtain ⟨hfinds, hw, htx⟩ | ⟨hfinds, hw, htx⟩ := Session.applyEdict_read hrun
    · refine ⟨[], 0, hw.entries_eq, hlocation, ?_, iff_of_true rfl fun hfound => ?_⟩
      · rw [htx]
        simp [Action.premine, Action.mintedAmount]
      · exact absurd (hfinds.symm.trans hfound) Bool.false_ne_true
    · obtain ⟨lost, htotal, hlost⟩ := TransactionCache.applyEdict_accounts env s.cache.txCache e r
      refine ⟨_, lost, hw.entries_eq, hlocation, ?_, hlost.trans ?_⟩
      · rw [htx]
        exact htotal
      · exact ⟨fun h _ => h, fun h => h hfinds⟩
  | endTransaction =>
    have hallocate : s.Writes (s.cache.txCache.allocateRemainingBalances env).2 [] s' ∧
      s'.cache.txCache = (s.cache.txCache.allocateRemainingBalances env).1 :=
      Session.writes_add hrun
    obtain ⟨hw, htx⟩ := hallocate
    obtain ⟨lost, htotal, hlost⟩ :=
      TransactionCache.allocateRemainingBalances_accounts env s.cache.txCache r
    refine ⟨_, lost, hw.entries_eq, hlocation, ?_, hlost⟩
    -- nothing is left in the deques after the allocation
    have hempty : (s.cache.txCache.allocateRemainingBalances env).1.available r = [] :=
      TransactionCache.available_clear s.cache.txCache _ r
    rw [htx, hempty]
    exact htotal
  | runestone | cenotaph | etching | cenotaphEtching =>
    have htotal := hstep.accounts (r := r) (fun _ heq => by cases heq) (fun heq => by cases heq)
    have hminted : minted r es = 0 :=
      minted_eq_zero fun e he hop => absurd hop (hstep.operation_ne_mint
        (by simp [Action.step]) e he)
    refine ⟨es, 0, hentries, hlocation, ?_, iff_of_true rfl trivial⟩
    rw [hminted, if_neg (by simp [Action.step])] at htotal
    simpa [Action.mintedAmount] using htotal

/-! ## Transactions -/

/-- **What calls lose** of a rune: nothing exactly if none of them does. -/
theorem calls_account {env : Environment} {block : Block} {r : RuneId} {as : List Action}
    {s s' : Session} (has : ∀ a ∈ as, ∀ tx, a ≠ .beginTransaction tx)
    (hrun : as.foldlM (Action.run env block) s = some s') :
    ∃ es lost, s'.entries = s.entries ++ es ∧
      received r es + burned r es + totalAmount (s'.cache.txCache.available r) + lost =
        totalAmount (s.cache.txCache.available r) +
          (as.map (Action.premine s.cache.txCache.location r)).sum + mintedIn env block r as s ∧
      (lost = 0 ↔ EveryStage env (Stage.Accounts env r) (as.map (Stage.call block)) s) := by
  induction as generalizing s with
  | nil =>
    cases Option.some.inj hrun
    refine ⟨[], 0, (List.append_nil _).symm, by simp [mintedIn], iff_of_true rfl ?_⟩
    exact .of_forall fun stage hstage => absurd hstage List.not_mem_nil
  | cons a as ih =>
    obtain ⟨t, ha, hrun⟩ := foldlM_cons_eq_some.mp hrun
    obtain ⟨hbegin, has⟩ := List.forall_mem_cons.mp has
    obtain ⟨es, lost, hentries, hlocation, htotal, hlost⟩ := Action.accounts (r := r) hbegin ha
    obtain ⟨es', lost', hentries', htotal', hlost'⟩ := ih has hrun
    refine ⟨es ++ es', lost + lost', by rw [hentries', hentries, List.append_assoc], ?_, ?_⟩
    · rw [hlocation] at htotal'
      rw [received_append, burned_append, List.map_cons, List.sum_cons, mintedIn, ha,
        Option.map_some, Option.getD_some]
      omega
    · have ha : (Stage.call block a).run env s = some t := ha
      rw [List.map_cons, everyStage_cons ha, ← hlost, ← hlost']
      omega

/-- **Every unit is accounted for**, exactly where no call loses any: what comes in of a rune, its
premine and what is minted of it, normally or in a cenotaph, go out in `receive` and `burn`
entries. -/
theorem accounted_iff {env : Environment} {block : Block} {tx : Transaction} {s s' : Session}
    (hrun : indexTransaction env block s tx = some s') (r : RuneId) :
    ∃ t es, Action.run env block s (.beginTransaction tx) = some t ∧ s'.entries = s.entries ++ es ∧
      (totalAmount (t.cache.txCache.available r) +
        (if (tx.location block s.cache.network).runeId = r then
          ((tx.etching env).bind Etching.premine).getD 0 else 0) +
            mintedIn env block r (tx.calls env) t =
        received r es + burned r es ↔
              EveryStage env (Stage.Accounts env r) (tx.stages env block) s) := by
  obtain ⟨t, hbegin, hcalls⟩ := indexTransaction_eq_some.mp hrun
  obtain ⟨es, lost, hentries, htotal, hlost⟩ := calls_account (r := r)
    (fun a ha => Transaction.ne_beginTransaction ha) hcalls
  have hstages : tx.stages env block =
      .call block (.beginTransaction tx) :: (tx.calls env).map (Stage.call block) := rfl
  have hlocation : t.cache.txCache.location = tx.location block s.cache.network := by
    obtain ⟨-, rfl⟩ := run_beginTransaction hbegin
    rfl
  have hbefore : t.entries = s.entries := by
    obtain ⟨-, rfl⟩ := run_beginTransaction hbegin
    rfl
  -- the deques are empty after the last call
  rw [hlocation, sum_premine_calls, Transaction.available_of_calls hcalls,
    totalAmount_nil] at htotal
  refine ⟨t, es, hbegin, by rw [hentries, hbefore], ?_⟩
  have hbegin : (Stage.call block (.beginTransaction tx)).run env s = some t := hbegin
  rw [hstages, everyStage_cons hbegin, ← hlost]
  constructor
  · intro heq
    exact ⟨trivial, by omega⟩
  · rintro ⟨-, hzero⟩
    omega

/-- Every `OP_RETURN` output etches a rune with a premine. -/
def premineEnv : Environment :=
  .plain fun _ => some
    (.runestone ⟨[], some ⟨none, some 1000, none, none, none, none, false⟩, none, none⟩)

/-- A block, up to a transaction that etches. -/
def premineBlock : Block := ⟨"0xb1", 840001, 1700000000, []⟩

/-- A transaction that etches, with an output to alice. -/
def premineTx : Transaction := ⟨"0xetch", 1, [], [[1], [0x6a]]⟩

/-- A transaction that etches, with nothing but an `OP_RETURN` output. -/
def voidTx : Transaction := ⟨"0xetch", 1, [], [[0x6a]]⟩

/-- A premine that is paid to alice is accounted for. -/
theorem accounted_iff_premine : ∃ s s' t es, freshSession .bitcoin 2 Nat.two_pos = some s ∧
    indexTransaction premineEnv premineBlock s premineTx = some s' ∧
    Action.run premineEnv premineBlock s (.beginTransaction premineTx) = some t ∧
    s'.entries = s.entries ++ es ∧ totalAmount (t.cache.txCache.available ⟨840001, 1⟩) + 1000 +
      mintedIn premineEnv premineBlock ⟨840001, 1⟩ (premineTx.calls premineEnv) t =
        received ⟨840001, 1⟩ es + burned ⟨840001, 1⟩ es := by
  have hruns : (freshSession .bitcoin 2 Nat.two_pos).any fun s =>
      (indexTransaction premineEnv premineBlock s premineTx).isSome ∧
      checkStages premineEnv (fun s stage => stage.Accounts premineEnv ⟨840001, 1⟩ s)
        (premineTx.stages premineEnv premineBlock) s := by decide +kernel
  obtain ⟨s, hstart, h⟩ := (Option.any_eq_true _ _).mp hruns
  obtain ⟨hsome, hcheck⟩ := of_decide_eq_true h
  obtain ⟨s', hrun⟩ := Option.isSome_iff_exists.mp hsome
  obtain ⟨t, es, hbegin, hentries, hiff⟩ := accounted_iff hrun ⟨840001, 1⟩
  exact ⟨s, s', t, es, hstart, hrun, hbegin, hentries,
    hiff.mpr (.of_check (fun _ _ h => of_decide_eq_true h) hcheck)⟩

/-- **A premine vanishes** in a transaction whose only output is an `OP_RETURN`: it is neither
received nor burned. -/
theorem exists_not_accounted : ∃ s s' t es, freshSession .bitcoin 2 Nat.two_pos = some s ∧
    indexTransaction premineEnv premineBlock s voidTx = some s' ∧
    Action.run premineEnv premineBlock s (.beginTransaction voidTx) = some t ∧
    s'.entries = s.entries ++ es ∧ received ⟨840001, 1⟩ es + burned ⟨840001, 1⟩ es = 0 ∧
      (voidTx.etching premineEnv).bind Etching.premine = some 1000 := by
  have hruns : (freshSession .bitcoin 2 Nat.two_pos).any fun s =>
      (indexTransaction premineEnv premineBlock s voidTx).any fun s' =>
        (s.entries = [] ∧ received ⟨840001, 1⟩ s'.entries + burned ⟨840001, 1⟩ s'.entries = 0) ∧
        (Action.run premineEnv premineBlock s (.beginTransaction voidTx)).isSome := by
    decide +kernel
  obtain ⟨s, hstart, h⟩ := (Option.any_eq_true _ _).mp hruns
  obtain ⟨s', hrun, h⟩ := (Option.any_eq_true _ _).mp h
  obtain ⟨⟨hnil, hzero⟩, hsome⟩ := of_decide_eq_true h
  obtain ⟨t, hbegin⟩ := Option.isSome_iff_exists.mp hsome
  exact ⟨s, s', t, s'.entries, hstart, hrun, hbegin, by rw [hnil, List.nil_append],
    hzero, by decide⟩

end Runehook
