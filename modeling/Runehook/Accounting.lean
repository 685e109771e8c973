import Runehook.Circulation
import Runehook.MinedRows

/-! # What comes in goes out

A transaction takes balances in, premines and mints, and writes entries for what it does with them.
An owner is debited for exactly what came in (`debited_eq_owned`, after any run without rollbacks).
What nobody owns can get lost on the way, because the entries of a move to an output without address
name its senders only, and because a move of everything stops at once in front of an empty balance:
a move is exact if its sum fits (`SumFits`, `takeBalances_exact_iff`), and a move of everything
leaves nothing if the balances are taken whole (`TakenWhole`, `moveEverything_iff`). -/

namespace Runehook

open Lib

/-! ## What a move sends -/

/-- The running total of the loop is a `u128`. -/
theorem takeBalances_totalSent_lt (amount : Nat) (balances : List InputRuneBalance)
    {totalSent : Nat} (senders : List (Nat × Address)) (h : totalSent < 2 ^ 128) :
    (takeBalances amount balances totalSent senders).totalSent < 2 ^ 128 := by
  induction balances generalizing totalSent senders with
  | nil => exact h
  | cons bal rest ih =>
    rw [takeBalances]
    generalize (if amount = 0 then bal.amount else min bal.amount (amount - totalSent)) = taken
    have hadd : u128Add totalSent taken < 2 ^ 128 := Nat.mod_lt _ (by omega)
    split
    · exact hadd
    · split
      · exact hadd
      · exact ih _ hadd

/-- A move up to a `u128` does not wrap around, however much there is. -/
theorem takeBalances_exact_of_amount {amount : Nat} (hne : amount ≠ 0) (hlt : amount < 2 ^ 128)
    (balances : List InputRuneBalance) {totalSent : Nat} (senders : List (Nat × Address))
    (hle : totalSent ≤ amount) :
    (takeBalances amount balances totalSent senders).totalSent +
      totalAmount (takeBalances amount balances totalSent senders).balances =
        totalSent + totalAmount balances := by
  induction balances generalizing totalSent senders with
  | nil => rfl
  | cons bal rest ih =>
    have hmin := Nat.min_le_right bal.amount (amount - totalSent)
    have hbal := Nat.min_le_left bal.amount (amount - totalSent)
    rw [takeBalances]
    simp only [hne, if_false, totalAmount_cons]
    generalize min bal.amount (amount - totalSent) = taken at hmin hbal
    -- no sum wraps around below the amount
    rw [u128Add_eq (by omega)]
    split
    · simp only [totalAmount_cons]
      omega
    · split
      · dsimp only
        omega
      · rw [ih _ (by omega)]
        omega

/-- A sum that does not fit is sent wrapped around. -/
theorem takeBalances_lt_of_wraps {amount : Nat} (hamount : amount = 0 ∨ 2 ^ 128 ≤ amount)
    {balances : List InputRuneBalance} {totalSent : Nat} (senders : List (Nat × Address))
    (hlt : totalSent < 2 ^ 128) (hwraps : 2 ^ 128 ≤ totalSent + totalAmount balances)
    (hstart : amount = 0 → totalSent = 0 → balances.head?.map InputRuneBalance.amount ≠ some 0) :
    (takeBalances amount balances totalSent senders).totalSent +
      totalAmount (takeBalances amount balances totalSent senders).balances <
        totalSent + totalAmount balances := by
  induction balances generalizing totalSent senders with
  | nil =>
    rw [totalAmount_nil] at hwraps
    omega
  | cons bal rest ih =>
    -- the loop takes part of a balance only where it makes up the amount
    have htaken := balanceTaken_le amount totalSent bal
    have hpartial :
        (if amount = 0 then bal.amount else min bal.amount (amount - totalSent)) < bal.amount →
        2 ^ 128 ≤ totalSent + if amount = 0 then bal.amount
        else min bal.amount (amount - totalSent) := by
      split <;> omega
    have hfirst : amount = 0 → totalSent = 0 →
        (if amount = 0 then bal.amount else min bal.amount (amount - totalSent)) ≠ 0 := by
      intro hzero hsent
      rw [if_pos hzero]
      exact fun h => hstart hzero hsent (congrArg some h)
    rw [takeBalances, totalAmount_cons]
    rw [totalAmount_cons] at hwraps
    generalize (if amount = 0 then bal.amount else min bal.amount (amount - totalSent)) =
      taken at htaken hpartial hfirst
    rcases Nat.lt_or_ge (totalSent + taken) (2 ^ 128) with hfits | hover
    · -- the total does not wrap around yet, and the loop goes on
      rw [u128Add_eq hfits]
      rw [if_neg (fun h => by have := hpartial h; omega)]
      rw [if_neg (fun h => by omega)]
      have hrest :=
        ih (senders ++ (bal.address.map fun senderAddress => (taken, senderAddress)).toList) hfits
          (by omega) (fun hzero hsent => absurd (by omega) (hfirst hzero (by omega)))
      omega
    -- the total wraps around here, so the loop loses at least one unit
    · have hadd : u128Add totalSent taken < totalSent + taken :=
        (Nat.mod_lt _ (by omega)).trans_le hover
      split
      · simp only [totalAmount_cons]
        omega
      · split
        · dsimp only
          omega
        · have hrest := takeBalances_total amount rest (u128Add totalSent taken)
            (senders ++ (bal.address.map fun senderAddress => (taken, senderAddress)).toList)
          omega

/-- The sum that a move sends does not wrap around: the balances add up to a `u128`, or no more than
one is asked for, or the move stops at once. -/
def SumFits (amount : Nat) (balances : List InputRuneBalance) : Prop :=
  totalAmount balances < 2 ^ 128 ∨ (amount ≠ 0 ∧ amount < 2 ^ 128) ∨ StopsAtOnce amount balances

instance (amount : Nat) (balances : List InputRuneBalance) : Decidable (SumFits amount balances) :=
  inferInstanceAs (Decidable (_ ∨ _ ∨ _))

/-- **When a move is exact.** What is sent and what is left are what was there, exactly if the sum
fits. -/
theorem takeBalances_exact_iff (amount : Nat) (balances : List InputRuneBalance) :
    (takeBalances amount balances 0 []).totalSent +
      totalAmount (takeBalances amount balances 0 []).balances =
        totalAmount balances ↔ SumFits amount balances := by
  constructor
  -- a wrap loses something unless the loop stops at once
  · intro hexact
    by_contra hnot
    rw [SumFits, not_or, not_or, Nat.not_lt] at hnot
    obtain ⟨hwraps, hamount, hstops⟩ := hnot
    have hlt := @takeBalances_lt_of_wraps amount (by omega) balances 0 [] (by omega) (by omega)
      fun hzero _ hhead => hstops ⟨hzero, hhead⟩
    omega
  · rintro (hfits | ⟨hne, hlt⟩ | hstops)
    · rw [takeBalances_exact amount (by omega), Nat.zero_add]
    · rw [takeBalances_exact_of_amount hne hlt balances [] (Nat.zero_le _), Nat.zero_add]
    · obtain ⟨rfl, hhead⟩ := hstops
      obtain ⟨bal, hbal, hzero⟩ := Option.map_eq_some_iff.mp hhead
      obtain ⟨rest, rfl⟩ := List.head?_eq_some_iff.mp hbal
      rw [takeBalances, totalAmount_cons]
      simp [hzero, u128Add]

/-! ## Moving everything -/

/-- The balances are taken whole: they add up to a `u128`, and no empty balance is in front of
another one. -/
def TakenWhole (balances : List InputRuneBalance) : Prop :=
  totalAmount balances < 2 ^ 128 ∧ (balances.length ≤ 1 ∨ ¬ StopsAtOnce 0 balances)

instance (balances : List InputRuneBalance) : Decidable (TakenWhole balances) :=
  inferInstanceAs (Decidable (_ ∧ (_ ∨ _)))

/-- **A move of everything** leaves nothing and sends the sum exactly if the balances are taken
whole. -/
theorem takeBalances_everything_iff (balances : List InputRuneBalance) :
    (takeBalances 0 balances 0 []).balances = [] ∧
      (takeBalances 0 balances 0 []).totalSent = totalAmount balances ↔ TakenWhole balances := by
  constructor
  · rintro ⟨hnil, hsent⟩
    have hlt :=
      takeBalances_totalSent_lt 0 balances [] (Nat.zero_lt_of_lt (show 0 < 2 ^ 128 by omega))
    refine ⟨hsent ▸ hlt, ?_⟩
    by_contra hnot
    rw [not_or, not_not] at hnot
    obtain ⟨hmore, -, hhead⟩ := hnot
    obtain ⟨bal, hbal, hzero⟩ := Option.map_eq_some_iff.mp hhead
    obtain ⟨rest, rfl⟩ := List.head?_eq_some_iff.mp hbal
    -- the loop stops after the empty balance, and the others stay
    rw [takeBalances] at hnil
    simp only [hzero, if_true, Nat.lt_irrefl, if_false,
      u128Add_eq (show 0 + 0 < 2 ^ 128 by omega)] at hnil
    rw [List.length_cons, hnil, List.length_nil] at hmore
    omega
  · rintro ⟨hfits, hfirst⟩
    have hnil : (takeBalances 0 balances 0 []).balances = [] := by
      cases balances with
      | nil => rfl
      | cons bal rest =>
        rw [totalAmount_cons] at hfits
        rw [takeBalances]
        simp only [if_true, Nat.lt_irrefl, if_false,
          u128Add_eq (show 0 + bal.amount < 2 ^ 128 by omega)]
        split
        · rcases hfirst with hone | hhead
          · exact List.length_eq_zero_iff.mp (by simpa using hone)
          · exact absurd ⟨rfl, congrArg some (by omega)⟩ hhead
        · exact takeBalances_rest (by omega) (by omega)
    have hexact := @takeBalances_exact 0 balances 0 [] (by omega)
    rw [hnil, totalAmount_nil] at hexact
    exact ⟨hnil, by omega⟩

/-- What is left of a rune when `allocate_remaining_balances` clears the map: it is discarded. -/
def TransactionCache.discarded (env : Environment) (tx : TransactionCache) (id : RuneId) :
    List InputRuneBalance :=
  (moveRuneBalanceToOutput env tx.location tx.outputPointer id (tx.available id)
    tx.eligibleOutputs 0 tx.nextEventIndex).balances

/-- **Amount zero means everything**, for every destination and over the runes of a transaction,
exactly where balances are taken whole: a move then leaves nothing and moves the sum, and
`allocate_remaining_balances` discards nothing that it did not move. -/
theorem moveEverything_iff (env : Environment) :
    (∀ location output id balances outputs n,
      (moveRuneBalanceToOutput env location output id balances outputs 0 n).balances = [] ∧
        (takeBalances 0 balances 0 []).totalSent = totalAmount balances ↔ TakenWhole balances) ∧
    ∀ tx : TransactionCache, (∀ id, tx.discarded env id = [] ∧
        (takeBalances 0 (tx.available id) 0 []).totalSent = totalAmount (tx.available id)) ↔
      ∀ id, TakenWhole (tx.available id) :=
  ⟨fun _ _ _ balances _ _ => takeBalances_everything_iff balances,
    fun tx => forall_congr' fun id => takeBalances_everything_iff (tx.available id)⟩

/-- **A mint is left behind** an empty premine: nothing is moved, and nothing is written. -/
theorem exists_left_behind : ∃ location output outputs,
    (moveRuneBalanceToOutput mintEnv location output ⟨840001, 1⟩ [⟨none, 0⟩, ⟨none, 100⟩]
        outputs 0 0).balances = [⟨none, 100⟩] ∧
      (moveRuneBalanceToOutput mintEnv location output ⟨840001, 1⟩ [⟨none, 0⟩, ⟨none, 100⟩]
        outputs 0 0).entries = [] :=
  ⟨mintTx.location mintBlock .bitcoin, some 0,
    (∅ : HashMap Nat ScriptBuf).insert 0 [1], by decide, by decide⟩

/-! ## Debits -/

/-- Whenever the stage is a call of an open transaction, the balances in flight add up to a `u128`
for every rune. -/
def Stage.SumsFit (s : Session) : Stage → Prop
  | .call _ a =>
    (∀ tx, a ≠ .beginTransaction tx) → ∀ id, totalAmount (s.cache.txCache.available id) < 2 ^ 128
  | _ => True

/-- What is found of an output was credited to it. -/
theorem Layered.held_of_found {env : Environment} {earlier current : List DbLedgerEntry}
    {s : Session} {id : RuneId} {part : List InputRuneBalance} {input : TxIn}
    (h : Layered PartOf earlier current s) (hcredits : CreditsOk s.entries)
    (hfound : Found env s.cache.blockOutputCache s.cache.outputCache s.db id part input) :
    ∀ b ∈ part, b.Held := by
  have hcredited : ∀ es, (∀ e ∈ es, e ∈ s.entries) →
      ∀ b ∈ credits input.outputKey id es, b.Held := by
    intro es hes b hb
    obtain ⟨e, he, rfl⟩ := List.mem_map.mp hb
    obtain ⟨hmem, hcredit⟩ := List.mem_filter.mp he
    have hfields := hcredits e (hes e hmem) (of_decide_eq_true hcredit).1
    exact ⟨hfields.address, hfields.pos⟩
  have hearlier := hcredited earlier fun e he => h.entries ▸ List.mem_append_left _ he
  rcases h.found hfound with ⟨-, rfl⟩ | ⟨-, map, hmap, rfl⟩ | ⟨-, hperm, -⟩
  · exact hcredited current fun e he => h.entries ▸ List.mem_append_right _ he
  · exact fun b hb => hearlier b ((hmap id).mem hb)
  · exact fun b hb => hearlier b (hperm.mem_iff.mp hb)

/-- A transaction begins with balances that outputs hold. -/
theorem Layered.available_held {env : Environment} {block : Block} {tx : Transaction}
    {earlier current : List DbLedgerEntry} {s u : Session} (h : Layered PartOf earlier current s)
    (hcredits : CreditsOk s.entries) (hrun : Action.run env block s (.beginTransaction tx) = some u)
    (id : RuneId) :
    ∀ b ∈ u.cache.txCache.available id, b.Held := by
  obtain ⟨-, rfl⟩ := run_beginTransaction hrun
  obtain ⟨parts, hparts, hfound⟩ := getD_inputRuneBalances env tx.inputs s.cache.blockOutputCache
    s.cache.outputCache s.db id
  intro b hb
  have hb : b ∈ parts.flatten := hparts ▸ hb
  obtain ⟨part, hpart, hb⟩ := List.mem_flatten.mp hb
  obtain ⟨input, -, hf⟩ := exists_of_forall₂ hfound hpart
  exact h.held_of_found hcredits hf b hb

/-- After a run without rollbacks and some transactions of a block, the caches hold parts of what
the ledger credits. -/
theorem layered_partOf {env : Environment} {network : Network} {cap : Nat} {hcap : 0 < cap}
    {events : List Event} {block : Block} {s₀ s t : Session} (hforward : ∀ e ∈ events, e.Forward)
    (hstart : freshSession network cap hcap = some s₀) (hrun : runEvents env events s₀ = some s)
    (hblock : indexTransactions env block s = some t) :
    (∃ current, Layered PartOf s.entries current t) ∧ CreditsOk t.entries := by
  obtain ⟨hempty, hdb⟩ := freshSession_eq_some hstart
  -- the loop over the transactions keeps the layers, whatever the block
  have hlayers : ∀ {block : Block} {s t : Session}, AtRest PartOf s →
      indexTransactions env block s = some t → ∃ current, Layered PartOf s.entries current t := by
    intro block s t hrest htxs
    obtain ⟨current, -, hlay⟩ :=
      indexTransactions_induction (P := fun _ _ _ => True) hrest (fun _ _ => trivial)
        (fun _ _ _ _ _ _ _ _ _ _ _ _ _ _ => trivial) htxs
    exact ⟨current, hlay⟩
  -- at rest after every event
  have hrest : AtRest PartOf s := by
    refine foldlM_induction_split (P := fun _ t => AtRest PartOf t) (.of_empty hempty) ?_ hrun
    rintro done e rest t t' hsplit ht hstep
    cases e with
    | index block =>
      obtain ⟨u, htxs, hflush⟩ := indexBlock_eq_some.mp hstep
      obtain ⟨current, hlay⟩ := hlayers ht htxs
      exact (closing_atRest hlay (PartOf.moveRules _ _) hflush).1
    | rollBack height =>
      exact absurd (hforward _ (hsplit ▸ List.mem_append_right _ List.mem_cons_self)) id
    | restart cap hcap => exact (restart_atRest ht hstep).1
  refine ⟨hlayers hrest hblock, ?_⟩
  have hcredits : CreditsOk s.entries := by
    refine runEvents_creditsOk ?_ hrun
    rw [Session.entries, hdb, hempty.dbCache]
    exact fun e he => absurd he List.not_mem_nil
  obtain ⟨es, rs, hwrites, -, hes, -⟩ := indexTransactions_writes hblock
  rw [hwrites.entries_eq]
  exact hcredits.append hes

/-- **Owners are debited what they put in.** After any run without rollbacks and any transactions of
a block, a transaction whose sums fit writes `send` and `burn` entries that take from each address
of each rune exactly what the address brought in. -/
theorem debited_eq_owned {env : Environment} {network : Network} {cap : Nat} {hcap : 0 < cap}
    {events : List Event} {block : Block} {tx : Transaction} {s₀ s t t' : Session}
    (hforward : ∀ e ∈ events, e.Forward) (hstart : freshSession network cap hcap = some s₀)
    (hrun : runEvents env events s₀ = some s) (hblock : indexTransactions env block s = some t)
    (hfits : EveryStage env Stage.SumsFit (tx.stages env block) t)
    (htx : indexTransaction env block t tx = some t') :
    ∃ u es, Action.run env block t (.beginTransaction tx) = some u ∧ t'.entries = t.entries ++ es ∧
      ∀ r a, debited r a es = ownedAmount a (u.cache.txCache.available r) := by
  obtain ⟨⟨current, hlay⟩, hcredits⟩ := layered_partOf hforward hstart hrun hblock
  obtain ⟨u, hbegin, hcalls⟩ := indexTransaction_eq_some.mp htx
  have hentries : u.entries = t.entries := by
    obtain ⟨-, rfl⟩ := run_beginTransaction hbegin
    rfl
  -- after every call, what an owner was debited and what is left of it is what came in
  have hind := calls_induction_every
    (P := fun done w => (∀ id, OwnedFirst (w.cache.txCache.available id)) ∧
      ∃ es, w.entries = t.entries ++ es ∧ ∀ r a,
        debited r a es + ownedAmount a (w.cache.txCache.available r) =
          ownedAmount a (u.cache.txCache.available r)) hfits hbegin
    ⟨fun id => .of_pos fun b hb => (hlay.available_held hcredits hbegin id b hb).pos, [],
      by rw [hentries, List.append_nil], fun r a => Nat.zero_add _⟩ ?_ hcalls
  · obtain ⟨-, es, hes, hdebits⟩ := hind
    refine ⟨u, es, hbegin, hes, fun r a => ?_⟩
    rw [← hdebits r a, Transaction.available_of_calls hcalls, ownedAmount_nil, Nat.add_zero]
  · rintro done act w w' es' rs hfits ⟨howned, es, hes, hdebits⟩ hact hwrites hstep
    refine ⟨hstep.ownedFirst howned, es ++ es', ?_, fun r a => ?_⟩
    · rw [hwrites.entries_eq, hes, List.append_assoc]
    · have hcall := hstep.debited_eq r a fun hend => by
        subst hend
        have hfit := hfits (fun _ heq => by cases heq) r
        exact ownedAmount_eq_zero ((howned r).take_all 0 [] (by omega))
      rw [debited_append, ← hdebits r a]
      omega

/-- It is enough to look at the runes of the map. -/
theorem Stage.sumsFit_of_keys {s : Session}
    (h : ∀ id ∈ s.cache.txCache.inputRunes.keys,
      totalAmount (s.cache.txCache.available id) < 2 ^ 128) (stage : Stage) : stage.SumsFit s := by
  cases stage with
  | call block a =>
    intro _ id
    by_cases hid : id ∈ s.cache.txCache.inputRunes.keys
    · exact h id hid
    · rw [TransactionCache.available_of_not_mem hid, totalAmount_nil]
      omega
  | _ => trivial

/-- Alice is debited the one rune that was minted to her, by the transaction that sends it to
bob. -/
theorem debited_eq_owned_spendTx : ∃ s₀ s t t' es, freshSession .bitcoin 2 Nat.two_pos = some s₀ ∧
    runEvents mintEnv mintAndRestart s₀ = some s ∧
    indexTransactions mintEnv { spendBlock with transactions := [] } s = some t ∧
    indexTransaction mintEnv { spendBlock with transactions := [] } t spendTx = some t' ∧
    t'.entries = t.entries ++ es ∧ debited ⟨1, 0⟩ "alice" es = 1 := by
  have hruns : (freshSession .bitcoin 2 Nat.two_pos).any fun s₀ =>
      (runEvents mintEnv mintAndRestart s₀).any fun s =>
        (indexTransactions mintEnv { spendBlock with transactions := [] } s).any fun t =>
          (checkStages mintEnv (fun s _ => s.cache.txCache.inputRunes.keys.all fun id =>
              totalAmount (s.cache.txCache.available id) < 2 ^ 128)
            (spendTx.stages mintEnv { spendBlock with transactions := [] }) t ∧
            (indexTransaction mintEnv { spendBlock with transactions := [] } t spendTx).isSome) ∧
          (Action.run mintEnv { spendBlock with transactions := [] } t
            (.beginTransaction spendTx)).any fun u =>
            ownedAmount "alice" (u.cache.txCache.available ⟨1, 0⟩) = 1 := by decide +kernel
  obtain ⟨s₀, hstart, h⟩ := (Option.any_eq_true _ _).mp hruns
  obtain ⟨s, hrun, h⟩ := (Option.any_eq_true _ _).mp h
  obtain ⟨t, hblock, h⟩ := (Option.any_eq_true _ _).mp h
  obtain ⟨⟨hcheck, hsome⟩, hany⟩ := of_decide_eq_true h
  obtain ⟨t', htx⟩ := Option.isSome_iff_exists.mp hsome
  obtain ⟨u, hbegin, howned⟩ := (Option.any_eq_true _ _).mp hany
  have hforward : ∀ e ∈ mintAndRestart, e.Forward := by simp [mintAndRestart, Event.Forward]
  have hfits :=
    EveryStage.of_check (P := Stage.SumsFit) (fun s stage hs => stage.sumsFit_of_keys fun id hid =>
      of_decide_eq_true (List.all_eq_true.mp hs id hid)) hcheck
  obtain ⟨u', es, hbegin', hes, hdebits⟩ := debited_eq_owned hforward hstart hrun hblock hfits htx
  cases Option.some.inj (hbegin.symm.trans hbegin')
  exact ⟨s₀, s, t, t', es, hstart, hrun, hblock, htx, hes,
    (hdebits _ _).trans (of_decide_eq_true howned)⟩

end Runehook
