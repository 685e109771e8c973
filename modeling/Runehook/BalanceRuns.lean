import Runehook.AddressBalances

/-! # The balances of addresses over runs

Every transaction keeps what an address received equal to what it sent and what its outputs hold, as
long as nothing that is owned is burned (`BalancesHeld`, `indexTransaction_balancesHeld`). The
latest row of `balance_changes` (`Db.balanceOf`) then has what the outputs hold:
`balanceOf_eq_holding`, for every run whose stages burn nothing that is owned. -/

namespace Runehook

open Lib

/-- What an address received is what it sent and what its outputs hold. -/
def BalancesHeld (txs : List Transaction) (es : List DbLedgerEntry) : Prop :=
  ∀ id a, moved .receive (id, a) es =
    moved .send (id, a) es + holding (fun address => address = some a) id (laterSpends [] txs) es

/-- The calls of a run burn nothing that an address owns. -/
def Stage.BurnsUnowned (env : Environment) (s : Session) : Stage → Prop
  | .call _ a => s.cache.txCache.BurnsUnowned env a
  | _ => True

/-- A transaction begins with what its spent outputs hold, which is owned. -/
theorem Before.ownedFirst {env : Environment} {block : Block} {txs : List Transaction}
    {tx : Transaction} {earlier current : List DbLedgerEntry} {s t : Session}
    (h : Before txs tx earlier current s)
    (hrun : Action.run env block s (.beginTransaction tx) = some t) (id : RuneId) :
    OwnedFirst (t.cache.txCache.available id) := by
  obtain ⟨parts, hparts, hperm⟩ := available_begin id h.layered h.separate hrun
  rw [hparts]
  refine .of_pos fun b hb => ?_
  obtain ⟨part, hpart, hb⟩ := List.mem_flatten.mp hb
  obtain ⟨k, -, hk⟩ := exists_of_forall₂ hperm hpart
  obtain ⟨e, he, rfl⟩ := List.mem_map.mp (hk.mem_iff.mp hb)
  obtain ⟨hmem, hcredit⟩ := List.mem_filter.mp he
  exact (h.creditsOk e hmem (of_decide_eq_true hcredit).1).pos

/-- The last call for a transaction leaves nothing to allocate. -/
theorem Transaction.available_of_calls {env : Environment} {block : Block} {tx : Transaction}
    {s s' : Session} (hrun : (tx.calls env).foldlM (Action.run env block) s = some s')
    (id : RuneId) :
    s'.cache.txCache.available id = [] := by
  rw [Transaction.calls] at hrun
  obtain ⟨t, -, hlast⟩ := foldlM_append_eq_some.mp hrun
  have hend : Action.run env block t .endTransaction = some s' := foldlM_singleton_eq_some.mp hlast
  obtain ⟨es, rs, -, hstep⟩ := Action.run_step (fun _ heq => by cases heq) hend
  exact hstep.available_endTransaction id

/-- **A transaction keeps the balances of addresses.** -/
theorem indexTransaction_balancesHeld {env : Environment} {block : Block} {txs : List Transaction}
    {tx : Transaction} {earlier current : List DbLedgerEntry} {s s' : Session}
    (h : Before txs tx earlier current s) (hheld : BalancesHeld txs s.entries)
    (hsafe : EveryStage env (Stage.BurnsUnowned env) (tx.stages env block) s)
    (hrun : indexTransaction env block s tx = some s') : BalancesHeld (txs ++ [tx]) s'.entries := by
  obtain ⟨t, hbegin, hcalls⟩ := indexTransaction_eq_some.mp hrun
  have hlocation : t.cache.txCache.location = tx.location block s.cache.network := by
    obtain ⟨-, rfl⟩ := run_beginTransaction hbegin
    rfl
  have hentries : t.entries = s.entries := by
    obtain ⟨-, rfl⟩ := run_beginTransaction hbegin
    rfl
  -- after every call, what is still in the transaction has neither been sent nor credited
  have hind := calls_induction_every
    (P := fun done u => u.cache.txCache.location = tx.location block s.cache.network ∧
      (∀ id, OwnedFirst (u.cache.txCache.available id)) ∧
      ∀ id a, moved .receive (id, a) u.entries = moved .send (id, a) u.entries +
        holding (fun address => address = some a) id (laterSpends [] (txs ++ [tx])) u.entries +
          ownedAmount a (u.cache.txCache.available id)) hsafe hbegin
    ⟨hlocation, h.ownedFirst hbegin, ?_⟩ ?_ hcalls
  · obtain ⟨-, -, hfinal⟩ := hind
    intro id a
    rw [hfinal id a, Transaction.available_of_calls hcalls, ownedAmount_nil, Nat.add_zero]
  · intro id a
    have hspend :=
      holding_begin (q := fun address => address = some a) id h.layered h.separate h.fromTxs h.nodup
        hbegin
    rw [owned_address] at hspend
    rw [hentries, hheld id a, hspend, Nat.add_assoc]
  · rintro done act u u' es rs hburns ⟨hu, howned, hbalance⟩ - hwrites hstep
    refine ⟨hstep.location_eq.trans hu, hstep.ownedFirst howned, fun id a => ?_⟩
    have hsent := hstep.sent_eq hburns howned id a
    have hcredit : holding (fun address => address = some a) id (laterSpends [] (txs ++ [tx])) es =
        moved .receive (id, a) es := by
      rw [moved_receive_eq_holding]
      refine holding_call h.new fun e he => ?_
      rw [(hstep.at_location e he).txId, hu]
      rfl
    rw [hwrites.entries_eq, moved_append, moved_append, holding_append, hcredit, hbalance id a]
    omega

/-- Blocks at increasing heights survive a run without rollbacks. -/
theorem survivingChain_of_forward {events : List Event} (hforward : ∀ e ∈ events, e.Forward)
    (hheights : (indexedBlocks events).Pairwise fun b b' => b.height < b'.height) :
    survivingChain events = some (indexedBlocks events) := by
  induction events using List.reverseRecOn with
  | nil => rfl
  | append_singleton events e ih =>
    rw [indexedBlocks_append] at hheights
    have hprefix :=
      ih (fun e he => hforward e (List.mem_append_left _ he)) (List.pairwise_append.mp hheights).1
    rw [survivingChain, foldlM_append_eq_some]
    refine ⟨_, hprefix, foldlM_singleton_eq_some.mpr ?_⟩
    rw [indexedBlocks_append]
    cases e with
    | index block =>
      have habove : ∀ b ∈ indexedBlocks events, b.height < block.height := fun b hb =>
        (List.pairwise_append.mp hheights).2.2 b hb block List.mem_cons_self
      rw [Event.onChain, if_pos habove]
      rfl
    | rollBack height => exact absurd (hforward _ (List.mem_append_right _ List.mem_cons_self)) id
    | restart cap hcap =>
      rw [show indexedBlocks [Event.restart cap hcap] = [] from rfl, List.append_nil]
      rfl

/-- The balance of a rune that `balance_changes` has for an address: that of the row with the
greatest block height. -/
def Db.balanceOf (db : Db) (owner : RuneId × Address) : Int :=
  ((latest BalanceRow.owner BalanceRow.blockHeight owner db.balanceChanges).map
    BalanceRow.balance).getD 0

theorem RestSound.balanceOf_eq {blocks : List Block} {s : Session} (h : RestSound blocks s)
    (owner : RuneId × Address) : s.db.balanceOf owner = netBalance owner s.db.ledger := by
  obtain ⟨k, hk⟩ : ∃ k, ∀ e ∈ s.db.ledger, e.blockHeight ≤ k :=
    ⟨tally (fun _ => true) DbLedgerEntry.blockHeight s.db.ledger, fun e he => le_tally he rfl⟩
  have hreading := h.balance.reading owner (k + 1)
  rw [below_of_lt fun e he => Nat.lt_succ_of_le (hk e he), reading,
    latestBefore_eq_latest] at hreading
  · exact hreading
  · exact fun r hr => Nat.lt_succ_of_le (h.balance.height_le hk r hr)

/-- **The balances of addresses match the unspent outputs** after a run without rollbacks on a
chain, whose calls burn nothing that an address owns and whose sums stay in the range of a
`u128`. -/
theorem balanceOf_eq_holding {env : Environment} {network : Network} {cap : Nat} {hcap : 0 < cap}
    {events : List Event} {s₀ s : Session} (hforward : ∀ e ∈ events, e.Forward)
    (hchain : Chain (indexedBlocks events)) (hids : (txIds (indexedBlocks events)).Nodup)
    (hspends : (spends (indexedBlocks events)).Nodup)
    (hstart : freshSession network cap hcap = some s₀) (hrun : runEvents env events s₀ = some s)
    (hoverflow : NoOverflow env events s₀)
    (hsafe : EveryStage env (Stage.BurnsUnowned env) (stages env events) s₀) (id : RuneId)
    (a : Address) :
    s.db.balanceOf (id, a) = holding (fun address => address = some a) id
      (laterSpends [] (transactions (indexedBlocks events))) s.db.ledger := by
  obtain ⟨hempty, hdb⟩ := freshSession_eq_some hstart
  -- over the transactions: sends and receives keep up with what is held
  have hheld := runEvents_txs (P := fun _ => BalancesHeld) (fun _ _ _ _ _ hP => hP)
    (fun l txs block tx earlier current t t' hbefore _ hP hstages hstep =>
      indexTransaction_balancesHeld hbefore hP hstages hstep)
    hempty hdb hforward hids hspends hsafe (fun id a => rfl) hrun
  have hrest :=
    runEvents_restSound hempty hdb (survivingChain_of_forward hforward hchain.heights_pairwise)
      hoverflow hrun
  -- nothing waits, so the entries are those of the table
  have hentries : s.entries = s.db.ledger := by
    rw [Session.entries, hrest.dbCache]
    exact List.append_nil _
  rw [hentries] at hheld
  rw [hrest.balanceOf_eq, netBalance, hheld id a]
  omega

/-- A test for runs without cenotaphs and edicts: the pointer of every transaction has an
address. -/
def pointsToAddress (env : Environment) (s : Session) : Stage → Bool
  | .call _ .cenotaph | .call _ (.edict _) => false
  | .call _ .endTransaction =>
    (receiverAddress env s.cache.txCache.location s.cache.txCache.eligibleOutputs
      s.cache.txCache.outputPointer).isSome &&
      s.cache.txCache.inputRunes.keys.all fun id =>
      totalAmount (s.cache.txCache.available id) < 2 ^ 128
  | _ => true

theorem burnsUnowned_of_pointsToAddress {env : Environment} (s : Session) (stage : Stage)
    (h : pointsToAddress env s stage = true) : stage.BurnsUnowned env s := by
  cases stage with
  | call block a =>
    cases a with
    | cenotaph | edict => cases h
    | endTransaction =>
      obtain ⟨hsome, hsums⟩ := (Bool.and_eq_true _ _).mp h
      refine fun id => ⟨?_, fun hnone => ?_⟩
      · by_cases hid : id ∈ s.cache.txCache.inputRunes.keys
        · exact of_decide_eq_true (List.all_eq_true.mp hsums id hid)
        · rw [TransactionCache.available_of_not_mem hid]
          exact Nat.two_pow_pos 128
      · rw [hnone] at hsome
        cases hsome
    | _ => trivial
  | _ => trivial

/-- `mintBlock`, a restart and `spendBlock`. -/
def mintAndSpend : List Event := mintAndRestart ++ [.index spendBlock]

theorem mintAndSpend_noOverflow {s₀ : Session}
    (hstart : freshSession .bitcoin 2 (by decide) = some s₀) :
    NoOverflow mintEnv mintAndSpend s₀ := by
  have hruns : (freshSession .bitcoin 2 (by decide)).all
      (checkRun (Event.run mintEnv) (Event.valuesFit mintEnv) mintAndSpend) := by
    decide +kernel
  rw [hstart, Option.all_some] at hruns
  exact .of_check hruns

/-- What alice and bob have after `mintAndSpend`. -/
theorem balanceOf_eq_holding_mintAndSpend : ∃ s₀ s, freshSession .bitcoin 2 (by decide) = some s₀ ∧
    runEvents mintEnv mintAndSpend s₀ = some s ∧ s.db.balanceOf (⟨1, 0⟩, "bob") = 1 ∧
      s.db.balanceOf (⟨1, 0⟩, "bob") = holding (fun address => address = some "bob") ⟨1, 0⟩
        (laterSpends [] [mintTx, spendTx]) s.db.ledger := by
  have hruns : (freshSession .bitcoin 2 (by decide)).any fun s₀ =>
      ((runEvents mintEnv mintAndSpend s₀).any fun s => s.db.balanceOf (⟨1, 0⟩, "bob") = 1) ∧
        checkStages mintEnv (pointsToAddress mintEnv) (stages mintEnv mintAndSpend) s₀ := by
        decide +kernel
  obtain ⟨s₀, hstart, h⟩ := (Option.any_eq_true _ _).mp hruns
  obtain ⟨hany, hcheck⟩ := of_decide_eq_true h
  obtain ⟨s, hrun, hone⟩ := (Option.any_eq_true _ _).mp hany
  have hforward : ∀ e ∈ mintAndSpend, e.Forward := by
    simp [mintAndSpend, mintAndRestart, Event.Forward]
  have hchain : Chain (indexedBlocks mintAndSpend) := ⟨by decide, by decide⟩
  exact ⟨s₀, s, hstart, hrun, of_decide_eq_true hone,
    balanceOf_eq_holding hforward hchain (by decide) (by decide)
    hstart hrun (mintAndSpend_noOverflow hstart)
      (.of_check burnsUnowned_of_pointsToAddress hcheck) ⟨1, 0⟩ "bob"⟩

/-- A transaction without runestone that spends what `mintTx` minted, to a script without
address. -/
def burnTx : Transaction := ⟨"0xburn", 1, [⟨"0xmint", 0⟩], [[3]]⟩

/-- **A burn leaves the balance of its sender**: alice spends what was minted to her, to an output
without address, and keeps her balance. -/
theorem exists_balanceOf_ne_holding : ∃ s₀ s, freshSession .bitcoin 2 (by decide) = some s₀ ∧
    runEvents mintEnv [.index mintBlock, .index { spendBlock with transactions := [burnTx] }] s₀ =
      some s ∧ s.db.balanceOf (⟨1, 0⟩, "alice") = 1 ∧
        holding (fun address => address = some "alice") ⟨1, 0⟩ (laterSpends [] [mintTx, burnTx])
        s.db.ledger = 0 := by
  have hruns : (freshSession .bitcoin 2 (by decide)).any fun s₀ =>
      (runEvents mintEnv [.index mintBlock, .index { spendBlock with transactions := [burnTx] }]
        s₀).any fun s =>
        s.db.balanceOf (⟨1, 0⟩, "alice") = 1 ∧
          holding (fun address => address = some "alice") ⟨1, 0⟩
          (laterSpends [] [mintTx, burnTx]) s.db.ledger = 0 := by decide +kernel
  obtain ⟨s₀, hstart, h⟩ := (Option.any_eq_true _ _).mp hruns
  obtain ⟨s, hrun, h⟩ := (Option.any_eq_true _ _).mp h
  obtain ⟨hbalance, hholding⟩ := of_decide_eq_true h
  exact ⟨s₀, s, hstart, hrun, hbalance, hholding⟩

end Runehook
