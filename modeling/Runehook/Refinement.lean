import Runehook.Forks
import Runehook.LedgerSteps

/-! # The indexer refines the ledger of runes

On lawful blocks, whatever the capacities of the caches and whenever the process starts again, the
tables show the ledger of the blocks (`TablesShow`, `runEvents_refines`). Blocks that were rolled
back leave no trace if the process starts again before it indexes the next one. What the ledger
balances, the tables then do (`runEvents_supply`), and two indexers agree (`runEvents_agree`). -/

namespace Runehook

open Lib

variable {env : Environment} {network : Network} {L : RunesLedger} {block : Block}
  {tx : Transaction} {txs : List Transaction} {s t : Session}

/-! ## One transaction -/

/-- What the entries of a transaction credit to one of its outputs is what they bring to it. -/
theorem totalAmount_credits_eq_receivedAt {txId : String} {es : List DbLedgerEntry}
    (h : ∀ e ∈ es, e.txId = txId) (id : RuneId) (output : Nat) :
    totalAmount (credits (txId, output) id es) =
      receivedAt id (some output) (es.map DbLedgerEntry.row) := by
  rw [totalAmount_credits, receivedAt, tally_map]
  refine tally_congr fun e he => decide_eq_decide.mpr ?_
  rw [outputKey_eq_some_iff]
  constructor
  · rintro ⟨hop, hkey, hid⟩
    exact ⟨hop, hid, hkey.2⟩
  · rintro ⟨hop, hid, hout⟩
    exact ⟨hop, ⟨h e he, hout⟩, hid⟩

/-- A share is paid to its output, if that has an address. -/
theorem Transaction.payee_eq_some_iff {output : Option Nat} {o : Nat} :
    tx.payee env network output = some (tx.ledgerId, o) ↔
      output = some o ∧ (receiverIn env network tx.outputs (some o)).isSome := by
  unfold Transaction.payee
  constructor
  · intro h
    split at h
    · rename_i hreceiver
      obtain ⟨o', rfl, heq⟩ := Option.map_eq_some_iff.mp h
      cases heq
      exact ⟨rfl, hreceiver⟩
    · cases h
  · rintro ⟨rfl, hreceiver⟩
    rw [if_pos hreceiver]
    rfl

theorem Transaction.fst_of_payee {output : Option Nat} {k : String × Nat}
    (h : tx.payee env network output = some k) :
    k.1 = tx.ledgerId := by
  unfold Transaction.payee at h
  split at h
  · obtain ⟨o, -, rfl⟩ := Option.map_eq_some_iff.mp h
    rfl
  · cases h

/-- **What an output is paid** is what the receipts of its shares credit to it. -/
theorem pay_eq_credits {es : List DbLedgerEntry} (htx : ∀ e ∈ es, e.txId = tx.ledgerId)
    {id : RuneId} {shares : List (Option Nat × Nat)}
    (hreceives : receives ((ofRune id es).map DbLedgerEntry.row) =
      receiveRows (receiverIn env network tx.outputs) id shares) (k : String × Nat) :
    pay (tx.payee env network) shares k = totalAmount (credits k id es) := by
  obtain ⟨txId, o⟩ := k
  rw [pay_apply]
  -- another transaction pays nothing to the output
  by_cases hk : txId = tx.ledgerId
  · subst hk
    rw [totalAmount_credits_eq_receivedAt htx, ← receivedAt_ofRune, ← receivedAt_receives,
      hreceives, receivedAt_receiveRows, shareOf]
    -- the output belongs to the transaction: it is paid what its entries receive
    simp only [Transaction.payee_eq_some_iff]
    split
    · rename_i hreceiver
      exact tally_congr fun s _ => decide_eq_decide.mpr (and_iff_left hreceiver)
    · rename_i hnobody
      exact tally_eq_zero _ _ fun s _ => decide_eq_false fun h => hnobody h.2
  · have hnone : credits (txId, o) id es = [] := by
      refine credits_eq_nil ?_ id
      rintro ⟨e, he, -, hkey⟩
      exact hk (((outputKey_eq_some_iff e (txId, o)).mp hkey).1.symm.trans (htx e he))
    rw [hnone]
    exact tally_eq_zero _ _ fun s _ => decide_eq_false fun h => hk (Transaction.fst_of_payee h)

/-- **A lawful transaction is a step of the ledger.** -/
theorem Shows.transaction {c : Cursor} {earlier current : List DbLedgerEntry}
    (h : Shows network L txs s) (hat : OnRegularRun c s) (hbefore : Before txs tx earlier current s)
    (hbalanced : L.Balanced) (hlawful : L.Lawful env network block tx)
    (hfollows : Follows c (tx.stages env block)) (hrun : indexTransaction env block s tx = some t) :
    OnRegularRun ((tx.stages env block).foldl Cursor.next c) t ∧
      Shows network (L.transaction env network block tx) (txs ++ [tx]) t := by
  obtain ⟨hlast, hrecords⟩ := h.records hat hbefore hbalanced hlawful hfollows hrun
  refine ⟨hlast, ?_⟩
  obtain ⟨es, hentries, hall⟩ := hrecords.entries
  obtain ⟨es', rs, hwrites, hat, -, -⟩ := indexTransaction_writes hrun
  -- the entries of the transaction are the ones that the records speak of
  cases List.append_cancel_left (hentries.symm.trans hwrites.entries_eq)
  have htx : ∀ e ∈ es, e.txId = tx.ledgerId := fun e he => (hat e he).txId
  refine ⟨hwrites.network_eq.trans h.network, hrecords.runes, hrecords.placeholder, fun id => ?_,
    fun id k => ?_⟩
  · rw [hentries, counted_append, h.mints, (hall id).1]
    rfl
  -- the abstract ledger spends and pays in one sum
  · have hstep : (L.transaction env network block tx).holdings id k =
        spend tx.spent (L.holdings id) k +
          pay (tx.payee env network) (L.shares env network block tx id) k :=
      Finsupp.add_apply _ _ k
    rw [hstep, pay_eq_credits htx (hall id).2, spend_apply, h.holdings, hentries, credits_append,
      totalAmount_append, laterSpends_concat]
    by_cases hseen : k.1 ∈ txs.map Transaction.ledgerId
    · -- an output of an earlier transaction gets nothing and may be spent
      have hnone : credits k id es = [] := by
        refine credits_eq_nil ?_ id
        rintro ⟨e, he, -, hkey⟩
        exact hbefore.new ((htx e he).symm.trans ((outputKey_eq_some_iff e k).mp hkey).1 ▸ hseen)
      have hspent : k ∈ tx.spent ↔ k ∈ tx.spendsOf (txs.map Transaction.ledgerId) := by
        rw [Transaction.spent, List.mem_toFinset, Transaction.spendsOf, List.mem_filter]
        exact (and_iff_left (decide_eq_true hseen)).symm
      rw [hnone]
      simp only [List.mem_append, ← hspent]
      by_cases hnow : k ∈ tx.spent
      · rw [if_pos hnow, if_pos (Or.inr hnow)]
        rfl
      · rw [if_neg hnow]
        simp only [hnow, or_false]
        split <;> rfl
    · -- nothing else is known of an output that was not seen
      have hunspent : k ∉ laterSpends [] txs ++ tx.spendsOf (txs.map Transaction.ledgerId) := by
        rintro hk
        rcases List.mem_append.mp hk with hk | hk
        · exact hseen (List.nil_append (txs.map Transaction.ledgerId) ▸ mem_laterSpends hk)
        · exact hseen (of_decide_eq_true (List.mem_filter.mp hk).2)
      rw [hbefore.credits_eq_nil hseen, if_neg hunspent]
      simp

/-! ## Between the transactions -/

theorem Shows.of_same (h : Shows network L txs s) (hnetwork : t.cache.network = s.cache.network)
    (hrunes : t.runes = s.runes) (hentries : t.entries = s.entries) : Shows network L txs t where
  network := hnetwork.trans h.network
  runes id := by rw [Session.runeById_of_runes hrunes, h.runes]
  placeholder := h.placeholder
  mints id := by rw [hentries, h.mints]
  holdings id k := by rw [hentries, h.holdings]

/-- Blocks that open and close and a process that starts again leave what is shown. -/
theorem Shows.between {stage : Stage} (h : Shows network L txs s)
    (hcall : ∀ block a, stage ≠ .call block a) (hforward : ∀ height, stage ≠ .rollBack height)
    (hrest : stage.between = true → s.cache.dbCache = .new) (hrun : stage.run env s = some t) :
    Shows network L txs t := by
  cases stage with
  | openBlock block =>
    obtain ⟨number, rfl, -⟩ := resetMaxRuneNumber_eq_some hrun
    exact h.of_same rfl rfl rfl
  | call block a => exact absurd rfl (hcall block a)
  | closeBlock block =>
    have hwrites : (closing env block s).Writes [] [] t := .flush hrun
    have hentries : t.entries = (closing env block s).entries := entries_of_writes_nil hwrites
    exact h.of_same hwrites.network_eq (Session.flush_runes hrun).2 hentries
  | rollBack height => exact absurd rfl (hforward height)
  | restart cap hcap =>
    have hnew := hrest rfl
    obtain ⟨cache, hcache, rfl⟩ := restart_eq_some hrun
    have hempty := IndexCache.new_empty hcache
    refine h.of_same hempty.network ?_ ?_
    · rw [Session.runes_of_rest hnew]
      exact Session.runes_of_rest hempty.dbCache
    · rw [Session.entries, Session.entries, hnew, hempty.dbCache]

/-! ## Runs -/

/-- The transaction that begins with a stage. -/
def Stage.begins : Stage → Option (Block × Transaction)
  | .call block (.beginTransaction tx) => some (block, tx)
  | _ => none

theorem filterMap_begins_transaction (block : Block) (tx : Transaction) :
    (tx.stages env block).filterMap Stage.begins = [(block, tx)] := by
  have hcalls : ((tx.calls env).map (Stage.call block)).filterMap Stage.begins = [] := by
    refine List.filterMap_eq_nil_iff.mpr fun stage hstage => ?_
    obtain ⟨a, ha, rfl⟩ := List.mem_map.mp hstage
    cases a with
    | beginTransaction tx' => exact absurd rfl (Transaction.ne_beginTransaction ha tx')
    | _ => rfl
  exact congrArg (List.cons (block, tx)) hcalls

/-- The transactions that begin in a run are those of its blocks. -/
theorem filterMap_begins_stages (events : List Event) :
    (stages env events).filterMap Stage.begins = locatedTransactions (indexedBlocks events) := by
  have htransactions : ∀ (block : Block) (txs : List Transaction),
      (txs.flatMap (Transaction.stages env block)).filterMap Stage.begins =
        txs.map fun tx => (block, tx) := by
    intro block txs
    induction txs with
    | nil => rfl
    | cons tx txs ih =>
      rw [List.flatMap_cons, List.filterMap_append, filterMap_begins_transaction, ih]
      rfl
  induction events with
  | nil => rfl
  | cons e events ih =>
    have hcons : stages env (e :: events) = e.stages env ++ stages env events := List.flatMap_cons
    rw [hcons, List.filterMap_append, ih]
    cases e with
    | index block =>
      have hblock : (block.stages env).filterMap Stage.begins = block.transactions.map fun tx =>
          (block, tx) := by
        rw [Block.stages, List.filterMap_cons_none rfl, List.filterMap_append, htransactions]
        exact List.append_nil _
      rw [Event.stages, hblock]
      rfl
    | _ => rfl

/-- What is no call of the index cache is regular. -/
theorem Stage.regular_of_not_call {stage : Stage} (hcall : ∀ block a, stage ≠ .call block a) :
    stage.Regular s := by
  cases stage with
  | call block a => exact absurd rfl (hcall block a)
  | _ => exact ⟨fun _ h => (by cases h), fun _ h => (by cases h), fun _ h => (by cases h)⟩

/-- Where a block may open or the process start again, nothing waits to be written. -/
theorem dbCache_new_of_between {events : List Event} {done rest : List Stage} {stage : Stage}
    {s₀ : Session} (hsplit : stages env events = done ++ stage :: rest)
    (hrest : s₀.cache.dbCache = .new) (hrun : runStages env done s₀ = some t)
    (hbetween : stage.between = true) : t.cache.dbCache = .new := by
  have hbracketed := (stages_bracketed env events).1
  rw [hsplit] at hbracketed
  obtain ⟨hopen, -⟩ := (bracketed_append.mp hbracketed).2
  refine (stages_induction (P := fun _ _ => True) hsplit hrest trivial
    (fun _ _ _ _ _ _ _ _ _ _ => trivial) hrun).2 ?_
  rw [hbetween] at hopen
  simpa using hopen.symm

/-- Where nothing waits, all entries are in the table. -/
theorem Session.entries_of_rest (h : s.cache.dbCache = .new) : s.entries = s.db.ledger := by
  rw [Session.entries, h]
  exact List.append_nil s.db.ledger

/-- A fresh session has no entries. -/
theorem Session.entries_of_empty (hempty : s.cache.Empty network) (hdb : s.db = .migrated) :
    s.entries = [] := by
  rw [Session.entries_of_rest hempty.dbCache, hdb]
  rfl

/-- A fresh session shows the ledger before the first block. -/
theorem Shows.start {s : Session} (hempty : s.cache.Empty network) (hdb : s.db = .migrated) :
    Shows network .genesis [] s where
  network := hempty.network
  runes id := by
    have hrunes : s.runes = [uncommonGoods] := by
      rw [Session.runes_of_rest hempty.dbCache, hdb]
      rfl
    rw [Session.runeById, hrunes, List.find?_singleton]
    simp only [decide_eq_true_eq]
    split <;> rename_i hid <;> simp [RunesLedger.genesis, hid]
  placeholder := by
    have hne : uncommonGoods.id ≠ .placeholder := by decide
    show (if uncommonGoods.id = .placeholder then some uncommonGoods.face else none) = none
    exact if_neg hne
  mints id := by
    rw [Session.entries_of_empty hempty hdb]
    rfl
  holdings id k := by
    rw [Session.entries_of_empty hempty hdb]
    rfl

/-- **The indexer refines the ledger of runes.** After every run that indexes lawful blocks and
rolls none back, the session shows the ledger of the blocks. -/
theorem runEvents_shows {cap : Nat} {hcap : 0 < cap} {events : List Event} {s₀ s : Session}
    (hforward : ∀ e ∈ events, e.Forward)
    (hheights : (indexedBlocks events).Pairwise fun b b' => b.height < b'.height)
    (hlawful : RunesLedger.LawfulChain env network (indexedBlocks events))
    (hstart : freshSession network cap hcap = some s₀) (hrun : runEvents env events s₀ = some s) :
    OnRegularRun ((stages env events).foldl Cursor.next .start) s ∧
      Shows network (.ofBlocks env network (indexedBlocks events))
      (transactions (indexedBlocks events)) s := by
  obtain ⟨hempty, hdb⟩ := freshSession_eq_some hstart
  have hfollows := stages_follow env hforward ⟨hheights, hlawful.indexes⟩
  -- along the run, the session shows the ledger after the transactions that have begun
  have hall :=
    runEvents_txs (Q := fun _ _ => True) (P := fun done txs _ => done <+: stages env events → ∀ t,
      runStages env done s₀ = some t → OnRegularRun (done.foldl Cursor.next .start) t ∧
        Shows network (.after env network (done.filterMap Stage.begins)) txs t)
    ?_ ?_ hempty hdb hforward hlawful.ids hlawful.spends (fun _ _ _ _ _ _ => trivial) ?_ hrun
  · rw [RunesLedger.ofBlocks, ← filterMap_begins_stages]
    exact hall (List.prefix_refl _) s (runEvents_eq_runStages env events s₀ ▸ hrun)
  · intro done stage txs es hcall hP hbegins t' hdone
    obtain ⟨t, ht, hstage⟩ := foldlM_append_eq_some.mp hdone
    have hstep : stage.run env t = some t' := foldlM_singleton_eq_some.mp hstage
    obtain ⟨rest, hsplit⟩ := hbegins
    rw [List.append_assoc] at hsplit
    have hforward :=
      ne_rollBack_of_mem_stages hforward (hsplit ▸ List.mem_append_right _ List.mem_cons_self)
    have hrest := dbCache_new_of_between hsplit.symm hempty.dbCache ht
    rw [← hsplit, follows_append] at hfollows
    have hnone : stage.begins = none := by
      cases stage with
      | call block a => exact absurd rfl (hcall block a)
      | _ => rfl
    obtain ⟨hat, hshows⟩ := hP ⟨_, hsplit⟩ t ht
    rw [List.foldl_append, List.filterMap_append, List.filterMap_cons_none hnone,
      List.filterMap_nil, List.append_nil]
    exact ⟨hat.next hfollows.2.1 hforward hrest (Stage.regular_of_not_call hcall) hstep,
      hshows.between hcall hforward hrest hstep⟩
  · intro done txs block tx earlier current t t' hbefore ht hP _ hstep hbegins u hu
    have hsame : u = t' := by
      rw [indexTransaction_eq_runStages] at hstep
      obtain ⟨t₀, ht₀, hu⟩ := foldlM_append_eq_some.mp hu
      cases Option.some.inj (ht₀.symm.trans ht)
      exact Option.some.inj (hu.symm.trans hstep)
    subst hsame
    obtain ⟨rest, hsplit⟩ := hbegins
    have hlocated : locatedTransactions (indexedBlocks events) =
        done.filterMap Stage.begins ++ (block, tx) :: rest.filterMap Stage.begins := by
      rw [← filterMap_begins_stages, ← hsplit, List.filterMap_append, List.filterMap_append,
        filterMap_begins_transaction, List.append_assoc]
      rfl
    rw [← hsplit, List.append_assoc, follows_append, follows_append] at hfollows
    obtain ⟨hat, hshows⟩ := hP ⟨_, (List.append_assoc _ _ _).symm.trans hsplit⟩ t ht
    rw [List.foldl_append, List.filterMap_append, filterMap_begins_transaction,
      RunesLedger.after_concat]
    exact hshows.transaction hat hbefore (RunesLedger.balanced_after _)
      (hlawful.transactions _ block tx _ hlocated) hfollows.2.1
      hstep
  · intro _ t ht
    cases Option.some.inj ht
    exact ⟨.start hstart, .start hempty hdb⟩

/-! ## The tables -/

/-- Where nothing waits, a flush does nothing. -/
theorem Session.flush_of_rest (h : s.cache.dbCache = .new) : s.flush = some s := by
  refine Session.flush_eq_some.mpr ⟨s.db, ?_, by rw [← h]⟩
  rw [h]
  refine DbCache.flush_eq_some.mpr ⟨s.db.runes, rfl, ?_⟩
  show s.db = { s.db with ledger := s.db.ledger ++ [] }
  rw [List.append_nil]

/-- **Tables show a ledger**: the table of runes has its runes, `supply_changes` has its mints, and
the credits of each output that was not spent are what it holds. Spent outputs hold nothing. -/
structure TablesShow (L : RunesLedger) (spent : List (String × Nat)) (db : Db) : Prop where
  /-- The runes are those of the ledger. -/
  runes : ∀ id, (pgGetRuneById id db).map DbRune.face = L.runes id
  /-- The mints are those of the ledger. -/
  mints : ∀ id, (pgGetRuneTotalMints id db).getD 0 = L.mints id
  /-- An output holds what it is credited with until it is spent. -/
  unspentOutput : ∀ id k, k ∉ spent → totalAmount (credits k id db.ledger) = L.holdings id k
  /-- Then it holds nothing. -/
  spentOutput : ∀ id, ∀ k ∈ spent, L.holdings id k = 0

theorem TablesShow.of_tables {spent : List (String × Nat)} {db db' : Db} (h : TablesShow L spent db)
    (htables : db'.tables = db.tables) : TablesShow L spent db' := by
  obtain ⟨hrunes, hledger, hsupply, -⟩ := BlockRows.mk.inj htables
  refine ⟨fun id => ?_, fun id => ?_, fun id k hk => ?_, h.spentOutput⟩
  · rw [← h.runes, pgGetRuneById, pgGetRuneById, hrunes]
  · rw [← h.mints, pgGetRuneTotalMints, pgGetRuneTotalMints, Db.latestSupply,
      Db.latestSupply, hsupply]
  · rw [← h.unspentOutput id k hk, hledger]

/-- Where nothing waits, the tables show what the session shows. -/
theorem Shows.tablesShow {c : Cursor} (h : Shows network L txs s) (hat : OnRegularRun c s)
    (hrest : s.cache.dbCache = .new) : TablesShow L (laterSpends [] txs) s.db := by
  obtain ⟨runes, accepted, htracked⟩ := hat.tracked
  refine ⟨fun id => ?_, fun id => ?_, fun id k hk => ?_, fun id k hk => ?_⟩
  · rw [← h.runes, Session.runeById, Session.runes_of_rest hrest]
    rfl
  · rw [htracked.recorded.tables.table (Session.flush_of_rest hrest), h.mints]
  · rw [h.holdings, if_neg hk, Session.entries_of_rest hrest]
  · rw [h.holdings, if_pos hk]

/-- What the outputs hold together is what entries credit to outputs that were not spent. -/
theorem TablesShow.degree_holdings {spent : List (String × Nat)} {db : Db}
    (h : TablesShow L spent db) (hnodup : spent.Nodup) (hcredits : CreditsOk db.ledger)
    (id : RuneId) :
    (L.holdings id).degree = unspent id spent db.ledger := by
  set keys :=
    (db.ledger.filterMap DbLedgerEntry.outputKey).dedup.filter fun k => k ∉ spent with hkeys
  have hkey : ∀ k, k ∈ keys ↔ k ∉ spent ∧ ∃ e ∈ db.ledger, e.outputKey = some k := by
    intro k
    rw [hkeys, List.mem_filter, List.mem_dedup, List.mem_filterMap, decide_eq_true_eq, and_comm]
  have hdistinct : keys.Nodup := (List.nodup_dedup _).filter _
  have hall : (spent ++ keys).Nodup :=
    List.nodup_append.mpr ⟨hnodup, hdistinct,
      fun k hk k' hk' heq => ((hkey k').mp hk').1 (heq ▸ hk)⟩
  -- every credit is to a spent output or to one of the others
  have hnone : unspent id (spent ++ keys) db.ledger = 0 := by
    refine tally_eq_zero _ _ fun e he => decide_eq_false ?_
    rintro ⟨hop, -, hunspent⟩
    obtain ⟨o, ho⟩ := Option.isSome_iff_exists.mp (hcredits e he hop).output
    have hk : e.outputKey = some (e.txId, o) := (outputKey_eq_some_iff e (e.txId, o)).mpr ⟨rfl, ho⟩
    rw [hk, Option.all_some, decide_eq_true_eq, List.mem_append, not_or] at hunspent
    exact hunspent.2 ((hkey _).mpr ⟨hunspent.1, e, he, hk⟩)
  rw [unspent_spend_all id db.ledger keys spent hall, hnone,
    Nat.zero_add, ← List.sum_toFinset _ hdistinct, Finsupp.degree_apply]
  refine (Finset.sum_subset (fun k hk => ?_) fun k _ hk => Finsupp.notMem_support_iff.mp hk).trans
    (Finset.sum_congr rfl fun k hk => ?_)
  · have hheld := Finsupp.mem_support_iff.mp hk
    have hunspent : k ∉ spent := fun hspent => hheld (h.spentOutput id k hspent)
    refine List.mem_toFinset.mpr ((hkey k).mpr ⟨hunspent, ?_⟩)
    by_contra hnot
    rw [← h.unspentOutput id k hunspent, credits_eq_nil fun ⟨e, he, _, hk⟩ =>
      hnot ⟨e, he, hk⟩] at hheld
    exact hheld rfl
  · exact (h.unspentOutput id k ((hkey k).mp (List.mem_toFinset.mp hk)).1).symm

section

variable {cap : Nat} {hcap : 0 < cap} {events : List Event} {chain : List Block} {rolledBack : Bool}
    {s₀ : Session}

/-- After a run in which the process starts again whenever it has rolled blocks back, the tables are
those of a session that shows the ledger of the blocks that survive. -/
theorem runEvents_tablesShow (hchain : survivingChain events = some chain)
    (hgenesis : ∀ e ∈ events, e ≠ .rollBack 840000) (hsettles : settles events = some rolledBack)
    (hlawful : RunesLedger.LawfulChain env network chain)
    (hstart : freshSession network cap hcap = some s₀) (hrun : runEvents env events s₀ = some s) :
    TablesShow (.ofBlocks env network chain) (laterSpends [] (transactions chain)) s.db ∧
    CreditsOk s.db.ledger := by
  obtain ⟨hpast, hblocks, t, ht, htables, -⟩ :=
    runEvents_straightened hchain hgenesis hsettles hstart hrun
  obtain ⟨hempty, hdb⟩ := freshSession_eq_some hstart
  have hforward : ∀ e ∈ (events.foldl Event.history []).reverse, e.Forward := fun e he =>
    hpast e (List.mem_reverse.mp he)
  have hrest := runEvents_dbCache hempty.dbCache ht
  -- the credits are those of the straightened run
  have hcredits : CreditsOk t.entries := by
    refine runEvents_creditsOk ?_ ht
    rw [Session.entries_of_empty hempty hdb]
    exact fun e he => absurd he List.not_mem_nil
  subst hblocks
  obtain ⟨hat, hshows⟩ :=
    runEvents_shows hforward (survivingChain_pairwise hchain) hlawful hstart ht
  rw [Session.entries_of_rest hrest, ← (BlockRows.mk.inj htables).2.1] at hcredits
  exact ⟨(hshows.tablesShow hat hrest).of_tables htables, hcredits⟩

/-- **The indexer refines the ledger of runes.** On a lawful chain, after every run in which the
process starts again whenever it has rolled blocks back, the tables show the ledger of the blocks
that survive, whatever the capacities of the caches. -/
theorem runEvents_refines (hchain : survivingChain events = some chain)
    (hgenesis : ∀ e ∈ events, e ≠ .rollBack 840000) (hsettles : settles events = some rolledBack)
    (hlawful : RunesLedger.LawfulChain env network chain)
    (hstart : freshSession network cap hcap = some s₀) (hrun : runEvents env events s₀ = some s) :
    TablesShow (.ofBlocks env network chain) (laterSpends [] (transactions chain)) s.db :=
  (runEvents_tablesShow hchain hgenesis hsettles hlawful hstart hrun).1

/-- **The supply of a rune**: what the ledger table credits to unspent outputs and what was burned
are the premine and the amount of each mint that `supply_changes` counts. What was burned is the
abstract ledger's own account of it, and no column: the table counts as burned only what burn
entries say. -/
theorem runEvents_supply (hchain : survivingChain events = some chain)
    (hgenesis : ∀ e ∈ events, e ≠ .rollBack 840000) (hsettles : settles events = some rolledBack)
    (hlawful : RunesLedger.LawfulChain env network chain)
    (hstart : freshSession network cap hcap = some s₀) (hrun : runEvents env events s₀ = some s)
    {id : RuneId} {rune : DbRune} (hrune : pgGetRuneById id s.db = some rune) :
    unspent id (laterSpends [] (transactions chain)) s.db.ledger +
        (RunesLedger.ofBlocks env network chain).burned id =
      rune.premine + (pgGetRuneTotalMints id s.db).getD 0 * rune.termsAmount.getD 0 := by
  obtain ⟨hshown, hcredits⟩ := runEvents_tablesShow hchain hgenesis hsettles hlawful hstart hrun
  have hbalanced : (RunesLedger.ofBlocks env network chain).Balanced := RunesLedger.balanced_after _
  have hterms : (RunesLedger.ofBlocks env network chain).IssuedByTerms :=
    RunesLedger.issuedByTerms_after _
  -- issued is premine plus mints, and what is issued is held or burned
  have hissued := hterms.issued id
  have hface := hshown.runes id
  rw [hrune, Option.map_some] at hface
  rw [← hface, Option.elim_some, DbRune.face_premine,
    DbRune.face_termsAmount, ← hshown.mints] at hissued
  rw [← hshown.degree_holdings (laterSpends_nodup hlawful.spends) hcredits, hbalanced id, hissued]

/-- **Two indexers agree** on a lawful chain, whatever forks they have seen, the capacities of their
caches, when they started again and the orders in which they iterate: on the runes, on how often
each was minted, and on what each unspent output holds. -/
theorem runEvents_agree {env' : Environment} {cap' : Nat} {hcap' : 0 < cap'} {events' : List Event}
    {rolledBack' : Bool} {t₀ t : Session} (hsame : env.SameProtocol env')
    (hchain : survivingChain events = some chain) (hchain' : survivingChain events' = some chain)
    (hgenesis : ∀ e ∈ events ++ events', e ≠ .rollBack 840000)
    (hsettles : settles events = some rolledBack) (hsettles' : settles events' = some rolledBack')
    (hlawful : RunesLedger.LawfulChain env network chain)
    (hstart : freshSession network cap hcap = some s₀)
    (hstart' : freshSession network cap' hcap' = some t₀) (hrun : runEvents env events s₀ = some s)
    (hrun' : runEvents env' events' t₀ = some t) (id : RuneId) :
    (pgGetRuneById id s.db).map DbRune.face = (pgGetRuneById id t.db).map DbRune.face ∧
      (pgGetRuneTotalMints id s.db).getD 0 = (pgGetRuneTotalMints id t.db).getD 0 ∧
      ∀ k, k ∉ laterSpends [] (transactions chain) →
        totalAmount (credits k id s.db.ledger) = totalAmount (credits k id t.db.ledger) := by
  obtain ⟨hgenesis, hgenesis'⟩ := List.forall_mem_append.mp hgenesis
  obtain ⟨hshown, -⟩ := runEvents_tablesShow hchain hgenesis hsettles hlawful hstart hrun
  obtain ⟨hshown', -⟩ :=
    runEvents_tablesShow hchain' hgenesis' hsettles' (hlawful.of_sameProtocol hsame) hstart'
      hrun'
  rw [← RunesLedger.ofBlocks_eq_of_sameProtocol hsame] at hshown'
  refine ⟨?_, ?_, fun k hk => ?_⟩
  · rw [hshown.runes, hshown'.runes]
  · rw [hshown.mints, hshown'.mints]
  · rw [hshown.unspentOutput id k hk, hshown'.unspentOutput id k hk]

end

/-! ## Chains that mint the first rune -/

namespace RunesLedger

variable {network : Network} {L : RunesLedger} {block : Block} {tx : Transaction}

/-- What a transaction can ask for in `mintEnv`. -/
theorem decipher_mintEnv (outputs : List ScriptBuf) : mintEnv.decipher outputs = none ∨
    mintEnv.decipher outputs = some (.runestone ⟨[], none, some ⟨1, 0⟩, none⟩) := by
  show (outputs.find? _).bind _ = none ∨ (outputs.find? _).bind _ = _
  cases outputs.find? fun script => script.head? = some 0x6a with
  | none => exact .inl rfl
  | some script => exact .inr rfl

theorem etchedFace_mintEnv (outputs : List ScriptBuf) (location : TransactionLocation) :
    (mintEnv.decipher outputs).bind (Artifact.etchedFace location) = none := by
  rcases decipher_mintEnv outputs with h | h <;> rw [h] <;> rfl

theorem etched_mintEnv : L.etched mintEnv network block tx = none := by
  rw [etched, etchedFace_mintEnv]
  rfl

/-- A mint of the only rune there is adds one unit. -/
theorem added_mintEnv_le (hrunes : L.runes = genesis.runes) (id : RuneId) :
    L.added mintEnv network block tx id ≤ 1 := by
  rw [added, addition, etched_mintEnv, Option.elim_none, Nat.zero_add]
  cases hmint : L.minted mintEnv network block tx with
  | none => exact Nat.zero_le 1
  | some mint =>
    obtain ⟨rune, hrune, hamount⟩ := exists_rune_of_minted hmint
    rw [hrunes, genesis] at hrune
    dsimp only at hrune
    split at hrune
    · cases Option.some.inj hrune
      have hone : 1 = mint.2 := Option.some.inj hamount
      rw [Option.elim_some, ← hone]
      split <;> omega
    · cases hrune

/-- **No more is issued than there are transactions.** -/
theorem issued_mintEnv_le (txs : List (Block × Transaction)) :
    (after mintEnv network txs).runes = genesis.runes ∧
      ∀ id, (after mintEnv network txs).issued id ≤ txs.length := by
  induction txs using List.reverseRecOn with
  | nil => exact ⟨rfl, fun id => Nat.le_refl 0⟩
  | append_singleton txs p ih =>
    obtain ⟨hrunes, hissued⟩ := ih
    rw [after_concat, List.length_append, List.length_singleton]
    constructor
    · funext id
      simp only [transaction, etched_mintEnv, Option.map_none, reduceCtorEq, if_false, hrunes]
    · intro id
      exact Nat.add_le_add (hissued id) (added_mintEnv_le hrunes id)

/-- **A chain is lawful in `mintEnv`** if no id comes twice and no output is spent twice. -/
theorem lawfulChain_mintEnv {blocks : List Block}
    (hindexes : ∀ b ∈ blocks, (b.transactions.map Transaction.index).Nodup)
    (hids : (txIds blocks).Nodup) (hspends : (spends blocks).Nodup)
    (hfew : (locatedTransactions blocks).length < 2 ^ 128) :
    LawfulChain mintEnv network blocks := by
  refine ⟨hindexes, hids, hspends, fun done block tx rest hsplit => ?_⟩
  refine ⟨fun row hrow => ?_, fun id hid => ?_, fun c hc => ?_, fun r hr e he => ?_, fun id => ?_⟩
  · rw [etchedFace_mintEnv] at hrow
    cases hrow
  · rw [etchedFace_mintEnv]
    rcases decipher_mintEnv tx.outputs with h | h <;> rw [h] at hid <;> cases hid
    exact ⟨by decide, Option.some_ne_none _ ∘ Eq.symm⟩
  · rcases decipher_mintEnv tx.outputs with h | h <;> rw [h] at hc <;> cases hc
  · rcases decipher_mintEnv tx.outputs with h | h <;> rw [h] at hr <;> cases hr
    cases he
  · have hissued : (after mintEnv network (done ++ [(block, tx)])).issued id ≤ _ :=
      (issued_mintEnv_le _).2 id
    rw [after_concat] at hissued
    have hlength := congrArg List.length hsplit
    rw [List.length_append, List.length_cons] at hlength
    rw [List.length_append, List.length_singleton] at hissued
    omega

end RunesLedger

/-! ## A transaction that is mined again -/

/-- The mint and the transaction that sends on what was minted are lawful. -/
theorem lawfulChain_remint : RunesLedger.LawfulChain mintEnv .bitcoin [remintBlock, spendBlock] :=
  RunesLedger.lawfulChain_mintEnv (by decide) (by decide) (by decide) (by decide)

theorem remintAfterRestart_runs : ∃ s₀ s, freshSession .bitcoin 2 Nat.two_pos = some s₀ ∧
    runEvents mintEnv remintAfterRestart s₀ = some s ∧
    totalAmount (credits ("spend", 0) ⟨1, 0⟩ s.db.ledger) = 1 := by
  have hruns : (freshSession .bitcoin 2 Nat.two_pos).any fun s₀ =>
      (runEvents mintEnv remintAfterRestart s₀).any fun s =>
        totalAmount (credits ("spend", 0) ⟨1, 0⟩ s.db.ledger) = 1 := by
    decide +kernel
  obtain ⟨s₀, hstart, h⟩ := (Option.any_eq_true _ _).mp hruns
  obtain ⟨s, hrun, h⟩ := (Option.any_eq_true _ _).mp h
  exact ⟨s₀, s, hstart, hrun, of_decide_eq_true h⟩

/-- Bob holds one unit, although the transaction that minted it was indexed twice. -/
theorem runEvents_refines_remintAfterRestart :
    ∃ s₀ s, freshSession .bitcoin 2 Nat.two_pos = some s₀ ∧
    runEvents mintEnv remintAfterRestart s₀ = some s ∧
    TablesShow (.ofBlocks mintEnv .bitcoin [remintBlock, spendBlock]) [("mint", 0)] s.db ∧
    (RunesLedger.ofBlocks mintEnv .bitcoin [remintBlock, spendBlock]).holdings ⟨1, 0⟩
    ("spend", 0) = 1 := by
  obtain ⟨s₀, s, hstart, hrun, hcredits⟩ := remintAfterRestart_runs
  have hchain : survivingChain remintAfterRestart = some [remintBlock, spendBlock] := rfl
  have hsettles : settles remintAfterRestart = some false := rfl
  have htables : TablesShow _ [("mint", 0)] s.db := runEvents_refines hchain
    (by simp [remintAfterRestart]) hsettles lawfulChain_remint hstart hrun
  exact ⟨s₀, s, hstart, hrun, htables,
    (htables.unspentOutput ⟨1, 0⟩ ("spend", 0) (by decide)).symm.trans hcredits⟩

/-- A block in which what was minted goes to a script without address, and alice mints again. -/
def burnBlock : Block := ⟨"0xb2", 840002, 1700000000, [burnTx, mintAgainTx]⟩

/-- After a fork, one unit is unspent and one was burned. -/
theorem runEvents_supply_burnBlock : ∃ s₀ s, freshSession .bitcoin 2 Nat.two_pos = some s₀ ∧
    runEvents mintEnv [.index mintBlock, .rollBack 840001, .restart 2 Nat.two_pos,
      .index remintBlock, .index burnBlock] s₀ = some s ∧
    unspent ⟨1, 0⟩ [("mint", 0)] s.db.ledger = 1 ∧
    (RunesLedger.ofBlocks mintEnv .bitcoin [remintBlock, burnBlock]).burned ⟨1, 0⟩ = 1 := by
  have hruns : (freshSession .bitcoin 2 Nat.two_pos).any fun s₀ =>
      (runEvents mintEnv [.index mintBlock, .rollBack 840001, .restart 2 Nat.two_pos,
        .index remintBlock, .index burnBlock] s₀).any fun s =>
        unspent ⟨1, 0⟩ [("mint", 0)] s.db.ledger = 1 ∧
        (pgGetRuneById ⟨1, 0⟩ s.db).any (fun rune => rune.premine = 0 ∧ rune.termsAmount = some 1) ∧
        pgGetRuneTotalMints ⟨1, 0⟩ s.db = some 2 := by
    decide +kernel
  obtain ⟨s₀, hstart, h⟩ := (Option.any_eq_true _ _).mp hruns
  obtain ⟨s, hrun, h⟩ := (Option.any_eq_true _ _).mp h
  obtain ⟨hunspent, hany, hmints⟩ := of_decide_eq_true h
  obtain ⟨rune, hrune, h⟩ := (Option.any_eq_true _ _).mp hany
  obtain ⟨hpremine, hterms⟩ := of_decide_eq_true h
  have hlawful : RunesLedger.LawfulChain mintEnv .bitcoin [remintBlock, burnBlock] :=
    RunesLedger.lawfulChain_mintEnv (by decide) (by decide) (by decide) (by decide)
  have hsettles :
      settles [.index mintBlock, .rollBack 840001, .restart 2 Nat.two_pos, .index remintBlock,
        .index burnBlock] = some false := rfl
  have hsupply : unspent ⟨1, 0⟩ [("mint", 0)] s.db.ledger + _ = _ :=
    runEvents_supply rfl (by simp) hsettles hlawful hstart hrun hrune
  rw [hunspent, hpremine, hterms, hmints, Option.getD_some, Option.getD_some] at hsupply
  exact ⟨s₀, s, hstart, hrun, hunspent, by omega⟩

/-- An indexer that sees no fork, has smaller caches and iterates the other way round. -/
theorem runEvents_agree_remintAfterRestart :
    ∃ s₀ s t₀ t, freshSession .bitcoin 2 Nat.two_pos = some s₀ ∧
    runEvents mintEnv remintAfterRestart s₀ = some s ∧
    freshSession .bitcoin 1 Nat.one_pos = some t₀ ∧
    runEvents backwardMintEnv [.index remintBlock, .index spendBlock] t₀ = some t ∧
    totalAmount (credits ("spend", 0) ⟨1, 0⟩ s.db.ledger) =
      totalAmount (credits ("spend", 0) ⟨1, 0⟩ t.db.ledger) := by
  obtain ⟨s₀, s, hstart, hrun, -⟩ := remintAfterRestart_runs
  have hruns : ((freshSession .bitcoin 1 Nat.one_pos).bind
      (runEvents backwardMintEnv [.index remintBlock, .index spendBlock])).isSome := by
    decide +kernel
  obtain ⟨t, ht⟩ := Option.isSome_iff_exists.mp hruns
  obtain ⟨t₀, hstart', hrun'⟩ := Option.bind_eq_some_iff.mp ht
  have hchain : survivingChain remintAfterRestart = some [remintBlock, spendBlock] := rfl
  have hchain' : survivingChain [.index remintBlock, .index spendBlock] =
      some [remintBlock, spendBlock] := rfl
  have hsettles : settles remintAfterRestart = some false := rfl
  have hsettles' : settles [.index remintBlock, .index spendBlock] = some false := rfl
  have hsame : mintEnv.SameProtocol backwardMintEnv := ⟨rfl, rfl, rfl⟩
  obtain ⟨-, -, houtputs⟩ :=
    runEvents_agree hsame hchain hchain' (by simp [remintAfterRestart]) hsettles hsettles'
      lawfulChain_remint hstart hstart' hrun hrun' ⟨1, 0⟩
  exact ⟨s₀, s, t₀, t, hstart, hrun, hstart', hrun', houtputs ("spend", 0) (by decide)⟩

end Runehook
