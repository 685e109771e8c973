import Runehook.Lib.Numbered
import Runehook.OutputAmounts
import Runehook.Reorgs

/-! # Event indexes

`new_sequential_ledger_entry` numbers the entries of a transaction: the counter of its cache is
threaded through every call (`Step.numbered`), by all the helpers that emit entries. The place of an
entry, its block, transaction and event index (`DbLedgerEntry.place`), is therefore a key of the
ledger, and the API sorts by it (`IsActivity`). `runEvents_eventsNumbered` is the invariant of runs,
and `indexTransaction_eventIndexes` has both results. -/

namespace Runehook

open Lib

/-! ## The entries of a call -/

namespace TransactionCache

theorem senderEntries_numbered (location : TransactionLocation) (id : RuneId) (output : Option Nat)
    (receiver : Option Address) (operation : DbLedgerOperation)
    (senders : List (Nat × Address)) (n : Nat) :
    Consecutive DbLedgerEntry.eventIndex n
      (senderEntries location id output receiver operation senders n).1
      (senderEntries location id output receiver operation senders n).2 := by
  induction senders generalizing n with
  | nil => exact .nil n
  | cons s senders ih => exact .cons rfl (ih (n + 1))

theorem moveRuneBalanceToOutput_numbered (env : Environment) (location : TransactionLocation)
    (output : Option Nat) (id : RuneId) (balances : List InputRuneBalance)
    (outputs : HashMap Nat ScriptBuf) (amount n : Nat) :
    Consecutive DbLedgerEntry.eventIndex n
      (moveRuneBalanceToOutput env location output id balances outputs amount n).entries
      (moveRuneBalanceToOutput env location output id balances
        outputs amount n).nextEventIndex := by
  rw [moveRuneBalanceToOutput]
  dsimp only
  split
  · exact .append (.singleton rfl) (senderEntries_numbered _ _ _ _ _ _ _)
  · exact senderEntries_numbered _ _ _ _ _ _ _

theorem applyMoves_numbered (env : Environment) (location : TransactionLocation) (id : RuneId)
    (outputs : HashMap Nat ScriptBuf) (moves : List (Option Nat × Nat))
    (balances : List InputRuneBalance) (n : Nat) :
    Consecutive DbLedgerEntry.eventIndex n
      (applyMoves env location id outputs moves balances n).entries
      (applyMoves env location id outputs moves balances n).nextEventIndex := by
  induction moves generalizing balances n with
  | nil => exact .nil n
  | cons move moves ih => exact .append (moveRuneBalanceToOutput_numbered _ _ _ _ _ _ _ _) (ih _ _)

theorem burnEntries_numbered (location : TransactionLocation) (id : RuneId)
    (balances : List InputRuneBalance) (n : Nat) :
    Consecutive DbLedgerEntry.eventIndex n (burnEntries location id balances n).1
      (burnEntries location id balances n).2 := by
  induction balances generalizing n with
  | nil => exact .nil n
  | cons bal rest ih => exact .cons rfl (ih (n + 1))

/-- What numbers the entries of a rune numbers those of many. -/
theorem overRunes_numbered {f : RuneId → Nat → List DbLedgerEntry × Nat}
    (hf : ∀ id n, Consecutive DbLedgerEntry.eventIndex n (f id n).1 (f id n).2)
    (ids : List RuneId) (n : Nat) :
    Consecutive DbLedgerEntry.eventIndex n (overRunes f ids n).1 (overRunes f ids n).2 := by
  induction ids generalizing n with
  | nil => exact .nil n
  | cons id ids ih => exact (hf id n).append (ih _)

variable {env : Environment} {tx tx' : TransactionCache}

theorem applyEdict_numbered (env : Environment) (tx : TransactionCache) (e : Edict) :
    Consecutive DbLedgerEntry.eventIndex tx.nextEventIndex (tx.applyEdict env e).2
      (tx.applyEdict env e).1.nextEventIndex := by
  rw [applyEdict]
  split
  · exact .nil _
  · split
    · exact .nil _
    · exact applyMoves_numbered _ _ _ _ _ _ _

/-- Whether there is a premine or not, an etching is one event. -/
theorem nextEventIndex_withEtching (tx : TransactionCache) (rune : DbRune) (premine : Option Nat) :
    (tx.withEtching rune premine).nextEventIndex = tx.nextEventIndex + 1 := by
  cases premine <;> rfl

/-- **The entries of a call are numbered from the counter on**, and the counter is left behind the
last. -/
theorem Step.numbered {act : Action} {es : List DbLedgerEntry} {rs : List DbRune}
    (h : tx.Step env act es rs tx') :
    Consecutive DbLedgerEntry.eventIndex tx.nextEventIndex es tx'.nextEventIndex := by
  cases h with
  | runestone r => exact .nil _
  | cenotaph => exact overRunes_numbered (fun id n => burnEntries_numbered _ _ _ _) _ _
  | etching e number =>
    rw [nextEventIndex_withEtching]
    exact .singleton rfl
  | cenotaphEtching rune number =>
    rw [nextEventIndex_withEtching]
    exact .singleton rfl
  | mint => exact .singleton rfl
  | noMint => exact .nil _
  | cenotaphMint => exact .singleton rfl
  | noCenotaphMint => exact .nil _
  | edict e => exact applyEdict_numbered env tx e
  | noEdict => exact .nil _
  | endTransaction =>
    exact overRunes_numbered (fun id n => moveRuneBalanceToOutput_numbered _ _ _ _ _ _ _ _) _ _

end TransactionCache

/-! ## Transactions -/

variable {env : Environment}

/-- **A transaction numbers its entries from zero on.** -/
theorem indexTransaction_numbered {block : Block} {tx : Transaction} {s s' : Session}
    (h : indexTransaction env block s tx = some s') :
    ∃ es m, s'.entries = s.entries ++ es ∧ Consecutive DbLedgerEntry.eventIndex 0 es m ∧
      ∀ e ∈ es, e.At (tx.location block s.cache.network) := by
  obtain ⟨t, hbegin, hcalls⟩ := indexTransaction_eq_some.mp h
  have hbefore : t.entries = s.entries ++ [] :=
    (Session.Writes.quiet (beginTransaction_quiet hbegin)).entries_eq
  obtain ⟨-, ht⟩ := run_beginTransaction hbegin
  -- a transaction starts its count at zero
  have hzero : t.cache.txCache.nextEventIndex = 0 := by
    rw [ht]
    rfl
  -- over the calls: each goes on where the one before it stopped
  obtain ⟨es, hentries, hnumbered⟩ := calls_induction
    (P := fun _ u => ∃ es, u.entries = s.entries ++ es ∧
      Consecutive DbLedgerEntry.eventIndex 0 es u.cache.txCache.nextEventIndex)
    ⟨[], hbefore, hzero.symm ▸ .nil 0⟩ (by
      rintro done a u u' es' rs - ⟨es, hentries, hnumbered⟩ - hwrites hstep
      refine ⟨es ++ es', ?_, hnumbered.append hstep.numbered⟩
      rw [hwrites.entries_eq, hentries, List.append_assoc]) hcalls
  refine ⟨es, _, hentries, hnumbered, ?_⟩
  obtain ⟨es', rs, hwrites, hat, -⟩ := indexTransaction_writes h
  rwa [List.append_cancel_left (hentries.symm.trans hwrites.entries_eq)]

/-! ## Blocks -/

/-- The entries of the transaction at an index of the block at a height. -/
def ofTransaction (height index : Nat) (es : List DbLedgerEntry) : List DbLedgerEntry :=
  es.filter fun e => e.blockHeight = height ∧ e.txIndex = index

@[simp] theorem ofTransaction_append (height index : Nat) (es es' : List DbLedgerEntry) :
    ofTransaction height index (es ++ es') = ofTransaction height index es ++
      ofTransaction height index es' :=
  List.filter_append es es'

theorem ofTransaction_eq_self {height index : Nat} {es : List DbLedgerEntry}
    (h : ∀ e ∈ es, e.blockHeight = height ∧ e.txIndex = index) :
    ofTransaction height index es = es :=
  List.filter_eq_self.mpr fun e he => decide_eq_true (h e he)

theorem ofTransaction_eq_nil {height index : Nat} {es : List DbLedgerEntry}
    (h : ∀ e ∈ es, ¬ (e.blockHeight = height ∧ e.txIndex = index)) :
    ofTransaction height index es = [] :=
  List.filter_eq_nil_iff.mpr fun e he heq => h e he (of_decide_eq_true heq)

/-- The entries of every transaction are numbered from zero on. -/
def EventsNumbered (es : List DbLedgerEntry) : Prop :=
  ∀ height index, ∃ m, Consecutive DbLedgerEntry.eventIndex 0 (ofTransaction height index es) m

/-- Entries of other transactions go behind. -/
theorem EventsNumbered.append {es es' : List DbLedgerEntry} (h : EventsNumbered es)
    (h' : EventsNumbered es')
    (hother : ∀ e ∈ es, ∀ e' ∈ es', ¬ (e.blockHeight = e'.blockHeight ∧ e.txIndex = e'.txIndex)) :
    EventsNumbered (es ++ es') := by
  intro height index
  rw [ofTransaction_append]
  by_cases hnone : ofTransaction height index es' = []
  · rw [hnone, List.append_nil]
    exact h height index
  · -- an entry of the transaction is among the second ones, so that none is among the first
    obtain ⟨e', he'⟩ := List.exists_mem_of_ne_nil _ hnone
    obtain ⟨hmem', hat'⟩ := List.mem_filter.mp he'
    have hat' := of_decide_eq_true hat'
    rw [ofTransaction_eq_nil fun e he hat => hother e he e' hmem'
      ⟨hat.1.trans hat'.1.symm, hat.2.trans hat'.2.symm⟩, List.nil_append]
    exact h' height index

/-- The entries of one transaction. -/
theorem EventsNumbered.of_transaction {height index m : Nat} {es : List DbLedgerEntry}
    (h : Consecutive DbLedgerEntry.eventIndex 0 es m)
    (hat : ∀ e ∈ es, e.blockHeight = height ∧ e.txIndex = index) :
    EventsNumbered es := by
  intro height' index'
  by_cases heq : height = height' ∧ index = index'
  · obtain ⟨rfl, rfl⟩ := heq
    rw [ofTransaction_eq_self hat]
    exact ⟨m, h⟩
  · rw [ofTransaction_eq_nil fun e he hat' => heq
      ⟨(hat e he).1.symm.trans hat'.1, (hat e he).2.symm.trans hat'.2⟩]
    exact ⟨0, .nil 0⟩

/-- The entries of a block of distinct transactions. -/
theorem indexTransactions_numbered {block : Block} {s s' : Session}
    (hindexes : (block.transactions.map Transaction.index).Nodup)
    (hrun : indexTransactions env block s = some s') :
    ∃ es, s'.entries = s.entries ++ es ∧ (∀ e ∈ es, e.blockHeight = block.height) ∧
    EventsNumbered es := by
  obtain ⟨t, hreset, htxs⟩ := indexTransactions_eq_some.mp hrun
  obtain ⟨number, rfl, -⟩ := resetMaxRuneNumber_eq_some hreset
  have hind := foldlM_induction_split (P := fun done u => ∃ es, u.entries = s.entries ++ es ∧
    (∀ e ∈ es, e.blockHeight = block.height ∧ ∃ tx ∈ done, e.txIndex = tx.index) ∧
      EventsNumbered es) ?_ ?_ htxs
  · obtain ⟨es, hentries, hat, hnumbered⟩ := hind
    exact ⟨es, hentries, fun e he => (hat e he).1, hnumbered⟩
  · exact ⟨[], (List.append_nil _).symm, fun e he => absurd he List.not_mem_nil,
      fun _ _ => ⟨0, .nil 0⟩⟩
  · rintro done tx rest u u' hsplit ⟨es, hentries, hat, hnumbered⟩ hstep
    obtain ⟨es', m, hentries', hnumbered', hat'⟩ := indexTransaction_numbered hstep
    have hat' : ∀ e ∈ es', e.blockHeight = block.height ∧ e.txIndex = tx.index :=
      fun e he => ⟨(hat' e he).blockHeight, (hat' e he).txIndex⟩
    refine ⟨es ++ es', by rw [hentries', hentries, List.append_assoc], ?_, ?_⟩
    · intro e he
      rcases List.mem_append.mp he with he | he
      · obtain ⟨hheight, tx', htx', hindex⟩ := hat e he
        exact ⟨hheight, tx', List.mem_append_left _ htx', hindex⟩
      · exact ⟨(hat' e he).1, tx, List.mem_append_right _ List.mem_cons_self, (hat' e he).2⟩
    · refine hnumbered.append (.of_transaction hnumbered' hat') ?_
      rintro e he e' he' ⟨-, heq⟩
      -- the index of the transaction is not that of one before it
      obtain ⟨-, tx', htx', hindex⟩ := hat e he
      rw [hsplit, List.map_append, List.map_cons, List.nodup_append] at hindexes
      exact hindexes.2.2 _ (List.mem_map_of_mem htx') _ List.mem_cons_self
        (hindex.symm.trans (heq.trans (hat' e' he').2))

/-! ## Runs -/

/-- Between two blocks, the rows of the ledger are rows of surviving blocks, numbered transaction by
transaction. -/
structure LedgerNumbered (blocks : List Block) (s : Session) : Prop where
  /-- Nothing waits in memory. -/
  dbCache : s.cache.dbCache = .new
  /-- Each id has one row in the table of runes. -/
  ids : (s.db.runes.map DbRune.id).Nodup
  /-- The rows of the ledger are rows of surviving blocks. -/
  heights : ∀ e ∈ s.db.ledger, ∃ b ∈ blocks, e.blockHeight = b.height
  /-- They are numbered transaction by transaction. -/
  numbered : EventsNumbered s.db.ledger

/-- A block above all others goes behind them in the ledger. -/
theorem LedgerNumbered.indexBlock {blocks : List Block} {block : Block} {s s' : Session}
    (h : LedgerNumbered blocks s) (habove : ∀ b ∈ blocks, b.height < block.height)
    (hindexes : (block.transactions.map Transaction.index).Nodup)
    (hrun : indexBlock env block s = some s') :
    LedgerNumbered (blocks ++ [block]) s' := by
  obtain ⟨t, htxs, hflush⟩ := indexBlock_eq_some.mp hrun
  obtain ⟨es, hentries, hat, hnumbered⟩ := indexTransactions_numbered hindexes htxs
  obtain ⟨_, _, hwrites, -⟩ := indexTransactions_writes htxs
  have hids : (s'.db.runes.map DbRune.id).Nodup :=
    (Session.Writes.flush hflush).ids (hwrites.ids h.ids)
  obtain ⟨db, hdb, rfl⟩ := Session.flush_eq_some.mp hflush
  -- the flush moves the entries of the block to the ledger
  have hledger : db.ledger = s.db.ledger ++ es := by
    rw [DbCache.flush_ledger hdb]
    calc (closing env block t).db.ledger ++ (closing env block t).cache.dbCache.ledgerEntries =
      t.entries := rfl
      _ = s.entries ++ es := hentries
      _ = s.db.ledger ++ es := by
        rw [Session.entries, h.dbCache]; exact congrArg (· ++ es) (List.append_nil _)
  refine ⟨rfl, hids, ?_, ?_⟩
  · intro e he
    rcases List.mem_append.mp (hledger ▸ he) with he | he
    · obtain ⟨b, hb, hheight⟩ := h.heights e he
      exact ⟨b, List.mem_append_left _ hb, hheight⟩
    · exact ⟨block, List.mem_append_right _ List.mem_cons_self, hat e he⟩
  · show EventsNumbered db.ledger
    rw [hledger]
    refine h.numbered.append hnumbered ?_
    -- an entry of the block has another height than any before it
    rintro e he e' he' ⟨hheight, -⟩
    obtain ⟨b, hb, heq⟩ := h.heights e he
    have hlt := habove b hb
    have hat' := hat e' he'
    omega

/-- Rolling back the highest block takes all its rows out of the ledger, and no others. -/
theorem LedgerNumbered.rollBack {blocks : List Block} {height : Nat} {s : Session}
    (h : LedgerNumbered blocks s) (hlast : blocks.getLast?.map Block.height = some height) :
    LedgerNumbered blocks.dropLast (rollBackBlock height s) := by
  obtain ⟨last, hget, rfl⟩ := Option.map_eq_some_iff.mp hlast
  have hblocks : blocks.dropLast ++ [last] = blocks := List.dropLast_append_getLast? last hget
  refine ⟨h.dbCache, h.ids.sublist (List.filter_sublist.map _), ?_, ?_⟩
  · intro e he
    obtain ⟨hmem, hne⟩ := List.mem_filter.mp he
    obtain ⟨b, hb, hheight⟩ := h.heights e hmem
    rw [← hblocks, List.mem_append, List.mem_singleton] at hb
    rcases hb with hb | rfl
    · exact ⟨b, hb, hheight⟩
    · exact absurd hheight (of_decide_eq_true hne)
  · intro height index
    -- the rollback drops exactly the transactions of that height
    have hfilter : ofTransaction height index (rollBackBlock last.height s).db.ledger =
        if height = last.height then [] else ofTransaction height index s.db.ledger := by
      show (s.db.ledger.filter _).filter _ = _
      rw [List.filter_filter]
      split
      · next heq =>
        refine List.filter_eq_nil_iff.mpr fun e _ hat => ?_
        simp only [Bool.and_eq_true, decide_eq_true_eq] at hat
        exact hat.2 (hat.1.1.trans heq)
      · next hne =>
        refine List.filter_congr fun e _ => ?_
        by_cases hat : e.blockHeight = height
        · simp [hat, hne]
        · simp [hat]
    rw [hfilter]
    split
    · exact ⟨0, .nil 0⟩
    · exact h.numbered height index

/-- **The ledger of a run** is numbered transaction by transaction. -/
theorem runEvents_eventsNumbered {network : Network} {cap : Nat} {hcap : 0 < cap}
    {events : List Event} {blocks : List Block} {s₀ s : Session}
    (hchain : survivingChain events = some blocks)
    (hindexes : ∀ block ∈ indexedBlocks events, (block.transactions.map Transaction.index).Nodup)
    (hstart : freshSession network cap hcap = some s₀) (hrun : runEvents env events s₀ = some s) :
    LedgerNumbered blocks s := by
  obtain ⟨hempty, hdb⟩ := freshSession_eq_some hstart
  refine runEvents_induction ?_ ?_ hchain hrun
  · refine ⟨hempty.dbCache, ?_, ?_, ?_⟩
    · rw [hdb]
      decide
    · rw [hdb]
      exact fun e he => absurd he List.not_mem_nil
    -- the table starts empty, so there is nothing to number
    · rw [hdb]
      exact fun _ _ => ⟨0, .nil 0⟩
  · intro done e rest bs bs' t t' hsplit _ _ hon hstep h
    cases e with
    | index block =>
      rw [Event.onChain] at hon
      split at hon
      · next habove =>
        cases hon
        have hmem : block ∈ indexedBlocks events := by
          rw [hsplit]
          exact List.mem_filterMap.mpr ⟨_, List.mem_append_right _ List.mem_cons_self, rfl⟩
        -- the block is above those that were indexed
        exact h.indexBlock habove (hindexes block hmem) hstep
      · cases hon
    | rollBack height =>
      rw [Event.onChain] at hon
      split at hon
      · next hlast =>
        cases hon
        cases hstep
        -- a rollback drops all entries of the last block
        exact h.rollBack hlast
      · cases hon
    | restart cap hcap =>
      cases hon
      obtain ⟨cache, hcache, rfl⟩ := restart_eq_some hstep
      exact ⟨(IndexCache.new_empty hcache).dbCache, h.ids, h.heights, h.numbered⟩

/-! ## The key of the ledger -/

/-- Where an entry is: its block, its transaction and its event index. -/
def DbLedgerEntry.place (e : DbLedgerEntry) : Nat × Nat × Nat :=
  (e.blockHeight, e.txIndex, e.eventIndex)

/-- The order of `ORDER BY block_height, tx_index, event_index`. -/
def DbLedgerEntry.Before (e e' : DbLedgerEntry) : Prop :=
  e.blockHeight < e'.blockHeight ∨ (e.blockHeight = e'.blockHeight ∧
    (e.txIndex < e'.txIndex ∨ (e.txIndex = e'.txIndex ∧ e.eventIndex < e'.eventIndex)))

instance (e e' : DbLedgerEntry) : Decidable (e.Before e') := inferInstanceAs (Decidable (_ ∨ _))

/-- Numbered entries have places of their own. -/
theorem EventsNumbered.places_nodup {es : List DbLedgerEntry} (h : EventsNumbered es) :
    (es.map DbLedgerEntry.place).Nodup := by
  refine List.pairwise_map.mpr (List.pairwise_iff_forall_sublist.mpr fun {e e'} hsub hplace => ?_)
  obtain ⟨hheight, hindex⟩ := Prod.mk.inj hplace
  obtain ⟨hindex, hevent⟩ := Prod.mk.inj hindex
  -- the two are in the sublist of one transaction
  obtain ⟨m, hnumbered⟩ := h e.blockHeight e.txIndex
  have hpair :
      [e, e'].filter (fun x => x.blockHeight = e.blockHeight ∧ x.txIndex = e.txIndex) =
        [e, e'] := by
    simp [← hheight, ← hindex]
  have hlt := hnumbered.pairwise.sublist (hpair ▸ hsub.filter _)
  have hlt := List.pairwise_pair.mp hlt
  omega

/-! ## The query -/

/-- The rows of the `FROM` clause of `getActivity` that a filter leaves: a row of the ledger and its
rune. -/
def activityRows (filter : DbLedgerEntry → DbRune → Bool) (db : Db) :
    List (DbLedgerEntry × DbRune) :=
  db.ledger.flatMap fun l => (db.runes.filter fun r => r.id = l.runeId ∧ filter l r).map
    fun r => (l, r)

/-- **What `getActivity` may return**, before a page of it is cut out: the rows, sorted downwards by
place. -/
structure IsActivity (filter : DbLedgerEntry → DbRune → Bool) (db : Db)
    (rows : List (DbLedgerEntry × DbRune)) : Prop where
  /-- They are the rows that the filter lets through. -/
  perm : rows.Perm (activityRows filter db)
  /-- No row comes behind one of an earlier place. -/
  sorted : rows.Pairwise fun row row' => ¬ row.1.Before row'.1

/-- A filter leaves a row of the ledger. -/
def joins (filter : DbLedgerEntry → DbRune → Bool) (db : Db) (l : DbLedgerEntry) : Bool :=
  db.runes.any fun r => r.id = l.runeId ∧ filter l r

/-- The id is the primary key of the runes: a row of the ledger is in the join once, or not at
all. -/
theorem map_filter_rune {runes : List DbRune} (hids : (runes.map DbRune.id).Nodup)
    (p : DbRune → Bool) (l : DbLedgerEntry) :
    (runes.filter fun r => r.id = l.runeId ∧ p r).map (fun _ => l) =
      if runes.any fun r => r.id = l.runeId ∧ p r then [l] else [] := by
  induction runes with
  | nil => rfl
  | cons r runes ih =>
    rw [List.map_cons, List.nodup_cons] at hids
    rw [List.any_cons]
    by_cases hr : r.id = l.runeId ∧ p r
    -- at most one rune has the id of the entry
    · have hrest : runes.filter (fun r => r.id = l.runeId ∧ p r) = [] := by
        refine List.filter_eq_nil_iff.mpr fun r' hr' hjoins => ?_
        have hid : r'.id = r.id := (of_decide_eq_true hjoins).1.trans hr.1.symm
        exact hids.1 (hid ▸ List.mem_map_of_mem hr')
      rw [List.filter_cons_of_pos (by simpa using hr), hrest, decide_eq_true hr,
        Bool.true_or, if_pos rfl]
      rfl
    · rw [List.filter_cons_of_neg (by simpa using hr), ih hids.2, decide_eq_false hr, Bool.false_or]

theorem activityRows_fst {filter : DbLedgerEntry → DbRune → Bool} {db : Db}
    (hids : (db.runes.map DbRune.id).Nodup) :
    (activityRows filter db).map Prod.fst = db.ledger.filter (joins filter db) := by
  unfold activityRows joins
  induction db.ledger with
  | nil => rfl
  | cons l ledger ih =>
    rw [List.flatMap_cons, List.map_append, ih, List.map_map]
    have hone := map_filter_rune hids (filter l) l
    rw [show (Prod.fst ∘ fun r : DbRune => (l, r)) = fun _ => l from rfl, hone, List.filter_cons]
    split <;> rfl

/-- **Sorting by place reproduces the order of emission** of a transaction, backwards. -/
theorem IsActivity.ofTransaction_eq {filter : DbLedgerEntry → DbRune → Bool} {db : Db}
    {rows : List (DbLedgerEntry × DbRune)} (h : IsActivity filter db rows)
    (hids : (db.runes.map DbRune.id).Nodup) (hnumbered : EventsNumbered db.ledger)
    (height index : Nat) :
    ofTransaction height index (rows.map Prod.fst) =
      ((ofTransaction height index db.ledger).filter (joins filter db)).reverse := by
  obtain ⟨m, hn⟩ := hnumbered height index
  refine eq_reverse_of_sorted (hn.pairwise.filter _) ?_ ?_
  · -- within a transaction, places are event indexes
    have hsorted : (rows.map Prod.fst).Pairwise fun e e' => ¬ e.Before e' :=
      List.pairwise_map.mpr h.sorted
    refine List.pairwise_filter.mpr (hsorted.imp fun {e e'} hbefore hat hat' hlt => hbefore ?_)
    have hat := of_decide_eq_true hat
    have hat' := of_decide_eq_true hat'
    exact Or.inr ⟨hat.1.trans hat'.1.symm, Or.inr ⟨hat.2.trans hat'.2.symm, hlt⟩⟩
  · have hperm := (h.perm.map Prod.fst).filter fun e => e.blockHeight = height ∧ e.txIndex = index
    rw [activityRows_fst hids, List.filter_filter] at hperm
    simpa only [ofTransaction, List.filter_filter, Bool.and_comm] using hperm

/-- **Event indexes number the entries of a transaction without gaps**, whatever its artifact asks
for, in the order in which they reach the ledger. In every run that leaves a chain of blocks with
distinct transactions, the place of an entry is a key of the ledger, and what the API sorts by it
has the entries of each transaction in the order of emission, the last one first. -/
theorem indexTransaction_eventIndexes (env : Environment) :
    (∀ block tx s s', indexTransaction env block s tx = some s' → ∃ es,
      s'.entries = s.entries ++ es ∧ es.map DbLedgerEntry.eventIndex = List.range es.length ∧
      ∀ e ∈ es, e.blockHeight = block.height ∧ e.txIndex = tx.index) ∧
    ∀ network cap hcap events blocks s₀ s, survivingChain events = some blocks →
      (∀ block ∈ indexedBlocks events, (block.transactions.map Transaction.index).Nodup) →
      freshSession network cap hcap = some s₀ → runEvents env events s₀ = some s →
        (s.db.ledger.map DbLedgerEntry.place).Nodup ∧
        ∀ filter rows, IsActivity filter s.db rows → ∀ height index,
          ofTransaction height index (rows.map Prod.fst) =
            ((ofTransaction height index s.db.ledger).filter (joins filter s.db)).reverse := by
  constructor
  · intro block tx s s' hrun
    obtain ⟨es, m, hentries, hnumbered, hat⟩ := indexTransaction_numbered hrun
    refine ⟨es, hentries, ?_, fun e he => ⟨(hat e he).blockHeight, (hat e he).txIndex⟩⟩
    rw [hnumbered.numbers, List.range_eq_range']
  · intro network cap hcap events blocks s₀ s hchain hindexes hstart hrun
    have h := runEvents_eventsNumbered hchain hindexes hstart hrun
    exact ⟨h.numbered.places_nodup, fun filter rows hrows =>
      hrows.ofTransaction_eq h.ids h.numbered⟩

/-- The two entries of `mintTx`, in a process that starts anew, and in the ledger when its block is
indexed. -/
theorem indexTransaction_eventIndexes_mintTx :
    ∃ s₀ s s' es rows, freshSession .bitcoin 2 (by decide) = some s₀ ∧
    indexTransaction mintEnv mintBlock s₀ mintTx = some s' ∧ s'.entries = s₀.entries ++ es ∧
    es.length = 2 ∧
    es.map DbLedgerEntry.eventIndex = List.range es.length ∧
    runEvents mintEnv mintAndRestart s₀ = some s ∧
    (s.db.ledger.map DbLedgerEntry.place).Nodup ∧ IsActivity (fun _ _ => true) s.db rows ∧
    ofTransaction 840001 1 (rows.map Prod.fst) =
      ((ofTransaction 840001 1 s.db.ledger).filter (joins (fun _ _ => true) s.db)).reverse := by
  have hruns : (freshSession .bitcoin 2 (by decide)).any fun s₀ =>
      ((indexTransaction mintEnv mintBlock s₀ mintTx).any fun s' =>
        s'.entries.length = s₀.entries.length + 2) ∧
      (runEvents mintEnv mintAndRestart s₀).any fun s =>
        (activityRows (fun _ _ => true) s.db).reverse.Pairwise
        fun row row' => ¬ row.1.Before row'.1 := by
    decide +kernel
  obtain ⟨s₀, hstart, h⟩ := (Option.any_eq_true _ _).mp hruns
  obtain ⟨htx, hevents⟩ := of_decide_eq_true h
  obtain ⟨s', htx, hlength⟩ := (Option.any_eq_true _ _).mp htx
  obtain ⟨s, hrun, hsorted⟩ := (Option.any_eq_true _ _).mp hevents
  have hlength := of_decide_eq_true hlength
  obtain ⟨es, hentries, hindexes, -⟩ :=
    (indexTransaction_eventIndexes mintEnv).1 mintBlock mintTx s₀ s' htx
  have hrows : IsActivity (fun _ _ => true) s.db (activityRows (fun _ _ => true) s.db).reverse :=
    ⟨List.reverse_perm _, of_decide_eq_true hsorted⟩
  obtain ⟨hnodup, hactivity⟩ :=
    (indexTransaction_eventIndexes mintEnv).2 .bitcoin 2 (by decide) mintAndRestart
      [mintBlock] s₀ s (by decide) (by decide) hstart hrun
  -- the transaction writes two entries
  rw [hentries, List.length_append] at hlength
  exact ⟨s₀, s, s', es, _, hstart, htx, hentries, by omega, hindexes, hrun, hnodup, hrows,
    hactivity _ _ hrows 840001 1⟩

end Runehook
