import Runehook.ChainRunes
import Runehook.Eviction
import Runehook.NoPanics

/-! # The indexer goes on

A statement that violates a unique constraint makes the process exit, and a value that is missing
makes it panic. On the blocks of a chain neither happens, whatever is etched: two rows never have
the same id or number, and rows with the same spaced name have the same name, where the insert drops
the second (`Session.KeysFree`). `exists_indexBlock` is about a block, `exists_runEvents` about
runs, and `exists_runEventsChecked` about runs with their partial operations, where the query for
the balances of too many inputs makes the process exit, too. -/

namespace Runehook

open Lib

/-! ## Unique columns -/

/-- **A row with a new id and a new number is inserted**, or dropped because its name is taken. -/
theorem insertRune_eq_keepRune {runes : List DbRune} {row : DbRune}
    (hspaced : ∀ r ∈ runes, unspaced r.spacedName = r.name)
    (hrow : unspaced row.spacedName = row.name) (hid : ∀ r ∈ runes, r.id ≠ row.id)
    (hnumber : ∀ r ∈ runes, r.number ≠ row.number) :
    insertRune runes row = some (keepRune runes row) := by
  unfold insertRune keepRune nameTaken
  split
  · rfl
  · rename_i hfree
    refine if_neg fun hany => hfree ?_
    obtain ⟨r, hr, htaken⟩ := List.any_eq_true.mp hany
    refine List.any_eq_true.mpr ⟨r, hr, decide_eq_true ?_⟩
    rcases of_decide_eq_true htaken with heq | heq | heq
    · exact absurd heq (hid r hr)
    · exact absurd heq (hnumber r hr)
    -- rows with one spaced name have one name
    · rw [← hspaced r hr, heq, hrow]

/-! ## Sessions -/

/-- What waits can be inserted, and the next number is above all others. -/
structure Session.KeysFree (s : Session) : Prop where
  /-- What waits can be inserted. -/
  insertable : s.Insertable
  /-- The spaced name of a row gives its name. -/
  spaced : ∀ r ∈ s.runes, unspaced r.spacedName = r.name
  /-- The next number is above all others. -/
  numbers : ∀ r ∈ s.runes, r.number < s.cache.nextRuneNumber

namespace Session.KeysFree

variable {s t : Session}

theorem same (h : s.KeysFree) (hsame : s.SameRunes t) : t.KeysFree where
  insertable := hsame.insertable h.insertable
  spaced := by
    rw [hsame.runes]
    exact h.spaced
  numbers := by
    rw [hsame.runes, hsame.number]
    exact h.numbers

/-- **An etching keeps the keys free**, if its id is new. -/
theorem etches (h : s.KeysFree) {row : DbRune} (hspaced : unspaced row.spacedName = row.name)
    (hnumber : row.number = s.cache.nextRuneNumber)
    (hid : ∀ r ∈ s.runes, r.id ≠ row.id) (hetches : EtchesRune row s t) : t.KeysFree where
  insertable := by
    refine hetches.insertable h.insertable
      (insertRune_eq_keepRune h.spaced hspaced hid fun r hr => ?_)
    exact hnumber ▸ (h.numbers r hr).ne
  spaced := by
    rw [hetches.runes]
    intro r hr
    rcases mem_keepRune hr with hr | rfl
    · exact h.spaced r hr
    · exact hspaced
  numbers := by
    rw [hetches.runes, hetches.number]
    intro r hr
    rcases mem_keepRune hr with hr | rfl
    · exact Nat.lt_succ_of_lt (h.numbers r hr)
    · exact hnumber ▸ Nat.lt_succ_self _

end Session.KeysFree

/-! ## Calls -/

namespace Session

variable {s : Session}

theorem exists_add {es : List DbLedgerEntry} (h : ∀ e ∈ es, e.Complete) (s : Session) :
    ∃ t, s.addLedgerEntriesToDbCache es = some t :=
  ⟨_, addLedgerEntriesToDbCache_eq_some.mpr ⟨h, rfl⟩⟩

theorem exists_recordEtching {applied : TransactionCache × RuneId × DbRune × DbLedgerEntry}
    (h : applied.2.2.2.Complete) (s : Session) : ∃ t, s.recordEtching applied = some t := by
  obtain ⟨txCache, runeId, dbRune, entry⟩ := applied
  obtain ⟨t, hadd⟩ := exists_add (List.forall_mem_singleton.mpr h)
    (((s.setTxCache txCache).pushRune dbRune).setRuneCache (s.cache.runeCache.put runeId dbRune))
  exact ⟨_, Option.bind_eq_some_iff.mpr ⟨t, hadd, rfl⟩⟩

theorem exists_getCachedRuneByRuneId (h : s.Insertable) (id : RuneId) :
    ∃ rune t, s.getCachedRuneByRuneId id = some (rune, t) := by
  rw [getCachedRuneByRuneId]
  split
  · exact ⟨_, _, rfl⟩
  · rcases s.cache.runeCache.get id with ⟨_ | rune, runeCache⟩
    · obtain ⟨t, ht⟩ := flush_of_insertable h
      simp only [ht, Option.bind_eq_bind, Option.bind_some]
      cases pgGetRuneById id t.db with
      | none => exact ⟨_, _, rfl⟩
      | some rune => exact ⟨_, _, rfl⟩
    · exact ⟨_, _, rfl⟩

theorem exists_getCachedRuneTotalMints (h : s.Insertable) (id : RuneId) :
    ∃ total t, s.getCachedRuneTotalMints id = some (total, t) := by
  rw [getCachedRuneTotalMints]
  cases s.realRuneId id with
  | none => exact ⟨_, _, rfl⟩
  | some real =>
    dsimp only
    rcases s.cache.runeTotalMintsCache.get real with ⟨_ | total, runeTotalMintsCache⟩
    · obtain ⟨t, ht⟩ := flush_of_insertable h
      simp only [ht, Option.bind_eq_bind, Option.bind_some]
      cases pgGetRuneTotalMints id t.db with
      | none => exact ⟨_, _, rfl⟩
      | some total => exact ⟨_, _, rfl⟩
    · exact ⟨_, _, rfl⟩

/-- **A mint goes on**, whether it is accepted or not. -/
theorem exists_applyMintWith (h : s.Insertable)
    {apply : TransactionCache → RuneId → Nat → DbRune → TransactionCache × Option DbLedgerEntry}
    {id : RuneId} (hentry : ∀ tx total rune e, (apply tx id total rune).2 = some e → e.Complete) :
    ∃ t, s.applyMintWith apply id = some t := by
  obtain ⟨rune, t, hlook⟩ := exists_getCachedRuneByRuneId h id
  rw [applyMintWith, hlook, Option.bind_eq_bind, Option.bind_some]
  cases rune with
  | none => exact ⟨t, rfl⟩
  | some rune =>
    have ht := (SameRunes.lookup (runeLookup_of_eq_some hlook)).insertable h
    obtain ⟨total, u, hlook'⟩ := exists_getCachedRuneTotalMints ht id
    have hcomplete := hentry u.cache.txCache (total.getD 0) rune
    simp only [hlook', Option.bind_eq_bind, Option.bind_some]
    -- the mint makes an entry or none, and an entry is complete
    generalize apply u.cache.txCache id (total.getD 0) rune = applied at hcomplete
    rcases applied with ⟨txCache, _ | entry⟩
    · exact ⟨_, rfl⟩
    · obtain ⟨v, hadd⟩ :=
        exists_add (List.forall_mem_singleton.mpr (hcomplete entry rfl)) (u.setTxCache txCache)
      exact ⟨_, Option.bind_eq_some_iff.mpr ⟨v, hadd, rfl⟩⟩

end Session

/-- One query has room for the balances of all outputs that a transaction spends. -/
def Transaction.InputsFit (tx : Transaction) : Prop := 3 * tx.inputs.length ≤ bindLimit

/-- **Every call goes on** where what waits can be inserted, if the query for the balances of the
inputs does. -/
theorem Action.exists_run (env : Environment) {block : Block} {s : Session} (h : s.Insertable)
    (htime : 500000000 ≤ block.timestamp) (a : Action)
    (hfit : ∀ tx, a = .beginTransaction tx → tx.InputsFit) :
    ∃ t, a.run env block s = some t := by
  cases a with
  | beginTransaction tx =>
    rw [Action.run, bitcoinTxFromChainhookTx, if_neg (Nat.not_lt.mpr htime)]
    -- there are no more misses than inputs, and these fit one statement
    have hmisses := length_cacheMisses_le tx.inputs s.cache.blockOutputCache s.cache.outputCache
    have hroom :
        3 * (cacheMisses tx.inputs s.cache.blockOutputCache s.cache.outputCache).length ≤
          bindLimit :=
      (Nat.mul_le_mul_left 3 hmisses).trans (hfit tx rfl)
    exact ⟨_, if_pos hroom⟩
  | runestone r => exact ⟨_, rfl⟩
  | cenotaph =>
    have hstep : s.cache.txCache.Step env .cenotaph _ _ _ := .cenotaph
    exact Session.exists_add hstep.complete _
  | etching e =>
    rw [Action.run, Session.applyEtching, TransactionCache.applyEtching_eq]
    exact Session.exists_recordEtching (by trivial) s
  | cenotaphEtching rune =>
    rw [Action.run, Session.applyCenotaphEtching, TransactionCache.applyCenotaphEtching_eq]
    exact Session.exists_recordEtching (by trivial) s
  | mint id =>
    show ∃ t, s.applyMintWith TransactionCache.applyMint id = some t
    refine Session.exists_applyMintWith h fun tx total rune e he => ?_
    obtain ⟨-, hnone⟩ | ⟨-, amount, -, hsome⟩ := tx.applyMint_cases id total rune
    · rw [hnone] at he
      cases he
    · rw [hsome] at he
      cases Option.some.inj he
      rfl
  | cenotaphMint id =>
    show ∃ t, s.applyMintWith TransactionCache.applyCenotaphMint id = some t
    refine Session.exists_applyMintWith h fun tx total rune e he => ?_
    obtain ⟨-, hnone⟩ | ⟨-, amount, -, hsome⟩ := tx.applyCenotaphMint_cases id total rune
    · rw [hnone] at he
      cases he
    · rw [hsome] at he
      cases Option.some.inj he
      rfl
  | edict e =>
    obtain ⟨rune, t, hlook⟩ := Session.exists_getCachedRuneByRuneId h e.id
    rw [Action.run, Session.applyEdict, hlook, Option.bind_eq_bind, Option.bind_some]
    cases rune with
    | none => exact ⟨t, rfl⟩
    | some rune =>
      have hstep : t.cache.txCache.Step env (.edict e) _ _ _ := .edict e
      exact Session.exists_add hstep.complete _
  | endTransaction =>
    have hstep : s.cache.txCache.Step env .endTransaction _ _ _ := .endTransaction
    exact Session.exists_add hstep.complete _

/-! ## Transactions and blocks -/

/-- A transaction etches a rune. -/
def Transaction.etches (env : Environment) (tx : Transaction) : Bool :=
  (tx.calls env).any Action.etches

theorem Action.step_of_etches {a : Action} (h : a.etches = true) : a.step = 2 := by
  cases a with
  | etching | cenotaphEtching => rfl
  | _ => cases h

section

variable {env : Environment} {block : Block} {tx : Transaction} {s : Session}

/-- **A transaction goes on** and leaves the keys free, if its id is new when it etches. -/
theorem Session.KeysFree.exists_indexTransaction (h : s.KeysFree)
    (htime : 500000000 ≤ block.timestamp) (hfit : tx.InputsFit)
    (hnew : tx.etches env = true → ∀ r ∈ s.runes, r.id ≠ tx.runeId block) :
    ∃ t, indexTransaction env block s tx = some t ∧ t.KeysFree ∧ s.runes ⊆ t.runes ∧
      ∀ r ∈ t.runes, r ∈ s.runes ∨ r.id = tx.runeId block := by
  obtain ⟨u, hbegin⟩ :=
    Action.exists_run env h.insertable htime (.beginTransaction tx) fun tx' heq => by
    cases heq
    exact hfit
  obtain ⟨as, has, -, hordered⟩ := tx.actions_ordered env
  obtain rfl : as = tx.calls env := (List.cons.inj has).2.symm
  have hsame : s.SameRunes u := by
    obtain ⟨-, rfl⟩ := run_beginTransaction hbegin
    exact .of_eq rfl rfl rfl fun _ _ hr => hr
  have hlocation : u.cache.txCache.location = tx.location block s.cache.network := by
    obtain ⟨-, rfl⟩ := run_beginTransaction hbegin
    rfl
  -- a transaction etches once: the table is as before the transaction until then
  have hcalls : ∃ t, (tx.calls env).foldlM (Action.run env block) u = some t ∧ _ := foldlM_progress
    (P := fun done (t : Session) => t.KeysFree ∧
      t.cache.txCache.location = tx.location block s.cache.network ∧
      (done.any Action.etches = false → t.runes = s.runes) ∧ s.runes ⊆ t.runes ∧
      ∀ r ∈ t.runes, r ∈ s.runes ∨ r.id = tx.runeId block)
    ⟨h.same hsame, hlocation, fun _ => hsame.runes, hsame.runes ▸ List.Subset.refl _,
      fun r hr => .inl (hsame.runes ▸ hr)⟩ ?_
  · obtain ⟨t, hcalls, hkeys, -, -, hrows⟩ := hcalls
    exact ⟨t, indexTransaction_eq_some.mpr ⟨u, hbegin, hcalls⟩, hkeys, hrows⟩
  · rintro done a rest t hsplit ⟨hkeys, hat, hbefore, hkept, hrows⟩
    have hmem : a ∈ tx.calls env := hsplit ▸ List.mem_append_right _ List.mem_cons_self
    obtain ⟨t', hstep⟩ := Action.exists_run env hkeys.insertable htime a fun tx' heq =>
      absurd heq (Transaction.ne_beginTransaction hmem tx')
    obtain ⟨es, rs, -, hcall⟩ := Action.run_step (Transaction.ne_beginTransaction hmem) hstep
    refine ⟨t', hstep, ?_⟩
    rcases Action.runes hstep with ⟨-, hsame⟩ | ⟨row, hrow, hetches⟩
    · refine ⟨hkeys.same hsame, hcall.location_eq.trans hat, fun hnone => ?_, hsame.runes ▸ hkept,
        hsame.runes ▸ hrows⟩
      rw [List.any_append, Bool.or_eq_false_iff] at hnone
      exact hsame.runes.trans (hbefore hnone.1)
    · have haetches : a.etches = true :=
        (a.etchedRune_isSome t).symm.trans (Option.isSome_of_mem hrow)
      have hnone : done.any Action.etches = false := by
        refine List.any_eq_false.mpr fun b hb hbetches => ?_
        rw [hsplit] at hordered
        have hafter := (List.pairwise_append.mp hordered).2.2 b hb a List.mem_cons_self
        rw [Action.step_of_etches hbetches, Action.step_of_etches haetches] at hafter
        revert hafter
        simp [After]
      have hrowId : row.id = tx.runeId block := by
        rw [(Action.etchedRow hrow).id, hat]
        rfl
      have hfresh : ∀ r ∈ t.runes, r.id ≠ row.id := by
        rw [hbefore hnone, hrowId]
        exact hnew (List.any_eq_true.mpr ⟨a, hmem, haetches⟩)
      refine ⟨hkeys.etches (Action.unspaced_etchedRune hrow) (Action.etchedRow hrow).number
        hfresh hetches, hcall.location_eq.trans hat, fun hall => ?_, ?_, fun r hr => ?_⟩
      · rw [List.any_append, Bool.or_eq_false_iff, List.any_cons, haetches] at hall
        cases hall.2
      · rw [hetches.runes]
        exact List.Subset.trans hkept (prefix_keepRune t.runes row).subset
      · rw [hetches.runes] at hr
        rcases mem_keepRune hr with hr | rfl
        · exact hrows r hr
        · exact .inr hrowId

/-- The largest number of a table that has rows. -/
theorem exists_maxRuneNumber {db : Db} (h : db.runes ≠ []) :
    ∃ number, pgGetMaxRuneNumber db = some number ∧ ∀ r ∈ db.runes, r.number ≤ number := by
  obtain ⟨number, hnumber⟩ : ∃ number, pgGetMaxRuneNumber db = some number := by
    refine Option.ne_none_iff_exists'.mp fun hnone => h ?_
    rwa [pgGetMaxRuneNumber, List.max?_eq_none_iff, List.map_eq_nil_iff] at hnone
  exact ⟨number, hnumber,
    fun r hr => (List.max?_eq_some_iff.mp hnumber).2 _ (List.mem_map_of_mem hr)⟩

/-- A process starts on a table that has rows. -/
theorem exists_new (network : Network) (cap : Nat) (hcap : 0 < cap) {db : Db} (h : db.runes ≠ []) :
    ∃ cache, IndexCache.new network cap hcap db = some cache := by
  obtain ⟨number, hnumber, -⟩ := exists_maxRuneNumber h
  rw [IndexCache.new, hnumber]
  exact ⟨_, rfl⟩

/-- **A block goes on**, if the ids of what it etches are new. -/
theorem exists_indexBlock (hrest : s.cache.dbCache = .new) (hsome : s.db.runes ≠ [])
    (hspaced : ∀ r ∈ s.db.runes, unspaced r.spacedName = r.name)
    (htime : 500000000 ≤ block.timestamp)
    (hindexes : (block.transactions.map Transaction.index).Nodup)
    (hfit : ∀ tx ∈ block.transactions, tx.InputsFit)
    (hnew : ∀ tx ∈ block.transactions, tx.etches env = true → ∀ r ∈ s.db.runes,
      r.id ≠ tx.runeId block) :
    ∃ t, indexBlock env block s = some t ∧ (∀ r ∈ t.db.runes, unspaced r.spacedName = r.name) ∧
      s.db.runes ⊆ t.db.runes := by
  obtain ⟨number, hnumber, hmax⟩ := exists_maxRuneNumber hsome
  have hreset : s.resetMaxRuneNumber = some (s.setNextRuneNumber (number + 1)) :=
    Option.bind_eq_some_iff.mpr ⟨number, hnumber, rfl⟩
  -- nothing waits between blocks, so the rows of the session are those of the table
  have hruns : (s.setNextRuneNumber (number + 1)).runes = s.db.runes := Session.runes_of_rest hrest
  have hkeys : (s.setNextRuneNumber (number + 1)).KeysFree := by
    refine ⟨?_, hruns ▸ hspaced, fun r hr => Nat.lt_succ_of_le (hmax r (hruns ▸ hr))⟩
    rw [Session.Insertable, hruns]
    show s.cache.dbCache.runes.foldlM insertRune s.db.runes = some s.db.runes
    rw [hrest]
    rfl
  -- carried over the transactions: the keys stay free, and every new row is of one of them
  have hloop :
      ∃ t,
      block.transactions.foldlM (indexTransaction env block) (s.setNextRuneNumber
        (number + 1)) = some t ∧
      _ := foldlM_progress
    (P := fun done (t : Session) => t.KeysFree ∧ s.db.runes ⊆ t.runes ∧
      ∀ r ∈ t.runes, r ∈ s.db.runes ∨ ∃ tx ∈ done, r.id = tx.runeId block)
    ⟨hkeys, hruns ▸ List.Subset.refl _, fun r hr => .inl (hruns ▸ hr)⟩ ?_
  · obtain ⟨t, hloop, hkeys, hkept, -⟩ := hloop
    -- the flush inserts the rows whose keys are free
    have hclosing : t.SameRunes (closing env block t) := .of_eq rfl rfl rfl fun _ _ hr => hr
    obtain ⟨u, hflush⟩ := Session.flush_of_insertable (hclosing.insertable hkeys.insertable)
    have hu : u.db.runes = t.runes := (Session.flush_runes hflush).1.trans hclosing.runes
    exact ⟨u, indexBlock_eq_some.mpr ⟨t, indexTransactions_eq_some.mpr ⟨_, hreset, hloop⟩, hflush⟩,
      hu ▸ hkeys.spaced, hu ▸ hkept⟩
  · rintro done tx rest t hsplit ⟨hkeys, hkept, hrows⟩
    have hmem : tx ∈ block.transactions := hsplit ▸ List.mem_append_right _ List.mem_cons_self
    have hfresh : tx.etches env = true → ∀ r ∈ t.runes, r.id ≠ tx.runeId block := by
      intro hetches r hr hid
      rcases hrows r hr with hr | ⟨tx', htx', hid'⟩
      · exact hnew tx hmem hetches r hr hid
      · -- an earlier transaction of the block has another index
        have hindex : tx'.index = tx.index := congrArg RuneId.tx (hid'.symm.trans hid)
        rw [hsplit, List.map_append, List.nodup_append] at hindexes
        exact hindexes.2.2 _ (List.mem_map_of_mem htx')
          _ (List.mem_map_of_mem List.mem_cons_self) hindex
    obtain ⟨t', hstep, hkeys', hkept', hrows'⟩ :=
      hkeys.exists_indexTransaction htime (hfit tx hmem) hfresh
    refine ⟨t', hstep, hkeys', List.Subset.trans hkept hkept', fun r hr => ?_⟩
    rcases hrows' r hr with hr | hid
    · refine (hrows r hr).imp_right ?_
      rintro ⟨tx', htx', hrow⟩
      exact ⟨tx', List.mem_append_left _ htx', hrow⟩
    · exact .inr ⟨tx, List.mem_append_right _ List.mem_cons_self, hid⟩

end

/-! ## Runs -/

theorem unspaced_uncommonGoods : unspaced uncommonGoods.spacedName = uncommonGoods.name := by decide

/-- Between two blocks, the table holds the rune of the migrations and runes of the blocks that
survive, each under the name that its spaced name gives. -/
structure RowsOfChain (blocks : List Block) (s : Session) :
    Prop extends EtchedOnChain blocks s where
  /-- The rune of the migrations is there. -/
  goods : uncommonGoods ∈ s.db.runes
  /-- The spaced name of a row gives its name. -/
  spaced : ∀ r ∈ s.db.runes, unspaced r.spacedName = r.name

/-- The transactions of a block have distinct indexes, and none etches a rune with the id of that of
the migrations. -/
structure Block.Etchable (env : Environment) (block : Block) : Prop where
  /-- No index comes twice. -/
  indexes : (block.transactions.map Transaction.index).Nodup
  /-- No rune gets the id of that of the migrations. -/
  goods : ∀ tx ∈ block.transactions, tx.etches env = true → tx.runeId block ≠ uncommonGoods.id

namespace RowsOfChain

variable {env : Environment} {blocks : List Block} {s : Session}

theorem of_empty {network : Network} (h : s.cache.Empty network) (hdb : s.db = .migrated) :
    RowsOfChain [] s where
  toEtchedOnChain := .of_empty h hdb
  goods := hdb ▸ List.mem_cons_self
  spaced := by
    rw [hdb]
    exact List.forall_mem_singleton.mpr unspaced_uncommonGoods

theorem index {block : Block} (h : RowsOfChain blocks s)
    (habove : ∀ b ∈ blocks, b.height < block.height) (htime : 500000000 ≤ block.timestamp)
    (hfit : ∀ tx ∈ block.transactions, tx.InputsFit) (hetchable : block.Etchable env) :
    ∃ t, indexBlock env block s = some t ∧ RowsOfChain (blocks ++ [block]) t := by
  have hnew : ∀ tx ∈ block.transactions, tx.etches env = true → ∀ r ∈ s.db.runes,
      r.id ≠ tx.runeId block := by
    intro tx htx hetches r hr hid
    rcases h.runes r hr with hfirst | ⟨b, hb, hblock, -⟩
    · exact hetchable.goods tx htx hetches (hid.symm.trans hfirst)
    · have hlt := habove b hb
      rw [← hblock, hid] at hlt
      exact Nat.lt_irrefl _ hlt
  obtain ⟨t, hrun, hspaced, hkept⟩ :=
    exists_indexBlock h.rest (List.ne_nil_of_mem h.goods) h.spaced htime
      hetchable.indexes hfit hnew
  exact ⟨t, hrun, h.toEtchedOnChain.index hrun, hkept h.goods, hspaced⟩

theorem rollBack {block : Block} (h : RowsOfChain (blocks ++ [block]) s)
    (hgenesis : block.height ≠ 840000) :
    RowsOfChain blocks (rollBackBlock block.height s) where
  toEtchedOnChain := h.toEtchedOnChain.rollBack
  goods := List.mem_filter.mpr ⟨h.goods, decide_eq_true hgenesis.symm⟩
  spaced r hr := h.spaced r (List.mem_of_mem_filter hr)

theorem restart (h : RowsOfChain blocks s) (cap : Nat) (hcap : 0 < cap) :
    ∃ t, s.restart cap hcap = some t ∧ RowsOfChain blocks t := by
  obtain ⟨cache, hcache⟩ := exists_new s.cache.network cap hcap (List.ne_nil_of_mem h.goods)
  have hrun : s.restart cap hcap = some ⟨cache, s.db⟩ :=
    Option.bind_eq_some_iff.mpr ⟨cache, hcache, rfl⟩
  exact ⟨_, hrun, h.toEtchedOnChain.restart hrun, h.goods, h.spaced⟩

end RowsOfChain

section

variable {env : Environment} {chain : List Block} {events : List Event} {s₀ : Session}

/-- **Every event of a run on a chain goes on.** -/
theorem exists_runEvents (hchain : survivingChain events = some chain)
    (hgenesis : ∀ e ∈ events, e ≠ .rollBack 840000)
    (htimes : ∀ b ∈ indexedBlocks events, 500000000 ≤ b.timestamp)
    (hfit : ∀ b ∈ indexedBlocks events, ∀ tx ∈ b.transactions, tx.InputsFit)
    (hetchable : ∀ b ∈ indexedBlocks events, b.Etchable env) (hstart : RowsOfChain [] s₀) :
    ∃ s, runEvents env events s₀ = some s ∧ RowsOfChain chain s := by
  have hrun : ∃ s, events.foldlM (Event.run env) s₀ = some s ∧ _ := foldlM_progress
    (P := fun done s => ∀ bs, survivingChain done = some bs → RowsOfChain bs s) ?_ ?_
  · obtain ⟨s, hrun, hrows⟩ := hrun
    exact ⟨s, hrun, hrows chain hchain⟩
  · intro bs hbs
    cases Option.some.inj hbs
    exact hstart
  · intro done e rest s hsplit hrows
    rw [hsplit] at hchain
    obtain ⟨bs, hbs, hrest⟩ := foldlM_append_eq_some.mp hchain
    obtain ⟨bs', hon, -⟩ := foldlM_cons_eq_some.mp hrest
    have hs := hrows bs hbs
    -- the chain after the event is the only one that its prefix has
    have hnext : ∀ {t}, RowsOfChain bs' t → ∀ bs'', survivingChain (done ++ [e]) = some bs'' →
        RowsOfChain bs'' t := by
      intro t ht bs'' hbs''
      have hbs' : survivingChain (done ++ [e]) = some bs' :=
        foldlM_append_eq_some.mpr ⟨bs, hbs, foldlM_singleton_eq_some.mpr hon⟩
      cases Option.some.inj (hbs''.symm.trans hbs')
      exact ht
    have hmem : e ∈ events := hsplit ▸ List.mem_append_right _ List.mem_cons_self
    cases e with
    | index block =>
      have hblock : block ∈ indexedBlocks events := List.mem_filterMap.mpr ⟨_, hmem, rfl⟩
      rw [Event.onChain] at hon
      split at hon
      · next habove =>
        cases hon
        obtain ⟨t, hrun, ht⟩ :=
          hs.index habove (htimes block hblock) (hfit block hblock) (hetchable block hblock)
        exact ⟨t, hrun, hnext ht⟩
      · cases hon
    | rollBack height =>
      rw [Event.onChain] at hon
      split at hon
      · next hlast =>
        cases hon
        obtain ⟨block, hget, rfl⟩ := Option.map_eq_some_iff.mp hlast
        rw [← List.dropLast_append_getLast? block hget] at hs
        exact ⟨_, rfl, hnext (hs.rollBack fun heq => hgenesis _ hmem (congrArg Event.rollBack heq))⟩
      · cases hon
    | restart cap hcap =>
      cases hon
      obtain ⟨t, hrun, ht⟩ := hs.restart cap hcap
      exact ⟨t, hrun, hnext ht⟩

end

/-! ## Runs with their partial operations -/

/-- `index_block`. -/
def indexBlockChecked (instructions : Instructions) (env : Environment) (block : Block)
    (s : Session) :
    Except Stop Session := do
  let s ← unwrap .exit s.resetMaxRuneNumber
  let s ← block.transactions.foldlM (indexTransactionChecked instructions env block) s
  let s := s.endBlock env
  let s := { s with db := pgUpdateBlockHeight block.height s.db }
  unwrap .exit s.flush

/-- Carry out an event. -/
def Event.runChecked (instructions : Instructions) (env : Environment) (s : Session) :
    Event → Except Stop Session
  | .index block => indexBlockChecked instructions env block s
  | .rollBack height => return rollBackBlock height s
  | .restart cap hcap => unwrap .exit (s.restart cap hcap)

/-- A run of the indexer. -/
def runEventsChecked (instructions : Instructions) (env : Environment) (events : List Event)
    (s : Session) :
    Except Stop Session := events.foldlM (Event.runChecked instructions env) s

section

variable {instructions : Instructions} {env : Environment} {s : Session}
  (henv : ∀ outputs, env.decipher outputs = (Runestone.decipher instructions outputs).toOption.join)

include henv

theorem indexBlockChecked_eq {block : Block} (h : s.Confined RuneId.Fits)
    (hcredits : CreditsOk s.entries) (hblock : block.Valid) :
    indexBlockChecked instructions env block s = unwrap .exit (indexBlock env block s) := by
  have hindex : indexBlock env block s = s.resetMaxRuneNumber.bind fun t =>
      (block.transactions.foldlM (indexTransaction env block) t).bind fun u =>
        (closing env block u).flush :=
    Option.bind_assoc _ _ _
  rw [hindex]
  refine bind_eq_unwrap rfl fun t hreset => bind_eq_unwrap ?_ fun u _ => rfl
  have hstage : (Stage.openBlock block).run env s = some t := hreset
  have hopen : t.Confined RuneId.Fits := Stage.confined h (by trivial) hstage
  refine foldlM_indexTransactionChecked_eq henv hopen ?_ hblock
  obtain ⟨number, rfl, -⟩ := resetMaxRuneNumber_eq_some hreset
  exact hcredits

/-- **A run stops only where the process exits**, and does what it does without partial
operations. -/
theorem runEventsChecked_eq {events : List Event} (h : s.Confined RuneId.Fits)
    (hcredits : CreditsOk s.entries) (hvalid : ∀ b ∈ indexedBlocks events, b.Valid) :
    runEventsChecked instructions env events s = unwrap .exit (runEvents env events s) := by
  refine foldlM_eq_unwrap (P := fun t => t.Confined RuneId.Fits ∧ CreditsOk t.entries)
    (fun t e he ht => ?_) ⟨h, hcredits⟩
  -- the block of the event is one of the run
  have hblocks : ∀ b ∈ indexedBlocks [e], b.Valid := by
    intro b hb
    obtain ⟨e', he', hb⟩ := List.mem_filterMap.mp hb
    rw [List.mem_singleton.mp he'] at hb
    exact hvalid b (List.mem_filterMap.mpr ⟨e, he, hb⟩)
  refine ⟨?_, fun t' hstep => ?_⟩
  · cases e with
    | index block => exact indexBlockChecked_eq henv ht.1 ht.2 (hblocks block List.mem_cons_self)
    | rollBack height => rfl
    | restart cap hcap => rfl
  · have hone : runEvents env [e] t = some t' := foldlM_singleton_eq_some.mpr hstep
    exact ⟨runEvents_confined henv ht.1 (fun b hb => (hblocks b hb).toInRange) hone,
      runEvents_creditsOk ht.2 hone⟩

end

/-- **The indexer never stops** on a chain whose transactions spend at most 21845 outputs each, the
most that one query has room for: whatever the blocks etch, mint and move, no partial operation and
no statement fails, over blocks, rollbacks and restarts. -/
theorem exists_runEventsChecked (instructions : Instructions) (env : Environment)
    (network : Network) {cap : Nat} (hcap : 0 < cap) {events : List Event} {chain : List Block}
    (hchain : survivingChain events = some chain) (hgenesis : ∀ e ∈ events, e ≠ .rollBack 840000)
    (hvalid : ∀ b ∈ indexedBlocks events, b.Valid)
    (hfit : ∀ b ∈ indexedBlocks events, ∀ tx ∈ b.transactions, tx.inputs.length ≤ 21845)
    (hetchable : ∀ b ∈ indexedBlocks events, b.Etchable (env.deciphering instructions)) :
    ∃ s₀ s, freshSession network cap hcap = some s₀ ∧
      runEventsChecked instructions (env.deciphering instructions) events s₀ = .ok s ∧
      runEvents (env.deciphering instructions) events s₀ = some s := by
  have hsome : Db.migrated.runes ≠ [] := List.cons_ne_nil _ _
  obtain ⟨cache, hcache⟩ := exists_new network cap hcap hsome
  have hstart : freshSession network cap hcap = some ⟨cache, .migrated⟩ := by
    rw [freshSession, hcache]
    rfl
  have hempty := IndexCache.new_empty hcache
  -- the inputs of a transaction fit one statement
  have hroom : ∀ b ∈ indexedBlocks events, ∀ tx ∈ b.transactions, tx.InputsFit := by
    intro b hb tx htx
    have hlength := hfit b hb tx htx
    rw [Transaction.InputsFit, bindLimit]
    omega
  obtain ⟨s, hrun, -⟩ :=
    exists_runEvents hchain hgenesis (fun b hb => (hvalid b hb).timestamp) hroom hetchable
      (RowsOfChain.of_empty (s := ⟨cache, .migrated⟩) hempty rfl)
  refine ⟨⟨cache, .migrated⟩, s, hstart, ?_, hrun⟩
  have hcredits : CreditsOk (Session.entries ⟨cache, .migrated⟩) := by
    rw [Session.entries, hempty.dbCache]
    exact fun e he => absurd he List.not_mem_nil
  rw [runEventsChecked_eq (fun _ => rfl) (.of_empty hempty .migrated) hcredits hvalid, hrun]
  rfl

/-- `divideScriptBlock` is rolled back, and mined again after a restart. -/
def divideTwice : List Event :=
  [.index mintScriptBlock, .index divideScriptBlock, .rollBack 840002, .restart 2 Nat.two_pos,
    .index divideScriptBlock]

theorem exists_runEventsChecked_divideTwice :
    ∃ s₀ s, freshSession .bitcoin 2 Nat.two_pos = some s₀ ∧
    runEventsChecked (shortInstructions 32)
      ((Environment.plain fun _ => none).deciphering (shortInstructions 32))
      divideTwice s₀ = .ok s := by
  have hblocks : ∀ b ∈ indexedBlocks divideTwice, b = mintScriptBlock ∨ b = divideScriptBlock := by
    intro b hb
    have hmem : b ∈ [mintScriptBlock, divideScriptBlock, divideScriptBlock] := hb
    simpa using hmem
  have hmint : mintScriptBlock.Valid := by
    refine ⟨⟨by decide, List.forall_mem_singleton.mpr ⟨by decide, by decide⟩⟩, by decide,
      ⟨['b', '1'], rfl⟩, ?_⟩
    exact List.forall_mem_singleton.mpr ⟨⟨_, rfl⟩, fun _ h => absurd h List.not_mem_nil⟩
  have hdivide : divideScriptBlock.Valid := by
    refine ⟨⟨by decide, List.forall_mem_singleton.mpr ⟨by decide, by decide⟩⟩, by decide,
      ⟨['b', '2'], rfl⟩, ?_⟩
    exact List.forall_mem_singleton.mpr ⟨⟨_, rfl⟩, List.forall_mem_singleton.mpr ⟨_, rfl⟩⟩
  have hvalid : ∀ b ∈ indexedBlocks divideTwice, b.Valid := fun b hb => by
    rcases hblocks b hb with rfl | rfl
    · exact hmint
    · exact hdivide
  have hetchable : ∀ b ∈ indexedBlocks divideTwice,
      b.Etchable ((Environment.plain fun _ => none).deciphering (shortInstructions 32)) :=
    fun b hb => by
    rcases hblocks b hb with rfl | rfl
    · exact ⟨by decide, List.forall_mem_singleton.mpr fun _ => by decide⟩
    · exact ⟨by decide, List.forall_mem_singleton.mpr fun _ => by decide⟩
  have hfit : ∀ b ∈ indexedBlocks divideTwice, ∀ tx ∈ b.transactions, tx.inputs.length ≤ 21845 :=
    fun b hb => by
    rcases hblocks b hb with rfl | rfl
    · exact List.forall_mem_singleton.mpr (by decide)
    · exact List.forall_mem_singleton.mpr (by decide)
  obtain ⟨s₀, s, hstart, hrun, -⟩ :=
    exists_runEventsChecked (shortInstructions 32) (.plain fun _ => none) .bitcoin Nat.two_pos
      (show survivingChain divideTwice = some [mintScriptBlock, divideScriptBlock] from rfl)
      (by simp [divideTwice]) hvalid hfit hetchable
  exact ⟨s₀, s, hstart, hrun⟩

end Runehook
