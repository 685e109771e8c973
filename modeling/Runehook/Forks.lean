import Runehook.BlockRows
import Runehook.NoInflation
import Runehook.ReorgEquivalence

/-! # Forks

`roll_back_block` leaves the caches of the process as they are, and what is indexed next may be read
from them. A process that starts again before it indexes the next block has forgotten what was
rolled back (`settles`): its run ends where a run ends that never saw these blocks. That run is
`straighten`, the invariant is `Straightened`, and the result is `runEvents_straighten`. -/

namespace Runehook

open Lib

/-! ## The height that was scanned -/

namespace Session

/-- A session in which another height was scanned. -/
def scanned (height : Nat) (s : Session) : Session :=
  { s with db := pgUpdateBlockHeight height s.db }

variable {s t : Session}

@[simp] theorem cache_scanned (height : Nat) (s : Session) :
    (s.scanned height).cache = s.cache := rfl

/-- Two sessions with the same cache and the same tables. -/
theorem eq_scanned (hcache : s.cache = t.cache) (htables : s.db.tables = t.db.tables) :
    s = t.scanned s.db.lastScannedHeight := by
  obtain ⟨cache, db⟩ := s
  obtain ⟨cache', db'⟩ := t
  obtain ⟨hrunes, hledger, hsupply, hbalance⟩ := BlockRows.mk.inj htables
  obtain ⟨runes, ledger, supplyChanges, balanceChanges, height⟩ := db
  cases hcache
  cases hrunes
  cases hledger
  cases hsupply
  cases hbalance
  rfl

theorem flush_scanned (height : Nat) (s : Session) :
    (s.scanned height).flush = s.flush.map (scanned height) := by
  have hruns : (pgInsertRunes s.cache.dbCache.runes (pgUpdateBlockHeight height s.db)) =
      (pgInsertRunes s.cache.dbCache.runes s.db).map (pgUpdateBlockHeight height) := by
    rw [pgInsertRunes, pgInsertRunes]
    show Option.bind ((chunks 500 s.cache.dbCache.runes).foldlM _ s.db.runes) _ = _
    cases (chunks 500 s.cache.dbCache.runes).foldlM
      (fun runes chunk => chunk.foldlM insertRune runes) s.db.runes with
    | none => rfl
    | some runes => rfl
  rw [flush, flush, DbCache.flush, DbCache.flush]
  show Option.bind (Option.bind (pgInsertRunes s.cache.dbCache.runes
      (pgUpdateBlockHeight height s.db)) _) _ = _
  rw [hruns]
  cases pgInsertRunes s.cache.dbCache.runes s.db <;> rfl

theorem addLedgerEntriesToDbCache_scanned (height : Nat) (s : Session)
    (entries : List DbLedgerEntry) :
    (s.scanned height).addLedgerEntriesToDbCache entries =
      (s.addLedgerEntriesToDbCache entries).map (scanned height) := by
  rw [addLedgerEntriesToDbCache, addLedgerEntriesToDbCache]
  show Option.bind (s.cache.addLedgerEntriesToDbCache entries) _ = _
  cases s.cache.addLedgerEntriesToDbCache entries <;> rfl

theorem bind_scanned {height : Nat} {f : Session → Option Session}
    (hf : ∀ t, f (t.scanned height) = (f t).map (scanned height)) (o : Option Session) :
    (o.map (scanned height)).bind f = (o.bind f).map (scanned height) := by
  cases o with
  | none => rfl
  | some t => exact hf t

/-- What is looked up, and the session that it leaves. -/
theorem getCachedRuneByRuneId_scanned (height : Nat) (id : RuneId) (s : Session) :
    (s.scanned height).getCachedRuneByRuneId id =
      (s.getCachedRuneByRuneId id).map fun found => (found.1, found.2.scanned height) := by
  rw [getCachedRuneByRuneId, getCachedRuneByRuneId, flush_scanned, cache_scanned]
  split
  · rfl
  · rcases s.cache.runeCache.get id with ⟨_ | rune, runeCache⟩
    · cases s.flush with
      | none => rfl
      | some t =>
        simp only [Option.map_some, Option.bind_eq_bind, Option.bind_some]
        rw [show pgGetRuneById id (t.scanned height).db = pgGetRuneById id t.db from rfl]
        cases pgGetRuneById id t.db <;> rfl
    · rfl

theorem getCachedRuneTotalMints_scanned (height : Nat) (id : RuneId) (s : Session) :
    (s.scanned height).getCachedRuneTotalMints id =
      (s.getCachedRuneTotalMints id).map fun found => (found.1, found.2.scanned height) := by
  rw [getCachedRuneTotalMints, getCachedRuneTotalMints, flush_scanned, cache_scanned,
    show (s.scanned height).realRuneId id = s.realRuneId id from rfl]
  cases s.realRuneId id with
  | none => rfl
  | some real =>
    dsimp only
    rcases s.cache.runeTotalMintsCache.get real with ⟨_ | total, runeTotalMintsCache⟩
    · cases s.flush with
      | none => rfl
      | some t =>
        simp only [Option.map_some, Option.bind_eq_bind, Option.bind_some]
        rw [show pgGetRuneTotalMints id (t.scanned height).db =
          pgGetRuneTotalMints id t.db from rfl]
        cases pgGetRuneTotalMints id t.db <;> rfl
    · rfl

theorem recordEtching_scanned (height : Nat) (s : Session)
    (applied : TransactionCache × RuneId × DbRune × DbLedgerEntry) :
    (s.scanned height).recordEtching applied = (s.recordEtching applied).map (scanned height) := by
  obtain ⟨txCache, runeId, dbRune, entry⟩ := applied
  have hadd :=
    addLedgerEntriesToDbCache_scanned height (((s.setTxCache txCache).pushRune dbRune).setRuneCache
      (s.cache.runeCache.put runeId dbRune)) [entry]
  exact (congrArg (fun o => Option.bind o _) hadd).trans (bind_scanned (fun _ => rfl) _)

theorem applyMintWith_scanned (height : Nat) (id : RuneId) (s : Session)
    (apply : TransactionCache → RuneId → Nat → DbRune → TransactionCache × Option DbLedgerEntry) :
    (s.scanned height).applyMintWith apply id =
      (s.applyMintWith apply id).map (scanned height) := by
  rw [applyMintWith, applyMintWith, getCachedRuneByRuneId_scanned]
  cases s.getCachedRuneByRuneId id with
  | none => rfl
  | some found =>
    obtain ⟨_ | rune, t⟩ := found
    · rfl
    · simp only [Option.map_some, Option.bind_eq_bind, Option.bind_some,
        getCachedRuneTotalMints_scanned]
      cases t.getCachedRuneTotalMints id with
      | none => rfl
      | some counted =>
        obtain ⟨totalMints, u⟩ := counted
        simp only [Option.map_some, Option.bind_some, cache_scanned]
        rcases apply u.cache.txCache id (totalMints.getD 0) rune with ⟨txCache, _ | entry⟩
        · rfl
        · have hadd := addLedgerEntriesToDbCache_scanned height (u.setTxCache txCache) [entry]
          refine (congrArg (fun o => Option.bind o _) hadd).trans (bind_scanned (fun v => ?_) _)
          rw [bumpTotalMints, bumpTotalMints, cache_scanned]
          cases v.cache.runeTotalMintsCache.peek id <;> rfl

theorem beginTransaction_scanned (env : Environment) (height : Nat) (location : TransactionLocation)
    (txInputs : List TxIn) (eligibleOutputs : HashMap Nat ScriptBuf)
    (firstEligibleOutput : Option Nat) (totalOutputs : Nat) (s : Session) :
    (s.scanned height).beginTransaction env location txInputs eligibleOutputs firstEligibleOutput
        totalOutputs =
      (s.beginTransaction env location txInputs eligibleOutputs firstEligibleOutput
        totalOutputs).map (scanned height) := by
  rw [beginTransaction, beginTransaction, cache_scanned]
  split <;> rfl

theorem applyEdict_scanned (env : Environment) (height : Nat) (edict : Edict) (s : Session) :
    (s.scanned height).applyEdict env edict = (s.applyEdict env edict).map (scanned height) := by
  rw [applyEdict, applyEdict, getCachedRuneByRuneId_scanned]
  cases s.getCachedRuneByRuneId edict.id with
  | none => rfl
  | some found =>
    obtain ⟨_ | rune, t⟩ := found
    · rfl
    · simp only [Option.map_some, Option.bind_eq_bind, Option.bind_some, cache_scanned]
      exact addLedgerEntriesToDbCache_scanned height (t.setTxCache _) _

end Session

/-- **No call on the index cache reads the height that was scanned.** -/
theorem Action.run_scanned (env : Environment) (block : Block) (height : Nat) (a : Action)
    (s : Session) :
    a.run env block (s.scanned height) = (a.run env block s).map (Session.scanned height) := by
  cases a with
  | beginTransaction tx =>
    show Option.bind (bitcoinTxFromChainhookTx env block tx) _ = Option.map _ (Option.bind _ _)
    cases bitcoinTxFromChainhookTx env block tx with
    | none => rfl
    | some scan => exact Session.beginTransaction_scanned env height _ tx.inputs _ _ _ s
  | runestone r =>
    rw [Action.run, Action.run, Session.applyRunestone, Session.applyRunestone]
    cases r.pointer <;> rfl
  | cenotaph =>
    rw [Action.run, Action.run, Session.applyCenotaph, Session.applyCenotaph, Session.cache_scanned]
    exact Session.addLedgerEntriesToDbCache_scanned height (s.setTxCache _) _
  | etching e =>
    rw [Action.run, Action.run, Session.applyEtching, Session.applyEtching, Session.cache_scanned,
      Session.recordEtching_scanned]
  | cenotaphEtching rune =>
    rw [Action.run, Action.run, Session.applyCenotaphEtching, Session.applyCenotaphEtching,
      Session.cache_scanned, Session.recordEtching_scanned]
  | mint id => exact s.applyMintWith_scanned height id TransactionCache.applyMint
  | cenotaphMint id => exact s.applyMintWith_scanned height id TransactionCache.applyCenotaphMint
  | edict e => exact s.applyEdict_scanned env height e
  | endTransaction =>
    rw [Action.run, Action.run, Session.endTransaction, Session.endTransaction,
      Session.cache_scanned]
    exact Session.addLedgerEntriesToDbCache_scanned height (s.setTxCache _) _

theorem indexTransactions_scanned (env : Environment) (block : Block) (height : Nat) (s : Session) :
    indexTransactions env block (s.scanned height) =
      (indexTransactions env block s).map (Session.scanned height) := by
  have htransactions :=
    foldlM_map_comm (f := indexTransaction env block) (g := Session.scanned height)
      fun tx t => foldlM_map_comm (fun a u => a.run_scanned env block height u) (tx.actions env) t
  rw [indexTransactions, indexTransactions]
  show Option.bind (Option.bind (pgGetMaxRuneNumber s.db) _) _ =
      Option.map _ (Option.bind (Option.bind _ _) _)
  cases pgGetMaxRuneNumber s.db with
  | none => rfl
  | some number => exact htransactions block.transactions (s.setNextRuneNumber (number + 1))

/-- **A block that is indexed sets the height**: whatever was scanned before makes no difference. -/
theorem indexBlock_scanned (env : Environment) (block : Block) (height : Nat) (s : Session) :
    indexBlock env block (s.scanned height) = indexBlock env block s := by
  rw [indexBlock, indexBlock, indexTransactions_scanned]
  cases indexTransactions env block s <;> rfl

/-! ## Straight runs -/

/-- What is left of a history, the newest event first, when its newest block is rolled back: what
came before the block. The restarts since then are dropped with it. -/
def takeBack : List Event → List Event
  | .restart _ _ :: past => takeBack past
  | _ :: past => past
  | [] => []

/-- What an event makes of the history. -/
def Event.history (past : List Event) : Event → List Event
  | .rollBack _ => takeBack past
  | e => e :: past

/-- Whether the process has rolled back a block since it started; `none` if it then indexes one. -/
def Event.settles (rolledBack : Bool) : Event → Option Bool
  | .index _ => if rolledBack then none else some false
  | .rollBack _ => some true
  | .restart _ _ => some false

/-- Whether the process has rolled back a block since it started, for a run in which it always
starts again before it indexes the next one. -/
def settles (events : List Event) : Option Bool := events.foldlM Event.settles false

section

variable {env : Environment} {network : Network} {s₀ s s' u : Session} {past : List Event}
    {bs : List Block}

/-- Before its newest block, a history ended with the session that the block was indexed from. -/
theorem runEvents_takeBack {block : Block} (hforward : ∀ e ∈ past, e.Forward)
    (hblocks : indexedBlocks past.reverse = bs ++ [block])
    (hrun : runEvents env past.reverse s₀ = some u) :
    (∀ e ∈ takeBack past, e.Forward) ∧ indexedBlocks (takeBack past).reverse = bs ∧
      ∃ v w, runEvents env (takeBack past).reverse s₀ = some v ∧ indexBlock env block v = some w ∧
      u.db = w.db := by
  induction past generalizing u with
  | nil =>
    rw [List.reverse_nil] at hblocks
    exact absurd (congrArg List.length hblocks) (by simp [indexedBlocks])
  | cons e past ih =>
    obtain ⟨he, hpast⟩ := List.forall_mem_cons.mp hforward
    rw [List.reverse_cons] at hblocks hrun
    rw [indexedBlocks_append] at hblocks
    obtain ⟨v, hv, hstep⟩ := foldlM_append_eq_some.mp hrun
    have hstep := foldlM_singleton_eq_some.mp hstep
    cases e with
    | index block' =>
      obtain ⟨hbs, hblock⟩ := List.append_inj' hblocks rfl
      cases hblock
      exact ⟨hpast, hbs, v, u, hv, hstep, rfl⟩
    | rollBack height => exact absurd he id
    | restart cap hcap =>
      obtain ⟨cache, -, rfl⟩ := restart_eq_some hstep
      have hbefore := ih hpast ((List.append_nil _).symm.trans hblocks) hv
      exact hbefore

/-- The network stays the same. -/
theorem runEvents_network {events : List Event} (hrun : runEvents env events s₀ = some s) :
    s.cache.network = s₀.cache.network := by
  refine foldlM_invariant (P := fun t : Session => t.cache.network = s₀.cache.network)
    rfl (fun e t t' ht hstep => ?_) hrun
  cases e with
  | index block =>
    obtain ⟨u, hu, hflush⟩ := indexBlock_eq_some.mp hstep
    obtain ⟨_, _, hwrites, -⟩ := indexTransactions_writes hu
    exact (Session.Writes.flush hflush).network_eq.trans (hwrites.network_eq.trans ht)
  | rollBack height =>
    cases Option.some.inj hstep
    exact ht
  | restart cap hcap =>
    obtain ⟨cache, hcache, rfl⟩ := restart_eq_some hstep
    exact (IndexCache.new_empty hcache).network.trans ht

/-- The history of a run: it ends with the tables of the run and, if the process has rolled nothing
back since it started, with its caches. -/
structure Straightened (env : Environment) (s₀ : Session) (past : List Event) (bs : List Block)
    (rolledBack : Bool) (s : Session) : Prop where
  /-- The history has no rollbacks. -/
  forward : ∀ e ∈ past, e.Forward
  /-- Its blocks are those that survive. -/
  blocks : indexedBlocks past.reverse = bs
  /-- It runs, to the same tables and, unless something was rolled back, to the same caches. -/
  run : ∃ t, runEvents env past.reverse s₀ = some t ∧ s.db.tables = t.db.tables ∧
    (rolledBack = false → s.cache = t.cache)

variable {rolledBack : Bool} {height : Nat} {block : Block}

/-- A block is indexed as if nothing had been rolled back. -/
theorem Straightened.index (h : Straightened env s₀ past bs false s)
    (hrun : indexBlock env block s = some s') :
    Straightened env s₀ (.index block :: past) (bs ++ [block]) false s' := by
  obtain ⟨t, ht, htables, hcache⟩ := h.run
  refine ⟨List.forall_mem_cons.mpr ⟨trivial, h.forward⟩, ?_, s', ?_, rfl, fun _ => rfl⟩
  · rw [List.reverse_cons, indexedBlocks_append, h.blocks]
    rfl
  · rw [List.reverse_cons]
    refine foldlM_append_eq_some.mpr ⟨t, ht, foldlM_singleton_eq_some.mpr ?_⟩
    rw [Session.eq_scanned (hcache rfl) htables, indexBlock_scanned] at hrun
    exact hrun

/-- A process that starts again has the caches of one that never saw what was rolled back. -/
theorem Straightened.restart {cap : Nat} {hcap : 0 < cap}
    (h : Straightened env s₀ past bs rolledBack s) (hnetwork : s.cache.network = s₀.cache.network)
    (hrun : s.restart cap hcap = some s') :
    Straightened env s₀ (.restart cap hcap :: past) bs false s' := by
  obtain ⟨t, ht, htables, -⟩ := h.run
  obtain ⟨cache, hcache, rfl⟩ := restart_eq_some hrun
  refine ⟨List.forall_mem_cons.mpr ⟨trivial, h.forward⟩, ?_, ⟨cache, t.db⟩, ?_,
    htables, fun _ => rfl⟩
  · rw [List.reverse_cons, indexedBlocks_append, h.blocks]
    exact List.append_nil bs
  · rw [List.reverse_cons]
    refine foldlM_append_eq_some.mpr ⟨t, ht, foldlM_singleton_eq_some.mpr ?_⟩
    have hnew : IndexCache.new t.cache.network cap hcap t.db = some cache := by
      rw [← hcache, hnetwork, runEvents_network ht, IndexCache.new, IndexCache.new,
        pgGetMaxRuneNumber, pgGetMaxRuneNumber, (BlockRows.mk.inj htables).1]
    rw [Event.run, Session.restart, hnew]
    rfl

/-- Rolling back the newest block leaves the tables that it was indexed on. -/
theorem Straightened.rollBack {cap : Nat} {hcap : 0 < cap}
    (h : Straightened env s₀ past (bs ++ [block]) rolledBack s)
    (hstart : freshSession network cap hcap = some s₀) (hbelow : ∀ b ∈ bs, b.height < block.height)
    (hgenesis : block.height ≠ 840000) :
    Straightened env s₀ (takeBack past) bs true (rollBackBlock block.height s) := by
  obtain ⟨u, hu, htables, -⟩ := h.run
  obtain ⟨hforward, hblocks, v, w, hv, hindex, hdb⟩ := runEvents_takeBack h.forward h.blocks hu
  refine ⟨hforward, hblocks, v, hv, ?_, fun h => by cases h⟩
  -- without the block, the session is the one before it was indexed
  obtain ⟨hrest, hrows⟩ :=
    rowsWhere_of_forward hstart hv (fun e he => hforward e (List.mem_reverse.mp he))
      fun b hb => (hbelow b (hblocks ▸ hb)).ne
  have hnone : v.db.rowsWhere (· = block.height) = .none := by
    rw [hrows]
    simp [Db.rowsWhere, Db.migrated, BlockRows.none, uncommonGoods, Ne.symm hgenesis]
  calc (pgRollBackBlock block.height s.db).tables = s.db.rowsWhere (· ≠ block.height) :=
    tables_rollBack _ _
    _ = w.db.rowsWhere (· ≠ block.height) := by
      obtain ⟨hrunes, hledger, hsupply, hbalance⟩ := BlockRows.mk.inj (hdb ▸ htables)
      simp only [Db.rowsWhere, hrunes, hledger, hsupply, hbalance]
    _ = v.db.rowsWhere (· ≠ block.height) := (rowsWhere_indexBlock hrest hindex).2 _ (by simp)
    _ = v.db.tables := (rowsWhere_ne_eq_tables_iff _ _).mpr hnone

/-- A run with the blocks that survive it is straightened as far as it got. -/
theorem runEvents_straightened {cap : Nat} {hcap : 0 < cap} {events : List Event}
    (hchain : survivingChain events = some bs) (hgenesis : ∀ e ∈ events, e ≠ .rollBack 840000)
    (hsettles : settles events = some rolledBack) (hstart : freshSession network cap hcap = some s₀)
    (hrun : runEvents env events s₀ = some s) :
    Straightened env s₀ (events.foldl Event.history []) bs rolledBack s := by
  -- the run of every prefix is straightened along the chain of that prefix
  have hind :=
    foldlM_induction_split (P := fun done t => runEvents env done s₀ = some t ∧ ∀ bs rolledBack,
      survivingChain done = some bs → settles done = some rolledBack →
      Straightened env s₀ (done.foldl Event.history []) bs rolledBack t) ?_ ?_ hrun
  · exact hind.2 bs rolledBack hchain hsettles
  · refine ⟨rfl, fun bs rolledBack hbs hrolled => ?_⟩
    cases Option.some.inj hbs
    cases Option.some.inj hrolled
    exact ⟨fun e he => absurd he List.not_mem_nil, rfl, s₀, rfl, rfl, fun _ => rfl⟩
  · rintro done e rest t t' hsplit ⟨hdone, hP⟩ hstep
    refine ⟨foldlM_append_eq_some.mpr ⟨t, hdone, foldlM_singleton_eq_some.mpr hstep⟩,
      fun bs' rolledBack' hbs' hroll' =>
      ?_⟩
    obtain ⟨bs, hbs, hon⟩ := foldlM_append_eq_some.mp hbs'
    have hon := foldlM_singleton_eq_some.mp hon
    obtain ⟨rolledBack, hrolled, hsettle⟩ := foldlM_append_eq_some.mp hroll'
    have hsettle := foldlM_singleton_eq_some.mp hsettle
    have h := hP bs rolledBack hbs hrolled
    rw [List.foldl_append, List.foldl_cons, List.foldl_nil]
    cases e with
    | index block =>
      rw [Event.onChain] at hon
      split at hon
      -- after a rollback only a restart makes the caches fresh enough for a block
      · cases hon
        cases rolledBack with
        | true => cases hsettle
        | false =>
          cases hsettle
          exact h.index hstep
      · cases hon
    | rollBack height =>
      rw [Event.onChain] at hon
      split at hon
      · next hlast =>
        cases hon
        cases hsettle
        cases Option.some.inj hstep
        obtain ⟨block, hget, rfl⟩ := Option.map_eq_some_iff.mp hlast
        -- the block that is rolled back is the last one, above all that stay
        rw [← List.dropLast_append_getLast? block hget] at h hbs
        have hheights := survivingChain_pairwise hbs
        refine h.rollBack hstart (fun b hb => ?_) fun heq => ?_
        · exact (List.pairwise_append.mp hheights).2.2 b hb block (List.mem_singleton.mpr rfl)
        · exact hgenesis _ (hsplit ▸ List.mem_append_right _ List.mem_cons_self)
            (congrArg Event.rollBack heq)
      · cases hon
    | restart cap hcap =>
      cases hon
      cases hsettle
      exact h.restart (runEvents_network hdone) hstep

end

/-- `mintBlock` is rolled back. After a restart, its transaction is mined again and what it minted
is spent. -/
def remintAfterRestart : List Event :=
  [.index mintBlock, .rollBack 840001, .restart 2 Nat.two_pos, .index remintBlock,
    .index spendBlock]

end Runehook
