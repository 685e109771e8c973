import Runehook.Tables

/-! # Runs with rollbacks

A run that indexes blocks at increasing heights and rolls back the current highest block leaves a
chain of surviving blocks (`survivingChain`). The cumulative tables of every such run are the folds
of its ledger: `RestSound` is the invariant between blocks, and `tables_eq_fold` the result. -/

namespace Runehook

open Lib

/-! ## The surviving chain -/

/-- What an event makes of the surviving chain: a block goes above all others, and only the highest
one is rolled back. -/
def Event.onChain (blocks : List Block) : Event → Option (List Block)
  | .index block => if ∀ b ∈ blocks, b.height < block.height then some (blocks ++ [block]) else none
  | .rollBack height =>
    if blocks.getLast?.map Block.height = some height then some blocks.dropLast else none
  | .restart _ _ => some blocks

/-- The blocks that survive a run, for a run that indexes at increasing heights and rolls back the
highest block. -/
def survivingChain (events : List Event) : Option (List Block) := events.foldlM Event.onChain []

/-- No sum over the entries of a block leaves the range of a `u128`. -/
def NoOverflow (env : Environment) (events : List Event) (s₀ : Session) : Prop :=
  ∀ done block rest s s' es, events = done ++ .index block :: rest →
    runEvents env done s₀ = some s →
    indexTransactions env block s = some s' → s'.entries = s.entries ++ es → Fits es

/-- Induction over a run, its surviving chain in view. -/
theorem runEvents_induction {env : Environment} {events : List Event} {blocks : List Block}
    {s₀ s : Session} {P : List Block → Session → Prop} (start : P [] s₀)
    (step : ∀ done e rest bs bs' t t', events = done ++ e :: rest → runEvents env done s₀ = some t →
      survivingChain done = some bs → e.onChain bs = some bs' → e.run env t = some t' →
      P bs t → P bs' t')
    (hchain : survivingChain events = some blocks) (hrun : runEvents env events s₀ = some s) :
    P blocks s := by
  -- the surviving chain of every prefix goes along with its state
  have hind := foldlM_induction_split
    (P := fun done t => runEvents env done s₀ = some t ∧
      ∀ bs, survivingChain done = some bs → P bs t) ?_ ?_ hrun
  · exact hind.2 blocks hchain
  · refine ⟨rfl, fun bs hbs => ?_⟩
    cases Option.some.inj hbs
    exact start
  · rintro done e rest t t' hsplit ⟨hdone, hP⟩ hstep
    refine ⟨foldlM_append_eq_some.mpr ⟨t, hdone, foldlM_singleton_eq_some.mpr hstep⟩,
      fun bs' hbs' => ?_⟩
    obtain ⟨bs, hbs, he⟩ := foldlM_append_eq_some.mp hbs'
    exact step done e rest bs bs' t t' hsplit hdone hbs (foldlM_singleton_eq_some.mp he)
      hstep (hP bs hbs)

/-! ## Sound tables between blocks -/

/-- Between two blocks the tables are the folds of the ledger, whose rows are rows of surviving
blocks, and nothing waits in memory. -/
structure RestSound (blocks : List Block) (s : Session) : Prop where
  /-- The heights of the blocks increase. -/
  increasing : blocks.Pairwise fun b b' => b.height < b'.height
  /-- The rows of the ledger are rows of the blocks. -/
  heights : ∀ e ∈ s.db.ledger, ∃ b ∈ blocks, e.blockHeight = b.height
  /-- `supply_changes` is the fold of the ledger. -/
  supply : SupplySound (fun _ => True) s.db.supplyChanges s.db.ledger
  /-- So is `balance_changes`. -/
  balance : BalanceSound s.db.balanceChanges s.db.ledger
  /-- Nothing waits in memory. -/
  dbCache : s.cache.dbCache = .new

theorem RestSound.tablesSound {blocks : List Block} {s : Session} (h : RestSound blocks s) {k : Nat}
    (hk : ∀ b ∈ blocks, b.height ≤ k) : TablesSound k s := by
  have hpending : s.pending = [] := by rw [Session.pending, h.dbCache]; rfl
  refine ⟨⟨?_, h.supply, ?_, ?_⟩, h.balance, ?_, ?_⟩
  · intro e he
    obtain ⟨b, hb, heq⟩ := h.heights e he
    exact heq ▸ hk b hb
  · rw [hpending]
    exact fun e he => absurd he List.not_mem_nil
  all_goals rw [hpending, h.dbCache]
  · exact .nil _ k
  · exact .nil k _
  · exact .nil k _

theorem RestSound.of_empty {network : Network} {s : Session} (h : s.cache.Empty network)
    (hdb : s.db = .migrated) : RestSound [] s := by
  refine ⟨List.Pairwise.nil, ?_, ?_, ?_, h.dbCache⟩ <;> rw [hdb]
  · exact fun e he => absurd he List.not_mem_nil
  · exact .nil _
  · exact .nil

/-- Indexing a block above all others keeps the tables sound. -/
theorem RestSound.index {env : Environment} {blocks : List Block} {block : Block} {s s' : Session}
    (h : RestSound blocks s) (habove : ∀ b ∈ blocks, b.height < block.height)
    (hfits : ∀ t es, indexTransactions env block s = some t → t.entries = s.entries ++ es → Fits es)
    (hrun : indexBlock env block s = some s') : RestSound (blocks ++ [block]) s' := by
  obtain ⟨t, htxs, hflush⟩ := indexBlock_eq_some.mp hrun
  obtain ⟨es, rs, hwrites, hat, -⟩ := indexTransactions_writes htxs
  -- the entries of the block have its height
  have hes : ∀ e ∈ es, e.blockHeight = block.height := by
    intro e he
    obtain ⟨tx, -, hat⟩ := hat e he
    exact hat.blockHeight
  have hpending : s.pending = [] := by rw [Session.pending, h.dbCache]; rfl
  have ht := (h.tablesSound fun b hb => (habove b hb).le).writes hwrites hes
    (by rw [hpending, List.nil_append]; exact hfits t es htxs hwrites.entries_eq)
  -- closing the block flushes what its transactions left waiting
  have hs' : TablesSound block.height s' := by
    refine TablesSound.flush (s := closing env block t) ?_ hflush
    exact ⟨⟨ht.height_le, ht.supply, ht.pending_height, ht.pendingSupply⟩, ht.balance,
      ht.pendingIncreases, ht.pendingDeductions⟩
  obtain ⟨db, hdb, rfl⟩ := Session.flush_eq_some.mp hflush
  have hledger : db.ledger = s.db.ledger ++ es := by
    have hentries := hwrites.entries_eq
    rw [Session.entries, Session.entries, h.dbCache] at hentries
    rw [DbCache.flush_ledger hdb]
    exact hentries.trans (congrArg (· ++ es) (List.append_nil _))
  refine ⟨?_, ?_, hs'.supply, hs'.balance, rfl⟩
  -- the heights of the chain still increase
  · refine List.pairwise_append.mpr ⟨h.increasing, List.pairwise_singleton _ _, ?_⟩
    intro b hb b' hb'
    rw [List.mem_singleton.mp hb']
    exact habove b hb
  · intro e he
    rw [hledger] at he
    rcases List.mem_append.mp he with he | he
    · obtain ⟨b, hb, heq⟩ := h.heights e he
      exact ⟨b, List.mem_append_left _ hb, heq⟩
    · exact ⟨block, List.mem_append_right _ (List.mem_singleton.mpr rfl), hes e he⟩

/-- Rolling back the highest block keeps the tables sound. -/
theorem RestSound.rollBack {blocks : List Block} {height : Nat} {s : Session}
    (h : RestSound blocks s) (hlast : blocks.getLast?.map Block.height = some height) :
    RestSound blocks.dropLast (rollBackBlock height s) := by
  obtain ⟨b, hb, rfl⟩ := Option.map_eq_some_iff.mp hlast
  obtain ⟨lower, rfl⟩ := List.getLast?_eq_some_iff.mp hb
  obtain ⟨hincreasing, -, habove⟩ := List.pairwise_append.mp h.increasing
  -- no entry is above the block that is rolled back
  have hle : ∀ e ∈ s.db.ledger, e.blockHeight ≤ b.height := by
    intro e he
    obtain ⟨b', hb', heq⟩ := h.heights e he
    rcases List.mem_append.mp hb' with hb' | hb'
    · exact heq ▸ (habove b' hb' b (List.mem_singleton.mpr rfl)).le
    · rw [heq, List.mem_singleton.mp hb']
  rw [List.dropLast_concat]
  refine ⟨hincreasing, ?_, h.supply.rollBack hle, h.balance.rollBack hle, h.dbCache⟩
  intro e he
  obtain ⟨he, hne⟩ := List.mem_filter.mp he
  obtain ⟨b', hb', heq⟩ := h.heights e he
  rcases List.mem_append.mp hb' with hb' | hb'
  · exact ⟨b', hb', heq⟩
  · rw [List.mem_singleton.mp hb'] at heq
    exact absurd heq (of_decide_eq_true hne)

theorem RestSound.restart {blocks : List Block} {cap : Nat} {hcap : 0 < cap} {s s' : Session}
    (h : RestSound blocks s) (hrun : s.restart cap hcap = some s') : RestSound blocks s' := by
  obtain ⟨cache, hcache, rfl⟩ := restart_eq_some hrun
  exact ⟨h.increasing, h.heights, h.supply, h.balance, (IndexCache.new_empty hcache).dbCache⟩

/-- The tables of a run are sound. -/
theorem runEvents_restSound {env : Environment} {network : Network} {events : List Event}
    {blocks : List Block} {s₀ s : Session} (hempty : s₀.cache.Empty network)
    (hdb : s₀.db = .migrated) (hchain : survivingChain events = some blocks)
    (hoverflow : NoOverflow env events s₀) (hrun : runEvents env events s₀ = some s) :
    RestSound blocks s := by
  refine runEvents_induction (.of_empty hempty hdb) ?_ hchain hrun
  intro done e rest bs bs' t t' hsplit hdone _ hon hstep h
  cases e with
  | index block =>
    rw [Event.onChain] at hon
    split at hon
    · rename_i habove
      cases Option.some.inj hon
      exact h.index habove (fun u es hu hes => hoverflow done block rest t u es hsplit
        hdone hu hes) hstep
    · cases hon
  | rollBack height =>
    rw [Event.onChain] at hon
    split at hon
    · rename_i hlast
      cases Option.some.inj hon
      cases Option.some.inj hstep
      exact h.rollBack hlast
    · cases hon
  | restart cap hcap =>
    cases Option.some.inj hon
    exact h.restart hstep

/-- **The cumulative tables are the folds of the ledger.** In a run that indexes at increasing
heights and rolls back the highest block, for every height `k` the row of a rune with the greatest
height up to `k` has in each counter what the rune's ledger rows up to `k` add up to, and the row of
a rune and an address has as its balance what these rows say was received minus what was sent; there
is such a row whenever there is such a ledger row. -/
theorem tables_eq_fold {env : Environment} {network : Network} {cap : Nat} {hcap : 0 < cap}
    {events : List Event} {blocks : List Block} {s₀ s : Session}
    (hchain : survivingChain events = some blocks)
    (hstart : freshSession network cap hcap = some s₀) (hoverflow : NoOverflow env events s₀)
    (hrun : runEvents env events s₀ = some s) (k : Nat) :
    (∀ id, match latestBefore DbSupplyChange.runeId DbSupplyChange.blockHeight id (k + 1)
        s.db.supplyChanges with
      | some row => ∀ counter, row.counter counter = counted counter id (below (k + 1) s.db.ledger)
      | none => ∀ e ∈ s.db.ledger, e.blockHeight ≤ k → e.runeId ≠ id) ∧
    (∀ owner, match latestBefore BalanceRow.owner BalanceRow.blockHeight owner (k + 1)
        s.db.balanceChanges with
      | some row => row.balance = netBalance owner (below (k + 1) s.db.ledger)
      | none => ∀ e ∈ s.db.ledger, e.blockHeight ≤ k → ¬ e.Moves owner) := by
  obtain ⟨hempty, hdb⟩ := freshSession_eq_some hstart
  have h := runEvents_restSound hempty hdb hchain hoverflow hrun
  constructor
  · intro id
    cases hlatest : latestBefore DbSupplyChange.runeId DbSupplyChange.blockHeight id (k + 1)
        s.db.supplyChanges with
    | some row =>
      intro counter
      rw [← h.supply.reading counter trivial, reading, hlatest]
      rfl
    | none =>
      -- an entry up to the height leaves a row that the reading finds
      intro e he hk hid
      have hsome := (latestBefore_isSome_iff id (k + 1)).mpr
        ⟨e.blockHeight, Nat.lt_succ_of_le hk,
          (h.supply.hasRow id e.blockHeight).mpr ⟨e, he, hid, rfl⟩⟩
      rw [hlatest] at hsome
      cases hsome
  · intro owner
    cases hlatest : latestBefore BalanceRow.owner BalanceRow.blockHeight owner (k + 1)
        s.db.balanceChanges with
    | some row =>
      rw [← h.balance.reading, reading, hlatest]
      rfl
    | none =>
      intro e he hk hm
      have hsome := (latestBefore_isSome_iff owner (k + 1)).mpr
        ⟨e.blockHeight, Nat.lt_succ_of_le hk,
          (h.balance.hasRow owner e.blockHeight).mpr ⟨e, he, hm, rfl⟩⟩
      rw [hlatest] at hsome
      cases hsome

/-- A test of an event: everything that is written by the end of its block adds up to a `u128`. -/
def Event.valuesFit (env : Environment) (s : Session) : Event → Bool
  | .index block =>
    (indexTransactions env block s).all fun t => (t.entries.map DbLedgerEntry.value).sum < 2 ^ 128
  | _ => true

theorem NoOverflow.of_check {env : Environment} {events : List Event} {s₀ : Session}
    (h : checkRun (Event.run env) (Event.valuesFit env) events s₀ = true) :
    NoOverflow env events s₀ := by
  intro done block rest s t es hsplit hdone hblock hes
  have hfit := of_checkRun h hsplit hdone
  rw [Event.valuesFit, hblock, Option.all_some, decide_eq_true_iff, hes, List.map_append,
    List.sum_append] at hfit
  exact Fits.of_values (by omega)

/-- After `forkEvents`, alice has minted twice and bob has spent what he was sent. -/
theorem tables_eq_fold_forkEvents :
    ∃ s₀ s supply balance, freshSession .bitcoin 2 Nat.two_pos = some s₀ ∧
    runEvents mintEnv forkEvents s₀ = some s ∧
    latestBefore DbSupplyChange.runeId DbSupplyChange.blockHeight ⟨1, 0⟩ 840004 s.db.supplyChanges =
      some supply ∧
    latestBefore BalanceRow.owner BalanceRow.blockHeight (⟨1, 0⟩, "alice") 840003
      s.db.balanceChanges = some balance ∧
    supply.minted = 2 ∧ balance.balance = 1 ∧
    (∀ counter, supply.counter counter = counted counter ⟨1, 0⟩ (below 840004 s.db.ledger)) ∧
    balance.balance = netBalance (⟨1, 0⟩, "alice") (below 840003 s.db.ledger) := by
  have hruns : (freshSession .bitcoin 2 Nat.two_pos).any fun s₀ =>
      checkRun (Event.run mintEnv) (Event.valuesFit mintEnv) forkEvents s₀ ∧
      (runEvents mintEnv forkEvents s₀).any fun s =>
        ((latestBefore DbSupplyChange.runeId DbSupplyChange.blockHeight ⟨1, 0⟩ 840004
          s.db.supplyChanges).any fun row => row.minted = 2) ∧
        ((latestBefore BalanceRow.owner BalanceRow.blockHeight (⟨1, 0⟩, "alice") 840003
          s.db.balanceChanges).any fun row => row.balance = 1) := by
    decide +kernel
  obtain ⟨s₀, hstart, h⟩ := (Option.any_eq_true _ _).mp hruns
  obtain ⟨hcheck, hany⟩ := of_decide_eq_true h
  obtain ⟨s, hrun, h⟩ := (Option.any_eq_true _ _).mp hany
  obtain ⟨hsupply, hbalance⟩ := of_decide_eq_true h
  obtain ⟨supply, hlatest, htwo⟩ := (Option.any_eq_true _ _).mp hsupply
  obtain ⟨balance, hlatest', hone⟩ := (Option.any_eq_true _ _).mp hbalance
  -- both blocks that were rolled back are gone from the chain
  have hchain : survivingChain forkEvents = some [mintBlock, forkBlock, joinBlock] := rfl
  have hcounted := (tables_eq_fold hchain hstart (.of_check hcheck) hrun 840003).1 ⟨1, 0⟩
  have hnet := (tables_eq_fold hchain hstart (.of_check hcheck) hrun 840002).2 (⟨1, 0⟩, "alice")
  rw [hlatest] at hcounted
  rw [hlatest'] at hnet
  exact ⟨s₀, s, supply, balance, hstart, hrun, hlatest, hlatest', of_decide_eq_true htwo,
    of_decide_eq_true hone, hcounted, hnet⟩

end Runehook
