import Runehook.BalanceRuns
import Runehook.SideBySide

/-! # Reorganisations

`roll_back_block` deletes the rows of a block and leaves the caches of the process as they are. A
process that has seen forks ends up with the tables of one that indexed the surviving blocks only
(`SameTables`), if what it looks up while it indexes these blocks comes to what the other process
looks up (`Block.IndexedAlike`): this is `sameTables_of_indexedAlike`. The tables of the two are
traced back to the sessions from which their surviving blocks were indexed (`Indexed`,
`runEvents_indexed`) and compared block by block (`Indexed.sameTotals`). -/

namespace Runehook

open Lib

/-! ## The same tables -/

/-- **The four tables that blocks write have the same contents**, but for the order in which the
entries of different runes of a transaction are numbered. -/
structure SameTables (db db' : Db) : Prop where
  /-- The ledger, but for that order. -/
  ledger : SameLedger db.ledger db'.ledger
  /-- The runes, in order. -/
  runes : db.runes = db'.runes
  /-- The rows of `supply_changes`. -/
  supplyChanges : db.supplyChanges.Perm db'.supplyChanges
  /-- The rows of `balance_changes`. -/
  balanceChanges : db.balanceChanges.Perm db'.balanceChanges

section

variable {db db' : Db}

/-- The rows of `supply_changes` follow from those of the ledger and from what is minted and
burned. -/
theorem supplyChanges_perm (h : SupplySound SupplyCounter.IsCount db.supplyChanges db.ledger)
    (h' : SupplySound SupplyCounter.IsCount db'.supplyChanges db'.ledger)
    (hsame : SameRows db.ledger db'.ledger)
    (hamounts : ∀ counter, counter = .minted ∨ counter = .burned → ∀ id k,
      db.supplyReading counter id k = db'.supplyReading counter id k) :
    db.supplyChanges.Perm db'.supplyChanges := by
  refine h.unique.perm h'.unique (fun id k => ?_) fun r hr r' hr' hid hheight => ?_
  -- an entry of the rune at the height is on both sides or on neither
  · have himp : ∀ {l l' : List DbLedgerEntry}, SameRows l l' →
        (∃ e ∈ l, e.runeId = id ∧ e.blockHeight = k) → ∃ e ∈ l', e.runeId = id ∧
        e.blockHeight = k := by
      rintro l l' hl ⟨e, he, rfl, rfl⟩
      obtain ⟨e', he', heq⟩ := hl.exists_mem he
      exact ⟨e', he', (congrArg DbLedgerEntry.runeId heq :),
        (congrArg DbLedgerEntry.blockHeight heq :)⟩
    rw [h.hasRow, h'.hasRow]
    exact ⟨himp hsame, himp hsame.symm⟩
  · -- each counter of a row is what is read right above the row
    have hcounter : ∀ counter, r.counter counter = r'.counter counter := by
      intro counter
      rw [← reading_of_mem (fun c : DbSupplyChange => c.counter counter) h.unique hr,
        ← reading_of_mem (fun c : DbSupplyChange => c.counter counter) h'.unique hr', hid, hheight]
      by_cases hamount : counter = .minted ∨ counter = .burned
      · exact hamounts counter hamount _ _
      · have hcount : counter.IsCount := not_or.mp hamount
        rw [h.reading counter hcount, h'.reading counter hcount]
        exact (hsame.below _).counted_eq counter _
    obtain ⟨id, height, minted, totalMints, burned, totalBurns, totalOperations⟩ := r
    obtain ⟨id', height', minted', totalMints', burned', totalBurns', totalOperations'⟩ := r'
    simp only [DbSupplyChange.mk.injEq]
    exact ⟨hid, hheight, hcounter .minted, hcounter .totalMints, hcounter .burned,
      hcounter .totalBurns, hcounter .totalOperations⟩

/-- A row of `balance_changes` is determined by what is read right above it. -/
theorem balanceChanges_perm {blocks : List Block} {s t : Session} (h : RestInStep blocks s)
    (h' : RestInStep blocks t) (hsame : SameTotals s.db t.db) :
    s.db.balanceChanges.Perm t.db.balanceChanges := by
  refine h.unique.perm h'.unique (fun o k => ?_) fun r hr r' hr' howner hheight => ?_
  · have himp : ∀ {l l' : List DbLedgerEntry}, SameRows l l' →
        (∃ e ∈ l, e.Moves o ∧ e.blockHeight = k) → ∃ e ∈ l', e.Moves o ∧ e.blockHeight = k := by
      rintro l l' hl ⟨e, he, hmoves, rfl⟩
      obtain ⟨e', he', heq⟩ := hl.exists_mem he
      have hmoves' : e'.unnumbered.Moves o := heq ▸ hmoves
      exact ⟨e', he', hmoves', (congrArg DbLedgerEntry.blockHeight heq :)⟩
    rw [h.owners, h'.owners]
    exact ⟨himp hsame.ledger.rows, himp hsame.ledger.rows.symm⟩
  · have hbalance : r.balance = r'.balance := by
      rw [← reading_of_mem BalanceRow.balance h.unique hr,
        ← reading_of_mem BalanceRow.balance h'.unique hr', howner, hheight]
      exact hsame.balances _ _
    have htotal : r.totalOperations = r'.totalOperations := by
      rw [← reading_of_mem BalanceRow.totalOperations h.unique hr,
        ← reading_of_mem BalanceRow.totalOperations h'.unique hr', howner, hheight]
      exact hsame.operations _ _
    obtain ⟨id, height, address, balance, total⟩ := r
    obtain ⟨id', height', address', balance', total'⟩ := r'
    obtain ⟨hid, haddress⟩ := Prod.mk.inj howner
    simp only [BalanceRow.mk.injEq]
    exact ⟨hid, hheight, haddress, hbalance, htotal⟩

end

/-! ## The blocks that survive -/

/-- What an event makes of the surviving blocks, the newest first, each with the session from which
it was indexed. -/
def Event.survivors (s : Session) (stack : List (Session × Block)) : Event → List (Session × Block)
  | .index block => (s, block) :: stack
  | .rollBack _ => stack.tail
  | .restart _ _ => stack

/-- An event, with the blocks that survive. -/
def Event.runSurviving (env : Environment) (p : Session × List (Session × Block)) (e : Event) :
    Option (Session × List (Session × Block)) :=
  (e.run env p.1).map fun s => (s, e.survivors p.1 p.2)

/-- The blocks that survive a run, the newest first, each with the session from which it was
indexed. -/
def survivors (env : Environment) (events : List Event) (s₀ : Session) : List (Session × Block) :=
  ((events.foldlM (Event.runSurviving env) (s₀, [])).map Prod.snd).getD []

/-- A run keeps track of the surviving blocks. -/
theorem runSurviving_of_run {env : Environment} {events : List Event} {s₀ s : Session}
    (hrun : runEvents env events s₀ = some s) :
    events.foldlM (Event.runSurviving env) (s₀, []) = some (s, survivors env events s₀) := by
  -- for any stack to start from
  have hfst : ∀ (events : List Event) (p : Session × List (Session × Block)) (s : Session),
      runEvents env events p.1 = some s → ∃ stack,
      events.foldlM (Event.runSurviving env) p = some (s, stack) := by
    intro events
    induction events with
    | nil =>
      intro p s h
      cases Option.some.inj h
      exact ⟨p.2, rfl⟩
    | cons e events ih =>
      intro p s h
      obtain ⟨t, ht, h⟩ := foldlM_cons_eq_some.mp h
      obtain ⟨stack, hstack⟩ := ih (t, e.survivors p.1 p.2) s h
      exact ⟨stack,
        foldlM_cons_eq_some.mpr ⟨_, by rw [Event.runSurviving, ht, Option.map_some], hstack⟩⟩
  obtain ⟨stack, hstack⟩ := hfst events (s₀, []) s hrun
  rw [survivors, hstack, Option.map_some, Option.getD_some]

/-- The tables of a session at rest are those that the blocks of a list leave, the newest first,
each indexed from a session with the tables that the older ones leave. -/
inductive Indexed (env : Environment) (network : Network) : List (Session × Block) → Session → Prop
  /-- No block has left anything. -/
  | nil {s : Session} (hrest : s.cache.dbCache = .new) (hnetwork : s.cache.network = network)
      (htables : s.db.tables = Db.migrated.tables) : Indexed env network [] s
  /-- A block was indexed above the others, by a session that has what they left. -/
  | index {stack : List (Session × Block)} {block : Block} {s s' t : Session}
      (h : Indexed env network stack s)
      (habove : ∀ p ∈ stack, p.2.height < block.height) (hrun : indexBlock env block s = some s')
      (hrest : t.cache.dbCache = .new) (hnetwork : t.cache.network = network)
      (htables : t.db.tables = s'.db.tables) :
    Indexed env network ((s, block) :: stack) t

theorem Db.rowsWhere_congr {db db' : Db} (h : db.tables = db'.tables) (p : Nat → Bool) :
    db.rowsWhere p = db'.rowsWhere p := by
  obtain ⟨hrunes, hledger, hsupply, hbalance⟩ := BlockRows.mk.inj h
  simp only [Db.rowsWhere, hrunes, hledger, hsupply, hbalance]

/-- The heights of the surviving blocks increase. -/
theorem survivingChain_pairwise {events : List Event} {chain : List Block}
    (h : survivingChain events = some chain) :
    chain.Pairwise fun b b' => b.height < b'.height := by
  refine foldlM_invariant List.Pairwise.nil (fun e bs bs' hbs hon => ?_) h
  cases e with
  | index block =>
    rw [Event.onChain] at hon
    split at hon
    · next habove =>
      cases hon
      refine List.pairwise_append.mpr ⟨hbs, List.pairwise_singleton _ _, fun b hb b' hb' => ?_⟩
      rw [List.mem_singleton.mp hb']
      exact habove b hb
    · cases hon
  | rollBack height =>
    rw [Event.onChain] at hon
    split at hon
    · cases hon
      exact hbs.sublist (List.dropLast_sublist bs)
    · cases hon
  | restart cap hcap =>
    cases hon
    exact hbs

section

variable {env : Environment} {network : Network} {stack stack' : List (Session × Block)}
    {s t : Session}

theorem Indexed.dbCache (h : Indexed env network stack s) : s.cache.dbCache = .new := by
  cases h with
  | nil hrest _ _ => exact hrest
  | index _ _ _ hrest _ _ => exact hrest

theorem Indexed.network_eq (h : Indexed env network stack s) : s.cache.network = network := by
  cases h with
  | nil _ hnetwork _ => exact hnetwork
  | index _ _ _ _ hnetwork _ => exact hnetwork

/-- Only the tables matter. -/
theorem Indexed.of_tables (h : Indexed env network stack s) (hrest : t.cache.dbCache = .new)
    (hnetwork : t.cache.network = network) (htables : t.db.tables = s.db.tables) :
    Indexed env network stack t := by
  cases h with
  | nil _ _ hmigrated => exact .nil hrest hnetwork (htables.trans hmigrated)
  | index h habove hrun _ _ hindexed =>
    exact .index h habove hrun hrest hnetwork (htables.trans hindexed)

/-- At a height at which no block of the list is, the tables are as the migrations leave them. -/
theorem Indexed.rowsWhere_eq (h : Indexed env network stack s) {k : Nat}
    (hk : ∀ p ∈ stack, p.2.height ≠ k) :
    s.db.rowsWhere (· = k) = Db.migrated.rowsWhere (· = k) := by
  induction h with
  | nil _ _ htables => exact Db.rowsWhere_congr htables _
  | index h _ hrun _ _ htables ih =>
    obtain ⟨hne, hrest⟩ := List.forall_mem_cons.mp hk
    rw [Db.rowsWhere_congr htables, (rowsWhere_indexBlock h.dbCache hrun).2 _ (decide_eq_false hne)]
    exact ih hrest

/-- **Rolling back the newest block** restores the tables that it was indexed on, but at the height
at which the migrations have UNCOMMON•GOODS. -/
theorem Indexed.rollBack {block : Block} (h : Indexed env network ((s, block) :: stack) t)
    (hgenesis : block.height ≠ 840000) :
    Indexed env network stack (rollBackBlock block.height t) := by
  cases h with
  | index h habove hrun hrest hnetwork htables =>
    refine h.of_tables hrest hnetwork ?_
    have hnone : Db.migrated.rowsWhere (· = block.height) = .none := by
      simp only [Db.rowsWhere, Db.migrated, List.filter_nil, BlockRows.none, uncommonGoods]
      simp [Ne.symm hgenesis]
    -- the rows at other heights were there before the block, and there were none at its own
    calc (pgRollBackBlock block.height t.db).tables = t.db.rowsWhere (· ≠ block.height) :=
      tables_rollBack _ _
      _ = s.db.rowsWhere (· ≠ block.height) := by
        rw [Db.rowsWhere_congr htables, (rowsWhere_indexBlock h.dbCache hrun).2 _ (by simp)]
      _ = s.db.tables := by
        rw [rowsWhere_ne_eq_tables_iff, h.rowsWhere_eq fun p hp => (habove p hp).ne, hnone]

/-- **The tables of a run** are those that its surviving blocks leave. -/
theorem runEvents_indexed {cap : Nat} {hcap : 0 < cap} {events : List Event} {chain : List Block}
    {s₀ : Session} (hstart : freshSession network cap hcap = some s₀)
    (hchain : survivingChain events = some chain) (hgenesis : ∀ e ∈ events, e ≠ .rollBack 840000)
    (hrun : runEvents env events s₀ = some s) :
    Indexed env network (survivors env events s₀) s ∧
      (survivors env events s₀).map Prod.snd = chain.reverse := by
  obtain ⟨hempty, hdb⟩ := freshSession_eq_some hstart
  have hind := foldlM_induction_split (P := fun done p => ∀ bs, survivingChain done = some bs →
    Indexed env network p.2 p.1 ∧ p.2.map Prod.snd = bs.reverse) ?_ ?_ (runSurviving_of_run hrun)
  · exact hind chain hchain
  · intro bs hbs
    cases Option.some.inj hbs
    exact ⟨.nil hempty.dbCache hempty.network (by rw [hdb]), rfl⟩
  · rintro done e rest ⟨t, stack⟩ p' hsplit hP hstep bs' hbs'
    obtain ⟨bs, hbs, hon⟩ := foldlM_append_eq_some.mp hbs'
    have hon := foldlM_singleton_eq_some.mp hon
    obtain ⟨hindexed, hblocks⟩ := hP bs hbs
    obtain ⟨t', ht', rfl⟩ := Option.map_eq_some_iff.mp hstep
    have hindexed : Indexed env network stack t := hindexed
    cases e with
    | index block =>
      rw [Event.onChain] at hon
      split at hon
      · next habove =>
        cases hon
        -- the block goes on top, above all others
        have hmem : ∀ p ∈ stack, p.2 ∈ bs := fun p hp =>
          List.mem_reverse.mp (hblocks ▸ List.mem_map_of_mem hp)
        refine ⟨.index hindexed (fun p hp => habove p.2 (hmem p hp)) ht'
          (rowsWhere_indexBlock hindexed.dbCache ht').1 ?_ rfl, ?_⟩
        · obtain ⟨u, hu, hflush⟩ := indexBlock_eq_some.mp ht'
          obtain ⟨_, _, hwrites, -⟩ := indexTransactions_writes hu
          rw [(Session.Writes.flush hflush).network_eq]
          exact hwrites.network_eq.trans hindexed.network_eq
        · show block :: stack.map Prod.snd = (bs ++ [block]).reverse
          rw [List.reverse_append, hblocks]
          rfl
      · cases hon
    | rollBack height =>
      rw [Event.onChain] at hon
      split at hon
      · next hlast =>
        cases hon
        cases Option.some.inj ht'
        -- the newest block of the list is the last of the chain
        obtain ⟨last, hget, rfl⟩ := Option.map_eq_some_iff.mp hlast
        have hbs : bs = bs.dropLast ++ [last] := (List.dropLast_append_getLast? last hget).symm
        rw [hbs, List.reverse_append] at hblocks
        cases stack with
        | nil => cases hblocks
        | cons p stack =>
          obtain ⟨hhead, htail⟩ := List.cons.inj hblocks
          obtain ⟨u, block⟩ := p
          have hlast : block = last := hhead
          subst hlast
          have hne : block.height ≠ 840000 := fun heq =>
            hgenesis _ (hsplit ▸ List.mem_append_right _ List.mem_cons_self)
              (congrArg Event.rollBack heq)
          exact ⟨hindexed.rollBack hne, htail⟩
      · cases hon
    | restart cap hcap =>
      -- a restart changes the caches only
      cases hon
      obtain ⟨cache, hcache, rfl⟩ := restart_eq_some ht'
      have hnew := IndexCache.new_empty hcache
      exact ⟨hindexed.of_tables hnew.dbCache (hnew.network.trans hindexed.network_eq) rfl, hblocks⟩

end

/-! ## Forks -/

/-- **Two processes index a block alike**: before each of its stages what they look up comes to the
same, and so do the sums that wait. -/
def Block.IndexedAlike (env env' : Environment) (block : Block) (s t : Session) : Prop :=
  EveryPair env env' (Stage.Alike env env') (block.stages env) s t

/-- **Nothing is asked of blocks that are indexed from the same session**: before its first
rollback or restart a process is the fresh one. -/
theorem Block.IndexedAlike.refl (env : Environment) (block : Block) (s : Session) :
    block.IndexedAlike env env s s :=
  EveryPair.refl (Stage.Alike.refl env) _ s

/-- So a run without rollbacks and restarts meets the condition, whatever its blocks are. -/
theorem survivors_indexedAlike (env : Environment) (chain : List Block) (s₀ : Session) :
    List.Forall₂ (fun p q : Session × Block => p.2.IndexedAlike env env p.1 q.1)
      (survivors env (chain.map Event.index) s₀) (survivors env (chain.map Event.index) s₀) :=
  List.forall₂_same.mpr fun p _ => .refl env p.2 p.1

section

variable {env env' : Environment} {network : Network} {s t : Session}

theorem SameTables.of_totals {blocks : List Block} (h : SameTotals s.db t.db)
    (hs : RestInStep blocks s) (ht : RestInStep blocks t) : SameTables s.db t.db :=
  ⟨h.ledger, h.runes, supplyChanges_perm hs.supply ht.supply h.ledger.rows h.amounts,
    balanceChanges_perm hs ht h⟩

/-- The tables that the migrations leave, between two blocks. -/
theorem RestInStep.of_migrated (hrest : s.cache.dbCache = .new)
    (htables : s.db.tables = Db.migrated.tables) : RestInStep [] s := by
  obtain ⟨-, hledger, hsupply, hbalance⟩ := BlockRows.mk.inj htables
  have hnil := BalanceSound.nil
  refine ⟨List.Pairwise.nil, ?_, ?_, ?_, ?_, hrest⟩
  · rw [hledger]
    exact fun e he => absurd he List.not_mem_nil
  · rw [hledger, hsupply]
    exact .nil _
  · rw [hledger, hbalance]
    exact hnil.hasRow
  · rw [hbalance]
    exact hnil.unique

/-- Between two blocks only the tables matter. -/
theorem RestInStep.of_tables {blocks : List Block} (h : RestInStep blocks s)
    (hrest : t.cache.dbCache = .new) (htables : t.db.tables = s.db.tables) :
    RestInStep blocks t := by
  obtain ⟨-, hledger, hsupply, hbalance⟩ := BlockRows.mk.inj htables
  refine ⟨h.increasing, ?_, ?_, ?_, ?_, hrest⟩
  · exact hledger ▸ h.heights
  · rw [hledger, hsupply]
    exact h.supply
  · rw [hledger, hbalance]
    exact h.owners
  · exact hbalance ▸ h.unique

theorem SameTotals.of_tables {db db' db₁ db₁' : Db} (h : SameTotals db db')
    (htables : db₁.tables = db.tables) (htables' : db₁'.tables = db'.tables) :
    SameTotals db₁ db₁' := by
  obtain ⟨hrunes, hledger, hsupply, hbalance⟩ := BlockRows.mk.inj htables
  obtain ⟨hrunes', hledger', hsupply', hbalance'⟩ := BlockRows.mk.inj htables'
  refine ⟨?_, ?_, fun counter hc id k => ?_, fun o k => ?_, fun o k => ?_⟩
  · rw [hledger, hledger']
    exact h.ledger
  · rw [hrunes, hrunes', h.runes]
  · rw [Db.supplyReading, Db.supplyReading, hsupply, hsupply']
    exact h.amounts counter hc id k
  · rw [Db.balanceReading, Db.balanceReading, hbalance, hbalance']
    exact h.balances o k
  · rw [Db.balanceReading, Db.balanceReading, hbalance, hbalance']
    exact h.operations o k

/-- **Blocks that are indexed alike leave the same tables**, block by block. -/
theorem Indexed.sameTotals {stack stack' : List (Session × Block)} (hsame : env.SameProtocol env')
    (h : Indexed env network stack s) (h' : Indexed env' network stack' t)
    (hblocks : stack.map Prod.snd = stack'.map Prod.snd)
    (halike : List.Forall₂ (fun p q => p.2.IndexedAlike env env' p.1 q.1) stack stack') :
    SameTotals s.db t.db ∧ RestInStep (stack.map Prod.snd).reverse s ∧
      RestInStep (stack.map Prod.snd).reverse t := by
  induction h generalizing stack' t with
  | nil hrest _ htables =>
    cases halike
    cases h' with
    | nil hrest' _ htables' =>
      have hmigrated : SameTotals Db.migrated Db.migrated :=
        ⟨.nil, rfl, fun _ _ _ _ => rfl, fun _ _ => rfl, fun _ _ => rfl⟩
      exact ⟨hmigrated.of_tables htables htables', .of_migrated hrest htables,
        .of_migrated hrest' htables'⟩
  | @index stack block u u' s h habove hrun hrest _ htables ih =>
    cases halike with
    | @cons _ q _ stack' hnewest hindexed =>
      obtain ⟨v, block'⟩ := q
      obtain ⟨hblock, holder⟩ := List.cons.inj hblocks
      have hblock : block = block' := hblock
      subst hblock
      cases h' with
      | index h' _ hrun' hrest' _ htables' =>
        -- the older blocks leave the same tables, on which the newest one is indexed alike
        obtain ⟨hsametables, hu, hv⟩ := ih h' holder hindexed
        have hbelow : ∀ b ∈ (stack.map Prod.snd).reverse, b.height < block.height := by
          intro b hb
          obtain ⟨p, hp, rfl⟩ := List.mem_map.mp (List.mem_reverse.mp hb)
          exact habove p hp
        obtain ⟨hnext, hu', hv'⟩ := hsametables.indexBlock hsame
          (h.network_eq.trans h'.network_eq.symm) hu hv hbelow hnewest hrun hrun'
        rw [List.map_cons, List.reverse_cons]
        exact ⟨hnext.of_tables htables htables', hu'.of_tables hrest htables,
          hv'.of_tables hrest' htables'⟩

end

/-- **A process that has seen forks has the tables of a fresh one**, if the two index the surviving
blocks alike, and if the block at the height of UNCOMMON•GOODS is never rolled back. The two may
iterate their maps, and get their rows, in different orders. -/
theorem sameTables_of_indexedAlike {env env' : Environment} {network : Network} {cap cap' : Nat}
    {hcap : 0 < cap} {hcap' : 0 < cap'} {events : List Event} {chain : List Block}
    {s₀ t₀ s t : Session} (hsame : env.SameProtocol env')
    (hchain : survivingChain events = some chain) (hgenesis : ∀ e ∈ events, e ≠ .rollBack 840000)
    (hstart : freshSession network cap hcap = some s₀)
    (hstart' : freshSession network cap' hcap' = some t₀)
    (hrun : runEvents env events s₀ = some s)
    (hrun' : runEvents env' (chain.map Event.index) t₀ = some t)
    (halike : List.Forall₂ (fun p q => p.2.IndexedAlike env env' p.1 q.1) (survivors env events s₀)
      (survivors env' (chain.map Event.index) t₀)) : SameTables s.db t.db := by
  obtain ⟨hindexed, hblocks⟩ := runEvents_indexed hstart hchain hgenesis hrun
  -- the surviving chain is itself a run, without forks
  have hforward : ∀ e ∈ chain.map Event.index, e.Forward := by
    intro e he
    obtain ⟨b, -, rfl⟩ := List.mem_map.mp he
    trivial
  have hall : indexedBlocks (chain.map Event.index) = chain := by
    rw [indexedBlocks, List.filterMap_map]
    exact List.filterMap_some
  have hgenesis' : ∀ e ∈ chain.map Event.index, e ≠ .rollBack 840000 := by
    rintro e he rfl
    exact hforward _ he
  have hchain' := survivingChain_of_forward hforward (hall.symm ▸ survivingChain_pairwise hchain)
  rw [hall] at hchain'
  obtain ⟨hindexed', hblocks'⟩ := runEvents_indexed hstart' hchain' hgenesis' hrun'
  obtain ⟨htotals, hs, ht⟩ :=
    hindexed.sameTotals hsame hindexed' (hblocks.trans hblocks'.symm) halike
  exact .of_totals htotals hs ht

/-! ## Two forks -/

/-- A test whether two processes do the same in a stage. -/
def Stage.checkAlike (env env' : Environment) (s t : Session) (stage : Stage) : Bool :=
  decide (stage.ReadsAlike env env' s t) &&
    match stage with
    | .call block a => (a.run env block s).any fun s' =>
        let rows := (s'.entries.drop s.entries.length).map DbLedgerEntry.row
        (a.lookups s).all fun u => (a.lookups t).all fun v => rows.all fun row =>
          row.sum.all fun q => q.Alike (added q rows) (u.waiting q) (v.waiting q)
    | _ => true

theorem Stage.Alike.of_check {env env' : Environment} {s t : Session} {stage : Stage}
    (h : stage.checkAlike env env' s t = true) : stage.Alike env env' s t := by
  obtain ⟨hreads, hwaits⟩ := (Bool.and_eq_true _ _).mp h
  refine ⟨of_decide_eq_true hreads, ?_⟩
  cases stage with
  | call block a =>
    obtain ⟨s', hrun, hcheck⟩ := (Option.any_eq_true _ _).mp hwaits
    intro u v hu hv id row hrow q hq
    by_cases hbegin : ∃ tx, a = .beginTransaction tx
    · obtain ⟨tx, rfl⟩ := hbegin
      cases hrow
    · obtain ⟨es, rs, hwrites, -, hrows⟩ := Action.run_reads (fun tx ha => hbegin ⟨tx, ha⟩) hrun
      rw [hwrites.entries_eq, List.drop_left, hu, hv, Option.all_some, Option.all_some,
        List.all_eq_true] at hcheck
      rw [← (hrows id).1] at hrow ⊢
      obtain ⟨e, he, rfl⟩ := List.mem_map.mp hrow
      -- a sum counts the entries of its own rune
      have hid : q.runeId = id :=
        (runeId_of_sum hq).trans (of_decide_eq_true (List.mem_filter.mp he).2)
      have hone := hcheck e.row (List.mem_map_of_mem (List.mem_of_mem_filter he))
      rw [show e.row.sum = some q from hq, Option.all_some, added_ofRune, hid] at hone
      exact of_decide_eq_true hone
  | _ => trivial

/-- A test whether two processes index a block alike. -/
def Block.checkAlike (env env' : Environment) (block : Block) (s t : Session) : Bool :=
  checkPairs env env' (Stage.checkAlike env env') (block.stages env) s t

theorem Block.IndexedAlike.of_check {env env' : Environment} {block : Block} {s t : Session}
    (h : block.checkAlike env env' s t = true) : block.IndexedAlike env env' s t :=
  EveryPair.of_check (fun _ _ _ => Stage.Alike.of_check) h

/-- `mintEnv`, the other way round. -/
def backwardMintEnv : Environment :=
  { mintEnv with
    runeOrder := fun _ l => l.reverse
    runeOrder_perm := fun _ l => l.reverse_perm
    outputOrder := List.reverse
    outputOrder_perm := List.reverse_perm
    rowOrder := List.reverse
    rowOrder_perm := List.reverse_perm }

/-- The theorem on `forkEvents`, beside a process with smaller caches that iterates the other way
round. After the restart the first process flushes in the middle of `forkBlock`, the other one does
not. -/
theorem sameTables_of_indexedAlike_forkEvents : ∃ s₀ t₀ s t,
    freshSession .bitcoin 2 Nat.two_pos = some s₀ ∧ freshSession .bitcoin 1 Nat.one_pos = some t₀ ∧
    runEvents mintEnv forkEvents s₀ = some s ∧
    runEvents backwardMintEnv ([mintBlock, forkBlock, joinBlock].map Event.index) t₀ = some t ∧
    SameTables s.db t.db := by
  have hruns : (freshSession .bitcoin 2 Nat.two_pos).any fun s₀ =>
      (freshSession .bitcoin 1 Nat.one_pos).any fun t₀ =>
      (runEvents mintEnv forkEvents s₀).isSome ∧
      (runEvents backwardMintEnv ([mintBlock, forkBlock, joinBlock].map Event.index) t₀).isSome ∧
      (survivors mintEnv forkEvents s₀).length =
        (survivors backwardMintEnv ([mintBlock, forkBlock, joinBlock].map Event.index) t₀).length ∧
      ∀ p ∈ (survivors mintEnv forkEvents s₀).zip
        (survivors backwardMintEnv ([mintBlock, forkBlock, joinBlock].map Event.index) t₀),
        p.1.2.checkAlike mintEnv backwardMintEnv p.1.1 p.2.1 = true := by
    decide +kernel
  obtain ⟨s₀, hstart, h⟩ := (Option.any_eq_true _ _).mp hruns
  obtain ⟨t₀, hstart', h⟩ := (Option.any_eq_true _ _).mp h
  obtain ⟨hrun, hrun', hlength, hcheck⟩ := of_decide_eq_true h
  obtain ⟨s, hrun⟩ := Option.isSome_iff_exists.mp hrun
  obtain ⟨t, hrun'⟩ := Option.isSome_iff_exists.mp hrun'
  have hsame : mintEnv.SameProtocol backwardMintEnv := ⟨rfl, rfl, rfl⟩
  have hchain : survivingChain forkEvents = some [mintBlock, forkBlock, joinBlock] := rfl
  have hgenesis : ∀ e ∈ forkEvents, e ≠ .rollBack 840000 := by simp [forkEvents]
  -- the lookups agree at every block of the surviving chain
  have halike : List.Forall₂
      (fun p q : Session × Block => p.2.IndexedAlike mintEnv backwardMintEnv p.1 q.1)
      (survivors mintEnv forkEvents s₀)
      (survivors backwardMintEnv ([mintBlock, forkBlock, joinBlock].map Event.index) t₀) :=
    List.forall₂_iff_zip.mpr ⟨hlength, fun hpq => .of_check (hcheck _ hpq)⟩
  exact ⟨s₀, t₀, s, t, hstart, hstart', hrun, hrun',
    sameTables_of_indexedAlike hsame hchain hgenesis hstart hstart' hrun hrun' halike⟩

/-- A block that takes the place of `mintBlock`, with the same transaction. -/
def remintBlock : Block := { mintBlock with hash := "0xb1b" }

/-- `mintBlock` is rolled back, its transaction is mined again, and what it minted is spent. -/
def remintEvents : List Event :=
  [.index mintBlock, .rollBack 840001, .index remintBlock, .index spendBlock]

/-- **A transaction that is mined again counts twice**: the output that it paid to is still in the
LRU cache, where the end of the second block adds to it what is there. A fresh process sends one
unit on to bob, this one two. -/
theorem exists_not_sameTables : ∃ s₀ s t, freshSession .bitcoin 2 (by decide) = some s₀ ∧
    survivingChain remintEvents = some [remintBlock, spendBlock] ∧
    runEvents mintEnv remintEvents s₀ = some s ∧
    runEvents mintEnv ([remintBlock, spendBlock].map Event.index) s₀ = some t ∧
    credits ("spend", 0) ⟨1, 0⟩ s.db.ledger = [⟨some "bob", 2⟩] ∧
    credits ("spend", 0) ⟨1, 0⟩ t.db.ledger = [⟨some "bob", 1⟩] ∧ ¬ SameTables s.db t.db := by
  have hruns : (freshSession .bitcoin 2 (by decide)).any fun s₀ =>
      (runEvents mintEnv remintEvents s₀).any fun s =>
        (runEvents mintEnv ([remintBlock, spendBlock].map Event.index) s₀).any fun t =>
          credits ("spend", 0) ⟨1, 0⟩ s.db.ledger = [⟨some "bob", 2⟩] ∧
            credits ("spend", 0) ⟨1, 0⟩ t.db.ledger = [⟨some "bob", 1⟩] := by
    decide +kernel
  obtain ⟨s₀, hstart, h⟩ := (Option.any_eq_true _ _).mp hruns
  obtain ⟨s, hrun, h⟩ := (Option.any_eq_true _ _).mp h
  obtain ⟨t, hrun', h⟩ := (Option.any_eq_true _ _).mp h
  obtain ⟨htwo, hone⟩ := of_decide_eq_true h
  refine ⟨s₀, s, t, hstart, by decide, hrun, hrun', htwo, hone, fun hsame => ?_⟩
  have hcredits := hsame.ledger.rows.credits_eq ("spend", 0) ⟨1, 0⟩
  rw [htwo, hone] at hcredits
  exact absurd hcredits (by decide)

end Runehook
