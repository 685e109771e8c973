import Runehook.Layers

/-! # Runs of the indexer

What blocks, restarts and fresh starts do to a session (`IndexCache.Empty`, `AtRest`), and the
induction over the transactions of a block: `indexTransactions_induction`. -/

namespace Runehook

open Lib

/-! ## Chains -/

/-- The outputs that the transactions of some blocks spend, in order. -/
def spends (blocks : List Block) : List (String × Nat) := blocks.flatMap Block.spends

/-- Consecutive blocks, whose transactions have distinct indexes. -/
structure Chain (blocks : List Block) : Prop where
  /-- Each height is one above the last. -/
  consecutive : blocks.IsChain fun b b' => b'.height = b.height + 1
  /-- The transactions of a block have distinct indexes. -/
  indexes : ∀ b ∈ blocks, (b.transactions.map Transaction.index).Nodup

/-- The heights of a chain increase. -/
theorem Chain.heights_pairwise {blocks : List Block} (h : Chain blocks) :
    blocks.Pairwise fun b b' => b.height < b'.height :=
  List.isChain_iff_pairwise.mp (h.consecutive.imp fun b b' hb => by omega)

theorem Chain.heights_nodup {blocks : List Block} (h : Chain blocks) :
    (blocks.map Block.height).Nodup :=
  List.pairwise_map.mpr (h.heights_pairwise.imp fun hlt => Nat.ne_of_lt hlt)

/-! ## Blocks -/

theorem resetMaxRuneNumber_eq_some {s s' : Session} (h : s.resetMaxRuneNumber = some s') :
    ∃ number, s' = s.setNextRuneNumber (number + 1) ∧ pgGetMaxRuneNumber s.db = some number := by
  obtain ⟨number, hnumber, hs⟩ := Option.bind_eq_some_iff.mp h
  exact ⟨number, (Option.some.inj hs).symm, hnumber⟩

theorem indexTransactions_eq_some {env : Environment} {block : Block} {s s' : Session} :
    indexTransactions env block s = some s' ↔
      ∃ t, s.resetMaxRuneNumber = some t ∧
        block.transactions.foldlM (indexTransaction env block) t = some s' :=
  Option.bind_eq_some_iff

/-- **What the transactions of a block write.** -/
theorem indexTransactions_writes {env : Environment} {block : Block} {s s' : Session}
    (h : indexTransactions env block s = some s') :
    ∃ es rs, s.Writes es rs s' ∧ (∀ e ∈ es, ∃ tx ∈ block.transactions,
      e.At (tx.location block s.cache.network)) ∧ CreditsOk es ∧
      ∀ r ∈ rs, ∃ tx ∈ block.transactions, r.At (tx.location block s.cache.network) := by
  obtain ⟨t, hreset, htxs⟩ := indexTransactions_eq_some.mp h
  obtain ⟨number, rfl, -⟩ := resetMaxRuneNumber_eq_some hreset
  refine foldlM_induction_split (P := fun _ u => ∃ es rs, s.Writes es rs u ∧ (∀ e ∈ es,
    ∃ tx ∈ block.transactions, e.At (tx.location block s.cache.network)) ∧ CreditsOk es ∧
    ∀ r ∈ rs, ∃ tx ∈ block.transactions, r.At (tx.location block s.cache.network)) ?_ ?_ htxs
  · exact ⟨[], [], .quiet (.setNextRuneNumber s _), fun e he => absurd he List.not_mem_nil,
      fun e he => absurd he List.not_mem_nil, fun r hr => absurd hr List.not_mem_nil⟩
  · rintro done tx rest u u' hsplit ⟨es, rs, hwrites, hat, hcredit, hrunes⟩ hstep
    obtain ⟨es', rs', hwrites', hat', hcredit', hrunes'⟩ := indexTransaction_writes hstep
    have htx : tx ∈ block.transactions := hsplit ▸ List.mem_append_right _ List.mem_cons_self
    rw [hwrites.network_eq] at hat' hrunes'
    refine ⟨es ++ es', rs ++ rs', hwrites.trans hwrites', ?_, hcredit.append hcredit', ?_⟩
    · intro e he
      rcases List.mem_append.mp he with he | he
      · exact hat e he
      · exact ⟨tx, htx, hat' e he⟩
    · intro r hr
      rcases List.mem_append.mp hr with hr | hr
      · exact hrunes r hr
      · exact ⟨tx, htx, hrunes' r hr⟩

/-- The session that `index_block` flushes at its end. -/
def closing (env : Environment) (block : Block) (s : Session) : Session :=
  { (s.endBlock env) with db := pgUpdateBlockHeight block.height (s.endBlock env).db }

theorem indexBlock_eq_some {env : Environment} {block : Block} {s s' : Session} :
    indexBlock env block s = some s' ↔
      ∃ t, indexTransactions env block s = some t ∧ (closing env block t).flush = some s' :=
  Option.bind_eq_some_iff

theorem restart_eq_some {cap : Nat} {hcap : 0 < cap} {s s' : Session}
    (h : s.restart cap hcap = some s') :
    ∃ cache, IndexCache.new s.cache.network cap hcap s.db = some cache ∧ s' = ⟨cache, s.db⟩ := by
  obtain ⟨cache, hcache, hs⟩ := Option.bind_eq_some_iff.mp h
  exact ⟨cache, hcache, (Option.some.inj hs).symm⟩

/-- What a new index cache holds. -/
structure IndexCache.Empty (network : Network) (cache : IndexCache) : Prop where
  /-- It is for the network. -/
  network : cache.network = network
  /-- No rune is cached. -/
  runes : ∀ id, cache.runeCache.peek id = none
  /-- No mint count is cached. -/
  totalMints : ∀ id, cache.runeTotalMintsCache.peek id = none
  /-- No output is cached. -/
  outputs : ∀ k, cache.outputCache.peek k = none
  /-- The block has no outputs yet. -/
  blockOutputs : cache.blockOutputCache = ∅
  /-- Nothing waits. -/
  dbCache : cache.dbCache = .new
  /-- Nothing is etched. -/
  etching : cache.txCache.etching = none
  /-- Nothing is in flight. -/
  inputRunes : cache.txCache.inputRunes = ∅
  /-- The id of its transaction is that of the rune of the migrations. -/
  location : cache.txCache.location.runeId = ⟨1, 0⟩

theorem IndexCache.new_empty {network : Network} {cap : Nat} {hcap : 0 < cap} {db : Db}
    {cache : IndexCache} (h : IndexCache.new network cap hcap db = some cache) :
    cache.Empty network := by
  obtain ⟨number, -, hcache⟩ := Option.bind_eq_some_iff.mp h
  cases Option.some.inj hcache
  exact ⟨rfl, fun _ => LruCache.peek_new _ _ _, fun _ => LruCache.peek_new _ _ _,
    fun _ => LruCache.peek_new _ _ _, rfl, rfl, rfl, rfl, rfl⟩

theorem freshSession_eq_some {network : Network} {cap : Nat} {hcap : 0 < cap} {s : Session}
    (h : freshSession network cap hcap = some s) : s.cache.Empty network ∧ s.db = .migrated := by
  rw [freshSession] at h
  obtain ⟨cache, hcache, hs⟩ := Option.bind_eq_some_iff.mp h
  cases Option.some.inj hs
  exact ⟨IndexCache.new_empty hcache, rfl⟩

/-! ## Between blocks -/

/-- The layers of a session between two blocks. -/
structure AtRest (Holds : List DbLedgerEntry → String × Nat → RuneBalances → Prop)
    (s : Session) : Prop where
  /-- All entries are of earlier blocks. -/
  layered : Layered Holds s.entries [] s
  /-- None of them waits to be inserted. -/
  pending : s.cache.dbCache.ledgerEntries = []

section

variable {Holds : List DbLedgerEntry → String × Nat → RuneBalances → Prop}

/-- A process with empty caches is at rest. -/
theorem AtRest.of_empty {network : Network} {s : Session} (h : s.cache.Empty network) :
    AtRest Holds s where
  layered := by
    refine ⟨(List.append_nil _).symm, ?_, h.blockOutputs, ?_,
      fun e he => absurd he List.not_mem_nil⟩
    · rw [Session.entries, h.dbCache]
      exact (List.append_nil s.db.ledger).symm ▸ List.prefix_refl _
    · intro k map hpeek
      rw [h.outputs] at hpeek
      cases hpeek
  pending := by rw [h.dbCache]; rfl

/-- At rest, all entries are in the table. -/
theorem AtRest.entries_eq {s : Session} (h : AtRest Holds s) : s.entries = s.db.ledger := by
  rw [Session.entries, h.pending, List.append_nil]

theorem restart_atRest {cap : Nat} {hcap : 0 < cap} {s s' : Session} (h : AtRest Holds s)
    (hrun : s.restart cap hcap = some s') : AtRest Holds s' ∧ s'.entries = s.entries := by
  obtain ⟨cache, hcache, rfl⟩ := restart_eq_some hrun
  have hempty := IndexCache.new_empty hcache
  have hrest : AtRest Holds ⟨cache, s.db⟩ := AtRest.of_empty hempty
  refine ⟨hrest, ?_⟩
  rw [hrest.entries_eq, h.entries_eq]

theorem resetMaxRuneNumber_layered {s s' : Session} {earlier current : List DbLedgerEntry}
    (h : Layered Holds earlier current s) (hrun : s.resetMaxRuneNumber = some s') :
    Layered Holds earlier current s' := by
  obtain ⟨number, rfl, -⟩ := resetMaxRuneNumber_eq_some hrun
  exact ⟨h.entries, h.earlier_prefix, h.block, h.lru, h.creditsOk⟩

/-- **Induction over the transactions of a block**, the layers in view. -/
theorem indexTransactions_induction {env : Environment} {block : Block} {s s' : Session}
    {P : List Transaction → List DbLedgerEntry → Session → Prop} (hrest : AtRest Holds s)
    (start : ∀ t, s.resetMaxRuneNumber = some t → P [] [] t)
    (step : ∀ done tx rest current t t' es, block.transactions = done ++ tx :: rest →
      P done current t →
      Layered Holds s.entries current t → indexTransaction env block t tx = some t' →
      t'.entries = t.entries ++ es → (∀ e ∈ es, e.At (tx.location block t.cache.network)) →
      CreditsOk es → P (done ++ [tx]) (current ++ es) t')
    (hrun : indexTransactions env block s = some s') :
    ∃ current, P block.transactions current s' ∧ Layered Holds s.entries current s' := by
  obtain ⟨t, hreset, htxs⟩ := indexTransactions_eq_some.mp hrun
  refine foldlM_induction_split
    -- over the transactions, with the entries they recorded so far
    (P := fun done u => ∃ current, P done current u ∧ Layered Holds s.entries current u) ?_ ?_ htxs
  · exact ⟨[], start t hreset, resetMaxRuneNumber_layered hrest.layered hreset⟩
  · rintro done tx rest u u' hsplit ⟨current, hP, hlay⟩ hstep
    obtain ⟨es, hlay', hat⟩ := hlay.indexTransaction hstep
    refine ⟨current ++ es, ?_, hlay'⟩
    have hentries : u'.entries = u.entries ++ es := by
      rw [hlay'.entries, hlay.entries, List.append_assoc]
    refine step done tx rest current u u' es hsplit hP hlay hstep hentries hat ?_
    exact fun e he => hlay'.creditsOk e (List.mem_append_right _ he)

/-- The end of a block is a state of rest, with the entries written so far. -/
theorem closing_atRest {env : Environment} {block : Block} {s s' : Session}
    {earlier current : List DbLedgerEntry} (h : Layered Holds earlier current s)
    (hrules : MoveRules Holds earlier current) (hflush : (closing env block s).flush = some s') :
    AtRest Holds s' ∧ s'.entries = s.entries := by
  obtain ⟨hlay, hpending⟩ := h.closeBlock hrules hflush
  have hentries : s'.entries = s.entries := by rw [hlay.entries, h.entries, List.append_nil]
  refine ⟨⟨?_, hpending⟩, hentries⟩
  rw [hentries, h.entries]
  exact hlay

end

end Runehook
