import Runehook.OutputLookup

/-! # The layered output lookup over runs

The invariant that relates the three places where the balances of outputs are kept (`Layered`). At
any moment the entries written so far are split in those of earlier blocks, which are all in the
table, and those of the current block, which are all in the cache of the block; what the LRU cache
holds of an output is a fact (`Holds`) about the entries of earlier blocks. Which fact it is depends
on what the chain promises, so the invariant takes it as a parameter, with the rules that it has to
obey (`MoveRules`). `Layered.found` says what a lookup then finds. -/

namespace Runehook

open Lib

/-! ## Transactions as calls -/

/-- The calls for a transaction once it has begun. -/
def Transaction.calls (env : Environment) (tx : Transaction) : List Action :=
  ((env.decipher tx.outputs).map Artifact.actions).getD [] ++ [.endTransaction]

theorem Artifact.ne_beginTransaction {artifact : Artifact} {a : Action} (ha : a ∈ artifact.actions)
    (tx : Transaction) : a ≠ .beginTransaction tx := by
  rintro rfl
  cases artifact <;> simp [Artifact.actions] at ha

theorem Transaction.ne_beginTransaction {env : Environment} {tx : Transaction} {a : Action}
    (ha : a ∈ tx.calls env) (tx' : Transaction) : a ≠ .beginTransaction tx' := by
  rw [Transaction.calls, List.mem_append, List.mem_singleton] at ha
  rcases ha with ha | rfl
  · cases hd : env.decipher tx.outputs with
    | none =>
      rw [hd] at ha
      exact absurd ha List.not_mem_nil
    | some artifact =>
      rw [hd] at ha
      exact artifact.ne_beginTransaction ha tx'
  · exact Action.noConfusion

theorem indexTransaction_eq_some {env : Environment} {block : Block} {tx : Transaction}
    {s s' : Session} :
    indexTransaction env block s tx = some s' ↔
      ∃ t, Action.run env block s (.beginTransaction tx) = some t ∧
        (tx.calls env).foldlM (Action.run env block) t = some s' :=
  foldlM_cons_eq_some

/-- What the beginning of a transaction does. -/
theorem run_beginTransaction {env : Environment} {block : Block} {tx : Transaction} {s s' : Session}
    (h : Action.run env block s (.beginTransaction tx) = some s') :
    500000000 ≤ block.timestamp ∧
      s' = s.enterTransaction env (tx.location block s.cache.network) tx.inputs
        (scanOutputs env tx.outputs).eligibleOutputs
        (scanOutputs env tx.outputs).firstEligibleOutput
        tx.outputs.length := by
  obtain ⟨scan, hscan, hs⟩ := Option.bind_eq_some_iff.mp h
  rw [bitcoinTxFromChainhookTx] at hscan
  split at hscan
  · cases hscan
  · rename_i htime
    cases Option.some.inj hscan
    simp only [Session.beginTransaction] at hs
    split at hs
    · exact ⟨Nat.le_of_not_lt htime, (Option.some.inj hs).symm⟩
    · cases hs

/-- **Induction over the calls of a transaction.** -/
theorem calls_induction {env : Environment} {block : Block} {tx : Transaction}
    {P : List Action → Session → Prop} {t s' : Session} (start : P [] t)
    (step : ∀ done a s s' es rs, a ∈ tx.calls env → P done s → a.run env block s = some s' →
      s.Writes es rs s' → s.cache.txCache.Step env a es rs s'.cache.txCache → P (done ++ [a]) s')
    (h : (tx.calls env).foldlM (Action.run env block) t = some s') : P (tx.calls env) s' := by
  refine foldlM_induction_split start ?_ h
  intro done a rest s s'' hsplit hP hrun
  have ha : a ∈ tx.calls env := by
    rw [hsplit]
    exact List.mem_append_right _ List.mem_cons_self
  obtain ⟨es, rs, hwrites, hstep⟩ := Action.run_step (Transaction.ne_beginTransaction ha) hrun
  exact step done a s s'' es rs ha hP hrun hwrites hstep

/-- What the calls of a transaction write: entries of the transaction, with complete credits. -/
theorem calls_writes {env : Environment} {block : Block} {tx : Transaction} {t s' : Session}
    (h : (tx.calls env).foldlM (Action.run env block) t = some s') :
    ∃ es rs, t.Writes es rs s' ∧ (∀ e ∈ es, e.At t.cache.txCache.location) ∧ CreditsOk es ∧
      ∀ r ∈ rs, r.At t.cache.txCache.location := by
  -- over the calls: what they write is of this transaction
  have hind := calls_induction
    (P := fun _ s => s.cache.txCache.location = t.cache.txCache.location ∧
      ∃ es rs, t.Writes es rs s ∧ (∀ e ∈ es, e.At t.cache.txCache.location) ∧ CreditsOk es ∧
        ∀ r ∈ rs, r.At t.cache.txCache.location)
    ⟨rfl, [], [], .quiet (.refl t), fun e he => absurd he List.not_mem_nil,
      fun e he => absurd he List.not_mem_nil, fun r hr => absurd hr List.not_mem_nil⟩ ?_ h
  · exact hind.2
  · rintro done a s s'' es rs - ⟨hloc, es₀, rs₀, hwrites₀, hat₀, hcredit₀, hrunes₀⟩ - hwrites hstep
    refine ⟨hstep.location_eq.trans hloc, es₀ ++ es, rs₀ ++ rs, hwrites₀.trans hwrites, ?_, ?_, ?_⟩
    · intro e he
      rcases List.mem_append.mp he with he | he
      · exact hat₀ e he
      · exact hloc ▸ hstep.at_location e he
    · exact hcredit₀.append hstep.credit
    · intro r hr
      rcases List.mem_append.mp hr with hr | hr
      · exact hrunes₀ r hr
      · exact hloc ▸ hstep.rune_at_location r hr

/-- The beginning of a transaction writes nothing. -/
theorem beginTransaction_quiet {env : Environment} {block : Block} {tx : Transaction}
    {s s' : Session} (h : Action.run env block s (.beginTransaction tx) = some s') :
    s.Quiet s' := by
  obtain ⟨-, rfl⟩ := run_beginTransaction h
  exact ⟨rfl, rfl, fun k => peek_inputRuneBalances env tx.inputs _ _ s.db k, rfl, rfl⟩

/-- **What a transaction writes**: entries of the transaction, with complete credits. -/
theorem indexTransaction_writes {env : Environment} {block : Block} {tx : Transaction}
    {s s' : Session} (h : indexTransaction env block s tx = some s') :
    ∃ es rs, s.Writes es rs s' ∧ (∀ e ∈ es, e.At (tx.location block s.cache.network)) ∧
      CreditsOk es ∧ ∀ r ∈ rs, r.At (tx.location block s.cache.network) := by
  obtain ⟨t, hbegin, hcalls⟩ := indexTransaction_eq_some.mp h
  obtain ⟨es, rs, hwrites, hat, hcredit, hrunes⟩ := calls_writes hcalls
  obtain ⟨-, ht⟩ := run_beginTransaction hbegin
  have hloc : t.cache.txCache.location = tx.location block s.cache.network := by
    rw [ht]
    rfl
  exact ⟨es, rs, (Session.Writes.quiet (beginTransaction_quiet hbegin)).nil_trans hwrites,
    hloc ▸ hat, hcredit, hloc ▸ hrunes⟩

/-! ## The invariant -/

/-- The layers of a session, with the entries of earlier blocks and of the current one. -/
structure Layered (Holds : List DbLedgerEntry → String × Nat → RuneBalances → Prop)
    (earlier current : List DbLedgerEntry) (s : Session) : Prop where
  /-- All entries are those of earlier blocks and those of the current one. -/
  entries : s.entries = earlier ++ current
  /-- Those of earlier blocks are in the table. -/
  earlier_prefix : earlier <+: s.db.ledger
  /-- The cache of the block has what those of the current block credit. -/
  block : s.cache.blockOutputCache = current.foldl creditOutput ∅
  /-- What the LRU cache holds is a fact about earlier blocks. -/
  lru : s.cache.outputCache.Coherent (Holds earlier)
  /-- The credits of the block have all their fields. -/
  creditsOk : CreditsOk current

section

variable {Holds : List DbLedgerEntry → String × Nat → RuneBalances → Prop}
  {earlier current es : List DbLedgerEntry} {s s' : Session}

theorem Layered.writes {rs : List DbRune} (h : Layered Holds earlier current s)
    (hwrites : s.Writes es rs s')
    (hes : CreditsOk es) : Layered Holds earlier (current ++ es) s' where
  entries := by rw [hwrites.entries_eq, h.entries, List.append_assoc]
  earlier_prefix := h.earlier_prefix.trans hwrites.ledger_prefix
  block := by rw [hwrites.blockOutputCache_eq, h.block, List.foldl_append]
  lru := fun k map hpeek => h.lru k map ((hwrites.peek_outputCache k).symm.trans hpeek)
  creditsOk := h.creditsOk.append hes

/-- A transaction adds its entries to those of the current block. -/
theorem Layered.indexTransaction {env : Environment} {block : Block} {tx : Transaction}
    (h : Layered Holds earlier current s) (hrun : indexTransaction env block s tx = some s') :
    ∃ es, Layered Holds earlier (current ++ es) s' ∧
      ∀ e ∈ es, e.At (tx.location block s.cache.network) := by
  obtain ⟨es, rs, hwrites, hat, hcredit, -⟩ := indexTransaction_writes hrun
  exact ⟨es, h.writes hwrites hcredit, hat⟩

/-- What the LRU cache is asked to know survives the move of the block's outputs. -/
structure MoveRules (Holds : List DbLedgerEntry → String × Nat → RuneBalances → Prop)
    (earlier current : List DbLedgerEntry) : Prop where
  /-- An output that the block does not credit stays. -/
  keep : ∀ k map, ¬ Credited k current → Holds earlier k map → Holds (earlier ++ current) k map
  /-- One that it credits comes in. -/
  put : ∀ k map, Credited k current → (∀ id, map.getD id [] = credits k id current) →
    Holds (earlier ++ current) k map
  /-- One that was there before is extended. -/
  extend : ∀ k map more, Credited k current → Holds earlier k map →
    (∀ id, more.getD id [] = credits k id current) →
    Holds (earlier ++ current) k (extendBalances map more)

/-- Moving the outputs of the block to the LRU cache, one after the other. -/
theorem coherent_foldl_moveOutput (hrules : MoveRules Holds earlier current)
    (hcredit : CreditsOk current) :
    ∀ (ks : List (String × Nat)) (c : OutputCache), ks.Nodup → (∀ k ∈ ks, Credited k current) →
      c.Coherent (fun k map => if k ∈ ks then Holds earlier k map
        else Holds (earlier ++ current) k map) →
      (ks.foldl (moveOutput (current.foldl creditOutput ∅)) c).Coherent
      (Holds (earlier ++ current)) := by
  intro ks
  induction ks with
  | nil => exact fun c _ _ hc => hc.mono fun k map _ h => by simpa using h
  | cons k ks ih =>
    intro c hnd hks hc
    rw [List.nodup_cons] at hnd
    refine ih _ hnd.2 (fun k' hk' => hks k' (List.mem_cons_of_mem _ hk')) ?_
    -- the output was credited in the block, so it has a map to move
    have hk := hks k List.mem_cons_self
    obtain ⟨map, hmap⟩ := HashMap.exists_lookup_of_mem_keys
      ((mem_keys_blockOutputs hcredit ∅ k).mpr (Or.inr hk))
    -- the map has exactly the credits of the block
    have hvalues : ∀ id, map.getD id [] = credits k id current := by
      intro id
      have h := getD_blockOutputs hcredit ∅ k id
      rw [HashMap.getD_empty, HashMap.getD_empty, List.nil_append] at h
      rw [← h, HashMap.getD_of_lookup hmap]
    -- the other outputs are as far as they were
    have hne : ∀ k' m, k' ≠ k →
        (if k' ∈ k :: ks then Holds earlier k' m else Holds (earlier ++ current) k' m) →
        if k' ∈ ks then Holds earlier k' m else Holds (earlier ++ current) k' m := by
      intro k' m hne h
      simpa [List.mem_cons, hne] using h
    rw [moveOutput, hmap]
    dsimp only
    cases hpeek : c.peek k with
    | some old =>
      refine hc.modify (fun v hv => ?_) hne
      rw [if_pos List.mem_cons_self] at hv
      rw [if_neg hnd.1]
      exact hrules.extend k v map hk hv hvalues
    | none =>
      refine hc.put_of_ne ?_ hne
      rw [if_neg hnd.1]
      exact hrules.put k map hk hvalues

/-- **The end of a block.** The entries of the current block become entries of earlier blocks. -/
theorem Layered.closeBlock {env : Environment} (h : Layered Holds earlier current s)
    (hrules : MoveRules Holds earlier current) {height : Nat}
    (hflush : ({ (s.endBlock env) with db := pgUpdateBlockHeight height (s.endBlock env).db } :
      Session).flush = some s') :
    Layered Holds (earlier ++ current) [] s' ∧ s'.cache.dbCache.ledgerEntries = [] := by
  obtain ⟨db, hdb, rfl⟩ := Session.flush_eq_some.mp hflush
  have hledger : db.ledger = earlier ++ current := by
    rw [DbCache.flush_ledger hdb, ← h.entries]
    rfl
  refine ⟨⟨?_, ?_, rfl, ?_, fun e he => absurd he List.not_mem_nil⟩, rfl⟩
  · rw [Session.entries, hledger]
    rfl
  · simp only [hledger, List.prefix_refl]
  · show (moveBlockOutputCacheToOutputCache env s.cache.blockOutputCache
        s.cache.outputCache).Coherent _
    rw [moveBlockOutputCacheToOutputCache, h.block]
    -- the outputs of the block move in the order of the map, each of them once
    have hperm := env.outputOrder_perm (current.foldl creditOutput ∅).keys
    have hmem : ∀ k, k ∈ env.outputOrder (current.foldl creditOutput ∅).keys ↔
        Credited k current := by
      intro k
      rw [hperm.mem_iff, mem_keys_blockOutputs h.creditsOk]
      simp
    refine coherent_foldl_moveOutput hrules h.creditsOk
      _ _ (hperm.nodup_iff.mpr (AList.keys_nodup _)) (fun k hk => (hmem k).mp hk) ?_
    refine h.lru.mono ?_
    intro k map _ hold
    by_cases hk : k ∈ env.outputOrder (current.foldl creditOutput ∅).keys
    · rwa [if_pos hk]
    · rw [if_neg hk]
      exact hrules.keep k map (fun hc => hk ((hmem k).mpr hc)) hold

/-- **The lookup.** What is found of an output that an input spends is what the current block
credits to it, or a fact about earlier blocks from the LRU cache, or what the table holds of earlier
blocks. -/
theorem Layered.found {env : Environment} {id : RuneId} {part : List InputRuneBalance}
    {input : TxIn} (h : Layered Holds earlier current s)
    (hfound : Found env s.cache.blockOutputCache s.cache.outputCache s.db id part input) :
    (Credited input.outputKey current ∧ part = credits input.outputKey id current) ∨
    (¬ Credited input.outputKey current ∧ ∃ map, Holds earlier input.outputKey map ∧
      part = map.getD id []) ∨
    (¬ Credited input.outputKey current ∧ part.Perm (credits input.outputKey id earlier) ∧
      ((∀ l, env.rowOrder l = l) → part = credits input.outputKey id earlier)) := by
  generalize hk : input.outputKey = k at *
  have hkeys : k ∈ s.cache.blockOutputCache.keys ↔ Credited k current := by
    rw [h.block, mem_keys_blockOutputs h.creditsOk]
    simp
  by_cases hcurrent : Credited k current
  · refine Or.inl ⟨hcurrent, ?_⟩
    obtain ⟨map, hmap⟩ := HashMap.exists_lookup_of_mem_keys (hkeys.mpr hcurrent)
    have hvalues := getD_blockOutputs h.creditsOk ∅ k id
    rw [← h.block, HashMap.getD_of_lookup hmap, HashMap.getD_empty, HashMap.getD_empty,
      List.nil_append] at hvalues
    rw [← hvalues]
    refine hfound.cached map ?_
    rw [cachedOutput, hk, hmap]
    rfl
  · refine Or.inr ?_
    have hnone : s.cache.blockOutputCache.lookup k = none :=
      (HashMap.lookup_eq_none_iff _ _).mpr fun hmem => hcurrent (hkeys.mp hmem)
    cases hpeek : s.cache.outputCache.peek k with
    | some map =>
      refine Or.inl ⟨hcurrent, map, h.lru k map hpeek, hfound.cached map ?_⟩
      rw [cachedOutput, hk, hnone, hpeek]
      rfl
    | none =>
      have hmiss :
          cachedOutput s.cache.blockOutputCache s.cache.outputCache input.outputKey = none := by
        rw [cachedOutput, hk, hnone, hpeek]
        rfl
      -- rows of the current block that are in the table already do not credit this output
      have hledger : credits k id s.db.ledger = credits k id earlier := by
        obtain ⟨mid, hmid⟩ := h.earlier_prefix
        have hmid' : mid ++ s.cache.dbCache.ledgerEntries = current := by
          have hentries := h.entries
          rw [Session.entries, ← hmid, List.append_assoc] at hentries
          exact List.append_cancel_left hentries
        have hnot : ¬ Credited k mid := by
          rintro ⟨e, he, hop, hkey⟩
          exact hcurrent ⟨e, hmid' ▸ List.mem_append_left _ he, hop, hkey⟩
        rw [← hmid, credits_append, credits_eq_nil hnot, List.append_nil]
      refine Or.inr ⟨hcurrent, ?_, fun hrows => ?_⟩
      · rw [← hledger, ← hk]
        exact hfound.perm hmiss
      · rw [← hledger, ← hk]
        exact hfound.eq hmiss hrows

end

end Runehook
