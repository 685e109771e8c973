import Runehook.Runs

/-! # No inflation

Whatever is indexed, the outputs that are credited and not spent hold at most what was premined and
minted of each rune: `unspent_le_supply`. The LRU cache may know less than the ledger about an
output, never more (`PartOf`). `Solvent` is the invariant, and `indexTransaction_solvent` its
step. -/

namespace Runehook

open Lib

/-- The amount of a rune in outputs that entries credit and that are not among the spent ones. -/
def unspent (id : RuneId) (spent : List (String × Nat)) (es : List DbLedgerEntry) : Nat :=
  tally (fun e => e.operation = .receive ∧ e.runeId = id ∧ e.outputKey.all fun k => k ∉ spent)
    DbLedgerEntry.value es

/-- How much of a rune the entries credit to outputs that are not among the spent ones, for
addresses with a property. -/
def holding (q : Option Address → Bool) (id : RuneId) (spent : List (String × Nat))
    (es : List DbLedgerEntry) :
    Nat :=
  tally (fun e => e.operation = .receive ∧ e.runeId = id ∧ q e.address ∧
    e.outputKey.all fun k => k ∉ spent) DbLedgerEntry.value es

/-- The etching of a transaction, if it carries one. -/
def Transaction.etching (env : Environment) (tx : Transaction) : Option Etching :=
  match env.decipher tx.outputs with
  | some (.runestone r) => r.etching
  | _ => none

/-- The etching that creates a rune: the one of the transaction that the id points to. -/
def etchingOf (env : Environment) (blocks : List Block) (id : RuneId) : Option Etching :=
  (blocks.find? fun b => b.height = id.block).bind fun b =>
    (b.transactions.find? fun tx => tx.index = id.tx).bind (Transaction.etching env)

/-- The premine of the etching that creates a rune, if there is one. -/
def premineOf (env : Environment) (blocks : List Block) (id : RuneId) : Nat :=
  ((etchingOf env blocks id).bind Etching.premine).getD 0

/-! ## What is unspent -/

@[simp] theorem unspent_nil (id : RuneId) (spent : List (String × Nat)) :
    unspent id spent [] = 0 := rfl

@[simp] theorem unspent_append (id : RuneId) (spent : List (String × Nat))
    (es es' : List DbLedgerEntry) :
    unspent id spent (es ++ es') = unspent id spent es + unspent id spent es' :=
  tally_append _ _ es es'

theorem unspent_le_received (id : RuneId) (spent : List (String × Nat)) (es : List DbLedgerEntry) :
    unspent id spent es ≤ received id es :=
  tally_le_tally fun e _ h => by
    have h := of_decide_eq_true h
    exact decide_eq_true ⟨h.1, h.2.1⟩

/-- What entries credit to an output, in total. -/
theorem totalAmount_credits (k : String × Nat) (id : RuneId) (es : List DbLedgerEntry) :
    totalAmount (credits k id es) =
      tally (fun e => e.operation = .receive ∧ e.outputKey = some k ∧ e.runeId = id)
        DbLedgerEntry.value es := by
  rw [totalAmount, credits, List.map_map, tally]
  rfl

/-- Spending one more output takes what is credited to it. -/
theorem unspent_spend {spent : List (String × Nat)} {k : String × Nat}
    (hk : k ∉ spent) (id : RuneId) (es : List DbLedgerEntry) :
    unspent id spent es = unspent id (spent ++ [k]) es + totalAmount (credits k id es) := by
  rw [unspent, tally_split _ (fun e => e.outputKey ≠ some k), unspent, totalAmount_credits]
  congr 1
  · refine tally_congr fun e _ => ?_
    cases e.outputKey with
    | none => simp
    | some k' =>
      simp only [Option.all_some, List.mem_append, List.mem_singleton]
      by_cases h : k' = k <;> simp [h]
  · refine tally_congr fun e _ => ?_
    by_cases h : e.outputKey = some k
    · simp [h, hk]
    · simp [h]

/-- Spending some more outputs takes what is credited to them. -/
theorem unspent_spend_all (id : RuneId) (es : List DbLedgerEntry) :
    ∀ (ks spent : List (String × Nat)), (spent ++ ks).Nodup →
      unspent id spent es =
        unspent id (spent ++ ks) es + (ks.map fun k => totalAmount (credits k id es)).sum := by
  intro ks
  induction ks with
  | nil => intro spent _; simp
  | cons k ks ih =>
    intro spent hnd
    rw [← List.singleton_append, ← List.append_assoc] at hnd
    -- the output is new among those spent
    have hk : k ∉ spent := by
      intro hmem
      have := hnd.sublist (List.sublist_append_left _ ks)
      rw [List.nodup_append] at this
      exact this.2.2 k hmem k List.mem_cons_self rfl
    rw [unspent_spend hk, ih _ hnd, List.map_cons, List.sum_cons, List.append_assoc,
      List.singleton_append]
    omega

/-! ## One transaction -/

/-- What the LRU cache may hold of an output: part of what the ledger credits to it. -/
def PartOf (earlier : List DbLedgerEntry) (k : String × Nat) (map : RuneBalances) : Prop :=
  ∀ id, (map.getD id []).Sublist (credits k id earlier)

/-- Moving a block's outputs only ever puts parts of the ledger's credits in the LRU cache. -/
theorem PartOf.moveRules (earlier current : List DbLedgerEntry) :
    MoveRules PartOf earlier current where
  keep := by
    intro k map _ h id
    rw [credits_append]
    exact (h id).trans (List.sublist_append_left _ _)
  put := by
    intro k map _ h id
    rw [credits_append, h]
    exact List.sublist_append_right _ _
  extend := by
    intro k map more _ h hmore id
    rw [credits_append, getD_extendBalances, hmore]
    exact (h id).append (List.Sublist.refl _)

theorem totalAmount_sublist {l l' : List InputRuneBalance} (h : l.Sublist l') :
    totalAmount l ≤ totalAmount l' := by
  induction h with
  | slnil => exact Nat.le_refl _
  | cons b _ ih =>
    rw [totalAmount_cons]
    exact ih.trans (Nat.le_add_left _ _)
  | cons_cons b _ ih =>
    rw [totalAmount_cons, totalAmount_cons]
    exact Nat.add_le_add_left ih _

theorem totalAmount_flatten (parts : List (List InputRuneBalance)) :
    totalAmount parts.flatten = (parts.map totalAmount).sum := by
  induction parts with
  | nil => rfl
  | cons part parts ih =>
    rw [List.flatten_cons, totalAmount_append, ih, List.map_cons, List.sum_cons]

/-- What is found of an output is at most what the ledger credits to it. -/
theorem totalAmount_found_le {env : Environment} {earlier current : List DbLedgerEntry}
    {s : Session} {id : RuneId} {part : List InputRuneBalance} {input : TxIn}
    (h : Layered PartOf earlier current s)
    (hfound : Found env s.cache.blockOutputCache s.cache.outputCache s.db id part input) :
    totalAmount part ≤ totalAmount (credits input.outputKey id s.entries) := by
  rw [h.entries, credits_append, totalAmount_append]
  rcases h.found hfound with ⟨-, rfl⟩ | ⟨-, map, hmap, rfl⟩ | ⟨-, hperm, -⟩
  · exact Nat.le_add_left _ _
  · exact (totalAmount_sublist (hmap id)).trans (Nat.le_add_right _ _)
  · exact (totalAmount_perm hperm).le.trans (Nat.le_add_right _ _)

/-- The balances input to a transaction are at most what the ledger credits to the spent outputs. -/
theorem totalAmount_inputs_le {env : Environment} {block : Block} {tx : Transaction}
    {earlier current : List DbLedgerEntry} {s t : Session} (h : Layered PartOf earlier current s)
    (hrun : Action.run env block s (.beginTransaction tx) = some t) (id : RuneId) :
    totalAmount (t.cache.txCache.available id) ≤
      ((tx.inputs.map TxIn.outputKey).map fun k => totalAmount (credits k id s.entries)).sum := by
  obtain ⟨-, rfl⟩ := run_beginTransaction hrun
  obtain ⟨parts, hparts, hfound⟩ := getD_inputRuneBalances env tx.inputs s.cache.blockOutputCache
    s.cache.outputCache s.db id
  -- input by input, since each is found with no more than its credits
  have hav : totalAmount parts.flatten ≤
      ((tx.inputs.map TxIn.outputKey).map fun k => totalAmount (credits k id s.entries)).sum := by
    rw [totalAmount_flatten]
    clear hparts
    generalize tx.inputs = inputs at hfound
    induction hfound with
    | nil => exact Nat.le_refl _
    | cons hf _ ih =>
      simp only [List.map_cons, List.sum_cons]
      exact Nat.add_le_add (totalAmount_found_le h hf) ih
  rw [← hparts] at hav
  exact hav

/-- What the calls of a transaction premine of a rune. -/
theorem sum_premine_calls (env : Environment) (tx : Transaction) (location : TransactionLocation)
    (id : RuneId) :
    ((tx.calls env).map (Action.premine location id)).sum =
      if location.runeId = id then ((tx.etching env).bind Etching.premine).getD 0 else 0 := by
  -- only the etching has a premine
  have hzero : ∀ (l : List Action), (∀ a ∈ l, a.premine location id = 0) →
      (l.map (Action.premine location id)).sum = 0 := by
    intro l hl
    refine List.sum_eq_zero ?_
    intro n hn
    obtain ⟨a, ha, rfl⟩ := List.mem_map.mp hn
    exact hl a ha
  rw [Transaction.calls, Transaction.etching]
  cases env.decipher tx.outputs with
  | none => simp [Action.premine]
  | some artifact =>
    cases artifact with
    | cenotaph c =>
      cases he : c.etching <;> cases hm : c.mint <;> simp [Artifact.actions, he, hm, Action.premine]
    | runestone r =>
      have hedicts : ((r.edicts.map Action.edict).map (Action.premine location id)).sum = 0 := by
        refine hzero _ fun a ha => ?_
        obtain ⟨e, -, rfl⟩ := List.mem_map.mp ha
        rfl
      have hmint :
          (((r.mint.map Action.mint).toList).map (Action.premine location id)).sum = 0 := by
        cases r.mint <;> rfl
      rw [Option.map_some, Option.getD_some, Artifact.actions]
      simp only [List.map_append, List.map_cons, List.sum_append, List.sum_cons, hedicts, hmint,
        List.map_nil, List.sum_nil]
      cases r.etching <;> simp [Action.premine]

/-- **One transaction does not inflate.** -/
theorem indexTransaction_solvent {env : Environment} {block : Block} {tx : Transaction}
    {earlier current : List DbLedgerEntry} {s s' : Session} {spent : List (String × Nat)}
    {premined : RuneId → Nat} (h : Layered PartOf earlier current s)
    (hsolvent : ∀ id, unspent id spent s.entries ≤ premined id + minted id s.entries)
    (hnd : (spent ++ tx.inputs.map TxIn.outputKey).Nodup)
    (hrun : indexTransaction env block s tx = some s') (id : RuneId) :
    unspent id (spent ++ tx.inputs.map TxIn.outputKey) s'.entries ≤
      premined id + (if (tx.location block s.cache.network).runeId = id then
        ((tx.etching env).bind Etching.premine).getD 0 else 0) + minted id s'.entries := by
  obtain ⟨t, hbegin, hcalls⟩ := indexTransaction_eq_some.mp hrun
  have hinputs := totalAmount_inputs_le h hbegin id
  obtain ⟨-, ht⟩ := run_beginTransaction hbegin
  have hloc : t.cache.txCache.location = tx.location block s.cache.network := by
    rw [ht]
    rfl
  have hentries : t.entries = s.entries := by
    rw [ht]
    rfl
  -- what is unspent and what is in flight is covered after every call
  have hcovered := calls_induction
    (P := fun done u => u.cache.txCache.location = tx.location block s.cache.network ∧
      unspent id (spent ++ tx.inputs.map TxIn.outputKey) u.entries +
        totalAmount (u.cache.txCache.available id) ≤ premined id +
          (done.map (Action.premine (tx.location block s.cache.network) id)).sum +
      minted id u.entries) ⟨hloc, ?_⟩ ?_ hcalls
  · rw [sum_premine_calls] at hcovered
    omega
  · have hspend := unspent_spend_all id s.entries (tx.inputs.map TxIn.outputKey) spent hnd
    have hsolvent := hsolvent id
    rw [hentries, List.map_nil, List.sum_nil]
    omega
  · rintro done a u u' es rs - ⟨huloc, hu⟩ - hwrites hstep
    refine ⟨hstep.location_eq.trans huloc, ?_⟩
    have hconserve := hstep.received_le id
    have hle := unspent_le_received id (spent ++ tx.inputs.map TxIn.outputKey) es
    rw [huloc] at hconserve
    rw [hwrites.entries_eq, unspent_append, minted_append, List.map_append, List.sum_append]
    simp only [List.map_cons, List.map_nil, List.sum_cons, List.sum_nil]
    omega

/-! ## Runs -/

/-- What the transactions of a block premine of a rune. -/
def Block.premined (env : Environment) (block : Block) (id : RuneId) : Nat :=
  (block.transactions.map fun tx => if (⟨block.height, tx.index⟩ : RuneId) = id then
    ((tx.etching env).bind Etching.premine).getD 0 else 0).sum

/-- What the transactions of some blocks premine of a rune. -/
def premined (env : Environment) (blocks : List Block) (id : RuneId) : Nat :=
  (blocks.map fun b => b.premined env id).sum

theorem premined_append (env : Environment) (blocks : List Block) (block : Block) (id : RuneId) :
    premined env (blocks ++ [block]) id = premined env blocks id + block.premined env id := by
  rw [premined, List.map_append, List.sum_append, premined, List.map_singleton, List.sum_singleton]

/-- On a chain, what is premined of a rune is the premine of the etching that creates it. -/
theorem premined_eq_premineOf {env : Environment} {blocks : List Block} (h : Chain blocks)
    (id : RuneId) :
    premined env blocks id = premineOf env blocks id := by
  -- at most one transaction of a block has the index of the rune
  have hblock : ∀ b : Block, (b.transactions.map Transaction.index).Nodup → b.premined env id =
      if b.height = id.block then (((b.transactions.find? fun tx => tx.index = id.tx).bind
        (Transaction.etching env)).bind Etching.premine).getD 0 else 0 := by
    intro b hb
    rw [Block.premined]
    by_cases hheight : b.height = id.block
    · have hsum := sum_ite_eq_find Transaction.index id.tx
        (fun tx => ((tx.etching env).bind Etching.premine).getD 0) hb
      have hfind : (((b.transactions.find? fun tx => tx.index = id.tx).bind
          (Transaction.etching env)).bind Etching.premine).getD 0 =
            ((b.transactions.find? fun tx => tx.index = id.tx).map fun tx =>
              ((tx.etching env).bind Etching.premine).getD 0).getD 0 := by
        cases b.transactions.find? fun tx => decide (tx.index = id.tx) <;> rfl
      rw [if_pos hheight, hfind, ← hsum]
      refine congrArg List.sum (List.map_congr_left fun tx _ => ?_)
      simp [RuneId.ext_iff, hheight]
    · rw [if_neg hheight]
      refine List.sum_eq_zero ?_
      intro n hn
      obtain ⟨tx, -, rfl⟩ := List.mem_map.mp hn
      exact if_neg fun he => hheight (congrArg RuneId.block he)
  -- and at most one block of the chain has its height
  have hsum := sum_ite_eq_find Block.height id.block (fun b =>
    (((b.transactions.find? fun tx => tx.index = id.tx).bind (Transaction.etching env)).bind
      Etching.premine).getD 0) h.heights_nodup
  rw [premined, List.map_congr_left fun b hb => hblock b (h.indexes b hb), hsum,
    premineOf, etchingOf]
  cases blocks.find? fun b => decide (b.height = id.block) <;> rfl

/-- The supply of every rune covers what is unspent of it. -/
def Solvent (env : Environment) (blocks : List Block) (s : Session) : Prop :=
  ∀ id, unspent id (spends blocks) s.entries ≤ premined env blocks id + minted id s.entries

theorem spends_append (blocks : List Block) (block : Block) :
    spends (blocks ++ [block]) = spends blocks ++ block.spends := by
  rw [spends, List.flatMap_append, List.flatMap_singleton, spends]

/-- **A block does not inflate**, whichever of its transactions are indexed. -/
theorem indexTransactions_solvent {env : Environment} {blocks : List Block} {block : Block}
    {s s' : Session} (hrest : AtRest PartOf s) (hsolvent : Solvent env blocks s)
    (hnd : (spends (blocks ++ [block])).Nodup) (hrun : indexTransactions env block s = some s') :
    Solvent env (blocks ++ [block]) s' ∧ ∃ current, Layered PartOf s.entries current s' := by
  have hind := indexTransactions_induction
    (P := fun done _ t => Solvent env (blocks ++ [{ block with transactions := done }]) t)
    hrest ?_ ?_ hrun
  · obtain ⟨current, hP, hlay⟩ := hind
    exact ⟨hP, current, hlay⟩
  · intro t hreset id
    obtain ⟨number, rfl, -⟩ := resetMaxRuneNumber_eq_some hreset
    rw [spends_append, premined_append]
    have h := hsolvent id
    simp only [Block.spends, Block.premined, List.flatMap_nil, List.append_nil,
      List.map_nil, List.sum_nil, Nat.add_zero]
    exact h
  · intro done tx rest current t t' es hsplit hP hlay hstep _ _ _ id
    -- the block with one more transaction spends and premines what that transaction adds
    have hspends : spends (blocks ++ [{ block with transactions := done ++ [tx] }]) =
        spends (blocks ++ [{ block with transactions := done }]) ++
          tx.inputs.map TxIn.outputKey := by
      rw [spends_append, spends_append, Block.spends, Block.spends, List.flatMap_append,
        List.flatMap_singleton, List.append_assoc]
    have hpremined : premined env (blocks ++ [{ block with transactions := done ++ [tx] }]) id =
        premined env (blocks ++ [{ block with transactions := done }]) id +
          if (⟨block.height, tx.index⟩ : RuneId) = id then
            ((tx.etching env).bind Etching.premine).getD 0 else 0 := by
      rw [premined_append, premined_append, Block.premined, Block.premined, List.map_append,
        List.sum_append, List.map_singleton, List.sum_singleton, Nat.add_assoc]
    rw [hspends, hpremined]
    refine indexTransaction_solvent hlay hP ?_ hstep id
    rw [← hspends]
    refine hnd.sublist ?_
    rw [spends_append, spends_append]
    refine List.Sublist.append_left ?_ _
    -- the outputs spent in the block so far are a part of those of the whole block
    have hall : block.spends = (done ++ [tx]).flatMap (fun tx => tx.inputs.map TxIn.outputKey) ++
        rest.flatMap fun tx => tx.inputs.map TxIn.outputKey := by
      rw [Block.spends, hsplit, ← List.flatMap_append, List.append_assoc, List.singleton_append]
    rw [hall]
    exact List.sublist_append_left _ _

theorem indexedBlocks_append (events events' : List Event) :
    indexedBlocks (events ++ events') = indexedBlocks events ++ indexedBlocks events' :=
  List.filterMap_append

theorem spends_blocks_append (blocks blocks' : List Block) :
    spends (blocks ++ blocks') = spends blocks ++ spends blocks' :=
  List.flatMap_append

/-- A run without rollbacks does not inflate, and ends at rest. -/
theorem runEvents_solvent {env : Environment} {events : List Event} {network : Network}
    {s₀ s : Session} (hempty : s₀.cache.Empty network) (hdb : s₀.db = .migrated)
    (hforward : ∀ e ∈ events, e.Forward) (hnd : (spends (indexedBlocks events)).Nodup)
    (hrun : runEvents env events s₀ = some s) :
    AtRest PartOf s ∧ Solvent env (indexedBlocks events) s := by
  refine foldlM_induction_split (P := fun done t => AtRest PartOf t ∧
    Solvent env (indexedBlocks done) t) ⟨.of_empty hempty, ?_⟩ ?_ hrun
  · intro id
    have hentries : s₀.entries = [] := by
      rw [Session.entries, hdb, hempty.dbCache]
      rfl
    rw [hentries]
    exact Nat.zero_le _
  · rintro done e rest t t' hsplit ⟨hrest, hsolvent⟩ hstep
    rw [indexedBlocks_append]
    cases e with
    | index block =>
      obtain ⟨u, htxs, hflush⟩ := indexBlock_eq_some.mp hstep
      -- the outputs spent so far are spent once
      have hnd' : (spends (indexedBlocks done ++ [block])).Nodup := by
        have hblocks : indexedBlocks events =
            indexedBlocks done ++ [block] ++ indexedBlocks rest := by
          rw [hsplit, ← List.singleton_append (l := rest), indexedBlocks_append,
            indexedBlocks_append, ← List.append_assoc]
          rfl
        rw [hblocks, spends_blocks_append] at hnd
        exact hnd.sublist (List.sublist_append_left _ _)
      obtain ⟨hsolvent', current, hlay⟩ := indexTransactions_solvent hrest hsolvent hnd' htxs
      obtain ⟨hrest', hentries⟩ := closing_atRest hlay (PartOf.moveRules _ _) hflush
      refine ⟨hrest', fun id => ?_⟩
      rw [hentries]
      exact hsolvent' id
    | rollBack height =>
      exact absurd (hforward _ (hsplit ▸ List.mem_append_right _ List.mem_cons_self)) id
    | restart cap hcap =>
      obtain ⟨hrest', hentries⟩ := restart_atRest hrest hstep
      refine ⟨hrest', fun id => ?_⟩
      rw [hentries]
      have h := hsolvent id
      rwa [← List.append_nil (indexedBlocks done)] at h

/-- **No inflation.** On a chain whose outputs are spent at most once, after every transaction the
credited and unspent outputs hold of each rune at most the premine of the etching that created it
and what its mint entries add up to. The transactions of `block` are those of a block up to the one
in question. -/
theorem unspent_le_supply {env : Environment} {network : Network} {cap : Nat} {hcap : 0 < cap}
    {events : List Event} {block : Block} {s₀ s s' : Session} (hforward : ∀ e ∈ events, e.Forward)
    (hchain : Chain (indexedBlocks events ++ [block]))
    (hspends : (spends (indexedBlocks events ++ [block])).Nodup)
    (hstart : freshSession network cap hcap = some s₀) (hrun : runEvents env events s₀ = some s)
    (hblock : indexTransactions env block s = some s') (id : RuneId) :
    unspent id (spends (indexedBlocks events ++ [block])) s'.entries ≤
      premineOf env (indexedBlocks events ++ [block]) id + minted id s'.entries := by
  obtain ⟨hempty, hdb⟩ := freshSession_eq_some hstart
  have hnd : (spends (indexedBlocks events)).Nodup := by
    rw [spends_append] at hspends
    exact hspends.sublist (List.sublist_append_left _ _)
  obtain ⟨hrest, hsolvent⟩ := runEvents_solvent hempty hdb hforward hnd hrun
  rw [← premined_eq_premineOf hchain]
  exact (indexTransactions_solvent hrest hsolvent hspends hblock).1 id

/-- No inflation where a minted rune is sent on by another process than the one that minted it. -/
theorem unspent_le_supply_spendBlock : ∃ s₀ s s', freshSession .bitcoin 2 (by decide) = some s₀ ∧
    runEvents mintEnv mintAndRestart s₀ = some s ∧
      indexTransactions mintEnv spendBlock s = some s' ∧
      unspent ⟨1, 0⟩ (spends [mintBlock, spendBlock]) s'.entries ≤
        premineOf mintEnv [mintBlock, spendBlock] ⟨1, 0⟩ + minted ⟨1, 0⟩ s'.entries := by
  obtain ⟨s₀, s, s', hstart, hrun, hblock⟩ := mintAndRestart_runs
  refine ⟨s₀, s, s', hstart, hrun, hblock, ?_⟩
  have hforward : ∀ e ∈ mintAndRestart, e.Forward := by simp [mintAndRestart, Event.Forward]
  have hchain : Chain (indexedBlocks mintAndRestart ++ [spendBlock]) := ⟨by decide, by decide⟩
  exact unspent_le_supply hforward hchain (by decide) hstart hrun hblock ⟨1, 0⟩

end Runehook
