import Runehook.NoInflation

/-! # The layered lookup agrees with the ledger

On a chain with distinct transaction ids an output is credited in one block only, so what the LRU
cache holds of it is all there is (`AllOf`), and each of the three layers answers with exactly the
credits of the ledger: `inputRuneBalances_eq_credits`. `runEvents_exact` carries the layers over
runs. -/

namespace Runehook

open Lib

/-- The ids of the transactions of some blocks, as the ledger has them. -/
def txIds (blocks : List Block) : List String :=
  (blocks.flatMap Block.transactions).map fun tx => stripHexPrefix tx.hash

theorem txIds_append (blocks : List Block) (block : Block) :
    txIds (blocks ++ [block]) = txIds blocks ++ block.transactions.map fun tx =>
    stripHexPrefix tx.hash := by
  rw [txIds, List.flatMap_append, List.flatMap_singleton, List.map_append, txIds]

/-- What the LRU cache holds of an output when the chain has distinct transaction ids: all that the
ledger credits to it. -/
def AllOf (earlier : List DbLedgerEntry) (k : String × Nat) (map : RuneBalances) : Prop :=
  Credited k earlier ∧ ∀ id, map.getD id [] = credits k id earlier

/-- No output is credited both in an earlier block and in the current one. -/
def Separate (earlier current : List DbLedgerEntry) : Prop :=
  ∀ k, Credited k earlier → ¬ Credited k current

theorem Credited.append_left {k : String × Nat} {es : List DbLedgerEntry} (h : Credited k es)
    (es' : List DbLedgerEntry) : Credited k (es ++ es') :=
  h.imp fun _ he => ⟨List.mem_append_left _ he.1, he.2⟩

theorem Credited.append_right {k : String × Nat} {es' : List DbLedgerEntry} (h : Credited k es')
    (es : List DbLedgerEntry) : Credited k (es ++ es') :=
  h.imp fun _ he => ⟨List.mem_append_right _ he.1, he.2⟩

/-- Moving a block's outputs keeps the LRU cache exact when no output is credited twice. -/
theorem AllOf.moveRules {earlier current : List DbLedgerEntry} (h : Separate earlier current) :
    MoveRules AllOf earlier current where
  keep := by
    rintro k map hk ⟨hcredited, hvalues⟩
    refine ⟨hcredited.append_left current, fun id => ?_⟩
    rw [credits_append, credits_eq_nil hk, List.append_nil, hvalues]
  put := by
    intro k map hk hvalues
    refine ⟨hk.append_right earlier, fun id => ?_⟩
    rw [credits_append, credits_eq_nil fun hearlier => h k hearlier hk, List.nil_append, hvalues]
  extend := by
    rintro k map more hk ⟨hcredited, -⟩ -
    exact absurd hk (h k hcredited)

/-- Entries of transactions with these ids. -/
def FromTxs (ids : List String) (es : List DbLedgerEntry) : Prop := ∀ e ∈ es, e.txId ∈ ids

theorem Separate.of_fromTxs {ids ids' : List String} {earlier current : List DbLedgerEntry}
    (hearlier : FromTxs ids earlier) (hcurrent : FromTxs ids' current) (h : (ids ++ ids').Nodup) :
    Separate earlier current := by
  rintro k ⟨e, he, -, hk⟩ ⟨e', he', -, hk'⟩
  have heq : e.txId = e'.txId :=
    ((outputKey_eq_some_iff e k).mp hk).1.trans ((outputKey_eq_some_iff e' k).mp hk').1.symm
  exact (List.nodup_append.mp h).2.2 _ (hearlier e he) _ (hcurrent e' he') heq

/-- Indexing transactions writes entries of these transactions. -/
theorem indexTransactions_fromTxs {Holds : List DbLedgerEntry → String × Nat → RuneBalances → Prop}
    {env : Environment} {block : Block} {s s' : Session} (hrest : AtRest Holds s)
    (hrun : indexTransactions env block s = some s') :
    ∃ current, FromTxs (block.transactions.map fun tx => stripHexPrefix tx.hash) current ∧
      Layered Holds s.entries current s' := by
  have hind := indexTransactions_induction
    (P := fun done current _ => FromTxs (done.map fun tx => stripHexPrefix tx.hash) current)
    hrest ?_ ?_ hrun
  · exact hind
  · intro t _ e he
    exact absurd he List.not_mem_nil
  · intro done tx rest current t t' es _ hP _ _ _ hat _ e he
    rw [List.map_append]
    rcases List.mem_append.mp he with he | he
    · exact List.mem_append_left _ (hP e he)
    · exact List.mem_append_right _ (List.mem_singleton.mpr (hat e he).txId)

/-- A run without rollbacks over distinct transaction ids ends at rest with exact layers. -/
theorem runEvents_exact {env : Environment} {events : List Event} {network : Network}
    {s₀ s : Session} (hempty : s₀.cache.Empty network) (hdb : s₀.db = .migrated)
    (hforward : ∀ e ∈ events, e.Forward) (hids : (txIds (indexedBlocks events)).Nodup)
    (hrun : runEvents env events s₀ = some s) :
    AtRest AllOf s ∧ FromTxs (txIds (indexedBlocks events)) s.entries := by
  refine foldlM_induction_split
    (P := fun done t => AtRest AllOf t ∧ FromTxs (txIds (indexedBlocks done)) t.entries)
    ⟨.of_empty hempty, ?_⟩ ?_ hrun
  · have hentries : s₀.entries = [] := by
      rw [Session.entries, hdb, hempty.dbCache]
      rfl
    rw [hentries]
    exact fun e he => absurd he List.not_mem_nil
  · rintro done e rest t t' hsplit ⟨hrest, hfrom⟩ hstep
    rw [indexedBlocks_append]
    cases e with
    | index block =>
      obtain ⟨u, htxs, hflush⟩ := indexBlock_eq_some.mp hstep
      obtain ⟨current, hcurrent, hlay⟩ := indexTransactions_fromTxs hrest htxs
      -- the blocks of the run, split at this one
      have hblocks : indexedBlocks events = indexedBlocks done ++ [block] ++
          indexedBlocks rest := by
        rw [hsplit, ← List.singleton_append (l := rest), indexedBlocks_append, indexedBlocks_append,
          ← List.append_assoc]
        rfl
      have hnd : (txIds (indexedBlocks done ++ [block])).Nodup := by
        rw [hblocks, txIds, List.flatMap_append, List.map_append] at hids
        exact hids.sublist (List.sublist_append_left _ _)
      rw [txIds_append] at hnd
      -- the flush moves the entries of the block to the table
      obtain ⟨hrest', hentries⟩ :=
        closing_atRest hlay (AllOf.moveRules (.of_fromTxs hfrom hcurrent hnd)) hflush
      refine ⟨hrest', ?_⟩
      show FromTxs (txIds (indexedBlocks done ++ [block])) t'.entries
      rw [hentries, hlay.entries, txIds_append]
      intro e he
      rcases List.mem_append.mp he with he | he
      · exact List.mem_append_left _ (hfrom e he)
      · exact List.mem_append_right _ (hcurrent e he)
    | rollBack height =>
      exact absurd (hforward _ (hsplit ▸ List.mem_append_right _ List.mem_cons_self)) id
    | restart cap hcap =>
      obtain ⟨hrest', hentries⟩ := restart_atRest hrest hstep
      refine ⟨hrest', ?_⟩
      rw [hentries]
      show FromTxs (txIds (indexedBlocks done ++ [])) t.entries
      rwa [List.append_nil]

/-- What is found of an output is what the ledger credits to it, in some order. -/
theorem found_perm {env : Environment} {earlier current : List DbLedgerEntry}
    {s : Session} {id : RuneId} {part : List InputRuneBalance} {input : TxIn}
    (h : Layered AllOf earlier current s) (hsep : Separate earlier current)
    (hfound : Found env s.cache.blockOutputCache s.cache.outputCache s.db id part input) :
    part.Perm (credits input.outputKey id s.entries) := by
  rw [h.entries, credits_append]
  rcases h.found hfound with ⟨hc, rfl⟩ | ⟨hc, map, hmap, rfl⟩ | ⟨hc, hperm, -⟩
  · have hearlier : credits input.outputKey id earlier = [] :=
      credits_eq_nil (fun he => hsep _ he hc) id
    rw [hearlier, List.nil_append]
  · rw [credits_eq_nil hc, List.append_nil, hmap.2]
  · rw [credits_eq_nil hc, List.append_nil]
    exact hperm

/-- **The layered lookup agrees with the ledger.** On a chain with distinct transaction ids, the
balances of a rune that are input to a transaction `tx` are, input by input, the balances that the
`receive` entries written so far credit to the spent output, each once and in some order. The
transactions of `block` are those of its block before `tx`. -/
theorem inputRuneBalances_eq_credits {env : Environment} {network : Network} {cap : Nat}
    {hcap : 0 < cap} {events : List Event} {block : Block} {s₀ s s' : Session} (tx : Transaction)
    (hforward : ∀ e ∈ events, e.Forward)
    (hids : (txIds (indexedBlocks events ++ [block])).Nodup)
    (hstart : freshSession network cap hcap = some s₀) (hrun : runEvents env events s₀ = some s)
    (hblock : indexTransactions env block s = some s') (id : RuneId) :
    ∃ parts,
        (inputRuneBalancesFromTxInputs env tx.inputs s'.cache.blockOutputCache s'.cache.outputCache
          s'.db).1.getD id [] = parts.flatten ∧
      List.Forall₂ (fun part input => part.Perm (credits input.outputKey id s'.entries)) parts
        tx.inputs := by
  obtain ⟨hempty, hdb⟩ := freshSession_eq_some hstart
  rw [txIds_append] at hids
  obtain ⟨hrest, hfrom⟩ :=
    runEvents_exact hempty hdb hforward (hids.sublist (List.sublist_append_left _ _)) hrun
  obtain ⟨current, hcurrent, hlay⟩ := indexTransactions_fromTxs hrest hblock
  have hsep : Separate s.entries current := .of_fromTxs hfrom hcurrent hids
  obtain ⟨parts, hparts, hfound⟩ := getD_inputRuneBalances env tx.inputs s'.cache.blockOutputCache
    s'.cache.outputCache s'.db id
  exact ⟨parts, hparts, hfound.imp fun part input hf => found_perm hlay hsep hf⟩

/-- `mintBlock`, a restart, and a block in which alice mints again. -/
def mintedTwice : List Event :=
  [.index mintBlock, .restart 2 Nat.two_pos, .index ⟨"0xb2", 840002, 1700000000, [mintAgainTx]⟩]

/-- A block in which alice mints a third time. -/
def thirdMintBlock : Block := ⟨"0xb3", 840003, 1700000000, [⟨"0xmint3", 1, [], [[1], [0x6a]]⟩]⟩

/-- A transaction that spends what was minted, before the restart, after it, and in its own
block. -/
def gatherTx : Transaction :=
  ⟨"0xgather", 2, [⟨"0xmint", 0⟩, ⟨"0xmint2", 0⟩, ⟨"0xmint3", 0⟩], [[2]]⟩

/-- One output is found in the table, one in the LRU cache and one in the cache of the block. -/
theorem inputRuneBalances_eq_credits_gatherTx : ∃ s₀ s s',
    freshSession .bitcoin 2 Nat.two_pos = some s₀ ∧ runEvents mintEnv mintedTwice s₀ = some s ∧
      indexTransactions mintEnv thirdMintBlock s = some s' ∧
      gatherTx.inputs.map (fun input => ((s'.cache.blockOutputCache.lookup input.outputKey).isSome,
        (s'.cache.outputCache.peek input.outputKey).isSome)) =
          [(false, false), (false, true), (true, false)] ∧
      (inputRuneBalancesFromTxInputs mintEnv gatherTx.inputs s'.cache.blockOutputCache
        s'.cache.outputCache s'.db).1.getD ⟨1, 0⟩ [] = List.replicate 3 ⟨some "alice", 1⟩ ∧
      ∃ parts, (inputRuneBalancesFromTxInputs mintEnv gatherTx.inputs s'.cache.blockOutputCache
          s'.cache.outputCache s'.db).1.getD ⟨1, 0⟩ [] = parts.flatten ∧
        List.Forall₂ (fun part input => part.Perm (credits input.outputKey ⟨1, 0⟩ s'.entries)) parts
          gatherTx.inputs := by
  have hruns : (freshSession .bitcoin 2 Nat.two_pos).any fun s₀ =>
      (runEvents mintEnv mintedTwice s₀).any fun s =>
      (indexTransactions mintEnv thirdMintBlock s).any fun s' =>
        gatherTx.inputs.map
          (fun input => ((s'.cache.blockOutputCache.lookup input.outputKey).isSome,
            (s'.cache.outputCache.peek input.outputKey).isSome)) =
            [(false, false), (false, true), (true, false)] ∧
        (inputRuneBalancesFromTxInputs mintEnv gatherTx.inputs s'.cache.blockOutputCache
          s'.cache.outputCache s'.db).1.getD ⟨1, 0⟩ [] = List.replicate 3 ⟨some "alice", 1⟩ := by
    decide +kernel
  obtain ⟨s₀, hstart, h⟩ := (Option.any_eq_true _ _).mp hruns
  obtain ⟨s, hrun, h⟩ := (Option.any_eq_true _ _).mp h
  obtain ⟨s', hblock, h⟩ := (Option.any_eq_true _ _).mp h
  obtain ⟨hlayers, hfound⟩ := of_decide_eq_true h
  -- the inputs are in the table, the cache of outputs and the cache of the block
  have hforward : ∀ e ∈ mintedTwice, e.Forward := by simp [mintedTwice, Event.Forward]
  exact ⟨s₀, s, s', hstart, hrun, hblock, hlayers, hfound,
    inputRuneBalances_eq_credits gatherTx hforward (by decide) hstart hrun hblock ⟨1, 0⟩⟩

end Runehook
