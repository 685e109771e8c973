import Mathlib.Data.List.Sort
import Runehook.Database
import Runehook.Lib.LruCache

/-! # The balances input to a transaction

`input_rune_balances_from_tx_inputs` and `move_block_output_cache_to_output_cache` of
`db/cache/utils.rs`: the balances of a spent output are in the cache of the current block, in the
LRU cache of outputs or in the table `ledger` (`inputRuneBalancesFromTxInputs`). `getD_joinInputs`
says what the search comes to. -/

namespace Runehook

open Lib

/-- `TxIn`: the transaction and the index of the output that an input spends. -/
structure TxIn where
  /-- The id of the transaction, with its prefix. -/
  txid : String
  /-- The index of the output. -/
  vout : Nat
  deriving DecidableEq, Repr

/-- The key under which the output that an input spends is cached. -/
def TxIn.outputKey (input : TxIn) : String × Nat := (stripHexPrefix input.txid, input.vout)

/-- The balances that an output holds of each rune. -/
abbrev RuneBalances : Type := HashMap RuneId (List InputRuneBalance)

/-- The cache of outputs with rune balances. -/
abbrev OutputCache : Type := LruCache (String × Nat) RuneBalances

/-- The cache of the outputs produced by the current block. -/
abbrev BlockOutputCache : Type := HashMap (String × Nat) RuneBalances

/-- Add the balances of each rune of `more` after those in `balances`. -/
def extendBalances (balances more : RuneBalances) : RuneBalances :=
  more.entries.foldl (fun balances e => HashMap.alter balances e.1 fun
    | some rune => rune ++ e.2
    | none => e.2) balances

/-- `Extend for HashMap`. -/
def extendMap {K V : Type} [DecidableEq K] (m more : HashMap K V) : HashMap K V :=
  more.entries.foldl (fun m e => AList.insert e.1 e.2 m) m

/-- The variables of the first loop of `input_rune_balances_from_tx_inputs`. -/
structure InputSearch where
  /-- What was found, by the index of the input. -/
  indexedInputRunes : HashMap Nat RuneBalances
  /-- The inputs to ask the database about. -/
  cacheMisses : List (Nat × String × Nat)
  /-- The LRU cache, which every hit changes. -/
  outputCache : OutputCache

/-- The first loop of `input_rune_balances_from_tx_inputs`: look in both the cache of the current
block and the long term cache. -/
def searchInput (blockOutputCache : BlockOutputCache) (search : InputSearch) (input : TxIn × Nat) :
    InputSearch :=
  let k := input.1.outputKey
  match blockOutputCache.lookup k with
  | some map => { search with indexedInputRunes := search.indexedInputRunes.insert input.2 map }
  | none =>
    match search.outputCache.get k with
    | (some map, outputCache) =>
      { search with
        indexedInputRunes := search.indexedInputRunes.insert input.2 map
        outputCache := outputCache }
    | (none, outputCache) =>
      { search with
        cacheMisses := search.cacheMisses ++ [(input.2, k.1, k.2)]
        outputCache := outputCache }

/-- The last loop of `input_rune_balances_from_tx_inputs`, over the input indexes in increasing
order. -/
def joinInputs (indexedInputRunes : HashMap Nat RuneBalances) : RuneBalances :=
  (indexedInputRunes.keys.insertionSort (· ≤ ·)).foldl
    (fun finalInputRunes key => extendBalances finalInputRunes (indexedInputRunes.getD key ∅)) ∅

/-- `input_rune_balances_from_tx_inputs`. The search in the database takes one query for all cache
misses. -/
def inputRuneBalancesFromTxInputs (env : Environment) (inputs : List TxIn)
    (blockOutputCache : BlockOutputCache) (outputCache : OutputCache) (db : Db) :
    RuneBalances × OutputCache :=
  let search := inputs.zipIdx.foldl (searchInput blockOutputCache) ⟨∅, [], outputCache⟩
  let indexedInputRunes :=
    if 0 < search.cacheMisses.length then
      extendMap search.indexedInputRunes (pgGetInputRuneBalances env search.cacheMisses db)
    else search.indexedInputRunes
  (joinInputs indexedInputRunes, search.outputCache)

/-- The outputs that `input_rune_balances_from_tx_inputs` has to search for in the database. -/
def cacheMisses (inputs : List TxIn) (blockOutputCache : BlockOutputCache)
    (outputCache : OutputCache) : List (Nat × String × Nat) :=
  (inputs.zipIdx.foldl (searchInput blockOutputCache) ⟨∅, [], outputCache⟩).cacheMisses

/-- Move the balances of one output of the block to the long term cache. -/
def moveOutput (blockOutputCache : BlockOutputCache) (outputCache : OutputCache)
    (k : String × Nat) :
    OutputCache :=
  match blockOutputCache.lookup k with
  | none => outputCache
  | some map =>
    match outputCache.peek k with
    | some _ => outputCache.modify k fun v => extendBalances v map
    | none => outputCache.put k map

/-- `move_block_output_cache_to_output_cache`: the long term cache once the cache of the block is
moved to it; the latter is then empty. -/
def moveBlockOutputCacheToOutputCache (env : Environment) (blockOutputCache : BlockOutputCache)
    (outputCache : OutputCache) : OutputCache :=
  (env.outputOrder blockOutputCache.keys).foldl (moveOutput blockOutputCache) outputCache

/-! ## What each step of the search finds -/

@[simp] theorem getD_extendBalances (balances more : RuneBalances) (id : RuneId) :
    (extendBalances balances more).getD id [] = balances.getD id [] ++ more.getD id [] := by
  have step : ∀ (es : List (Sigma fun _ : RuneId => List InputRuneBalance)) (m : RuneBalances),
      es.NodupKeys → HashMap.getD (es.foldl (fun m e => HashMap.alter m e.1 fun
          | some rune => rune ++ e.2
          | none => e.2) m) id [] = m.getD id [] ++ ((es.dlookup id).getD []) := by
    intro es
    induction es with
    | nil => exact fun m _ => (List.append_nil _).symm
    | cons e es ih =>
      intro m hnd
      rw [List.nodupKeys_cons] at hnd
      rw [List.foldl_cons, ih _ hnd.2, HashMap.getD_alter]
      by_cases he : id = e.1
      · -- the head is the only entry of the rune
        subst he
        rw [if_pos rfl, List.dlookup_eq_none.mpr hnd.1, List.dlookup_cons_eq, Option.getD_none,
          List.append_nil, Option.getD_some, HashMap.getD]
        cases m.lookup e.1 with
        | none => rfl
        | some v => rfl
      · rw [if_neg he, List.dlookup_cons_ne _ _ he]
  exact step more.entries balances more.nodupKeys

theorem lookup_extendMap {K V : Type} [DecidableEq K] (m more : HashMap K V) (k : K) :
    (extendMap m more).lookup k = (more.lookup k).or (m.lookup k) := by
  -- entry by entry, since the keys of a map are distinct
  have step : ∀ (es : List (Sigma fun _ : K => V)) (m : HashMap K V), es.NodupKeys →
      AList.lookup k (es.foldl (fun m e => AList.insert e.1 e.2 m) m) =
        (es.dlookup k).or (m.lookup k) := by
    intro es
    induction es with
    | nil => exact fun m _ => rfl
    | cons e es ih =>
      intro m hnd
      rw [List.nodupKeys_cons] at hnd
      rw [List.foldl_cons, ih _ hnd.2, HashMap.lookup_insert]
      by_cases he : k = e.1
      · subst he
        rw [if_pos rfl, List.dlookup_eq_none.mpr hnd.1, List.dlookup_cons_eq]
        rfl
      · rw [if_neg he, List.dlookup_cons_ne _ _ he]
  exact step more.entries m more.nodupKeys

/-- A strictly increasing list of indexes below `n` is the part of `0, …, n - 1` that it names. -/
theorem sorted_keys_eq_filter {ks : List Nat} {n : Nat} (hnd : ks.Nodup) (hlt : ∀ k ∈ ks, k < n) :
    ks.insertionSort (· ≤ ·) = (List.range n).filter (· ∈ ks) := by
  refine List.Perm.eq_of_pairwise' (r := (· ≤ ·)) ?_ ?_ ?_
  · exact List.pairwise_insertionSort _ ks
  · exact List.pairwise_le_range.filter _
  · refine (List.perm_insertionSort _ ks).trans ?_
    refine (List.perm_ext_iff_of_nodup hnd (List.nodup_range.filter _)).mpr ?_
    intro k
    simp only [List.mem_filter, List.mem_range, decide_eq_true_eq]
    exact ⟨fun h => ⟨hlt k h, h⟩, fun h => h.2⟩

theorem getD_foldl_extendBalances (indexed : HashMap Nat RuneBalances) (id : RuneId) (ks : List Nat)
    (m : RuneBalances) :
    HashMap.getD (ks.foldl (fun m key => extendBalances m (indexed.getD key ∅)) m) id [] =
      m.getD id [] ++ ks.flatMap fun i => (indexed.getD i ∅).getD id [] := by
  induction ks generalizing m with
  | nil => exact (List.append_nil _).symm
  | cons k ks ih =>
    rw [List.foldl_cons, ih, getD_extendBalances, List.flatMap_cons, List.append_assoc]

/-- Indexes that the map does not have add no balances. -/
theorem flatMap_filter_keys (indexed : HashMap Nat RuneBalances) (id : RuneId) (is : List Nat) :
    (is.filter (· ∈ indexed.keys)).flatMap (fun i => (indexed.getD i ∅).getD id []) =
      is.flatMap fun i => (indexed.getD i ∅).getD id [] := by
  induction is with
  | nil => rfl
  | cons i is ih =>
    by_cases hi : i ∈ indexed.keys
    · rw [List.filter_cons_of_pos (by simpa using hi), List.flatMap_cons, List.flatMap_cons, ih]
    · rw [List.filter_cons_of_neg (by simpa using hi), List.flatMap_cons, ih]
      have hnone : indexed.getD i ∅ = ∅ := by
        rw [HashMap.getD, (HashMap.lookup_eq_none_iff indexed i).mpr hi, Option.getD_none]
      rw [hnone, HashMap.getD_empty, List.nil_append]

/-- **Joining.** The balances of a rune are those of each input, in the order of the inputs. -/
theorem getD_joinInputs {indexed : HashMap Nat RuneBalances} {n : Nat}
    (hlt : ∀ k ∈ indexed.keys, k < n) (id : RuneId) :
    (joinInputs indexed).getD id [] =
      (List.range n).flatMap fun i => (indexed.getD i ∅).getD id [] := by
  have hkeys : indexed.keys.insertionSort (· ≤ ·) = (List.range n).filter (· ∈ indexed.keys) :=
    sorted_keys_eq_filter indexed.nodupKeys hlt
  rw [joinInputs, hkeys, getD_foldl_extendBalances, HashMap.getD_empty, List.nil_append,
    flatMap_filter_keys]

end Runehook
