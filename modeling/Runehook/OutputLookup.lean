import Runehook.Conservation

/-! # What each layer knows of an output

The balances of an output are in three places: in the cache of the current block, in the LRU cache
of outputs, and in the table `ledger`. Each is compared with one reading, `credits`: the balances
that the `receive` entries of a list credit to the output. `getD_blockOutputs` and
`getD_pgGetInputRuneBalances` are about two of the places, and `getD_inputRuneBalances` about the
search in all of them (`Found`). -/

namespace Runehook

open Lib

/-- The balances of a rune that entries credit to an output, in the order of the entries. -/
def credits (k : String × Nat) (id : RuneId) (es : List DbLedgerEntry) : List InputRuneBalance :=
  (es.filter fun e => e.operation = .receive ∧ e.outputKey = some k ∧ e.runeId = id).map
    DbLedgerEntry.balance

@[simp] theorem credits_nil (k : String × Nat) (id : RuneId) : credits k id [] = [] := rfl

@[simp] theorem credits_append (k : String × Nat) (id : RuneId) (es es' : List DbLedgerEntry) :
    credits k id (es ++ es') = credits k id es ++ credits k id es' := by
  rw [credits, List.filter_append, List.map_append, credits, credits]

/-- The entries credit an output. -/
def Credited (k : String × Nat) (es : List DbLedgerEntry) : Prop :=
  ∃ e ∈ es, e.operation = .receive ∧ e.outputKey = some k

theorem credits_eq_nil {k : String × Nat} {es : List DbLedgerEntry} (h : ¬ Credited k es)
    (id : RuneId) :
    credits k id es = [] := by
  rw [credits, List.filter_eq_nil_iff.mpr, List.map_nil]
  intro e he hp
  have hp := of_decide_eq_true hp
  exact h ⟨e, he, hp.1, hp.2.1⟩

/-! ## The cache of the current block -/

/-- One entry in the cache of the block. -/
theorem creditOutput_credit {e : DbLedgerEntry} (hop : e.operation = .receive) (hcredit : e.Credit)
    (m : BlockOutputCache) :
    ∃ k, e.outputKey = some k ∧ creditOutput m e = cacheOutput k e.runeId e.balance m := by
  obtain ⟨a, ha⟩ := Option.isSome_iff_exists.mp hcredit.address
  obtain ⟨o, ho⟩ := Option.isSome_iff_exists.mp hcredit.output
  have hk : e.outputKey = some (e.txId, o) := by rw [DbLedgerEntry.outputKey, ho, Option.map_some]
  refine ⟨(e.txId, o), hk, ?_⟩
  rw [creditOutput, if_pos hop, ha, hk]

theorem getD_pushBalance (m : RuneBalances) (id id' : RuneId) (b : InputRuneBalance) :
    (pushBalance m id b).getD id' [] = if id' = id then m.getD id [] ++ [b] else m.getD id' [] := by
  rw [pushBalance, HashMap.getD_alter]
  by_cases h : id' = id
  · rw [if_pos h, if_pos h, HashMap.getD]
    cases m.lookup id with
    | none => rfl
    | some v => rfl
  · rw [if_neg h, if_neg h]

/-- Caching a balance adds it to the balances of the output. -/
theorem getD_cacheOutput (m : BlockOutputCache) (k k' : String × Nat) (id id' : RuneId)
    (b : InputRuneBalance) :
    ((cacheOutput k id b m).getD k' ∅).getD id' [] =
      (m.getD k' ∅).getD id' [] ++ if k' = k ∧ id' = id then [b] else [] := by
  rw [cacheOutput, HashMap.getD_alter]
  by_cases hk : k' = k
  -- the output has balances already or is new to the cache
  · subst hk
    have hget : m.getD k' ∅ = (m.lookup k').getD ∅ := rfl
    rw [if_pos rfl, hget]
    cases hm : m.lookup k' with
    | none =>
      dsimp only
      rw [getD_pushBalance]
      by_cases hid : id' = id <;> simp [hid]
    | some v =>
      dsimp only
      rw [getD_pushBalance]
      by_cases hid : id' = id <;> simp [hid]
  · rw [if_neg hk, if_neg fun h => hk h.1, List.append_nil]

/-- Entries whose credits have all their fields. -/
def CreditsOk (es : List DbLedgerEntry) : Prop := ∀ e ∈ es, e.operation = .receive → e.Credit

theorem CreditsOk.append {es es' : List DbLedgerEntry} (h : CreditsOk es) (h' : CreditsOk es') :
    CreditsOk (es ++ es') := by
  intro e he
  rcases List.mem_append.mp he with he | he
  · exact h e he
  · exact h' e he

/-- **The block cache.** It holds the balances that the entries of the block credit. -/
theorem getD_blockOutputs {es : List DbLedgerEntry} (h : CreditsOk es) (m : BlockOutputCache)
    (k : String × Nat) (id : RuneId) :
    ((es.foldl creditOutput m).getD k ∅).getD id [] =
      (m.getD k ∅).getD id [] ++ credits k id es := by
  induction es generalizing m with
  | nil => exact (List.append_nil _).symm
  | cons e es ih =>
    rw [List.foldl_cons, ih fun e' he' => h e' (List.mem_cons_of_mem _ he'),
      ← List.singleton_append (l := es), credits_append, ← List.append_assoc]
    congr 1
    -- a receive is credited to its own output and rune
    by_cases hop : e.operation = .receive
    · obtain ⟨k', hk', hcredit⟩ := creditOutput_credit hop (h e List.mem_cons_self hop) m
      rw [hcredit, getD_cacheOutput, credits]
      by_cases hk : k = k'
      · by_cases hid : id = e.runeId
        · simp [hk, hid, hop, hk']
        · simp [hk, hid, Ne.symm hid]
      · simp [hk, hk', Ne.symm hk]
    · rw [creditOutput, if_neg hop, credits, List.filter_cons_of_neg (by simp [hop])]
      simp

/-- The block cache knows the outputs that the entries credit. -/
theorem mem_keys_blockOutputs {es : List DbLedgerEntry} (h : CreditsOk es) (m : BlockOutputCache)
    (k : String × Nat) : k ∈ (es.foldl creditOutput m).keys ↔ k ∈ m.keys ∨ Credited k es := by
  induction es generalizing m with
  | nil =>
    constructor
    · exact Or.inl
    · rintro (hm | ⟨e, he, -⟩)
      · exact hm
      · exact absurd he List.not_mem_nil
  | cons e es ih =>
    rw [List.foldl_cons, ih fun e' he' => h e' (List.mem_cons_of_mem _ he')]
    -- an output is credited by the first entry or by a later one
    have hcons : Credited k (e :: es) ↔ (e.operation = .receive ∧ e.outputKey = some k) ∨
        Credited k es := by
      simp [Credited]
    rw [hcons, ← or_assoc]
    refine or_congr_left ?_
    by_cases hop : e.operation = .receive
    · obtain ⟨k', hk', hcredit⟩ := creditOutput_credit hop (h e List.mem_cons_self hop) m
      rw [hcredit, cacheOutput, HashMap.mem_keys_alter, hk', or_comm]
      refine or_congr_right ?_
      constructor
      · rintro rfl
        exact ⟨hop, rfl⟩
      · exact fun h => (Option.some.inj h.2).symm
    · rw [creditOutput, if_neg hop]
      constructor
      · exact Or.inl
      · rintro (hm | hm)
        · exact hm
        · exact absurd hm.1 hop

/-! ## The table -/

/-- A row of the query carries the index of the output that it was joined with. -/
theorem joinInput_fst {l : DbLedgerEntry} {o : Nat × String × Nat} {row : Nat × DbLedgerEntry}
    (h : joinInput l o = some row) : row.1 = o.1 := by
  rw [joinInput] at h
  split at h
  · rw [← Option.some.inj h]
  · cases h

theorem outputKey_eq_some_iff (l : DbLedgerEntry) (k : String × Nat) :
    l.outputKey = some k ↔ l.txId = k.1 ∧ l.output = some k.2 := by
  rw [DbLedgerEntry.outputKey]
  cases l.output with
  | none => simp
  | some o => simp [Prod.ext_iff]

/-- The rows of one input among the rows of the query: the credits of the output it spends. -/
theorem filter_inputRows {outputs : List (Nat × String × Nat)} (hnd : (outputs.map Prod.fst).Nodup)
    {i : Nat} {k : String × Nat} (hi : (i, k) ∈ outputs) (id : RuneId)
    (ledger : List DbLedgerEntry) :
    ((ledger.flatMap fun l => outputs.filterMap (joinInput l)).filter fun row =>
      row.1 = i ∧ row.2.runeId = id).map (fun row => row.2.balance) = credits k id ledger := by
  induction ledger with
  | nil => rfl
  | cons l ledger ih =>
    rw [List.flatMap_cons, List.filter_append, List.map_append,
      ih, ← List.singleton_append (l := ledger), credits_append]
    congr 1
    -- among the outputs of the query, input `i` is the one with the key `k`
    obtain ⟨before, after, rfl⟩ := List.append_of_mem hi
    rw [List.map_append, List.map_cons, List.nodup_append, List.nodup_cons] at hnd
    have hother : ∀ os : List (Nat × String × Nat), i ∉ os.map Prod.fst →
        (os.filterMap (joinInput l)).filter (fun row => decide (row.1 = i ∧ row.2.runeId = id)) =
          [] := by
      intro os hos
      rw [List.filter_eq_nil_iff]
      intro row hrow hp
      obtain ⟨o, ho, heq⟩ := List.mem_filterMap.mp hrow
      exact hos (List.mem_map.mpr ⟨o, ho, (joinInput_fst heq).symm.trans (of_decide_eq_true hp).1⟩)
    have hbefore : i ∉ before.map Prod.fst := fun h => hnd.2.2 i h i List.mem_cons_self rfl
    rw [List.filterMap_append, List.filter_append, hother before hbefore, List.nil_append]
    by_cases hl : l.txId = k.1 ∧ l.output = some k.2 ∧ l.operation = .receive
    · have hjoin : joinInput l (i, k) = some (i, l) := if_pos hl
      have hk : l.outputKey = some k := (outputKey_eq_some_iff l k).mpr ⟨hl.1, hl.2.1⟩
      rw [List.filterMap_cons_some hjoin]
      by_cases hid : l.runeId = id
      · rw [List.filter_cons_of_pos (by simp [hid]), hother after hnd.2.1.1]
        simp [credits, hl.2.2, hk, hid]
      · rw [List.filter_cons_of_neg (by simp [hid]), hother after hnd.2.1.1]
        simp [credits, hid]
    · have hjoin : joinInput l (i, k) = none := if_neg hl
      rw [List.filterMap_cons_none hjoin, hother after hnd.2.1.1, credits, List.filter_cons_of_neg,
        List.filter_nil]
      · rfl
      · intro hp
        have hp := of_decide_eq_true hp
        have hk := (outputKey_eq_some_iff l k).mp hp.2.1
        exact hl ⟨hk.1, hk.2, hp.1⟩

/-- What the results hold is what the rows push. -/
theorem getD_foldl_pushRow (rows : List (Nat × DbLedgerEntry))
    (m : HashMap Nat RuneBalances) (i : Nat) (id : RuneId) :
    ((rows.foldl pushRow m).getD i ∅).getD id [] = (m.getD i ∅).getD id [] ++
      (rows.filter fun row => row.1 = i ∧ row.2.runeId = id).map fun row => row.2.balance := by
  induction rows generalizing m with
  | nil => exact (List.append_nil _).symm
  | cons row rows ih =>
    rw [List.foldl_cons, ih, pushRow, HashMap.getD_alter]
    by_cases hi : i = row.1
    · subst hi
      have hinput : (m.lookup row.1).getD ∅ = m.getD row.1 ∅ := rfl
      rw [if_pos rfl, getD_pushBalance, hinput]
      by_cases hid : id = row.2.runeId
      · rw [if_pos hid, List.filter_cons_of_pos (by simp [hid]), hid]
        simp
      · rw [if_neg hid, List.filter_cons_of_neg (by simp [Ne.symm hid])]
    · rw [if_neg hi, List.filter_cons_of_neg (by simp [Ne.symm hi])]

/-- **The query.** For an input whose output is asked for it returns, in some order, the balances
that the rows of the table credit to the output. -/
theorem getD_pgGetInputRuneBalances (env : Environment)
    {outputs : List (Nat × String × Nat)} (db : Db) (hnd : (outputs.map Prod.fst).Nodup) {i : Nat}
    {k : String × Nat} (hi : (i, k) ∈ outputs) (id : RuneId) :
    (((pgGetInputRuneBalances env outputs db).getD i ∅).getD id []).Perm (credits k id db.ledger) ∧
      ((∀ l, env.rowOrder l = l) →
        ((pgGetInputRuneBalances env outputs db).getD i ∅).getD id [] =
          credits k id db.ledger) := by
  rw [pgGetInputRuneBalances, getD_foldl_pushRow, HashMap.getD_empty, HashMap.getD_empty,
    List.nil_append, ← filter_inputRows hnd hi id db.ledger, inputBalanceRows]
  constructor
  · exact ((env.rowOrder_perm _).filter _).map _
  · intro hrows
    rw [hrows]

/-- The query returns nothing for an input that was not asked for. -/
theorem lookup_pgGetInputRuneBalances_eq_none (env : Environment)
    {outputs : List (Nat × String × Nat)} (db : Db) {i : Nat} (hi : i ∉ outputs.map Prod.fst) :
    (pgGetInputRuneBalances env outputs db).lookup i = none := by
  -- a row of another input leaves this one alone
  have hstep : ∀ (rows : List (Nat × DbLedgerEntry)) (m : HashMap Nat RuneBalances),
      (∀ row ∈ rows, row.1 ≠ i) → m.lookup i = none → (rows.foldl pushRow m).lookup i = none := by
    intro rows
    induction rows with
    | nil => exact fun m _ hm => hm
    | cons row rows ih =>
      intro m hrows hm
      refine ih _ (fun r hr => hrows r (List.mem_cons_of_mem _ hr)) ?_
      rw [pushRow, HashMap.lookup_alter_ne _ (Ne.symm (hrows row List.mem_cons_self)), hm]
  refine hstep _ _ ?_ (HashMap.lookup_empty i)
  intro row hrow he
  rw [inputBalanceRows] at hrow
  obtain ⟨l, -, hl⟩ := List.mem_flatMap.mp ((env.rowOrder_perm _).mem_iff.mp hrow)
  obtain ⟨o, ho, heq⟩ := List.mem_filterMap.mp hl
  exact hi (List.mem_map.mpr ⟨o, ho, (joinInput_fst heq).symm.trans he⟩)

/-! ## The search -/

/-- What the two caches hold of an output: the cache of the block comes first. -/
def cachedOutput (blockOutputCache : BlockOutputCache) (outputCache : OutputCache)
    (k : String × Nat) :
    Option RuneBalances :=
  (blockOutputCache.lookup k).or (outputCache.peek k)

/-- The first loop, input by input: a cached output goes to the results, any other one to the
misses, and the LRU cache changes its recency order only. -/
theorem foldl_searchInput (blockOutputCache : BlockOutputCache) (outputCache : OutputCache)
    (inputs : List (TxIn × Nat)) (search : InputSearch)
    (hpeek : ∀ k, search.outputCache.peek k = outputCache.peek k)
    (hnd : (inputs.map Prod.snd).Nodup) :
    (∀ k, (inputs.foldl (searchInput blockOutputCache) search).outputCache.peek k =
      outputCache.peek k) ∧
    (inputs.foldl (searchInput blockOutputCache) search).cacheMisses = search.cacheMisses ++
      ((inputs.filter fun p => (cachedOutput blockOutputCache outputCache p.1.outputKey).isNone).map
        fun p => (p.2, p.1.outputKey)) ∧
    (∀ p ∈ inputs,
      (inputs.foldl (searchInput blockOutputCache) search).indexedInputRunes.lookup p.2 =
        (cachedOutput blockOutputCache outputCache p.1.outputKey).or
      (search.indexedInputRunes.lookup p.2)) ∧ (∀ i, i ∉ inputs.map Prod.snd →
        (inputs.foldl (searchInput blockOutputCache) search).indexedInputRunes.lookup i =
        search.indexedInputRunes.lookup i) := by
  induction inputs generalizing search with
  | nil =>
    exact ⟨hpeek, (List.append_nil _).symm, fun p hp => absurd hp List.not_mem_nil, fun _ _ => rfl⟩
  | cons p inputs ih =>
    rw [List.map_cons, List.nodup_cons] at hnd
    rw [List.foldl_cons]
    -- what one round does
    have hround :
        (∀ k, (searchInput blockOutputCache search p).outputCache.peek k = outputCache.peek k) ∧
        (searchInput blockOutputCache search p).cacheMisses = search.cacheMisses ++
          (if (cachedOutput blockOutputCache outputCache p.1.outputKey).isNone then
            [(p.2, p.1.outputKey)] else []) ∧
        (∀ i, (searchInput blockOutputCache search p).indexedInputRunes.lookup i =
          if i = p.2 then (cachedOutput blockOutputCache outputCache p.1.outputKey).or
            (search.indexedInputRunes.lookup i) else search.indexedInputRunes.lookup i) := by
      rw [searchInput, cachedOutput]
      cases hblock : blockOutputCache.lookup p.1.outputKey with
      | some map =>
        refine ⟨hpeek, (List.append_nil _).symm, fun i => ?_⟩
        dsimp only
        rw [HashMap.lookup_insert]
        rfl
      | none =>
        rw [Option.none_or, ← hpeek]
        cases hlru : search.outputCache.peek p.1.outputKey with
        | some map =>
          simp only [LruCache.get, hlru]
          refine ⟨fun k => (search.outputCache.peek_get p.1.outputKey k).trans (hpeek k),
            (List.append_nil _).symm, fun i => ?_⟩
          rw [HashMap.lookup_insert]
          rfl
        | none =>
          simp only [LruCache.get, hlru]
          refine ⟨fun k => (search.outputCache.peek_get p.1.outputKey k).trans (hpeek k),
            rfl, fun i => ?_⟩
          rw [Option.none_or, ite_self]
    obtain ⟨hpeek', hmisses, hlookup⟩ := hround
    obtain ⟨ihpeek, ihmisses, ihfound, ihother⟩ := ih _ hpeek' hnd.2
    refine ⟨ihpeek, ?_, ?_, ?_⟩
    · rw [ihmisses, hmisses, List.append_assoc]
      congr 1
      cases hc : (cachedOutput blockOutputCache outputCache p.1.outputKey).isNone with
      | true => rw [List.filter_cons_of_pos (by simpa using hc), List.map_cons]; rfl
      | false => rw [List.filter_cons_of_neg (by simp [hc])]; rfl
    · intro q hq
      rcases List.mem_cons.mp hq with rfl | hq
      · rw [ihother _ hnd.1, hlookup, if_pos rfl]
      · have hne : q.2 ≠ p.2 := fun he => hnd.1 (List.mem_map.mpr ⟨q, hq, he⟩)
        rw [ihfound q hq, hlookup, if_neg hne]
    · intro i hi
      rw [List.map_cons, List.mem_cons, not_or] at hi
      rw [ihother i hi.2, hlookup, if_neg hi.1]

/-- Each input misses at most once. -/
theorem length_cacheMisses_le (inputs : List TxIn) (blockOutputCache : BlockOutputCache)
    (outputCache : OutputCache) :
    (cacheMisses inputs blockOutputCache outputCache).length ≤ inputs.length := by
  have hnd : (inputs.zipIdx.map Prod.snd).Nodup := by
    rw [List.zipIdx_map_snd]
    exact List.nodup_range'
  obtain ⟨-, hmisses, -⟩ := foldl_searchInput blockOutputCache outputCache inputs.zipIdx
    ⟨∅, [], outputCache⟩ (fun _ => rfl) hnd
  rw [cacheMisses, hmisses, List.nil_append, List.length_map]
  exact (List.length_filter_le _ _).trans List.length_zipIdx.le

/-- What the search finds for an input: what a cache holds of the output, or what the table does. -/
structure Found (env : Environment) (blockOutputCache : BlockOutputCache)
    (outputCache : OutputCache) (db : Db) (id : RuneId) (part : List InputRuneBalance)
    (input : TxIn) : Prop where
  /-- A cache that has the output has the balances. -/
  cached : ∀ map, cachedOutput blockOutputCache outputCache input.outputKey = some map →
    part = map.getD id []
  /-- Otherwise they are the credits of the table, in some order. -/
  perm : cachedOutput blockOutputCache outputCache input.outputKey = none →
    part.Perm (credits input.outputKey id db.ledger)
  /-- They are in its order if the query keeps the order of rows. -/
  eq : cachedOutput blockOutputCache outputCache input.outputKey = none →
    (∀ l, env.rowOrder l = l) → part = credits input.outputKey id db.ledger

/-- **The search.** The balances of a rune are, input by input, what is found of the spent
outputs. -/
theorem getD_inputRuneBalances (env : Environment) (inputs : List TxIn)
    (blockOutputCache : BlockOutputCache) (outputCache : OutputCache) (db : Db) (id : RuneId) :
    ∃ parts,
        (inputRuneBalancesFromTxInputs env inputs blockOutputCache outputCache db).1.getD id [] =
          parts.flatten ∧
      List.Forall₂ (Found env blockOutputCache outputCache db id) parts inputs := by
  have hsnd : inputs.zipIdx.map Prod.snd = List.range inputs.length := by
    rw [List.zipIdx_map_snd, List.range_eq_range']
  have hnd : (inputs.zipIdx.map Prod.snd).Nodup := hsnd ▸ List.nodup_range
  obtain ⟨-, hmisses, hfound, hother⟩ :=
    foldl_searchInput blockOutputCache outputCache inputs.zipIdx
      ⟨∅, [], outputCache⟩ (fun _ => rfl) hnd
  rw [inputRuneBalancesFromTxInputs]
  dsimp only
  generalize inputs.zipIdx.foldl (searchInput blockOutputCache) ⟨∅, [], outputCache⟩ = search at *
  simp only [HashMap.lookup_empty, Option.or_none, List.nil_append] at hmisses hfound hother
  have hndmiss : (search.cacheMisses.map Prod.fst).Nodup := by
    rw [hmisses, List.map_map]
    exact hnd.sublist (List.filter_sublist.map _)
  -- the results: what the caches hold, extended by the rows of the query
  obtain ⟨indexed, hindexed, hlookup⟩ : ∃ indexed, indexed = (if 0 < search.cacheMisses.length then
      extendMap search.indexedInputRunes (pgGetInputRuneBalances env search.cacheMisses db)
      else search.indexedInputRunes) ∧ ∀ i, indexed.lookup i =
        ((pgGetInputRuneBalances env search.cacheMisses db).lookup i).or
          (search.indexedInputRunes.lookup i) := by
    refine ⟨_, rfl, fun i => ?_⟩
    split
    · exact lookup_extendMap _ _ i
    · rename_i hlen
      have hnil : search.cacheMisses = [] :=
        List.eq_nil_of_length_eq_zero (Nat.eq_zero_of_not_pos hlen)
      rw [lookup_pgGetInputRuneBalances_eq_none env db (by rw [hnil]; exact List.not_mem_nil),
        Option.none_or]
  rw [← hindexed]
  have hnotmem : ∀ i, i ∉ inputs.zipIdx.map Prod.snd → i ∉ search.cacheMisses.map Prod.fst := by
    intro i hi hmem
    rw [hmisses, List.map_map] at hmem
    obtain ⟨p, hp, rfl⟩ := List.mem_map.mp hmem
    exact hi (List.mem_map_of_mem (List.mem_of_mem_filter hp))
  have hlt : ∀ i ∈ indexed.keys, i < inputs.length := by
    intro i hi
    by_contra hge
    have hi' : i ∉ inputs.zipIdx.map Prod.snd := by
      rw [hsnd, List.mem_range]
      exact hge
    have hnone : indexed.lookup i = none := by
      rw [hlookup, lookup_pgGetInputRuneBalances_eq_none env db (hnotmem i hi'), hother i hi']
      rfl
    exact (HashMap.lookup_eq_none_iff indexed i).mp hnone hi
  refine ⟨inputs.zipIdx.map fun p => (indexed.getD p.2 ∅).getD id [], ?_, ?_⟩
  · rw [getD_joinInputs hlt, ← hsnd, List.flatMap_map, List.flatMap]
  · have hfst : inputs = inputs.zipIdx.map Prod.fst := (List.zipIdx_map_fst 0 inputs).symm
    conv => rhs; rw [hfst]
    rw [List.forall₂_map_left_iff, List.forall₂_map_right_iff, List.forall₂_same]
    intro p hp
    -- which indexes missed
    have hmiss : p.2 ∈ search.cacheMisses.map Prod.fst →
        cachedOutput blockOutputCache outputCache p.1.outputKey = none := by
      intro hmem
      rw [hmisses, List.map_map] at hmem
      obtain ⟨q, hq, hqp⟩ := List.mem_map.mp hmem
      have hqe : q = p := List.inj_on_of_nodup_map hnd (List.mem_of_mem_filter hq) hp hqp
      rw [← hqe]
      exact Option.isNone_iff_eq_none.mp (List.mem_filter.mp hq).2
    constructor
    · intro map hmap
      have hnot : p.2 ∉ search.cacheMisses.map Prod.fst := by
        intro h
        rw [hmiss h] at hmap
        cases hmap
      have hget : indexed.getD p.2 ∅ = map := by
        rw [HashMap.getD, hlookup, lookup_pgGetInputRuneBalances_eq_none env db hnot,
          hfound p hp, hmap]
        rfl
      rw [hget]
    all_goals
      intro hnone
      have hmem : (p.2, p.1.outputKey) ∈ search.cacheMisses := by
        rw [hmisses]
        exact List.mem_map.mpr ⟨p, List.mem_filter.mpr ⟨hp, by rw [hnone]; rfl⟩, rfl⟩
      have hrows := getD_pgGetInputRuneBalances env db hndmiss hmem id
      have heq : indexed.getD p.2 ∅ =
          (pgGetInputRuneBalances env search.cacheMisses db).getD p.2 ∅ := by
        rw [HashMap.getD, hlookup, hfound p hp, hnone, Option.or_none]
        rfl
      rw [heq]
    · exact hrows.1
    · exact hrows.2

/-- The search changes the recency order of the LRU cache only. -/
theorem peek_inputRuneBalances (env : Environment) (inputs : List TxIn)
    (blockOutputCache : BlockOutputCache) (outputCache : OutputCache) (db : Db) (k : String × Nat) :
    (inputRuneBalancesFromTxInputs env inputs blockOutputCache outputCache db).2.peek k =
      outputCache.peek k := by
  have hnd : (inputs.zipIdx.map Prod.snd).Nodup := by
    rw [List.zipIdx_map_snd]
    exact List.nodup_range'
  exact (foldl_searchInput blockOutputCache outputCache inputs.zipIdx ⟨∅, [], outputCache⟩
    (fun _ => rfl) hnd).1 k

end Runehook
