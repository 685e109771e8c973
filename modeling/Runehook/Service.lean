import Runehook.BlockRows

/-! # The observer sidecar

`chainhook_sidecar_mutate_blocks` of `service.rs` (`chainhookSidecarMutateBlocks`): blocks are
rolled back by height, and a block that is handed over with its flag set is not indexed again. The
tables follow the chain (`Sidecar.Tracks`) as long as every block that is passed over wrote nothing
(`Sidecar.SkipsNothing`): `Sidecar.Tracks.call_iff` is about one call, and `tracks_iff_skipsNothing`
about runs. -/

namespace Runehook

open Lib

/-! ## One call -/

/-- `BlockIdentifier`. -/
structure BlockIdentifier where
  /-- The height. -/
  index : Nat
  /-- The hash. -/
  hash : String
  deriving DecidableEq, Repr

/-- The identifier of a block. -/
def Block.blockIdentifier (block : Block) : BlockIdentifier := ⟨block.height, block.hash⟩

/-- `BitcoinBlockDataCached`. -/
structure BitcoinBlockDataCached where
  /-- The block. -/
  block : Block
  /-- Whether the sidecar has indexed it. -/
  processedBySidecar : Bool
  deriving DecidableEq, Repr

/-- The loop over `blocks_to_mutate`. -/
def mutateBlocks (env : Environment) :
    List BitcoinBlockDataCached → Session → Option (Session × List BitcoinBlockDataCached)
  | [], s => some (s, [])
  | cache :: caches, s =>
    if cache.processedBySidecar then do
      let (s, mutated) ← mutateBlocks env caches s
      return (s, cache :: mutated)
    else do
      let s ← indexBlock env cache.block s
      let (s, mutated) ← mutateBlocks env caches s
      return (s, { cache with processedBySidecar := true } :: mutated)

/-- The loop over `block_ids_to_rollback`. -/
def rollBackBlocks (blockIdsToRollback : List BlockIdentifier) (s : Session) : Session :=
  blockIdsToRollback.foldl (fun s id => rollBackBlock id.index s) s

/-- `chainhook_sidecar_mutate_blocks`. -/
def chainhookSidecarMutateBlocks (env : Environment) (blocksToMutate : List BitcoinBlockDataCached)
    (blockIdsToRollback : List BlockIdentifier) (s : Session) :
    Option (Session × List BitcoinBlockDataCached) :=
  mutateBlocks env blocksToMutate (rollBackBlocks blockIdsToRollback s)

/-! ## Runs of the sidecar -/

/-- What the chainhook SDK asks of the sidecar in one call. -/
structure Call where
  /-- The blocks that are off the chain. -/
  rollBack : List BlockIdentifier
  /-- The blocks that are on it now. -/
  apply : List Block

/-- The chain after a call. -/
def Call.chain (call : Call) (chain : List Block) : List Block :=
  chain.filter (fun b => b.blockIdentifier ∉ call.rollBack) ++ call.apply

/-- The lists of a call fit the chain: what is rolled back is on it, and heights ascend along the
chain that results. -/
structure Call.Consistent (chain : List Block) (call : Call) : Prop where
  /-- What is rolled back is on the chain. -/
  onChain : ∀ id ∈ call.rollBack, ∃ b ∈ chain, b.blockIdentifier = id
  /-- The heights ascend along the chain that results. -/
  ascending : (call.chain chain).Pairwise fun b c => b.height < c.height

/-- Every call of a list fits the chain that the calls before it leave. -/
def ConsistentCalls : List Block → List Call → Prop
  | _, [] => True
  | chain, call :: calls => call.Consistent chain ∧ ConsistentCalls (call.chain chain) calls

/-- A sidecar with what the SDK remembers about its calls. -/
structure Sidecar where
  /-- The indexer. -/
  session : Session
  /-- The blocks whose flag the sidecar has set. -/
  processed : List Block
  /-- The blocks that were applied and not rolled back since. -/
  chain : List Block
  /-- What each block wrote when it was indexed, the latest first. -/
  written : List (Block × BlockRows)

/-- A sidecar on freshly migrated tables. -/
def Sidecar.start (network : Network) (cap : Nat) (hcap : 0 < cap) : Option Sidecar := do
  let s ← freshSession network cap hcap
  return ⟨s, [], [], []⟩

/-- The flag with which the SDK hands a block over: the one that the sidecar last set on it. -/
def Sidecar.handOver (sc : Sidecar) (block : Block) : BitcoinBlockDataCached :=
  ⟨block, block ∈ sc.processed⟩

/-- Carry out a call. -/
def Sidecar.call (env : Environment) (sc : Sidecar) (call : Call) : Option Sidecar := do
  let (s, mutated) ← chainhookSidecarMutateBlocks env (call.apply.map sc.handOver)
      call.rollBack sc.session
  return {
    session := s
    processed := (mutated.filter (·.processedBySidecar)).map (·.block) ++ sc.processed
    chain := call.chain sc.chain
    written :=
      (call.apply.filter (· ∉ sc.processed)).map (fun b => (b, rowsAt b.height s.db)) ++
        sc.written }

/-- Carry out calls. -/
def runCalls (env : Environment) (calls : List Call) (sc : Sidecar) : Option Sidecar :=
  calls.foldlM (Sidecar.call env) sc

/-- What a block wrote when it was last indexed; nothing if it never was. -/
def Sidecar.rowsOf (sc : Sidecar) (block : Block) : BlockRows :=
  ((sc.written.find? fun w => w.1 = block).map (·.2)).getD .none

/-- **The tables hold the rows of the blocks on the chain, and no others.** -/
structure Sidecar.Tracks (sc : Sidecar) : Prop where
  /-- A block on the chain has the rows that it wrote. -/
  onChain : ∀ b ∈ sc.chain, rowsAt b.height sc.session.db = sc.rowsOf b
  /-- A height without a block has none. -/
  offChain : ∀ h, (∀ b ∈ sc.chain, b.height ≠ h) → rowsAt h sc.session.db = .none

/-- Every block that a call hands over with its flag set is one that wrote nothing. -/
def Sidecar.SkipsNothing (sc : Sidecar) (call : Call) : Prop :=
  ∀ b ∈ call.apply, b ∈ sc.processed → sc.rowsOf b = .none

instance (sc : Sidecar) : DecidablePred sc.SkipsNothing := fun call =>
  inferInstanceAs (Decidable (∀ b ∈ call.apply, b ∈ sc.processed → sc.rowsOf b = .none))

/-! ## What a call does to the rows -/

theorem rowsAt_rollBackBlocks {k : Nat} (ids : List BlockIdentifier) (s : Session) :
    rowsAt k (rollBackBlocks ids s).db = if k ∈ ids.map (·.index) then .none
    else rowsAt k s.db := by
  induction ids generalizing s with
  | nil => simp [rollBackBlocks]
  | cons id ids ih =>
    rw [rollBackBlocks, List.foldl_cons, ← rollBackBlocks, ih]
    by_cases hk : k = id.index
    · subst hk
      simp [rollBackBlock, rowsAt_rollBack_self]
    · simp [rollBackBlock, rowsAt_rollBack_ne hk, hk]

/-- Rolling back leaves what is in memory. -/
theorem rollBackBlocks_cache (ids : List BlockIdentifier) (s : Session) :
    (rollBackBlocks ids s).cache = s.cache := by
  induction ids generalizing s with
  | nil => rfl
  | cons id ids ih =>
    rw [rollBackBlocks, List.foldl_cons, ← rollBackBlocks, ih]
    rfl

/-- The blocks whose flag is not set are indexed, at their own heights; afterwards every flag is
set. -/
theorem mutateBlocks_rows {env : Environment} {blocks : List BitcoinBlockDataCached}
    {s s' : Session} {mutated : List BitcoinBlockDataCached} (hrest : s.cache.dbCache = .new)
    (hrun : mutateBlocks env blocks s = some (s', mutated)) :
    s'.cache.dbCache = .new ∧
      (mutated.filter (·.processedBySidecar)).map (·.block) = blocks.map (·.block) ∧
      ∀ k, (∀ c ∈ blocks, c.processedBySidecar = false → c.block.height ≠ k) →
        rowsAt k s'.db = rowsAt k s.db := by
  induction blocks generalizing s mutated with
  | nil =>
    obtain ⟨rfl, rfl⟩ := Prod.mk.inj (Option.some.inj hrun)
    exact ⟨hrest, rfl, fun _ _ => rfl⟩
  | cons cache caches ih =>
    rw [mutateBlocks] at hrun
    split at hrun
    case isTrue hflag =>
      obtain ⟨⟨t, rest⟩, htail, hs⟩ := Option.bind_eq_some_iff.mp hrun
      obtain ⟨rfl, rfl⟩ := Prod.mk.inj (Option.some.inj hs)
      obtain ⟨hrest', hflags, hrows⟩ := ih hrest htail
      refine ⟨hrest', ?_, fun k hk => hrows k fun c hc => hk c (List.mem_cons_of_mem _ hc)⟩
      rw [List.filter_cons_of_pos hflag, List.map_cons, hflags, List.map_cons]
    case isFalse hflag =>
      obtain ⟨t, hindex, hrun⟩ := Option.bind_eq_some_iff.mp hrun
      obtain ⟨⟨u, rest⟩, htail, hs⟩ := Option.bind_eq_some_iff.mp hrun
      obtain ⟨rfl, rfl⟩ := Prod.mk.inj (Option.some.inj hs)
      obtain ⟨hrest₁, hrows₁⟩ := rowsAt_indexBlock hrest hindex
      obtain ⟨hrest', hflags, hrows⟩ := ih hrest₁ htail
      refine ⟨hrest', ?_, ?_⟩
      · rw [List.filter_cons_of_pos rfl, List.map_cons, hflags, List.map_cons]
      -- a block of another height is untouched by the indexed one
      · intro k hk
        have hne : cache.block.height ≠ k :=
          hk cache List.mem_cons_self (Bool.eq_false_of_not_eq_true hflag)
        rw [hrows k fun c hc => hk c (List.mem_cons_of_mem _ hc), hrows₁ k (Ne.symm hne)]

/-- What one call leaves. -/
structure Sidecar.CallSpec (sc : Sidecar) (call : Call) (sc' : Sidecar) : Prop where
  /-- Nothing waits in memory. -/
  dbCache : sc'.session.cache.dbCache = .new
  /-- The applied blocks have their flags set. -/
  processed : sc'.processed = call.apply ++ sc.processed
  /-- The chain is that of the call. -/
  chain : sc'.chain = call.chain sc.chain
  /-- The blocks that had no flag have written their rows. -/
  written : sc'.written = (call.apply.filter (· ∉ sc.processed)).map
    (fun b => (b, rowsAt b.height sc'.session.db)) ++ sc.written
  /-- A height that no block was indexed at has its rows, unless it was rolled back. -/
  rows : ∀ k, (∀ b ∈ call.apply, b ∉ sc.processed → b.height ≠ k) →
    rowsAt k sc'.session.db =
      if k ∈ call.rollBack.map (·.index) then .none else rowsAt k sc.session.db

theorem Sidecar.call_spec {env : Environment} {sc sc' : Sidecar} {call : Call}
    (hrest : sc.session.cache.dbCache = .new) (hrun : sc.call env call = some sc') :
    sc.CallSpec call sc' := by
  obtain ⟨⟨s, mutated⟩, hmutate, hs⟩ := Option.bind_eq_some_iff.mp hrun
  cases Option.some.inj hs
  -- rolling back leaves the caches as they are
  have hrest' : (rollBackBlocks call.rollBack sc.session).cache.dbCache = .new := by
    rw [rollBackBlocks_cache]
    exact hrest
  obtain ⟨hnew, hflags, hrows⟩ := mutateBlocks_rows hrest' hmutate
  have hblocks : (call.apply.map sc.handOver).map (·.block) = call.apply := by
    rw [List.map_map]
    exact List.map_id _
  refine ⟨hnew, ?_, rfl, rfl, ?_⟩
  · show _ ++ _ = _ ++ _
    rw [hflags, hblocks]
  · intro k hk
    rw [← rowsAt_rollBackBlocks]
    refine hrows k ?_
    intro c hc hflag
    obtain ⟨b, hb, rfl⟩ := List.mem_map.mp hc
    exact hk b hb (of_decide_eq_false hflag)

/-- What a block wrote is what it left at the last call that indexed it. -/
theorem Sidecar.CallSpec.rowsOf {sc sc' : Sidecar} {call : Call}
    (h : sc.CallSpec call sc') (b : Block) :
    sc'.rowsOf b = if b ∈ call.apply ∧ b ∉ sc.processed then rowsAt b.height sc'.session.db
      else sc.rowsOf b := by
  -- the last write of a block is found first
  have hfind : ∀ l : List Block, (l.map fun b => (b, rowsAt b.height sc'.session.db)).find?
      (fun w => w.1 = b) = if b ∈ l then some (b, rowsAt b.height sc'.session.db) else none := by
    intro l
    induction l with
    | nil => rfl
    | cons c l ih =>
      rw [List.map_cons]
      by_cases hc : c = b
      · subst hc
        simp
      · rw [List.find?_cons_of_neg (by simpa using hc), ih]
        simp [Ne.symm hc]
  rw [Sidecar.rowsOf, h.written, List.find?_append, hfind, Sidecar.rowsOf]
  by_cases hb : b ∈ call.apply ∧ b ∉ sc.processed
  · simp [hb]
  · rw [if_neg hb, if_neg (by simpa [List.mem_filter] using hb)]
    rfl

/-! ## Following the chain -/

/-- On an ascending chain a height belongs to one block. -/
theorem eq_of_ascending {chain : List Block} (h : chain.Pairwise fun b c => b.height < c.height)
    {b c : Block} (hb : b ∈ chain) (hc : c ∈ chain) (heq : b.height = c.height) : b = c := by
  induction h with
  | nil => cases hb
  | cons hhead _ ih =>
    rcases List.mem_cons.mp hb with rfl | hb' <;> rcases List.mem_cons.mp hc with rfl | hc'
    · rfl
    · have := hhead _ hc'
      omega
    · have := hhead _ hb'
      omega
    · exact ih hb' hc'

/-- The sidecar at rest: nothing waits in memory, its chain ascends, and it has set the flag of
every block on its chain. -/
structure Sidecar.AtRest (sc : Sidecar) : Prop where
  /-- Nothing waits in memory. -/
  dbCache : sc.session.cache.dbCache = .new
  /-- The heights ascend along the chain. -/
  ascending : sc.chain.Pairwise fun b c => b.height < c.height
  /-- The blocks on the chain have their flags set. -/
  processed : ∀ b ∈ sc.chain, b ∈ sc.processed

theorem Sidecar.call_atRest {env : Environment} {sc sc' : Sidecar} {call : Call} (hrest : sc.AtRest)
    (hconsistent : call.Consistent sc.chain) (hrun : sc.call env call = some sc') : sc'.AtRest := by
  have hspec := sc.call_spec hrest.dbCache hrun
  refine ⟨hspec.dbCache, hspec.chain ▸ hconsistent.ascending, ?_⟩
  intro b hb
  rw [hspec.processed, List.mem_append]
  rw [hspec.chain, Call.chain, List.mem_append] at hb
  rcases hb with hb | hb
  · exact Or.inr (hrest.processed b (List.mem_filter.mp hb).1)
  · exact Or.inl hb

/-- A height at which the chain keeps its block is not rolled back. -/
theorem Call.Consistent.not_mem_rollBack {chain : List Block} {call : Call}
    (hascending : chain.Pairwise fun b c => b.height < c.height)
    (hconsistent : call.Consistent chain) {b : Block} (hb : b ∈ chain)
    (hkept : b.blockIdentifier ∉ call.rollBack) :
    b.height ∉ call.rollBack.map (·.index) := by
  intro hmem
  obtain ⟨id, hid, hindex⟩ := List.mem_map.mp hmem
  obtain ⟨c, hc, rfl⟩ := hconsistent.onChain id hid
  have heq : c = b := eq_of_ascending hascending hc hb hindex
  exact hkept (heq ▸ hid)

/-- The heights off the chain, after what is rolled back has gone, are empty. -/
theorem Sidecar.Tracks.offKept {sc : Sidecar} {call : Call} (htracks : sc.Tracks) {h : Nat}
    (hoff : ∀ b ∈ sc.chain, b.blockIdentifier ∉ call.rollBack → b.height ≠ h) :
    (if h ∈ call.rollBack.map (·.index) then .none else rowsAt h sc.session.db) =
      BlockRows.none := by
  split
  · rfl
  · next hnot =>
    refine htracks.offChain h ?_
    intro b hb hbh
    refine hoff b hb ?_ hbh
    intro hid
    exact hnot (List.mem_map.mpr ⟨_, hid, hbh⟩)

/-- **A call keeps to the chain exactly when every block that it hands over with the flag set is one
that wrote nothing.** -/
theorem Sidecar.Tracks.call_iff {env : Environment} {sc sc' : Sidecar} {call : Call}
    (hrest : sc.AtRest) (htracks : sc.Tracks) (hconsistent : call.Consistent sc.chain)
    (hrun : sc.call env call = some sc') :
    sc'.Tracks ↔ sc.SkipsNothing call := by
  have hspec := sc.call_spec hrest.dbCache hrun
  have hascending := hconsistent.ascending
  rw [Call.chain] at hascending
  have hchain :
      sc'.chain = sc.chain.filter (fun b => b.blockIdentifier ∉ call.rollBack) ++ call.apply :=
    hspec.chain
  have hkept : ∀ {b}, b ∈ sc.chain → b.blockIdentifier ∉ call.rollBack →
      b ∈ sc.chain.filter (fun b => b.blockIdentifier ∉ call.rollBack) :=
    fun hb hid => List.mem_filter.mpr ⟨hb, decide_eq_true hid⟩
  -- a block handed over with the flag set finds no rows at its height, and none are written
  have hskipped : ∀ b ∈ call.apply, b ∈ sc.processed → rowsAt b.height sc'.session.db = .none := by
    intro b hb hflag
    rw [hspec.rows b.height ?_]
    · refine htracks.offKept ?_
      intro c hc hid heq
      have := (List.pairwise_append.mp hascending).2.2 c (hkept hc hid) b hb
      omega
    · intro c hc hnot heq
      have : c = b := eq_of_ascending hascending (List.mem_append_right _ hc)
        (List.mem_append_right _ hb) heq
      exact hnot (this ▸ hflag)
  constructor
  · intro htracks' b hb hflag
    have hrows := htracks'.onChain b (hchain ▸ List.mem_append_right _ hb)
    rw [hspec.rowsOf b, if_neg fun h => h.2 hflag] at hrows
    rw [← hrows]
    exact hskipped b hb hflag
  · intro hskips
    refine ⟨?_, ?_⟩
    · intro b hb
      rw [hchain, List.mem_append] at hb
      rw [hspec.rowsOf b]
      rcases hb with hb | hb
      · -- a block that stays keeps its rows
        have hb' := List.mem_filter.mp hb
        have hid : b.blockIdentifier ∉ call.rollBack := of_decide_eq_true hb'.2
        rw [if_neg fun h => h.2 (hrest.processed b hb'.1), hspec.rows b.height ?_,
          if_neg (hconsistent.not_mem_rollBack hrest.ascending hb'.1 hid)]
        · exact htracks.onChain b hb'.1
        · intro c hc _ heq
          have := (List.pairwise_append.mp hascending).2.2 b hb c hc
          omega
      · by_cases hflag : b ∈ sc.processed
        · rw [if_neg fun h => h.2 hflag, hskipped b hb hflag, hskips b hb hflag]
        · rw [if_pos ⟨hb, hflag⟩]
    · intro h hoff
      rw [hchain] at hoff
      rw [hspec.rows h fun b hb _ => hoff b (List.mem_append_right _ hb)]
      refine htracks.offKept ?_
      intro b hb hid
      exact hoff b (List.mem_append_left _ (hkept hb hid))

/-- A sidecar that has not been called is at rest and follows its empty chain. -/
theorem Sidecar.start_tracks {network : Network} {cap : Nat} {hcap : 0 < cap} {sc : Sidecar}
    (hstart : Sidecar.start network cap hcap = some sc) :
    sc.AtRest ∧ sc.Tracks ∧ sc.chain = [] ∧ sc.processed = [] := by
  rw [Sidecar.start] at hstart
  obtain ⟨s, hs, hsc⟩ := Option.bind_eq_some_iff.mp hstart
  cases Option.some.inj hsc
  obtain ⟨hempty, hdb⟩ := freshSession_eq_some hs
  refine ⟨⟨hempty.dbCache, .nil, fun b hb => absurd hb List.not_mem_nil⟩,
    ⟨fun b hb => absurd hb List.not_mem_nil, fun h _ => ?_⟩, rfl, rfl⟩
  show rowsAt h s.db = .none
  rw [hdb, rowsAt]
  -- the only row of the migrated tables is the one that `rowsAt` leaves out
  simp [Db.migrated, BlockRows.none]

/-- After some calls of a run the sidecar is at rest, and the calls still to come fit its chain. -/
theorem runCalls_atRest {env : Environment} {calls more : List Call} {sc sc' : Sidecar}
    (hrest : sc.AtRest) (hconsistent : ConsistentCalls sc.chain (calls ++ more))
    (hrun : runCalls env calls sc = some sc') :
    sc'.AtRest ∧ ConsistentCalls sc'.chain more := by
  induction calls generalizing sc with
  | nil =>
    cases Option.some.inj hrun
    exact ⟨hrest, hconsistent⟩
  | cons call calls ih =>
    rw [runCalls, List.foldlM_cons] at hrun
    obtain ⟨t, hcall, hrun⟩ := Option.bind_eq_some_iff.mp hrun
    have hchain : t.chain = call.chain sc.chain := (sc.call_spec hrest.dbCache hcall).chain
    exact ih (sc.call_atRest hrest hconsistent.1 hcall) (hchain ▸ hconsistent.2) hrun

/-- **The sidecar follows the chain after every call of a run exactly when every block that is
handed over with its flag set, in any call of the run, is one that wrote nothing when it was
indexed.** -/
theorem tracks_iff_skipsNothing {env : Environment} {network : Network} {cap : Nat} {hcap : 0 < cap}
    {calls : List Call} {start last : Sidecar}
    (hstart : Sidecar.start network cap hcap = some start) (hconsistent : ConsistentCalls [] calls)
    (hrun : runCalls env calls start = some last) :
    (∀ done rest sc, calls = done ++ rest → runCalls env done start = some sc → sc.Tracks) ↔
      ∀ done call rest sc, calls = done ++ call :: rest → runCalls env done start = some sc →
        sc.SkipsNothing call := by
  obtain ⟨hrest, htracks, hchain, -⟩ := Sidecar.start_tracks hstart
  rw [← hchain] at hconsistent
  -- the state before a call of the run is at rest, and the call fits its chain
  have hbefore : ∀ done call rest sc, calls = done ++ call :: rest →
      runCalls env done start = some sc → sc.AtRest ∧ call.Consistent sc.chain := by
    rintro done call rest sc rfl hdone
    obtain ⟨hrest', hfits⟩ := runCalls_atRest hrest hconsistent hdone
    exact ⟨hrest', hfits.1⟩
  constructor
  · rintro hall done call rest sc rfl hdone
    obtain ⟨hrest', hfits⟩ := hbefore done call rest sc rfl hdone
    obtain ⟨mid, hmid, hrun⟩ := foldlM_append_eq_some.mp hrun
    cases Option.some.inj (hdone.symm.trans hmid)
    obtain ⟨next, hnext, -⟩ := foldlM_cons_eq_some.mp hrun
    have hstep : runCalls env (done ++ [call]) start = some next :=
      foldlM_append_eq_some.mpr ⟨sc, hdone, foldlM_cons_eq_some.mpr ⟨next, hnext, rfl⟩⟩
    refine (Sidecar.Tracks.call_iff hrest' (hall done (call :: rest) sc rfl hdone)
      hfits hnext).mp ?_
    exact hall (done ++ [call]) rest next (by rw [List.append_assoc, List.singleton_append]) hstep
  · rintro hskips done rest sc hsplit hdone
    induction done using List.reverseRecOn generalizing rest sc with
    | nil =>
      cases Option.some.inj hdone
      exact htracks
    | append_singleton done call ih =>
      rw [List.append_assoc, List.singleton_append] at hsplit
      obtain ⟨mid, hmid, hcall⟩ := foldlM_append_eq_some.mp hdone
      obtain ⟨next, hnext, hsc⟩ := foldlM_cons_eq_some.mp hcall
      cases Option.some.inj hsc
      obtain ⟨hrest', hfits⟩ := hbefore done call rest mid hsplit hmid
      exact (Sidecar.Tracks.call_iff hrest' (ih _ _ hsplit hmid) hfits hnext).mpr
        (hskips done call rest mid hsplit hmid)

/-- A block that competes with `mintBlock`, and writes nothing. -/
def emptyBlock : Block := ⟨"0xb1'", 840001, 1700000000, []⟩

/-- A block on top of `emptyBlock`. -/
def lateMintBlock : Block := ⟨"0xb2'", 840002, 1700000000, [mintTx]⟩

/-- The chain goes from `emptyBlock` to `mintBlock` and `spendBlock`, and back: `emptyBlock` is
handed over with its flag set. -/
def forkAndBack : List Call :=
  [⟨[], [emptyBlock]⟩, ⟨[emptyBlock.blockIdentifier], [mintBlock, spendBlock]⟩,
    ⟨[spendBlock.blockIdentifier, mintBlock.blockIdentifier], [emptyBlock, lateMintBlock]⟩]

/-- The tables end with the rows of `emptyBlock`, which has none, and of `lateMintBlock`. -/
theorem tracks_forkAndBack : ∃ start last, Sidecar.start .bitcoin 2 Nat.two_pos = some start ∧
    runCalls mintEnv forkAndBack start = some last ∧ last.chain = [emptyBlock, lateMintBlock] ∧
      last.session.db.ledger ≠ [] ∧ last.Tracks := by
  have hruns : (Sidecar.start .bitcoin 2 Nat.two_pos).any fun start =>
      checkRun (Sidecar.call mintEnv) (fun sc call => sc.SkipsNothing call) forkAndBack start ∧
        (runCalls mintEnv forkAndBack start).any fun last =>
          last.chain = [emptyBlock, lateMintBlock] ∧ last.session.db.ledger ≠ [] := by
    decide +kernel
  obtain ⟨start, hstart, h⟩ := (Option.any_eq_true _ _).mp hruns
  obtain ⟨hcheck, hany⟩ := of_decide_eq_true h
  obtain ⟨last, hrun, h⟩ := (Option.any_eq_true _ _).mp hany
  obtain ⟨hchain, hledger⟩ := of_decide_eq_true h
  -- every call rolls back what is on top and builds on what is left
  have hconsistent : ConsistentCalls [] forkAndBack := by
    refine ⟨⟨?_, ?_⟩, ⟨?_, ?_⟩, ⟨?_, ?_⟩, trivial⟩ <;> decide
  refine ⟨start, last, hstart, hrun, hchain, hledger, ?_⟩
  refine (tracks_iff_skipsNothing hstart hconsistent hrun).mpr ?_ _ [] last
    (List.append_nil _).symm hrun
  exact fun done call rest sc hsplit hdone => of_decide_eq_true (of_checkRun hcheck hsplit hdone)

/-! ## Back to a branch that was left -/

/-- The chain goes from `mintBlock` to `emptyBlock` and back. -/
def backAndForth : List Call :=
  [⟨[], [mintBlock]⟩, ⟨[mintBlock.blockIdentifier], [emptyBlock]⟩,
    ⟨[emptyBlock.blockIdentifier], [mintBlock]⟩]

/-- The sidecar can end with a block on its chain and without the rows of that block. -/
theorem exists_consistent_not_tracks : ∃ env calls network cap hcap start last,
    ConsistentCalls [] calls ∧ Sidecar.start network cap hcap = some start ∧
      runCalls env calls start = some last ∧ ¬ last.Tracks := by
  have hruns : ((Sidecar.start .bitcoin 2 (by decide)).bind (runCalls mintEnv backAndForth)).any
      (fun sc => mintBlock ∈ sc.chain ∧
        rowsAt mintBlock.height sc.session.db ≠ sc.rowsOf mintBlock) := by
    decide +kernel
  obtain ⟨last, hlast, hrows⟩ := (Option.any_eq_true _ _).mp hruns
  obtain ⟨hmem, hne⟩ := of_decide_eq_true hrows
  obtain ⟨start, hstart, hrun⟩ := Option.bind_eq_some_iff.mp hlast
  refine ⟨mintEnv, backAndForth, .bitcoin, 2, by decide, start, last, ?_, hstart, hrun, ?_⟩
  · refine ⟨⟨?_, ?_⟩, ⟨?_, ?_⟩, ⟨?_, ?_⟩, trivial⟩ <;> decide
  · intro htracks
    exact hne (htracks.onChain mintBlock hmem)

end Runehook
