import Runehook.Runs

/-! # Resuming after a stop

`start_service` scans from one above the height in the table `block_height` up to the tip of the
node (`catchUp`). The height is written by `index_block` alone: the migration leaves a zero in it,
and rolling back leaves it as it is (`runEvents_lastScannedHeight`). `catchUp_resumes_iff` says when
the scan goes on behind the last block. -/

namespace Runehook

open Lib

/-! ## The catch-up loop -/

/-- `pg_get_last_block_height`. The table has its row from the migration on. -/
def pgGetLastBlockHeight (db : Db) : Option Nat := some db.lastScannedHeight

/-- What a round of the loop in `start_service` does. -/
inductive CatchUp where
  /-- The node has no blocks yet. -/
  | wait
  /-- Blocks are scanned. -/
  | scan (blocks : List Nat)
  /-- The tip is reached. -/
  | caughtUp
  deriving DecidableEq, Repr

/-- The heights from `start` to `last`. -/
def heightRange (start last : Nat) : List Nat := List.range' start (last + 1 - start)

/-- A round of the loop in `start_service`, with the node at a height. The genesis height is looked
up even when the table has a height; on a signet that is a `todo!()`. -/
def catchUp (network : Network) (bitcoindChainTip : Nat) (db : Db) : Option CatchUp := do
  let genesis ← getRuneGenesisBlockHeight network
  let chainTip := (pgGetLastBlockHeight db).getD (genesis - 1)
  if bitcoindChainTip < chainTip then return .wait
  else if bitcoindChainTip >
    chainTip then return .scan (heightRange (chainTip + 1) bitcoindChainTip)
  else return .caughtUp

/-! ## The heights that are indexed -/

/-- What an event makes of the heights whose block is indexed and not rolled back since. -/
def Event.heights (indexed : List Nat) : Event → List Nat
  | .index block => indexed ++ [block.height]
  | .rollBack height => indexed.filter (· ≠ height)
  | .restart _ _ => indexed

/-- The heights whose block is indexed and not rolled back since. -/
def indexedHeights (events : List Event) : List Nat := events.foldl Event.heights []

/-- The height of the block that was indexed last. -/
def lastIndexed (events : List Event) : Option Nat :=
  (indexedBlocks events).getLast?.map Block.height

/-- The height to go on from: above every indexed one, or the genesis height when none is. -/
def nextHeight (genesis : Nat) (indexed : List Nat) : Nat := (indexed.max?.map (· + 1)).getD genesis

/-- The block that was indexed last is the highest of those that are indexed and not rolled back
since; or none is, and the genesis height comes right after the last height, which is zero to start
with. -/
def LastIndexedOnTop (genesis : Nat) (events : List Event) : Prop :=
  (∃ height, lastIndexed events = some height ∧ height ∈ indexedHeights events ∧
      ∀ k ∈ indexedHeights events, k ≤ height) ∨
    (indexedHeights events = [] ∧ (lastIndexed events).getD 0 + 1 = genesis)

theorem lastIndexed_concat_index (events : List Event) (block : Block) :
    lastIndexed (events ++ [.index block]) = some block.height := by
  simp [lastIndexed, indexedBlocks]

/-- Only indexing a block changes which one was indexed last. -/
theorem lastIndexed_concat_of_ne {events : List Event} {e : Event} (h : ∀ block, e ≠ .index block) :
    lastIndexed (events ++ [e]) = lastIndexed events := by
  cases e with
  | index block => exact absurd rfl (h block)
  | rollBack height => simp [lastIndexed, indexedBlocks]
  | restart cap hcap => simp [lastIndexed, indexedBlocks]

/-- Where a height is indexed, some block was indexed last. -/
theorem indexedHeights_eq_nil_of_lastIndexed {events : List Event} (h : lastIndexed events = none) :
    indexedHeights events = [] := by
  induction events using List.reverseRecOn with
  | nil => rfl
  | append_singleton events e ih =>
    rw [indexedHeights, List.foldl_concat, ← indexedHeights]
    cases e with
    | index block =>
      rw [lastIndexed_concat_index] at h
      cases h
    | rollBack height =>
      rw [lastIndexed_concat_of_ne (by simp)] at h
      rw [ih h]
      rfl
    | restart cap hcap =>
      rw [lastIndexed_concat_of_ne (by simp)] at h
      exact ih h

/-- The height after the last one is the height to go on from exactly when the last one is on
top. -/
theorem nextHeight_eq_iff (genesis : Nat) (events : List Event) :
    nextHeight genesis (indexedHeights events) = (lastIndexed events).getD 0 + 1 ↔
      LastIndexedOnTop genesis events := by
  unfold nextHeight LastIndexedOnTop
  cases hmax : (indexedHeights events).max? with
  | none =>
    rw [List.max?_eq_none_iff] at hmax
    simp [hmax, eq_comm]
  | some m =>
    obtain ⟨hmem, hle⟩ := List.max?_eq_some_iff.mp hmax
    have hne : indexedHeights events ≠ [] := List.ne_nil_of_mem hmem
    cases hlast : lastIndexed events with
    | none => exact absurd (indexedHeights_eq_nil_of_lastIndexed hlast) hne
    | some height =>
      show m + 1 = height + 1 ↔ _
      constructor
      · intro heq
        obtain rfl : m = height := by omega
        exact .inl ⟨m, rfl, hmem, hle⟩
      · rintro (⟨k, hk, hkmem, hkle⟩ | ⟨hnil, -⟩)
        · cases Option.some.inj hk
          have := hle height hkmem
          have := hkle m hmem
          omega
        · exact absurd hnil hne

/-! ## Runs -/

/-- A flush leaves the table `block_height`. -/
theorem DbCache.flush_lastScannedHeight {dbCache : DbCache} {db db' : Db}
    (h : dbCache.flush db = some db') :
    db'.lastScannedHeight = db.lastScannedHeight := by
  obtain ⟨runes, -, rfl⟩ := DbCache.flush_eq_some.mp h
  rfl

/-- Indexing a block leaves its height in the table `block_height`. -/
theorem indexBlock_lastScannedHeight {env : Environment} {block : Block} {s s' : Session}
    (hrun : indexBlock env block s = some s') : s'.db.lastScannedHeight = block.height := by
  obtain ⟨t, -, hflush⟩ := indexBlock_eq_some.mp hrun
  obtain ⟨db, hdb, rfl⟩ := Session.flush_eq_some.mp hflush
  exact DbCache.flush_lastScannedHeight hdb

/-- **The table `block_height` has the height of the block that was indexed last.** -/
theorem runEvents_lastScannedHeight {env : Environment} {events : List Event}
    {network : Network} {cap : Nat} {hcap : 0 < cap} {s₀ s : Session}
    (hstart : freshSession network cap hcap = some s₀) (hrun : runEvents env events s₀ = some s) :
    s.db.lastScannedHeight = (lastIndexed events).getD 0 := by
  -- by induction on the events, from the last one
  have hind := foldlM_induction
    (P := fun done t => t.db.lastScannedHeight = (lastIndexed done).getD 0) ?_ ?_ hrun
  · exact hind
  · rw [(freshSession_eq_some hstart).2]
    rfl
  · intro done e t t' hP hstep
    cases e with
    | index block =>
      rw [lastIndexed_concat_index, indexBlock_lastScannedHeight hstep, Option.getD_some]
    | rollBack height =>
      rw [lastIndexed_concat_of_ne (by simp), ← hP, ← Option.some.inj hstep]
      rfl
    | restart cap hcap =>
      obtain ⟨cache, -, rfl⟩ := restart_eq_some hstep
      rw [lastIndexed_concat_of_ne (by simp)]
      exact hP

/-- What a round scans is what lies above the last scanned height. -/
theorem catchUp_eq_scan {network : Network} {tip : Nat} {db : Db} {blocks : List Nat} :
    catchUp network tip db = some (.scan blocks) ↔
      (getRuneGenesisBlockHeight network).isSome ∧ db.lastScannedHeight < tip ∧
        blocks = heightRange (db.lastScannedHeight + 1) tip := by
  unfold catchUp
  cases getRuneGenesisBlockHeight network with
  | none => simp
  | some genesis =>
    show (if tip < db.lastScannedHeight then some CatchUp.wait
      else if tip > db.lastScannedHeight then
        some (.scan (heightRange (db.lastScannedHeight + 1) tip))
      else some .caughtUp) = some (.scan blocks) ↔ _
    split_ifs with hlt hgt
    · simp only [Option.some.injEq, reduceCtorEq, false_iff]
      rintro ⟨-, h, -⟩
      omega
    · simp [hgt, eq_comm]
    · simp only [Option.some.injEq, reduceCtorEq, false_iff]
      rintro ⟨-, h, -⟩
      exact hgt h

theorem head?_heightRange {start last : Nat} (h : start ≤ last) :
    (heightRange start last).head? = some start := by
  unfold heightRange
  obtain ⟨n, hn⟩ : ∃ n, last + 1 - start = n + 1 := ⟨last - start, by omega⟩
  rw [hn, List.range'_succ]
  rfl

/-- **A restart goes on from the height to go on from exactly when the block that was indexed last
is on top.** -/
theorem catchUp_resumes_iff {env : Environment} {events : List Event}
    {network : Network} {cap : Nat} {hcap : 0 < cap} {s₀ s : Session} {genesis : Nat}
    (hstart : freshSession network cap hcap = some s₀) (hrun : runEvents env events s₀ = some s)
    (hgenesis : getRuneGenesisBlockHeight network = some genesis) :
    (∀ tip blocks, catchUp network tip s.db = some (.scan blocks) →
        blocks.head? = some (nextHeight genesis (indexedHeights events))) ↔
      LastIndexedOnTop genesis events := by
  rw [← nextHeight_eq_iff, ← runEvents_lastScannedHeight hstart hrun]
  constructor
  · intro h
    -- one block above the last scanned one is enough to tell
    have hscan := catchUp_eq_scan.mpr ⟨Option.isSome_iff_exists.mpr ⟨genesis, hgenesis⟩,
      Nat.lt_succ_self s.db.lastScannedHeight, rfl⟩
    have hhead := h _ _ hscan
    rw [head?_heightRange le_rfl] at hhead
    exact (Option.some.inj hhead).symm
  · intro heq tip blocks hscan
    obtain ⟨-, hlt, rfl⟩ := catchUp_eq_scan.mp hscan
    rw [heq]
    exact head?_heightRange hlt

/-- The theorem after a block was indexed and the process stopped. -/
theorem catchUp_resumes_mintAndRestart : ∃ s₀ s, freshSession .bitcoin 2 (by decide) = some s₀ ∧
    runEvents mintEnv mintAndRestart s₀ = some s ∧
      ∀ tip blocks, catchUp .bitcoin tip s.db = some (.scan blocks) →
      blocks.head? = some 840002 := by
  obtain ⟨s₀, s, s', hstart, hrun, -⟩ := mintAndRestart_runs
  refine ⟨s₀, s, hstart, hrun, ?_⟩
  have hheights : indexedHeights mintAndRestart = [840001] := rfl
  have htop : LastIndexedOnTop 840000 mintAndRestart := by
    refine .inl ⟨840001, rfl, ?_, ?_⟩ <;> rw [hheights]
    · exact List.mem_singleton.mpr rfl
    · exact fun k hk => (List.mem_singleton.mp hk).le
  exact (catchUp_resumes_iff hstart hrun rfl).mpr htop

/-- On freshly migrated tables the scan does not start at the genesis height. -/
theorem exists_not_catchUp_resumes : ∃ env events network cap hcap s₀ s genesis,
    freshSession network cap hcap = some s₀ ∧ runEvents env events s₀ = some s ∧
      getRuneGenesisBlockHeight network = some genesis ∧
      ¬ ∀ tip blocks, catchUp network tip s.db = some (.scan blocks) →
        blocks.head? = some (nextHeight genesis (indexedHeights events)) := by
  obtain ⟨s₀, s, s', hstart, -, -⟩ := mintAndRestart_runs
  refine ⟨mintEnv, [], .bitcoin, 2, by decide, s₀, s₀, 840000, hstart, rfl, rfl, ?_⟩
  intro hall
  have hscan : catchUp .bitcoin 1 s₀.db = some (.scan [1]) := by
    rw [(freshSession_eq_some hstart).2]
    rfl
  have hhead : some 1 = some 840000 := hall 1 [1] hscan
  exact absurd hhead (by decide)

end Runehook
