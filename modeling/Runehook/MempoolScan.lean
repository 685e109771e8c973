import Mathlib.Data.Finset.Lattice.Lemmas
import Runehook.MempoolService

/-! # What the mempool cache stands for

An id in `mempool_cache` makes the service pass over the transaction. It should stand for a
transaction that was parsed and whose rows are in `mempool_ledger` (`MempoolHistory.Processed`).
Every round of the loops keeps that (`MempoolHistory.Processed.step`), so that it depends on the
scan at the start and on the node alone: `processed_iff_keeps`. -/

namespace Runehook

open Mempool

/-! ## What was parsed -/

/-- What each parsed transaction gave, the latest first. -/
abbrev Parsed : Type := List (String × List DBMempoolLedgerEntry)

/-- What the loop of the scan parses. -/
def scanParsed (env : MempoolEnvironment) (network : Network) (node : NodeMempool) (db : Db) :
    List Txid → Finset String → Parsed
  | [], _ => []
  | txId :: txs, mempoolCache =>
    if txId.toText ∈ mempoolCache then scanParsed env network node db txs mempoolCache
    else
      ((node.getById txId).map fun tx =>
        (txId.toText, parseMempoolTx env network tx txId.toText db)).toList ++
          scanParsed env network node db txs (insert txId.toText mempoolCache)

/-- What the processes before parsed, of which the table has rows. -/
def earlierParsed (mempoolLedger : List DBMempoolLedgerEntry) : Parsed :=
  (mempoolLedger.map DBMempoolLedgerEntry.txId).map fun id =>
    (id, mempoolLedger.filter fun r => r.txId = id)

/-- The service with what was parsed. -/
structure MempoolHistory where
  /-- The service. -/
  state : MempoolState
  /-- What each transaction was parsed to, the latest first. -/
  parsed : Parsed

/-- The service after `set_up_mempool_sidecar_runloop`, on a table that earlier processes left. -/
def MempoolHistory.start (env : MempoolEnvironment) (network : Network)
    (node : NodeMempool) (db : Db) (mempoolLedger : List DBMempoolLedgerEntry) :
    MempoolHistory where
  state := setUpMempool env network node db mempoolLedger
  parsed := (node.getRawMempool.map fun txs =>
      scanParsed env network node db txs
        (pgActualizeMempoolCache ⟨∅, mempoolLedger⟩).mempoolCache).getD [] ++
    earlierParsed mempoolLedger

/-- What a round of a loop parses. -/
def StreamEvent.parsed (env : MempoolEnvironment) (network : Network) (m : MempoolState) :
    StreamEvent → Parsed
  | .announce tx db =>
    if tx.txid.toText ∈ m.mempoolCache then []
    else [(tx.txid.toText, parseMempoolTx env network tx tx.txid.toText db)]
  | .remove _ => []

/-- A round of a loop. -/
def MempoolHistory.step (env : MempoolEnvironment) (network : Network) (h : MempoolHistory)
    (e : StreamEvent) :
    MempoolHistory :=
  ⟨e.run env network h.state, e.parsed env network h.state ++ h.parsed⟩

/-- What a transaction gave when it was last parsed. -/
def MempoolHistory.latest (h : MempoolHistory) (id : String) : Option (List DBMempoolLedgerEntry) :=
  (h.parsed.find? fun p => p.1 = id).map (·.2)

/-- **Every id in the cache is one of a transaction that was parsed and whose rows, if any, are in
the table.** -/
def MempoolHistory.Processed (h : MempoolHistory) : Prop :=
  ∀ id ∈ h.state.mempoolCache, ∃ rows, h.latest id = some rows ∧ ∀ r ∈ rows,
    r ∈ h.state.mempoolLedger

/-- The node has every transaction that the table has rows of, and finds every other one of its
mempool; or it does not answer at all. -/
def NodeMempool.Keeps (node : NodeMempool) (mempoolLedger : List DBMempoolLedgerEntry) : Prop :=
  ∀ txs, node.getRawMempool = some txs →
    (∀ r ∈ mempoolLedger, ∃ txId ∈ txs, txId.toText = r.txId) ∧
      ∀ txId ∈ txs, (∀ r ∈ mempoolLedger, r.txId ≠ txId.toText) → (node.getById txId).isSome

/-! ## Rounds of the loops -/

/-- What is parsed under an id has the id. -/
def Parsed.Labelled (parsed : Parsed) : Prop := ∀ p ∈ parsed, ∀ r ∈ p.2, r.txId = p.1

theorem MempoolHistory.latest_mem {h : MempoolHistory} {id : String}
    {rows : List DBMempoolLedgerEntry} (hlatest : h.latest id = some rows) :
    (id, rows) ∈ h.parsed := by
  obtain ⟨⟨id', rows'⟩, hfind, rfl⟩ := Option.map_eq_some_iff.mp hlatest
  have hid : id' = id := by simpa using List.find?_some hfind
  exact hid ▸ List.mem_of_find?_eq_some hfind

/-- An id that something was parsed under has a latest one. -/
theorem MempoolHistory.latest_isSome {h : MempoolHistory} {id : String}
    {rows : List DBMempoolLedgerEntry} (hmem : (id, rows) ∈ h.parsed) :
    ∃ rows', h.latest id = some rows' := by
  have hfind : (h.parsed.find? fun p => p.1 = id).isSome :=
    List.find?_isSome.mpr ⟨_, hmem, decide_eq_true rfl⟩
  obtain ⟨p, hp⟩ := Option.isSome_iff_exists.mp hfind
  exact ⟨p.2, by rw [latest, hp]; rfl⟩

section

variable {env : MempoolEnvironment} {network : Network}

theorem StreamEvent.parsed_labelled (m : MempoolState) (e : StreamEvent) :
    Parsed.Labelled (e.parsed env network m) := by
  cases e with
  | announce tx db =>
    show Parsed.Labelled (if _ then _ else _)
    split_ifs
    · exact fun p hp => absurd hp List.not_mem_nil
    · intro p hp r hr
      rw [List.mem_singleton] at hp
      subst hp
      exact (parseMempoolTx_rows env network tx _ db).1 r hr
  | remove txId => exact fun p hp => absurd hp List.not_mem_nil

/-- **A round of a loop keeps the cache standing for what was processed.** -/
theorem MempoolHistory.Processed.step {h : MempoolHistory} (hprocessed : h.Processed)
    (hlabelled : Parsed.Labelled h.parsed) (e : StreamEvent) :
    (h.step env network e).Processed := by
  cases e with
  | announce tx db =>
    intro id hid
    show ∃ rows, ((_ ++ h.parsed).find? fun p => p.1 = id).map (·.2) = some rows ∧ _
    unfold MempoolHistory.step StreamEvent.run Runehook.announce Runehook.insertId at hid ⊢
    unfold StreamEvent.parsed
    by_cases hmem : tx.txid.toText ∈ h.state.mempoolCache
    · simp only [if_pos hmem] at hid ⊢
      exact hprocessed id hid
    · simp only [if_neg hmem] at hid ⊢
      by_cases heq : tx.txid.toText = id
      · refine ⟨parseMempoolTx env network tx tx.txid.toText db, ?_, ?_⟩
        · simp [heq]
        · exact fun r hr => List.mem_append_right _ hr
      · obtain ⟨rows, hlatest, hrows⟩ := hprocessed id
          (Finset.mem_of_mem_insert_of_ne hid fun hne => heq hne.symm)
        refine ⟨rows, ?_, fun r hr => List.mem_append_left _ (hrows r hr)⟩
        rw [List.singleton_append, List.find?_cons_of_neg (by simpa using heq)]
        exact hlatest
  | remove txId =>
    intro id hid
    unfold MempoolHistory.step StreamEvent.run removeEscapedTransaction Runehook.removeId at hid ⊢
    by_cases hmem : txId ∈ h.state.mempoolCache
    · simp only [if_pos hmem] at hid ⊢
      obtain ⟨hne, hid⟩ := Finset.mem_erase.mp hid
      obtain ⟨rows, hlatest, hrows⟩ := hprocessed id hid
      refine ⟨rows, hlatest, fun r hr => ?_⟩
      -- the rows of another transaction stay
      have hrid : r.txId = id := hlabelled _ (MempoolHistory.latest_mem hlatest) r hr
      refine List.mem_filter.mpr ⟨hrows r hr, ?_⟩
      rw [decide_eq_true_iff, Finset.mem_singleton, hrid]
      exact hne
    · simp only [if_neg hmem] at hid ⊢
      exact hprocessed id hid

/-- Rounds of the loops. -/
theorem MempoolHistory.Processed.foldl {h : MempoolHistory} (hprocessed : h.Processed)
    (hlabelled : Parsed.Labelled h.parsed) (events : List StreamEvent) :
    (events.foldl (MempoolHistory.step env network) h).Processed := by
  induction events generalizing h with
  | nil => exact hprocessed
  | cons e events ih =>
    refine ih (hprocessed.step hlabelled e) ?_
    intro p hp
    rcases List.mem_append.mp hp with hp | hp
    · exact e.parsed_labelled h.state p hp
    · exact hlabelled p hp

end

/-! ## The scan -/

section

variable {env : MempoolEnvironment} {network : Network} {node : NodeMempool} {db : Db}

/-- The cache after the loop of the scan. -/
theorem foldl_scanTx_mempoolCache (txs : List Txid) (scan : Scan) :
    (txs.foldl (scanTx env network node db) scan).mempoolCache =
      scan.mempoolCache ∪ (txs.map Txid.toText).toFinset := by
  induction txs generalizing scan with
  | nil => exact (Finset.union_empty _).symm
  | cons txId txs ih =>
    rw [List.foldl_cons, ih, List.map_cons, List.toFinset_cons, scanTx]
    split_ifs with hmem
    · rw [Finset.union_insert, Finset.insert_eq_of_mem (Finset.mem_union_left _ hmem)]
    · rw [Finset.union_insert, Finset.insert_union]

/-- The rows that the loop of the scan collects are those of what it parses. -/
theorem foldl_scanTx_ledgerEntries (txs : List Txid) (scan : Scan) :
    (txs.foldl (scanTx env network node db) scan).ledgerEntries =
      scan.ledgerEntries ++
        (scanParsed env network node db txs scan.mempoolCache).flatMap (·.2) := by
  induction txs generalizing scan with
  | nil => exact (List.append_nil _).symm
  | cons txId txs ih =>
    rw [List.foldl_cons, ih, scanParsed, scanTx]
    split_ifs with hmem
    · rfl
    · cases hget : node.getById txId with
      | none => rfl
      | some tx => simp

/-- What the loop of the scan parses is a transaction of the mempool that was not in the cache. -/
theorem mem_scanParsed {txs : List Txid} {mempoolCache : Finset String}
    {p : String × List DBMempoolLedgerEntry}
    (hp : p ∈ scanParsed env network node db txs mempoolCache) :
    ∃ txId ∈ txs, ∃ tx, node.getById txId = some tx ∧ txId.toText ∉ mempoolCache ∧
      p = (txId.toText, parseMempoolTx env network tx txId.toText db) := by
  induction txs generalizing mempoolCache with
  | nil => cases hp
  | cons txId txs ih =>
    rw [scanParsed] at hp
    split_ifs at hp with hmem
    · obtain ⟨txId', htxId', h⟩ := ih hp
      exact ⟨txId', List.mem_cons_of_mem _ htxId', h⟩
    · rcases List.mem_append.mp hp with hp | hp
      · obtain ⟨tx, htx, rfl⟩ := Option.map_eq_some_iff.mp (Option.mem_toList.mp hp)
        exact ⟨txId, List.mem_cons_self, tx, htx, hmem, rfl⟩
      · obtain ⟨txId', htxId', tx, htx, hnot, h⟩ := ih hp
        exact ⟨txId', List.mem_cons_of_mem _ htxId', tx, htx,
          fun h => hnot (Finset.mem_insert_of_mem h), h⟩

/-- A transaction of the mempool that is not in the cache is parsed if the node finds it. -/
theorem exists_mem_scanParsed {txs : List Txid} {mempoolCache : Finset String} {txId : Txid}
    (hmem : txId ∈ txs) (hnot : txId.toText ∉ mempoolCache) (hget : (node.getById txId).isSome) :
    ∃ rows, (txId.toText, rows) ∈ scanParsed env network node db txs mempoolCache := by
  induction txs generalizing mempoolCache with
  | nil => cases hmem
  | cons txId' txs ih =>
    rw [scanParsed]
    by_cases heq : txId' = txId
    · subst heq
      obtain ⟨tx, htx⟩ := Option.isSome_iff_exists.mp hget
      rw [if_neg hnot, htx]
      exact ⟨_, List.mem_append_left _ (List.mem_singleton.mpr rfl)⟩
    · have hmem' : txId ∈ txs := (List.mem_cons.mp hmem).resolve_left (Ne.symm heq)
      split_ifs with hcached
      · exact ih hmem' hnot
      -- another id is cached by now, not this one
      · have hnot' : txId.toText ∉ insert txId'.toText mempoolCache := by
          intro h
          rcases Finset.mem_insert.mp h with h | h
          · exact heq (Txid.toText_injective h).symm
          · exact hnot h
        obtain ⟨rows, hrows⟩ := ih hmem' hnot'
        exact ⟨rows, List.mem_append_right _ hrows⟩

variable {mempoolLedger : List DBMempoolLedgerEntry}

theorem mem_earlierParsed {p : String × List DBMempoolLedgerEntry} :
    p ∈ earlierParsed mempoolLedger ↔
      (∃ r ∈ mempoolLedger, r.txId = p.1) ∧ p.2 = mempoolLedger.filter fun r => r.txId = p.1 := by
  obtain ⟨id, rows⟩ := p
  simp only [earlierParsed, List.mem_map, Prod.mk.injEq, exists_exists_and_eq_and]
  constructor
  · rintro ⟨r, hr, rfl, rfl⟩
    exact ⟨⟨r, hr, rfl⟩, rfl⟩
  · rintro ⟨⟨r, hr, rfl⟩, hrows⟩
    exact ⟨r, hr, rfl, hrows.symm⟩

theorem earlierParsed_of_row {id : String} (h : ∃ r ∈ mempoolLedger, r.txId = id) :
    (id, mempoolLedger.filter fun r => r.txId = id) ∈ earlierParsed mempoolLedger :=
  mem_earlierParsed.mpr ⟨h, rfl⟩

theorem mem_rowIds {id : String} :
    id ∈ rowIds mempoolLedger ↔ ∃ r ∈ mempoolLedger, r.txId = id := by
  rw [rowIds, List.mem_toFinset, List.mem_map]

/-! ## The start -/

/-- The cache once the service is set up. -/
theorem mem_start_mempoolCache {txs : List Txid} (hmempool : node.getRawMempool = some txs)
    {id : String} :
    id ∈ (MempoolHistory.start env network node db mempoolLedger).state.mempoolCache ↔
      id ∈ rowIds mempoolLedger ∨ ∃ txId ∈ txs, txId.toText = id := by
  have hcache : (MempoolHistory.start env network node db mempoolLedger).state.mempoolCache =
      (∅ ∪ rowIds mempoolLedger) ∪ (txs.map Txid.toText).toFinset := by
    show (scanMempool env network node db _).mempoolCache = _
    rw [scanMempool, hmempool]
    exact foldl_scanTx_mempoolCache ..
  rw [hcache, Finset.empty_union, Finset.mem_union, List.mem_toFinset, List.mem_map]

/-- The table once the service is set up: the rows of transactions that are still in the mempool,
and those of what the scan parsed. -/
theorem mem_start_mempoolLedger {txs : List Txid} (hmempool : node.getRawMempool = some txs)
    {r : DBMempoolLedgerEntry} :
    r ∈ (MempoolHistory.start env network node db mempoolLedger).state.mempoolLedger ↔
      (r ∈ mempoolLedger ∧ ∃ txId ∈ txs, txId.toText = r.txId) ∨
        ∃ p ∈ scanParsed env network node db txs (∅ ∪ rowIds mempoolLedger), r ∈ p.2 := by
  have hledger : (MempoolHistory.start env network node db mempoolLedger).state.mempoolLedger =
      pgRemoveMempoolTx ((∅ ∪ rowIds mempoolLedger) \ (txs.map Txid.toText).toFinset)
        mempoolLedger ++
        ([] ++ (scanParsed env network node db txs (∅ ∪ rowIds mempoolLedger)).flatMap (·.2)) := by
    show (scanMempool env network node db _).mempoolLedger = _
    rw [scanMempool, hmempool]
    exact congrArg (_ ++ ·) (foldl_scanTx_ledgerEntries txs ⟨∅ ∪ rowIds mempoolLedger, []⟩)
  rw [hledger, List.nil_append, List.mem_append, List.mem_flatMap, pgRemoveMempoolTx,
    List.mem_filter,
    decide_eq_true_iff, Finset.mem_sdiff, List.mem_toFinset, List.mem_map, Finset.empty_union]
  -- a removed id is one of the table that the node no longer lists
  refine or_congr_left (and_congr_right fun hr => ?_)
  have hmem : r.txId ∈ rowIds mempoolLedger := mem_rowIds.mpr ⟨r, hr, rfl⟩
  rw [not_and_not_right]
  exact ⟨fun h => h hmem, fun h _ => h⟩

theorem start_parsed {txs : List Txid} (hmempool : node.getRawMempool = some txs) :
    (MempoolHistory.start env network node db mempoolLedger).parsed =
      scanParsed env network node db txs (∅ ∪ rowIds mempoolLedger) ++
        earlierParsed mempoolLedger := by
  show (node.getRawMempool.map _).getD [] ++ _ = _
  rw [hmempool]
  rfl

theorem start_labelled :
    Parsed.Labelled (MempoolHistory.start env network node db mempoolLedger).parsed := by
  -- the rows of an earlier id have that id
  have hearlier : Parsed.Labelled (earlierParsed mempoolLedger) := by
    intro p hp r hr
    rw [(mem_earlierParsed.mp hp).2] at hr
    exact of_decide_eq_true (List.mem_filter.mp hr).2
  cases hmempool : node.getRawMempool with
  | none =>
    show Parsed.Labelled ((node.getRawMempool.map _).getD [] ++ _)
    rw [hmempool]
    exact hearlier
  | some txs =>
    rw [start_parsed hmempool]
    intro p hp
    rcases List.mem_append.mp hp with hp | hp
    · obtain ⟨txId, -, tx, -, -, rfl⟩ := mem_scanParsed hp
      exact (parseMempoolTx_rows env network tx txId.toText db).1
    · exact hearlier p hp

/-- What the table has rows of, or the scan parsed, is in the history. -/
theorem mem_start_parsed {txs : List Txid} (hmempool : node.getRawMempool = some txs) {id : String}
    {rows : List DBMempoolLedgerEntry}
    (hmem : (id, rows) ∈ (MempoolHistory.start env network node db mempoolLedger).parsed) :
    (id, rows) ∈ scanParsed env network node db txs (∅ ∪ rowIds mempoolLedger) ∨
      (∃ r ∈ mempoolLedger, r.txId = id) ∧ rows = mempoolLedger.filter fun r => r.txId = id := by
  rw [start_parsed hmempool] at hmem
  exact (List.mem_append.mp hmem).imp_right mem_earlierParsed.mp

/-- Where the cache stands for what was processed, the node keeps the table. -/
theorem MempoolHistory.Processed.keeps
    (h : (MempoolHistory.start env network node db mempoolLedger).Processed) :
    node.Keeps mempoolLedger := by
  intro txs hmempool
  refine ⟨?_, ?_⟩
  · intro r hr
    by_contra hleft
    obtain ⟨rows, hlatest, hrows⟩ :=
      h r.txId ((mem_start_mempoolCache hmempool).mpr (.inl (mem_rowIds.mpr ⟨r, hr, rfl⟩)))
    rcases mem_start_parsed hmempool (MempoolHistory.latest_mem hlatest) with hscan | ⟨-, rfl⟩
    · obtain ⟨txId, htxId, tx, -, -, hp⟩ := mem_scanParsed hscan
      exact hleft ⟨txId, htxId, (Prod.mk.inj hp).1.symm⟩
    · -- the row was deleted with those of its transaction
      have hkept := hrows r (List.mem_filter.mpr ⟨hr, decide_eq_true rfl⟩)
      rcases (mem_start_mempoolLedger hmempool).mp hkept with ⟨-, hin⟩ | ⟨p, hp, hrp⟩
      · exact hleft hin
      · obtain ⟨txId, htxId, tx, -, -, rfl⟩ := mem_scanParsed hp
        exact hleft
          ⟨txId, htxId, ((parseMempoolTx_rows env network tx txId.toText db).1 r hrp).symm⟩
  · intro txId htxId hnone
    obtain ⟨rows, hlatest, -⟩ :=
      h txId.toText ((mem_start_mempoolCache hmempool).mpr (.inr ⟨txId, htxId, rfl⟩))
    rcases mem_start_parsed hmempool (MempoolHistory.latest_mem hlatest)
        with hscan | ⟨⟨r, hr, heq⟩, -⟩
    · obtain ⟨txId', -, tx, htx, -, hp⟩ := mem_scanParsed hscan
      rw [Txid.toText_injective (Prod.mk.inj hp).1, htx]
      rfl
    · exact absurd heq (hnone r hr)

/-- Where the node keeps the table, the cache stands for what was processed. -/
theorem NodeMempool.Keeps.processed (h : node.Keeps mempoolLedger) :
    (MempoolHistory.start env network node db mempoolLedger).Processed := by
  intro id hid
  cases hmempool : node.getRawMempool with
  | none =>
    -- the node did not answer, so the cache holds the ids of the stored rows
    have hstate : (MempoolHistory.start env network node db mempoolLedger).state =
        pgActualizeMempoolCache ⟨∅, mempoolLedger⟩ := by
      show scanMempool env network node db _ = _
      rw [scanMempool, hmempool]
    have hparsed : (MempoolHistory.start env network node db mempoolLedger).parsed =
        earlierParsed mempoolLedger := by
      show (node.getRawMempool.map _).getD [] ++ _ = _
      rw [hmempool]
      rfl
    have hrow : ∃ r ∈ mempoolLedger, r.txId = id := by
      rw [hstate] at hid
      exact mem_rowIds.mp (Finset.empty_union (rowIds mempoolLedger) ▸ hid)
    obtain ⟨rows, hlatest⟩ := MempoolHistory.latest_isSome (hparsed ▸ earlierParsed_of_row hrow)
    refine ⟨rows, hlatest, ?_⟩
    have hmem := MempoolHistory.latest_mem hlatest
    rw [hparsed] at hmem
    have hrows : rows = mempoolLedger.filter fun r => r.txId = id := (mem_earlierParsed.mp hmem).2
    rw [hstate, hrows]
    exact fun r hr => (List.mem_filter.mp hr).1
  | some txs =>
    obtain ⟨hkept, hfound⟩ := h txs hmempool
    -- an id of the cache was stored before the start or looked up by the scan
    have hrecorded :
        ∃ rows, (id, rows) ∈ (MempoolHistory.start env network node db mempoolLedger).parsed := by
      rw [start_parsed hmempool]
      by_cases hrow : ∃ r ∈ mempoolLedger, r.txId = id
      · exact ⟨_, List.mem_append_right _ (earlierParsed_of_row hrow)⟩
      · rcases (mem_start_mempoolCache hmempool).mp hid with hrows | ⟨txId, htxId, rfl⟩
        · exact absurd (mem_rowIds.mp hrows) hrow
        · have hnot : txId.toText ∉ ∅ ∪ rowIds mempoolLedger := by
            rw [Finset.empty_union]
            exact fun hrows => hrow (mem_rowIds.mp hrows)
          obtain ⟨rows, hrows⟩ := exists_mem_scanParsed htxId hnot
            (hfound txId htxId fun r hr heq => hrow ⟨r, hr, heq⟩)
          exact ⟨rows, List.mem_append_left _ hrows⟩
    -- the latest record of the id is the one that its rows come from
    obtain ⟨rows₀, hmem₀⟩ := hrecorded
    obtain ⟨rows, hlatest⟩ := MempoolHistory.latest_isSome hmem₀
    refine ⟨rows, hlatest, fun r hr => (mem_start_mempoolLedger hmempool).mpr ?_⟩
    rcases mem_start_parsed hmempool (MempoolHistory.latest_mem hlatest) with hscan | ⟨-, rfl⟩
    · exact .inr ⟨_, hscan, hr⟩
    · have hr' := (List.mem_filter.mp hr).1
      exact .inl ⟨hr', hkept r hr'⟩

end

/-- **The cache stands for what was processed, from the start and after every round of the loops,
exactly when the node keeps the table that it starts on.** -/
theorem processed_iff_keeps (env : MempoolEnvironment) (network : Network)
    (node : NodeMempool) (db : Db) (mempoolLedger : List DBMempoolLedgerEntry)
    (events : List StreamEvent) :
    (∀ done rest, events = done ++ rest → (done.foldl (MempoolHistory.step env network)
        (.start env network node db mempoolLedger)).Processed) ↔ node.Keeps mempoolLedger := by
  constructor
  · exact fun h => (h [] events rfl).keeps
  · rintro h done rest -
    exact h.processed.foldl start_labelled done

/-! ## A lookup that fails -/

/-- A node that has a transaction in its mempool and does not find it. -/
def forgetfulNode : NodeMempool := ⟨some [announcedTx.txid], fun _ => none⟩

/-- The transaction is in the cache, so a later announcement of it is passed over. -/
theorem exists_not_processed : ∃ env network node db mempoolLedger, ∃ events : List StreamEvent,
    ¬ ∀ done rest, events = done ++ rest → (done.foldl (MempoolHistory.step env network)
      (.start env network node db mempoolLedger)).Processed := by
  refine ⟨cenotaphEnv, .bitcoin, forgetfulNode, .migrated, [],
    [.announce announcedTx .migrated], ?_⟩
  intro h
  obtain ⟨rows, hlatest, -⟩ := h [.announce announcedTx .migrated] [] rfl announcedTx.txid.toText
    (by decide +kernel)
  have hnone : ((([.announce announcedTx .migrated] : List StreamEvent).foldl
      (MempoolHistory.step cenotaphEnv .bitcoin)
      (.start cenotaphEnv .bitcoin forgetfulNode .migrated [])).latest announcedTx.txid.toText) =
        none := by
    decide +kernel
  rw [hnone] at hlatest
  cases hlatest

end Runehook
