import Runehook.MempoolService

/-! # The threads of the mempool service

`start_zeromq_runloop` and `remove_escaped_transactions` run in threads of their own. Each changes
the set of ids first and the table later, so the steps of the two interleave (`ThreadStep`,
`runThreads`). A clean table (`MempoolState.Clean`) stays clean, whatever the interleaving, if rows
are inserted only while their id is in the cache or they are about to be deleted
(`ThreadStep.Timely`): `MempoolThreads.Sound` is the invariant in the middle of rounds, and
`clean_iff_timely` the result. -/

namespace Runehook

open Mempool

/-! ## Steps -/

/-- The service with what its threads are in the middle of. -/
structure MempoolThreads where
  /-- The cache and the table. -/
  state : MempoolState
  /-- The transaction whose id was inserted and whose rows were not. -/
  inserting : Option MempoolTransaction
  /-- The id that was removed and whose rows were not deleted. -/
  removing : Option String
  deriving DecidableEq

/-- No thread is in the middle of a round. -/
def MempoolState.idle (m : MempoolState) : MempoolThreads := ⟨m, none, none⟩

/-- A step of one of the threads. -/
inductive ThreadStep where
  /-- The id of an announced transaction is inserted. -/
  | insertId (tx : MempoolTransaction)
  /-- The rows are computed on the tables as they are then. -/
  | insertRows (db : Db)
  /-- The id of a confirmed transaction is removed. -/
  | removeId (txId : String)
  /-- Its rows are deleted. -/
  | removeRows

/-- Carry out a step; a thread in the middle of a round does not start another one. -/
def ThreadStep.run (env : MempoolEnvironment) (network : Network) (t : MempoolThreads) :
    ThreadStep → Option MempoolThreads
  | .insertId tx =>
    match t.inserting with
    | some _ => none
    | none =>
      match Runehook.insertId tx t.state with
      | some m => some { t with state := m, inserting := some tx }
      | none => some t
  | .insertRows db => t.inserting.map fun tx =>
    { t with state := Runehook.insertRows env network tx db t.state, inserting := none }
  | .removeId txId =>
    match t.removing with
    | some _ => none
    | none =>
      match Runehook.removeId txId t.state with
      | some m => some { t with state := m, removing := some txId }
      | none => some t
  | .removeRows => t.removing.map fun txId =>
    { t with state := Runehook.removeRows txId t.state, removing := none }

/-- An interleaving. -/
def runThreads (env : MempoolEnvironment) (network : Network) (steps : List ThreadStep)
    (t : MempoolThreads) :
    Option MempoolThreads :=
  steps.foldlM (ThreadStep.run env network) t

/-! ## Clean tables -/

/-- What identifies a row: its transaction, and its event index in it. -/
def DBMempoolLedgerEntry.key (r : DBMempoolLedgerEntry) : String × Nat := (r.txId, r.eventIndex)

/-- **Every transaction with rows has its id in the cache, and its rows are there once.** -/
structure MempoolState.Clean (m : MempoolState) : Prop where
  /-- A transaction with rows has its id in the cache. -/
  cached : ∀ r ∈ m.mempoolLedger, r.txId ∈ m.mempoolCache
  /-- No row is there twice. -/
  once : (m.mempoolLedger.map DBMempoolLedgerEntry.key).Nodup

/-- The service once the removal that is under way is finished. -/
def MempoolThreads.removed (t : MempoolThreads) : MempoolState :=
  { t.state with mempoolLedger := t.state.mempoolLedger.filter fun r => t.removing ≠ some r.txId }

/-- Where a step inserts rows, the transaction is still in the cache, or its rows are about to be
deleted. -/
def ThreadStep.Timely (env : MempoolEnvironment) (network : Network) (t : MempoolThreads) :
    ThreadStep → Prop
  | .insertRows db => ∀ tx, t.inserting = some tx →
      parseMempoolTx env network tx tx.txid.toText db = [] ∨ tx.txid.toText ∈ t.state.mempoolCache ∨
        t.removing = some tx.txid.toText
  | _ => True

instance (env : MempoolEnvironment) (network : Network) (t : MempoolThreads) :
    DecidablePred (ThreadStep.Timely env network t)
  | .insertRows db => inferInstanceAs (Decidable (∀ tx ∈ t.inserting,
      parseMempoolTx env network tx tx.txid.toText db = [] ∨ tx.txid.toText ∈ t.state.mempoolCache ∨
        t.removing = some tx.txid.toText))
  | .insertId _ | .removeId _ | .removeRows => inferInstanceAs (Decidable True)

/-- What holds in the middle of rounds: the tables are clean once the removal is finished, and have
no rows then of the transaction that is being inserted. -/
structure MempoolThreads.Sound (t : MempoolThreads) : Prop where
  /-- Once the removal is finished, the tables are clean. -/
  clean : t.removed.Clean
  /-- The transaction that is being inserted has no rows then. -/
  fresh : ∀ tx, t.inserting = some tx → ∀ r ∈ t.removed.mempoolLedger, r.txId ≠ tx.txid.toText

section

variable {env : MempoolEnvironment} {network : Network} {t t' : MempoolThreads}

/-- Between rounds of the removal nothing is left to delete. -/
theorem MempoolThreads.removed_of_none (h : t.removing = none) : t.removed = t.state := by
  unfold removed
  rw [List.filter_eq_self.mpr]
  intro r _
  rw [h]
  rfl

/-- The second step of a removal gives what its first step promised. -/
theorem MempoolThreads.removed_of_some {txId : String} (h : t.removing = some txId) :
    t.removed = removeRows txId t.state := by
  unfold removed removeRows pgRemoveMempoolTx
  rw [h]
  refine congrArg (MempoolState.mk _) (List.filter_congr fun r _ => ?_)
  simp [eq_comm]

theorem MempoolState.Clean.empty : MempoolState.empty.Clean :=
  ⟨fun _ hr => absurd hr List.not_mem_nil, .nil⟩

theorem MempoolState.Clean.idle {m : MempoolState} (h : m.Clean) : m.idle.Sound := by
  refine ⟨?_, fun _ htx => nomatch htx⟩
  rw [MempoolThreads.removed_of_none rfl]
  exact h

/-- Rows of a parsed transaction have different keys. -/
theorem parseMempoolTx_keys (tx : MempoolTransaction) (db : Db) :
    ((parseMempoolTx env network tx tx.txid.toText db).map DBMempoolLedgerEntry.key).Nodup := by
  refine List.pairwise_map.mpr ((parseMempoolTx_rows env network tx _ db).2.imp ?_)
  intro r r' hlt heq
  have hindex : r.eventIndex = r'.eventIndex := (Prod.mk.inj heq).2
  omega

/-- What the first step of an announcement can do. -/
theorem ThreadStep.insertId_cases {tx : MempoolTransaction}
    (h : (ThreadStep.insertId tx).run env network t = some t') :
    t' = t ∨ (tx.txid.toText ∉ t.state.mempoolCache ∧
      t' = ⟨{ t.state with mempoolCache := insert tx.txid.toText t.state.mempoolCache },
        some tx, t.removing⟩) := by
  obtain ⟨state, inserting, removing⟩ := t
  cases inserting with
  | some _ => cases h
  | none =>
    by_cases hmem : tx.txid.toText ∈ state.mempoolCache
    · refine .inl ?_
      simpa [ThreadStep.run, Runehook.insertId, hmem, eq_comm] using h
    · refine .inr ⟨hmem, ?_⟩
      simpa [ThreadStep.run, Runehook.insertId, hmem, eq_comm] using h

/-- What the first step of a removal can do. -/
theorem ThreadStep.removeId_cases {txId : String}
    (h : (ThreadStep.removeId txId).run env network t = some t') :
    t' = t ∨ (t.removing = none ∧
      t' = ⟨{ t.state with mempoolCache := t.state.mempoolCache.erase txId },
        t.inserting, some txId⟩) := by
  obtain ⟨state, inserting, removing⟩ := t
  cases removing with
  | some _ => cases h
  | none =>
    by_cases hmem : txId ∈ state.mempoolCache
    · refine .inr ⟨rfl, ?_⟩
      simpa [ThreadStep.run, Runehook.removeId, hmem, eq_comm] using h
    · refine .inl ?_
      simpa [ThreadStep.run, Runehook.removeId, hmem, eq_comm] using h

/-- The rows that the second step of an announcement adds stay, unless the removal takes them. -/
theorem removed_insertRows (env : MempoolEnvironment) (network : Network) (t : MempoolThreads)
    (tx : MempoolTransaction) (db : Db) (inserting : Option MempoolTransaction) :
    (MempoolThreads.removed ⟨insertRows env network tx db t.state,
      inserting, t.removing⟩).mempoolLedger = t.removed.mempoolLedger ++
        if t.removing = some tx.txid.toText then []
        else parseMempoolTx env network tx tx.txid.toText db := by
  have hids := (parseMempoolTx_rows env network tx tx.txid.toText db).1
  show (t.state.mempoolLedger ++ _).filter _ = t.state.mempoolLedger.filter _ ++ _
  rw [List.filter_append]
  refine congrArg _ ?_
  split_ifs with hremoving
  · rw [List.filter_eq_nil_iff]
    intro r hr
    simp [hids r hr, hremoving]
  · rw [List.filter_eq_self]
    intro r hr
    simp [hids r hr, hremoving]

theorem MempoolThreads.Sound.insertId (h : t.Sound) {tx : MempoolTransaction}
    (hstep : (ThreadStep.insertId tx).run env network t = some t') : t'.Sound := by
  rcases ThreadStep.insertId_cases hstep with rfl | ⟨hmem, rfl⟩
  · exact h
  · -- the rows are as before, and the cache has grown
    refine ⟨⟨fun r hr => Finset.mem_insert_of_mem (h.clean.cached r hr), h.clean.once⟩, ?_⟩
    intro tx' htx' r hr heq
    cases Option.some.inj htx'
    exact hmem (heq ▸ h.clean.cached r hr)

theorem MempoolThreads.Sound.insertRows (h : t.Sound) {db : Db}
    (htimely : (ThreadStep.insertRows db).Timely env network t)
    (hstep : (ThreadStep.insertRows db).run env network t = some t') : t'.Sound := by
  obtain ⟨tx, htx, rfl⟩ := Option.map_eq_some_iff.mp hstep
  have hids := (parseMempoolTx_rows env network tx tx.txid.toText db).1
  have hrows := removed_insertRows env network t tx db none
  refine ⟨⟨?_, ?_⟩, fun _ htx' => nomatch htx'⟩
  · intro r hr
    rw [hrows] at hr
    rcases List.mem_append.mp hr with hr | hr
    · exact h.clean.cached r hr
    · split_ifs at hr with hremoving
      · cases hr
      -- a timely insert adds no row of an id that is being removed
      · rcases htimely tx htx with hnil | hcached | hdeleted
        · rw [hnil] at hr
          cases hr
        · exact (hids r hr).symm ▸ hcached
        · exact absurd hdeleted hremoving
  · rw [hrows, List.map_append, List.nodup_append]
    refine ⟨h.clean.once, ?_, ?_⟩
    · split_ifs
      · exact .nil
      · exact parseMempoolTx_keys tx db
    -- no stored row has the id of the transaction that is inserted
    · intro k hk k' hk' heq
      obtain ⟨r, hr, rfl⟩ := List.mem_map.mp hk
      obtain ⟨r', hr', rfl⟩ := List.mem_map.mp hk'
      split_ifs at hr'
      · cases hr'
      · exact h.fresh tx htx r hr ((Prod.mk.inj heq).1.trans (hids r' hr'))

theorem MempoolThreads.Sound.removeId (h : t.Sound) {txId : String}
    (hstep : (ThreadStep.removeId txId).run env network t = some t') : t'.Sound := by
  rcases ThreadStep.removeId_cases hstep with rfl | ⟨hremoving, rfl⟩
  · exact h
  · have hclean := h.clean
    have hfresh := h.fresh
    rw [MempoolThreads.removed_of_none hremoving] at hclean hfresh
    refine ⟨⟨?_, ?_⟩, ?_⟩
    · intro r hr
      have hr' := List.mem_filter.mp hr
      have hne : txId ≠ r.txId := fun heq => of_decide_eq_true hr'.2 (congrArg some heq)
      exact Finset.mem_erase.mpr ⟨hne.symm, hclean.cached r hr'.1⟩
    · exact hclean.once.sublist (List.filter_sublist.map _)
    · intro tx htx r hr
      exact hfresh tx htx r (List.mem_filter.mp hr).1

theorem MempoolThreads.Sound.removeRows (h : t.Sound)
    (hstep : ThreadStep.removeRows.run env network t = some t') : t'.Sound := by
  obtain ⟨txId, hremoving, rfl⟩ := Option.map_eq_some_iff.mp hstep
  have hremoved :
      MempoolThreads.removed ⟨Runehook.removeRows txId t.state, t.inserting, none⟩ = t.removed :=
    (MempoolThreads.removed_of_none rfl).trans (MempoolThreads.removed_of_some hremoving).symm
  exact ⟨hremoved ▸ h.clean, fun tx htx r hr => h.fresh tx htx r (hremoved ▸ hr)⟩

/-- **A timely step keeps the service sound.** -/
theorem MempoolThreads.Sound.step (h : t.Sound) {step : ThreadStep}
    (htimely : step.Timely env network t) (hstep : step.run env network t = some t') :
    t'.Sound := by
  cases step with
  | insertId tx => exact h.insertId hstep
  | insertRows db => exact h.insertRows htimely hstep
  | removeId txId => exact h.removeId hstep
  | removeRows => exact h.removeRows hstep

/-- A step that inserts rows too late leaves rows of a transaction that is not in the cache. -/
theorem ThreadStep.timely_of_clean {step : ThreadStep} (hstep : step.run env network t = some t')
    (hclean : t'.inserting = none → t'.removed.Clean) : step.Timely env network t := by
  cases step with
  | insertId tx => trivial
  | removeId txId => trivial
  | removeRows => trivial
  | insertRows db =>
    intro tx htx
    obtain ⟨tx', htx', rfl⟩ := Option.map_eq_some_iff.mp hstep
    cases Option.some.inj (htx.symm.trans htx')
    cases hparse : parseMempoolTx env network tx tx.txid.toText db with
    | nil => exact .inl rfl
    | cons r rest =>
      have hr : r ∈ parseMempoolTx env network tx tx.txid.toText db := hparse ▸ List.mem_cons_self
      have hid : r.txId = tx.txid.toText :=
        (parseMempoolTx_rows env network tx tx.txid.toText db).1 r hr
      -- the rows are being removed, so they do not stay
      by_cases hremoving : t.removing = some tx.txid.toText
      · exact .inr (.inr hremoving)
      · refine .inr (.inl (hid ▸ (hclean rfl).cached r ?_))
        refine List.mem_filter.mpr ⟨List.mem_append_right _ hr, ?_⟩
        simp [hid, hremoving]

end

/-! ## Interleavings -/

/-- **In an interleaving the tables are clean whenever no step is in progress**, if every step that
inserts rows is timely; and every such step is timely exactly if the tables are clean whenever the
ZMQ loop is between two rounds, once the removal that may be under way is finished. -/
theorem clean_iff_timely {env : MempoolEnvironment} {network : Network} {steps : List ThreadStep}
    {m : MempoolState} {last : MempoolThreads} (hclean : m.Clean)
    (hrun : runThreads env network steps m.idle = some last) :
    ((∀ done step rest t, steps = done ++ step :: rest →
        runThreads env network done m.idle = some t → step.Timely env network t) →
      ∀ done rest t, steps = done ++ rest → runThreads env network done m.idle = some t →
        t.inserting = none → t.removing = none → t.state.Clean) ∧
    ((∀ done rest t, steps = done ++ rest → runThreads env network done m.idle = some t →
        t.inserting = none → t.removed.Clean) ↔
      ∀ done step rest t, steps = done ++ step :: rest →
        runThreads env network done m.idle = some t → step.Timely env network t) := by
  -- by induction on the steps: a timely run is sound in every state
  have hsound :
      (∀ done step rest t, steps = done ++ step :: rest →
        runThreads env network done m.idle = some t → step.Timely env network t) →
      ∀ done rest t, steps = done ++ rest → runThreads env network done m.idle =
        some t → t.Sound := by
    rintro htimely done rest t rfl hdone
    have hind :=
      Lib.foldlM_induction_split (P := fun done t => runThreads env network done m.idle = some t ∧
        t.Sound) ?_ ?_ hdone
    · exact hind.2
    · exact ⟨rfl, hclean.idle⟩
    · rintro before step after u u' rfl ⟨hbefore, hsound⟩ hstep
      refine ⟨Lib.foldlM_append_eq_some.mpr ⟨u, hbefore,
        Lib.foldlM_singleton_eq_some.mpr hstep⟩, ?_⟩
      refine hsound.step (htimely before step (after ++ rest) u ?_ hbefore) hstep
      rw [List.append_assoc, List.cons_append]
  refine ⟨fun htimely done rest t hsplit hdone _ hremoving => ?_, ?_, ?_⟩
  · exact MempoolThreads.removed_of_none hremoving ▸ (hsound htimely done rest t hsplit hdone).clean
  -- a late insert breaks the state right after it
  · rintro hall done step rest t rfl hdone
    obtain ⟨mid, hmid, hrun⟩ := Lib.foldlM_append_eq_some.mp hrun
    cases Option.some.inj (hdone.symm.trans hmid)
    obtain ⟨next, hnext, -⟩ := Lib.foldlM_cons_eq_some.mp hrun
    have hstep : runThreads env network (done ++ [step]) m.idle = some next :=
      Lib.foldlM_append_eq_some.mpr ⟨t, hdone, Lib.foldlM_cons_eq_some.mpr ⟨next, hnext, rfl⟩⟩
    exact ThreadStep.timely_of_clean hnext
      (hall (done ++ [step]) rest next (by rw [List.append_assoc, List.singleton_append]) hstep)
  · exact fun htimely done rest t hsplit hdone _ => (hsound htimely done rest t hsplit hdone).clean

/-- A transaction that was announced before. -/
def earlierTx : MempoolTransaction :=
  { announcedTx with txid := ⟨List.replicate 64 (Fin.last 15), List.length_replicate⟩ }

/-- The service once `earlierTx` has its rows. -/
def servedState : MempoolState := announce cenotaphEnv .bitcoin earlierTx .migrated .empty

/-- A transaction is announced and confirmed, announced again before its rows are deleted, and gets
its rows after that. -/
def announcedAgain : List ThreadStep :=
  [.insertId announcedTx, .insertRows .migrated, .removeId announcedTx.txid.toText,
    .insertId announcedTx, .removeRows, .insertRows .migrated]

/-- Both transactions have their rows once. -/
theorem clean_announcedAgain : ∃ last,
    runThreads cenotaphEnv .bitcoin announcedAgain servedState.idle = some last ∧ last.state.Clean ∧
      ∀ tx ∈ [earlierTx, announcedTx], ∃ r ∈ last.state.mempoolLedger, r.txId = tx.txid.toText := by
  obtain ⟨last, hrun⟩ :
      ∃ last, runThreads cenotaphEnv .bitcoin announcedAgain servedState.idle = some last :=
    ⟨_, rfl⟩
  have hclean : servedState.Clean := ⟨by decide +kernel, by decide +kernel⟩
  -- every step of the sequence is timely
  have hcheck : Lib.checkRun (ThreadStep.run cenotaphEnv .bitcoin)
      (fun t step => step.Timely cenotaphEnv .bitcoin t) announcedAgain
      servedState.idle = true := by
    decide +kernel
  have hdone : last.inserting = none ∧ last.removing = none ∧
      ∀ tx ∈ [earlierTx, announcedTx], ∃ r ∈ last.state.mempoolLedger, r.txId = tx.txid.toText := by
    rw [← Option.some.inj hrun]
    decide +kernel
  obtain ⟨hinserting, hremoving, hrows⟩ := hdone
  refine ⟨last, hrun, ?_, hrows⟩
  refine (clean_iff_timely hclean hrun).1 ?_ announcedAgain [] last
    (List.append_nil _).symm hrun hinserting hremoving
  exact fun done step rest t hsplit hdone => of_decide_eq_true (Lib.of_checkRun hcheck hsplit hdone)

/-- A transaction that is confirmed between the two steps of its announcement. -/
def overtaken : List ThreadStep :=
  [.insertId announcedTx, .removeId announcedTx.txid.toText, .removeRows, .insertRows .migrated]

/-- No step is in progress, and the table has a row of a transaction that is not in the cache. -/
theorem exists_not_clean : ∃ env network steps m last, MempoolState.Clean m ∧
    runThreads env network steps m.idle = some last ∧ last.inserting = none ∧ last.removing = none ∧
      ¬ last.state.Clean := by
  obtain ⟨last, hrun⟩ :
      ∃ last, runThreads cenotaphEnv .bitcoin overtaken MempoolState.empty.idle = some last :=
    ⟨_, rfl⟩
  have hstale : ∃ r ∈ last.state.mempoolLedger, r.txId ∉ last.state.mempoolCache := by
    rw [← Option.some.inj hrun]
    decide +kernel
  obtain ⟨r, hr, hnot⟩ := hstale
  refine ⟨cenotaphEnv, .bitcoin, overtaken, .empty, last, .empty, hrun, ?_, ?_,
    fun h => hnot (h.cached r hr)⟩
  · rw [← Option.some.inj hrun]
  · rw [← Option.some.inj hrun]

end Runehook
