import Runehook.Stages

/-! # The runes that a run knows

Without rollbacks, every rune that the indexer can look up is the rune of the migrations or one that
was etched earlier in the run, under the id of the transaction that etched it; the flag `cenotaph`
apart, which the table does not keep (`DbRune.IsOf`). The invariant is `RunesKnown`, and
`Stage.runesKnown` is its step. -/

namespace Runehook

open Lib

/-- The rune is one of a list, up to the flag that the table loses. -/
def DbRune.IsOf (runes : List DbRune) (r : DbRune) : Prop :=
  ∃ r₀ ∈ runes, r = { r₀ with cenotaph := r.cenotaph }

theorem DbRune.IsOf.of_mem {runes : List DbRune} {r : DbRune} (h : r ∈ runes) :
    r.IsOf runes := ⟨r, h, rfl⟩

theorem DbRune.IsOf.mono {runes runes' : List DbRune} {r : DbRune} (h : r.IsOf runes)
    (hsub : runes ⊆ runes') :
    r.IsOf runes' := by
  obtain ⟨r₀, hr₀, heq⟩ := h
  exact ⟨r₀, hsub hr₀, heq⟩

/-- Rows of the table come from the table or from the batch. -/
theorem mem_foldlM_insertRune {rows runes runes' : List DbRune}
    (h : rows.foldlM insertRune runes = some runes') :
    ∀ r ∈ runes', r ∈ runes ∨ r.IsOf rows := by
  refine foldlM_induction_split (P := fun _ now => ∀ r ∈ now, r ∈ runes ∨ r.IsOf rows)
    (fun r hr => Or.inl hr) ?_ h
  intro done row rest now now' hsplit hP hstep
  have hrow : row ∈ rows := hsplit ▸ List.mem_append_right _ List.mem_cons_self
  -- a row is dropped, stops the insert or goes to the end
  rw [insertRune] at hstep
  split at hstep
  · rw [← Option.some.inj hstep]
    exact hP
  · split at hstep
    · cases hstep
    · rw [← Option.some.inj hstep]
      intro r hr
      rcases List.mem_append.mp hr with hr | hr
      · exact hP r hr
      · rw [List.mem_singleton.mp hr]
        exact Or.inr ⟨row, hrow, rfl⟩

/-- The table of runes after a flush. -/
theorem DbCache.mem_flush_runes {dbCache : DbCache} {db db' : Db}
    (h : dbCache.flush db = some db') :
    ∀ r ∈ db'.runes, r ∈ db.runes ∨ r.IsOf dbCache.runes := by
  obtain ⟨runes, hrunes, rfl⟩ := DbCache.flush_eq_some.mp h
  exact mem_foldlM_insertRune hrunes

/-- The runes that a session can look up are those of the migrations and of a list, whose ids are
those that the cursor has seen etched. -/
structure RunesKnown (c : Cursor) (recorded : List DbRune) (s : Session) : Prop where
  /-- The ids of the list are those that were etched. -/
  ids : recorded.map DbRune.id = c.etched
  /-- The transaction is that of the cursor. -/
  location : s.cache.txCache.location.runeId = c.tx
  /-- The rune of the transaction is in the list. -/
  etching : ∀ r, s.cache.txCache.etching = some r → r ∈ recorded ∧ r.id = c.tx
  /-- A cached rune is in the list, under its id. -/
  cached : ∀ id r, s.cache.runeCache.peek id = some r → r.id = id ∧
      r.IsOf (uncommonGoods :: recorded)
  /-- So is one that waits to be inserted. -/
  waiting : ∀ r ∈ s.cache.dbCache.runes, r.IsOf (uncommonGoods :: recorded)
  /-- And one in the table. -/
  stored : ∀ r ∈ s.db.runes, r.IsOf (uncommonGoods :: recorded)

namespace RunesKnown

variable {c : Cursor} {recorded : List DbRune} {s s' : Session}

/-- A process with empty caches knows the runes of the table. -/
theorem of_empty {network : Network} (h : s.cache.Empty network)
    (hids : recorded.map DbRune.id = c.etched) (htx : c.tx = ⟨1, 0⟩)
    (hstored : ∀ r ∈ s.db.runes, r.IsOf (uncommonGoods :: recorded)) :
    RunesKnown c recorded s where
  ids := hids
  location := h.location.trans htx.symm
  etching := by
    intro r hr
    rw [h.etching] at hr
    cases hr
  cached := by
    intro id r hr
    rw [h.runes] at hr
    cases hr
  waiting := by
    intro r hr
    rw [h.dbCache] at hr
    cases hr
  stored := hstored

/-- What a lookup may use of another session: its runes, and the transaction. -/
theorem of_eq {c' : Cursor} (h : RunesKnown c recorded s) (hetched : c'.etched = c.etched)
    (htx : c'.tx = c.tx) (hlocation : s'.cache.txCache.location = s.cache.txCache.location)
    (hetching : s'.cache.txCache.etching = s.cache.txCache.etching)
    (hcached : ∀ id r, s'.cache.runeCache.peek id = some r → s.cache.runeCache.peek id = some r)
    (hwaiting : s'.cache.dbCache.runes = s.cache.dbCache.runes)
    (hstored : s'.db.runes = s.db.runes) :
    RunesKnown c' recorded s' where
  ids := h.ids.trans hetched.symm
  location := by rw [hlocation, htx, h.location]
  etching := by
    rw [hetching, htx]
    exact h.etching
  cached := fun id r hr => h.cached id r (hcached id r hr)
  waiting := by
    rw [hwaiting]
    exact h.waiting
  stored := by
    rw [hstored]
    exact h.stored

theorem flush (h : RunesKnown c recorded s) (hflush : s.flush = some s') :
    RunesKnown c recorded s' := by
  obtain ⟨db, hdb, rfl⟩ := Session.flush_eq_some.mp hflush
  refine ⟨h.ids, h.location, h.etching, h.cached, fun r hr => absurd hr List.not_mem_nil, ?_⟩
  intro r hr
  rcases DbCache.mem_flush_runes hdb r hr with hr | ⟨r₀, hr₀, heq⟩
  · exact h.stored r hr
  · obtain ⟨r₁, hr₁, heq'⟩ := h.waiting r₀ hr₀
    exact ⟨r₁, hr₁, by rw [heq, heq']⟩

/-- A rune that is looked up is known under the id that was asked for; `0:0` stands for the rune of
the transaction. -/
theorem lookup {id : RuneId} {rune : Option DbRune} (h : RunesKnown c recorded s)
    (hlook : s.RuneLookup id rune s') :
    RunesKnown c recorded s' ∧ ∀ r, rune = some r → r.IsOf (uncommonGoods :: recorded) ∧
      if id = .placeholder then s.cache.txCache.etching = some r else r.id = id := by
  cases hlook with
  | etching hid =>
    refine ⟨h, fun r hr => ⟨.of_mem (List.mem_cons_of_mem _ (h.etching r hr).1), ?_⟩⟩
    rw [if_pos hid]
    exact hr
  | @hit r hid hpeek =>
    refine ⟨h.of_eq rfl rfl rfl rfl (fun i r hr => ?_) rfl rfl, ?_⟩
    · exact (LruCache.peek_get s.cache.runeCache id i).symm.trans hr
    · intro r' hr'
      obtain ⟨hr, hof⟩ := h.cached id r hpeek
      rw [if_neg hid, ← Option.some.inj hr']
      exact ⟨hof, hr⟩
  | unknown hid _ hflush => exact ⟨h.flush hflush, fun r hr => by cases hr⟩
  | @miss t r hid _ hflush hdb =>
    have ht := h.flush hflush
    have hmem : r ∈ t.db.runes := List.mem_of_find?_eq_some hdb
    have hr : r.id = id := by simpa using List.find?_some hdb
    refine ⟨⟨ht.ids, ht.location, ht.etching, ?_, ht.waiting, ht.stored⟩, ?_⟩
    · intro i r' hr'
      rcases LruCache.peek_put hr' with ⟨rfl, rfl⟩ | ⟨-, hold⟩
      · exact ⟨hr, ht.stored _ hmem⟩
      · exact ht.cached i r' hold
    · intro r' hr'
      rw [if_neg hid, ← Option.some.inj hr']
      exact ⟨ht.stored r hmem, hr⟩

theorem lookupMints {id : RuneId} {total : Option Nat} (h : RunesKnown c recorded s)
    (hlook : s.MintsLookup id total s') : RunesKnown c recorded s' := by
  cases hlook with
  | noEtching => exact h
  | hit => exact h.of_eq rfl rfl rfl rfl (fun _ _ hr => hr) rfl rfl
  | unknown _ _ hflush => exact h.flush hflush
  | miss _ _ hflush => exact (h.flush hflush).of_eq rfl rfl rfl rfl (fun _ _ hr => hr) rfl rfl

/-- Adding entries leaves the runes. -/
theorem add {es : List DbLedgerEntry} (h : RunesKnown c recorded s)
    (hadd : s.addLedgerEntriesToDbCache es = some s') : RunesKnown c recorded s' := by
  obtain ⟨-, rfl⟩ := Session.addLedgerEntriesToDbCache_eq_some.mp hadd
  exact h.of_eq rfl rfl rfl rfl (fun _ _ hr => hr) (foldl_count_runes _ _) rfl

/-- Another cache for the transaction, with the same location and etching. -/
theorem setTxCache {tx : TransactionCache} (h : RunesKnown c recorded s)
    (hlocation : tx.location = s.cache.txCache.location)
    (hetching : tx.etching = s.cache.txCache.etching) :
    RunesKnown c recorded (s.setTxCache tx) :=
  h.of_eq rfl rfl hlocation hetching (fun _ _ hr => hr) rfl rfl

/-- A mint, whether it is accepted or not. -/
theorem mint {apply : TransactionCache → RuneId → Nat → DbRune →
      TransactionCache × Option DbLedgerEntry} {id : RuneId} (h : RunesKnown c recorded s)
    (happly : ∀ tx total rune, (apply tx id total rune).1.location = tx.location ∧
      (apply tx id total rune).1.etching = tx.etching)
    (hout : s.MintOutcome apply id s') : RunesKnown c recorded s' := by
  cases hout with
  | unknown _ hrune => exact (h.lookup hrune).1
  | @refused t u rune total _ hrune htotal _ =>
    obtain ⟨hlocation, hetching⟩ := happly u.cache.txCache (total.getD 0) rune
    exact ((h.lookup hrune).1.lookupMints htotal).setTxCache hlocation hetching
  | @accepted t u v rune total _ _ hrune htotal _ _ hadd =>
    obtain ⟨hlocation, hetching⟩ := happly u.cache.txCache (total.getD 0) rune
    have hu := ((h.lookup hrune).1.lookupMints htotal).setTxCache hlocation hetching
    exact (hu.add hadd).of_eq rfl rfl rfl rfl (fun _ _ hr => hr) rfl rfl

/-- An etching is recorded under the id of the transaction. -/
theorem record {tx : TransactionCache} {rune : DbRune} {es : List DbLedgerEntry} {t : Session}
    (h : RunesKnown c recorded s) (number : Nat)
    (hlocation : tx.location = s.cache.txCache.location) (hetching : tx.etching = some rune)
    (hid : rune.id = s.cache.txCache.location.runeId)
    (hadd : (((s.setTxCache tx).pushRune rune).setRuneCache
      (s.cache.runeCache.put s.cache.txCache.location.runeId rune)).addLedgerEntriesToDbCache es =
        some t) :
    RunesKnown { c with etched := c.etched ++ [c.tx] } (recorded ++ [rune])
    (t.setNextRuneNumber number) := by
  have htx : rune.id = c.tx := hid.trans h.location
  have hsub : uncommonGoods :: recorded ⊆ uncommonGoods :: (recorded ++ [rune]) :=
    List.cons_subset_cons _ (List.subset_append_left _ _)
  have hnew : rune.IsOf (uncommonGoods :: (recorded ++ [rune])) :=
    .of_mem (List.mem_cons_of_mem _ (List.mem_append_right _ List.mem_cons_self))
  -- with the row waiting and cached, before the entry is added
  have hbefore : RunesKnown { c with etched := c.etched ++ [c.tx] } (recorded ++ [rune])
      (((s.setTxCache tx).pushRune rune).setRuneCache
        (s.cache.runeCache.put s.cache.txCache.location.runeId rune)) := by
    refine ⟨?_, ?_, ?_, ?_, ?_, fun r hr => (h.stored r hr).mono hsub⟩
    · rw [List.map_append, h.ids, List.map_singleton, htx]
    · show tx.location.runeId = c.tx
      rw [hlocation, h.location]
    · intro r hr
      have hr : tx.etching = some r := hr
      cases hetching.symm.trans hr
      exact ⟨List.mem_append_right _ List.mem_cons_self, htx⟩
    · intro id r hr
      rcases LruCache.peek_put hr with ⟨rfl, rfl⟩ | ⟨-, hold⟩
      · exact ⟨hid, hnew⟩
      · exact ⟨(h.cached id r hold).1, (h.cached id r hold).2.mono hsub⟩
    · intro r hr
      rcases List.mem_append.mp hr with hr | hr
      · exact (h.waiting r hr).mono hsub
      · rw [List.mem_singleton.mp hr]
        exact hnew
  exact (hbefore.add hadd).of_eq rfl rfl rfl rfl (fun _ _ hr => hr) rfl rfl

end RunesKnown

/-! ## Stages -/

/-- A mint of the transaction's cache leaves where it is, and what it etched. -/
theorem TransactionCache.applyMint_frame (tx : TransactionCache) (id : RuneId) (total : Nat)
    (rune : DbRune) :
    (tx.applyMint id total rune).1.location = tx.location ∧
      (tx.applyMint id total rune).1.etching = tx.etching := by
  obtain ⟨-, heq⟩ | ⟨-, _, -, heq⟩ :=
    tx.applyMint_cases id total rune <;> rw [heq] <;> exact ⟨rfl, rfl⟩

theorem TransactionCache.applyCenotaphMint_frame (tx : TransactionCache) (id : RuneId) (total : Nat)
    (rune : DbRune) : (tx.applyCenotaphMint id total rune).1.location = tx.location ∧
      (tx.applyCenotaphMint id total rune).1.etching = tx.etching := by
  obtain ⟨-, heq⟩ | ⟨-, _, -, heq⟩ := tx.applyCenotaphMint_cases id total rune <;> rw [heq] <;>
    exact ⟨rfl, rfl⟩

theorem TransactionCache.applyEdict_frame (env : Environment) (tx : TransactionCache) (e : Edict) :
    (tx.applyEdict env e).1.location = tx.location ∧
    (tx.applyEdict env e).1.etching = tx.etching := by
  rw [applyEdict]
  split
  · exact ⟨rfl, rfl⟩
  · split <;> exact ⟨rfl, rfl⟩

/-- **Every stage of a run without rollbacks keeps track of the runes.** -/
theorem Stage.runesKnown {env : Environment} {c : Cursor} {recorded : List DbRune} {s s' : Session}
    {stage : Stage} (h : RunesKnown c recorded s) (hfits : stage.Fits c)
    (hrun : stage.run env s = some s') :
    ∃ new, RunesKnown (c.next stage) (recorded ++ new) s' := by
  cases stage with
  | openBlock block =>
    obtain ⟨number, rfl, -⟩ := resetMaxRuneNumber_eq_some hrun
    refine ⟨[], ?_⟩
    rw [List.append_nil]
    exact h.of_eq rfl rfl rfl rfl (fun _ _ hr => hr) rfl rfl
  | call block a =>
    have hrun : a.run env block s = some s' := hrun
    cases a with
    | beginTransaction tx =>
      -- a new transaction etches nothing yet
      obtain ⟨-, rfl⟩ := run_beginTransaction hrun
      refine ⟨[], ?_⟩
      rw [List.append_nil]
      exact ⟨h.ids, rfl, fun r hr => (Option.some_ne_none r hr.symm).elim, h.cached,
        h.waiting, h.stored⟩
    | runestone r =>
      cases Option.some.inj hrun
      refine ⟨[], ?_⟩
      rw [List.append_nil, Session.applyRunestone]
      cases r.pointer <;> exact h.of_eq rfl rfl rfl rfl (fun _ _ hr => hr) rfl rfl
    | cenotaph =>
      refine ⟨[], ?_⟩
      rw [List.append_nil]
      have hburned :
          RunesKnown c recorded (s.setTxCache (s.cache.txCache.applyCenotaphInputBurn env).1) :=
        h.setTxCache rfl rfl
      exact (hburned.add hrun).of_eq rfl rfl rfl rfl (fun _ _ hr => hr) rfl rfl
    | etching e =>
      rw [Action.run, Session.applyEtching, TransactionCache.applyEtching_eq,
        Session.recordEtching] at hrun
      obtain ⟨t, hadd, hs⟩ := Option.bind_eq_some_iff.mp hrun
      cases Option.some.inj hs
      -- the row that is recorded is the one the transaction then holds as its own
      let rune := DbRune.fromEtching e s.cache.nextRuneNumber s.cache.txCache.location
      let tx := s.cache.txCache.withEtching rune e.premine
      have hlocation : tx.location = s.cache.txCache.location := by
        show (s.cache.txCache.withEtching rune e.premine).location = _
        cases e.premine <;> rfl
      have hetching : tx.etching = some rune := by
        show (s.cache.txCache.withEtching rune e.premine).etching = _
        cases e.premine <;> rfl
      have hrecord := h.record (t.cache.nextRuneNumber + 1) hlocation hetching rfl hadd
      exact ⟨[rune], hrecord.of_eq rfl rfl rfl rfl (fun _ _ hr => hr) rfl rfl⟩
    | cenotaphEtching rune =>
      rw [Action.run, Session.applyCenotaphEtching, TransactionCache.applyCenotaphEtching_eq,
        Session.recordEtching] at hrun
      obtain ⟨t, hadd, hs⟩ := Option.bind_eq_some_iff.mp hrun
      cases Option.some.inj hs
      let rune' := DbRune.fromCenotaphEtching rune s.cache.nextRuneNumber s.cache.txCache.location
      let tx := s.cache.txCache.withEtching rune' none
      have hlocation : tx.location = s.cache.txCache.location := rfl
      have hetching : tx.etching = some rune' := rfl
      have hrecord := h.record (t.cache.nextRuneNumber + 1) hlocation hetching rfl hadd
      exact ⟨[rune'], hrecord.of_eq rfl rfl rfl rfl (fun _ _ hr => hr) rfl rfl⟩
    | mint id =>
      refine ⟨[], ?_⟩
      rw [List.append_nil]
      exact (h.mint (fun tx => tx.applyMint_frame id) (Session.applyMint_cases hrun)).of_eq
        rfl rfl rfl rfl (fun _ _ hr => hr) rfl rfl
    | cenotaphMint id =>
      refine ⟨[], ?_⟩
      rw [List.append_nil]
      exact (h.mint (fun tx => tx.applyCenotaphMint_frame id)
        (Session.applyCenotaphMint_cases hrun)).of_eq rfl rfl rfl rfl (fun _ _ hr => hr) rfl rfl
    | edict e =>
      refine ⟨[], ?_⟩
      rw [Action.run, Session.applyEdict] at hrun
      obtain ⟨⟨rune, t⟩, hrune, hrun⟩ := Option.bind_eq_some_iff.mp hrun
      -- the lookup only fills the cache of runes
      have ht := (h.lookup (Session.runeLookup_of_eq_some hrune)).1
      rw [List.append_nil]
      cases rune with
      | none =>
        cases Option.some.inj hrun
        exact ht.of_eq rfl rfl rfl rfl (fun _ _ hr => hr) rfl rfl
      | some rune =>
        obtain ⟨hlocation, hetching⟩ := t.cache.txCache.applyEdict_frame env e
        exact ((ht.setTxCache hlocation hetching).add hrun).of_eq
          rfl rfl rfl rfl (fun _ _ hr => hr) rfl rfl
    | endTransaction =>
      refine ⟨[], ?_⟩
      rw [List.append_nil]
      have hallocated : RunesKnown c recorded
        (s.setTxCache (s.cache.txCache.allocateRemainingBalances env).1) := h.setTxCache rfl rfl
      exact (hallocated.add hrun).of_eq rfl rfl rfl rfl (fun _ _ hr => hr) rfl rfl
  | closeBlock block =>
    refine ⟨[], ?_⟩
    rw [List.append_nil]
    have hclosing : RunesKnown (c.next (.closeBlock block)) recorded (closing env block s) :=
      h.of_eq rfl rfl rfl rfl (fun _ _ hr => hr) rfl rfl
    exact hclosing.flush hrun
  | rollBack height => exact hfits.elim
  | restart cap hcap =>
    obtain ⟨cache, hcache, rfl⟩ := restart_eq_some hrun
    refine ⟨[], ?_⟩
    rw [List.append_nil]
    -- a restart keeps the tables, whose ids are known, and empties the cache
    exact .of_empty (IndexCache.new_empty hcache) h.ids rfl h.stored

end Runehook
