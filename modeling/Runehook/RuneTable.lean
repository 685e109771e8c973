import Runehook.Mints

/-! # The table of runes

A row whose name is taken vanishes in the insert, any other row goes to the end of the table
(`keepRune`). `Session.runes` is the table as the next flush leaves it: a call of the indexer
appends to it the rune that it etches, under a free name, and nothing else (`SameRunes`,
`EtchesRune`, `Action.runes`). -/

namespace Runehook

open Lib

/-- A rune as the table keeps it: the column `cenotaph` takes its default. -/
def DbRune.stored (rune : DbRune) : DbRune := { rune with cenotaph := false }

/-- A row has the name. -/
def nameTaken (runes : List DbRune) (name : String) : Bool := runes.any fun r => r.name = name

/-- The table after the insert of a row that violates no constraint. -/
def keepRune (runes : List DbRune) (row : DbRune) : List DbRune :=
  if nameTaken runes row.name then runes else runes ++ [row.stored]

theorem keepRune_of_taken {runes : List DbRune} {row : DbRune}
    (h : nameTaken runes row.name = true) :
    keepRune runes row = runes := if_pos h

theorem keepRune_of_free {runes : List DbRune} {row : DbRune}
    (h : nameTaken runes row.name = false) :
    keepRune runes row = runes ++ [row.stored] := if_neg (Bool.eq_false_iff.mp h)

/-- Rows stay. -/
theorem prefix_keepRune (runes : List DbRune) (row : DbRune) : runes <+: keepRune runes row := by
  unfold keepRune
  split
  · exact List.prefix_refl _
  · exact List.prefix_append _ _

theorem mem_keepRune {runes : List DbRune} {row r : DbRune} (h : r ∈ keepRune runes row) :
    r ∈ runes ∨ r = row.stored := by
  unfold keepRune at h
  split at h
  · exact .inl h
  · exact (List.mem_append.mp h).imp_right List.mem_singleton.mp

theorem insertRune_eq_some {runes runes' : List DbRune} {row : DbRune}
    (h : insertRune runes row = some runes') : runes' = keepRune runes row := by
  unfold insertRune at h
  unfold keepRune nameTaken
  split_ifs at h ⊢
  · exact (Option.some.inj h).symm
  · exact (Option.some.inj h).symm

theorem foldlM_insertRune_eq_some {rows runes runes' : List DbRune}
    (h : rows.foldlM insertRune runes = some runes') : runes' = rows.foldl keepRune runes := by
  induction rows generalizing runes with
  | nil => exact (Option.some.inj h).symm
  | cons row rows ih =>
    obtain ⟨now, hnow, hrest⟩ := foldlM_cons_eq_some.mp h
    rw [List.foldl_cons, ← insertRune_eq_some hnow]
    exact ih hrest

/-! ## Sessions -/

namespace Session

/-- The table of runes once what waits in memory is inserted. -/
def runes (s : Session) : List DbRune := s.cache.dbCache.runes.foldl keepRune s.db.runes

/-- The row of a rune in that table. -/
def runeById (id : RuneId) (s : Session) : Option DbRune := s.runes.find? fun r => r.id = id

/-- What waits can be inserted: it violates no constraint. -/
def Insertable (s : Session) : Prop :=
  s.cache.dbCache.runes.foldlM insertRune s.db.runes = some s.runes

/-- An id has a row in that table. -/
def Registers (s : Session) (id : RuneId) : Prop := ∃ r ∈ s.runes, r.id = id

theorem runes_of_rest {s : Session} (h : s.cache.dbCache = .new) : s.runes = s.db.runes := by
  rw [runes, h]
  rfl

theorem flush_runes {s t : Session} (h : s.flush = some t) :
    t.db.runes = s.runes ∧ t.runes = s.runes := by
  obtain ⟨db, hdb, rfl⟩ := flush_eq_some.mp h
  obtain ⟨runes, hrunes, rfl⟩ := DbCache.flush_eq_some.mp hdb
  have hstored : runes = s.runes := foldlM_insertRune_eq_some hrunes
  exact ⟨hstored, hstored⟩

/-- A flush succeeds when what waits can be inserted. -/
theorem flush_of_insertable {s : Session} (h : s.Insertable) : ∃ t, s.flush = some t := by
  exact ⟨_, flush_eq_some.mpr ⟨_, DbCache.flush_eq_some.mpr ⟨s.runes, h, rfl⟩, rfl⟩⟩

/-- Nothing waits after a flush. -/
theorem insertable_of_flush {s t : Session} (h : s.flush = some t) : t.Insertable := by
  obtain ⟨db, -, rfl⟩ := flush_eq_some.mp h
  rfl

theorem pgGetRuneById_flush {s t : Session} (h : s.flush = some t) (id : RuneId) :
    pgGetRuneById id t.db = s.runeById id := by
  rw [pgGetRuneById, (flush_runes h).1]
  rfl

theorem registers_of_runeById {s : Session} {id : RuneId} {r : DbRune}
    (h : s.runeById id = some r) :
    s.Registers id :=
  ⟨r, List.mem_of_find?_eq_some h, by simpa using List.find?_some h⟩

/-- A rune that is looked up under an id of its own is in the LRU cache or in the table. -/
theorem RuneLookup.found {id : RuneId} {s t : Session} {rune : Option DbRune}
    (h : s.RuneLookup id rune t) (hid : id ≠ .placeholder) {r : DbRune} (hr : rune = some r) :
    s.cache.runeCache.peek id = some r ∨ s.runeById id = some r := by
  cases h with
  | etching hplaceholder => exact absurd hplaceholder hid
  | hit _ hpeek => exact Or.inl (hr ▸ hpeek)
  | unknown => cases hr
  | miss _ _ hflush hdb => exact Or.inr (hr ▸ (pgGetRuneById_flush hflush id).symm.trans hdb)

/-! ## Steps that etch nothing -/

/-- The table of runes and the next number stay, and a rune comes to the LRU cache from the table
only. -/
structure SameRunes (s s' : Session) : Prop where
  /-- The table stays, with what waits for it. -/
  runes : s'.runes = s.runes
  /-- The next number stays. -/
  number : s'.cache.nextRuneNumber = s.cache.nextRuneNumber
  /-- What is cached was cached before or is in the table. -/
  cached : ∀ id r, s'.cache.runeCache.peek id = some r →
    s.cache.runeCache.peek id = some r ∨ s.runeById id = some r
  /-- What waits can still be inserted. -/
  insertable : s.Insertable → s'.Insertable

namespace SameRunes

variable {s t u : Session}

/-- Nothing that concerns the runes changes. -/
theorem of_eq (hdb : t.db.runes = s.db.runes)
    (hwaiting : t.cache.dbCache.runes = s.cache.dbCache.runes)
    (hnumber : t.cache.nextRuneNumber = s.cache.nextRuneNumber)
    (hcached : ∀ id r, t.cache.runeCache.peek id = some r → s.cache.runeCache.peek id = some r) :
    s.SameRunes t where
  runes := by rw [Session.runes, hdb, hwaiting, Session.runes]
  number := hnumber
  cached id r hr := Or.inl (hcached id r hr)
  insertable h := by
    unfold Insertable Session.runes at h ⊢
    rw [hdb, hwaiting, h]

theorem trans (h : s.SameRunes t) (h' : t.SameRunes u) : s.SameRunes u where
  runes := h'.runes.trans h.runes
  number := h'.number.trans h.number
  cached := by
    intro id r hr
    rcases h'.cached id r hr with hr | hr
    · exact h.cached id r hr
    · rw [runeById, h.runes] at hr
      exact Or.inr hr
  insertable hs := h'.insertable (h.insertable hs)

theorem flush (h : s.flush = some t) : s.SameRunes t where
  runes := (flush_runes h).2
  number := by
    obtain ⟨db, -, rfl⟩ := flush_eq_some.mp h
    rfl
  cached := by
    obtain ⟨db, -, rfl⟩ := flush_eq_some.mp h
    exact fun id r hr => Or.inl hr
  insertable _ := insertable_of_flush h

theorem setTxCache (s : Session) (tx : TransactionCache) : s.SameRunes (s.setTxCache tx) :=
  .of_eq rfl rfl rfl fun _ _ hr => hr

theorem add {es : List DbLedgerEntry} (h : s.addLedgerEntriesToDbCache es = some t) :
    s.SameRunes t := by
  obtain ⟨-, rfl⟩ := addLedgerEntriesToDbCache_eq_some.mp h
  exact .of_eq rfl (foldl_count_runes _ _) rfl fun _ _ hr => hr

theorem lookup {id : RuneId} {rune : Option DbRune} (h : s.RuneLookup id rune t) :
    s.SameRunes t := by
  cases h with
  | etching => exact .of_eq rfl rfl rfl fun _ _ hr => hr
  | hit =>
    exact .of_eq rfl rfl rfl fun i r hr => (LruCache.peek_get s.cache.runeCache id i).symm.trans hr
  | unknown _ _ hflush => exact .flush hflush
  | @miss t r _ _ hflush hdb =>
    have ht := SameRunes.flush hflush
    refine ⟨ht.runes, ht.number, fun i r' hr' => ?_, ht.insertable⟩
    rcases LruCache.peek_put hr' with ⟨rfl, rfl⟩ | ⟨-, hold⟩
    · exact Or.inr ((pgGetRuneById_flush hflush _).symm.trans hdb)
    · exact ht.cached i r' hold

theorem lookupMints {id : RuneId} {total : Option Nat} (h : s.MintsLookup id total t) :
    s.SameRunes t := by
  cases h with
  | noEtching | hit => exact .of_eq rfl rfl rfl fun _ _ hr => hr
  | unknown _ _ hflush => exact .flush hflush
  | miss _ _ hflush => exact (SameRunes.flush hflush).trans (.of_eq rfl rfl rfl fun _ _ hr => hr)

theorem mint {apply : TransactionCache → RuneId → Nat → DbRune →
      TransactionCache × Option DbLedgerEntry}
    {id : RuneId} (h : s.MintOutcome apply id t) : s.SameRunes t := by
  cases h with
  | unknown _ hrune => exact .lookup hrune
  | refused _ hrune htotal _ =>
    exact ((lookup hrune).trans (.lookupMints htotal)).trans (.setTxCache _ _)
  | accepted _ hrune htotal _ _ hadd =>
    have hadded := (setTxCache _ _).trans (.add hadd)
    exact (((lookup hrune).trans (.lookupMints htotal)).trans hadded).trans
      (.of_eq rfl rfl rfl fun _ _ hr => hr)

end SameRunes

end Session

/-! ## Calls -/

/-- The row that a call makes of an etching. -/
def Action.etchedRune (s : Session) : Action → Option DbRune
  | .etching e => some (.fromEtching e s.cache.nextRuneNumber s.cache.txCache.location)
  | .cenotaphEtching rune =>
    some (.fromCenotaphEtching rune s.cache.nextRuneNumber s.cache.txCache.location)
  | _ => none

theorem Action.etchedRune_isSome (s : Session) (a : Action) :
    (a.etchedRune s).isSome = a.etches := by
  cases a <;> rfl

/-- The row is that of a rune etched by the transaction, under the next number. -/
structure EtchedRow (s : Session) (row : DbRune) : Prop where
  /-- Its id is that of the transaction. -/
  id : row.id = s.cache.txCache.location.runeId
  /-- The parts of the id are those of the row. -/
  runeId : row.runeId = row.id
  /-- It has the next number. -/
  number : row.number = s.cache.nextRuneNumber

theorem Action.etchedRow {s : Session} {a : Action} {row : DbRune} (h : a.etchedRune s = some row) :
    EtchedRow s row := by
  cases a with
  | etching | cenotaphEtching =>
    cases Option.some.inj h
    exact ⟨rfl, rfl, rfl⟩
  | _ => cases h

theorem TransactionCache.withEtching_etching (tx : TransactionCache) (rune : DbRune)
    (premine : Option Nat) :
    (tx.withEtching rune premine).etching = some rune := by cases premine <;> rfl

/-- A call that etches a rune leaves it to the transaction. -/
theorem Action.etching_eq {env : Environment} {block : Block} {a : Action} {row : DbRune}
    {s s' : Session} (h : a.etchedRune s = some row) (hrun : a.run env block s = some s') :
    s'.cache.txCache.etching = some row := by
  cases a with
  | etching e =>
    cases Option.some.inj h
    rw [Action.run, Session.applyEtching, TransactionCache.applyEtching_eq,
      Session.recordEtching] at hrun
    obtain ⟨t, hadd, hs⟩ := Option.bind_eq_some_iff.mp hrun
    cases Option.some.inj hs
    rw [(Session.writes_record hadd).2, TransactionCache.withEtching_etching]
  | cenotaphEtching rune =>
    cases Option.some.inj h
    rw [Action.run, Session.applyCenotaphEtching, TransactionCache.applyCenotaphEtching_eq,
      Session.recordEtching] at hrun
    obtain ⟨t, hadd, hs⟩ := Option.bind_eq_some_iff.mp hrun
    cases Option.some.inj hs
    rw [(Session.writes_record hadd).2, TransactionCache.withEtching_etching]
  | _ => cases h

/-- What a call that etches does to the runes: its row goes to the table, if the name is free, and
to the LRU cache. -/
structure EtchesRune (row : DbRune) (s s' : Session) : Prop where
  /-- The row is added, unless the name is taken. -/
  runes : s'.runes = keepRune s.runes row
  /-- The next number goes up in either case. -/
  number : s'.cache.nextRuneNumber = s.cache.nextRuneNumber + 1
  /-- The row is cached under its id. -/
  cached : ∀ id r, s'.cache.runeCache.peek id = some r →
    (id = row.id ∧ r = row) ∨ (id ≠ row.id ∧ s.cache.runeCache.peek id = some r)
  /-- What waits can still be inserted if the row can. -/
  insertable : s.Insertable → insertRune s.runes row = some (keepRune s.runes row) → s'.Insertable

theorem EtchesRune.of_record {s t : Session} {tx : TransactionCache} {row : DbRune}
    {es : List DbLedgerEntry} (hid : row.id = s.cache.txCache.location.runeId)
    (hadd : (((s.setTxCache tx).pushRune row).setRuneCache
      (s.cache.runeCache.put s.cache.txCache.location.runeId row)).addLedgerEntriesToDbCache es =
        some t) :
    EtchesRune row s (t.setNextRuneNumber (t.cache.nextRuneNumber + 1)) := by
  have hsame := Session.SameRunes.add hadd
  -- the new row is merged behind those that waited
  have hruns : (s.cache.dbCache.runes ++ [row]).foldl keepRune s.db.runes =
      keepRune s.runes row := by
    rw [List.foldl_append, List.foldl_cons, List.foldl_nil, Session.runes]
  refine ⟨hsame.runes.trans hruns, congrArg (· + 1) hsame.number, fun id r hr => ?_,
    fun h hrow => ?_⟩
  · obtain ⟨-, rfl⟩ := Session.addLedgerEntriesToDbCache_eq_some.mp hadd
    rw [hid]
    exact LruCache.peek_put hr
  · refine hsame.insertable ?_
    show (s.cache.dbCache.runes ++ [row]).foldlM insertRune s.db.runes = some _
    rw [show (((s.setTxCache tx).pushRune row).setRuneCache
      (s.cache.runeCache.put s.cache.txCache.location.runeId
        row)).runes = keepRune s.runes row from hruns]
    exact foldlM_append_eq_some.mpr ⟨s.runes, h, foldlM_singleton_eq_some.mpr hrow⟩

/-- **What a call does to the runes**: it etches a rune, or leaves them. -/
theorem Action.runes {env : Environment} {block : Block} {a : Action} {s s' : Session}
    (hrun : a.run env block s = some s') :
    (a.etchedRune s = none ∧ s.SameRunes s') ∨ ∃ row, a.etchedRune s = some row ∧
    EtchesRune row s s' := by
  cases a with
  | beginTransaction tx =>
    obtain ⟨-, rfl⟩ := run_beginTransaction hrun
    exact Or.inl ⟨rfl, .of_eq rfl rfl rfl fun _ _ hr => hr⟩
  | runestone r =>
    cases Option.some.inj hrun
    refine Or.inl ⟨rfl, ?_⟩
    rw [Session.applyRunestone]
    cases r.pointer <;> exact .of_eq rfl rfl rfl fun _ _ hr => hr
  | cenotaph => exact Or.inl ⟨rfl, (Session.SameRunes.setTxCache s _).trans (.add hrun)⟩
  | etching e =>
    rw [Action.run, Session.applyEtching, TransactionCache.applyEtching_eq,
      Session.recordEtching] at hrun
    -- the row waits and is cached before the entry is added
    obtain ⟨t, hadd, hs⟩ := Option.bind_eq_some_iff.mp hrun
    cases Option.some.inj hs
    exact Or.inr ⟨_, rfl, .of_record rfl hadd⟩
  | cenotaphEtching rune =>
    rw [Action.run, Session.applyCenotaphEtching, TransactionCache.applyCenotaphEtching_eq,
      Session.recordEtching] at hrun
    obtain ⟨t, hadd, hs⟩ := Option.bind_eq_some_iff.mp hrun
    cases Option.some.inj hs
    exact Or.inr ⟨_, rfl, .of_record rfl hadd⟩
  | mint id => exact Or.inl ⟨rfl, .mint (Session.applyMint_cases hrun)⟩
  | cenotaphMint id => exact Or.inl ⟨rfl, .mint (Session.applyCenotaphMint_cases hrun)⟩
  | edict e =>
    rw [Action.run, Session.applyEdict] at hrun
    obtain ⟨⟨rune, t⟩, hrune, hrun⟩ := Option.bind_eq_some_iff.mp hrun
    -- the lookup may cache a row that is already known
    have ht := Session.SameRunes.lookup (Session.runeLookup_of_eq_some hrune)
    cases rune with
    | none =>
      cases Option.some.inj hrun
      exact Or.inl ⟨rfl, ht⟩
    | some rune => exact Or.inl ⟨rfl, (ht.trans (.setTxCache _ _)).trans (.add hrun)⟩
  | endTransaction => exact Or.inl ⟨rfl, (Session.SameRunes.setTxCache s _).trans (.add hrun)⟩

/-! ## Two etchings -/

/-- The script `[0x6a]` etches a rune without a name of its own, any other `OP_RETURN` output a rune
that is named like that of the migrations. Both have a premine. -/
def etchEnv : Environment := .plain fun script =>
  some (.runestone
    ⟨[], some ⟨none, some 10, if script = [0x6a] then none else some 2055900680524219742, none,
      none, none, false⟩, none, none⟩)

/-- A transaction that etches a rune under a taken name. -/
def takenNameTx : Transaction := ⟨"0xtaken", 1, [], [[1], [0x6a, 0]]⟩

/-- A transaction that etches a rune under a free name. -/
def freeNameTx : Transaction := ⟨"0xfree", 2, [], [[1], [0x6a]]⟩

/-- A block of given transactions. -/
def etchBlock (txs : List Transaction) : Block := ⟨"0xb1", 840001, 1700000000, txs⟩

end Runehook
