import Runehook.Writes

/-! # What each call can do

The inversion lemmas of the model. `TransactionCache.Step` says what a call does to the
transaction's cache and which entries it generates; `Action.run_step` says that a call of
`index_block` writes exactly these entries. The lookups of runes and mint counts have their own
inversions, `RuneLookup` and `MintsLookup`, which say where the answer came from. -/

namespace Runehook

open Lib

theorem RuneId.eq_placeholder_iff (id : RuneId) :
    (id.block = 0 ∧ id.tx = 0) ↔ id = .placeholder := by
  obtain ⟨block, tx⟩ := id
  simp [RuneId.placeholder]

/-! ## The transaction's cache -/

namespace TransactionCache

/-- An entry of the transaction without output or address. -/
def plainEntry (tx : TransactionCache) (amount : Option Nat) (id : RuneId)
    (operation : DbLedgerOperation) :
    DbLedgerEntry :=
  (newSequentialLedgerEntry tx.location amount id none none none operation tx.nextEventIndex).1

/-- Go on to the next event. -/
def nextEvent (tx : TransactionCache) : TransactionCache :=
  { tx with nextEventIndex := tx.nextEventIndex + 1 }

/-- The cache after an etching: the premine, if there is one, is input to the transaction. -/
def withEtching (tx : TransactionCache) (rune : DbRune) (premine : Option Nat) : TransactionCache :=
  let tx := { tx with etching := some rune }
  match premine with
  | some premine => (tx.addInputRunes tx.location.runeId ⟨none, premine⟩).nextEvent
  | none => tx.nextEvent

/-- What a call can do to the cache of the transaction, the entries that it generates and the
runes that it records. -/
inductive Step (env : Environment) (tx : TransactionCache) :
    Action → List DbLedgerEntry → List DbRune → TransactionCache → Prop
  /-- The pointer of the runestone counts, if it has one. -/
  | runestone (r : Runestone) :
    Step env tx (.runestone r) [] [] { tx with outputPointer := r.pointer.or tx.outputPointer }
  /-- What came in is burned. -/
  | cenotaph : Step env tx .cenotaph (tx.applyCenotaphInputBurn env).2 []
      (tx.applyCenotaphInputBurn env).1
  /-- A rune is etched, and its premine comes in. -/
  | etching (e : Etching) (number : Nat) :
    Step env tx (.etching e) [tx.plainEntry none tx.location.runeId .etching]
      [.fromEtching e number tx.location]
      (tx.withEtching (.fromEtching e number tx.location) e.premine)
  /-- A rune without premine is etched. -/
  | cenotaphEtching (rune : Rune) (number : Nat) :
    Step env tx (.cenotaphEtching rune) [tx.plainEntry none tx.location.runeId .etching]
      [.fromCenotaphEtching rune number tx.location]
      (tx.withEtching (.fromCenotaphEtching rune number tx.location) none)
  /-- An amount comes in. -/
  | mint {id : RuneId} {rune : DbRune} {totalMints amount : Nat}
      (hmint : isRuneMintable rune totalMints tx.location)
      (hamount : rune.termsAmount = some amount) :
    Step env tx (.mint id) [tx.plainEntry (some amount) id .mint] []
      (tx.addInputRunes id ⟨none, amount⟩).nextEvent
  /-- The mint is not accepted. -/
  | noMint (id : RuneId) : Step env tx (.mint id) [] [] tx
  /-- An amount is recorded as burned. -/
  | cenotaphMint {id : RuneId} {rune : DbRune} {totalMints amount : Nat}
      (hmint : isRuneMintable rune totalMints tx.location)
      (hamount : rune.termsAmount = some amount) :
    Step env tx (.cenotaphMint id) [tx.plainEntry (some amount) id .burn] [] tx.nextEvent
  /-- The mint is not accepted. -/
  | noCenotaphMint (id : RuneId) : Step env tx (.cenotaphMint id) [] [] tx
  /-- The edict is carried out. -/
  | edict (e : Edict) : Step env tx (.edict e) (tx.applyEdict env e).2 [] (tx.applyEdict env e).1
  /-- The edict is about no rune of the transaction. -/
  | noEdict (e : Edict) : Step env tx (.edict e) [] [] tx
  /-- What is left is allocated. -/
  | endTransaction : Step env tx .endTransaction (tx.allocateRemainingBalances env).2 []
      (tx.allocateRemainingBalances env).1

theorem applyEtching_eq (tx : TransactionCache) (e : Etching) (number : Nat) :
    tx.applyEtching e number = (tx.withEtching (.fromEtching e number tx.location) e.premine,
      tx.location.runeId, .fromEtching e number tx.location,
      tx.plainEntry none tx.location.runeId .etching) := by
  cases h : e.premine <;>
    simp [applyEtching, withEtching, h, etchingEntry, newSequentialLedgerEntry,
      nextEvent, plainEntry, addInputRunes]

theorem applyCenotaphEtching_eq (tx : TransactionCache) (rune : Rune) (number : Nat) :
    tx.applyCenotaphEtching rune number =
      (tx.withEtching (.fromCenotaphEtching rune number tx.location) none,
        tx.location.runeId, .fromCenotaphEtching rune number tx.location,
        tx.plainEntry none tx.location.runeId .etching) := rfl

/-- A mint of the transaction's cache is refused, and changes nothing, or it is accepted. -/
theorem applyMint_cases (tx : TransactionCache) (id : RuneId) (totalMints : Nat) (rune : DbRune) :
    (isRuneMintable rune totalMints tx.location = false ∧
      tx.applyMint id totalMints rune = (tx, none)) ∨
      (isRuneMintable rune totalMints tx.location = true ∧ ∃ amount,
        rune.termsAmount = some amount ∧
        tx.applyMint id totalMints rune = ((tx.addInputRunes id ⟨none, amount⟩).nextEvent,
          some (tx.plainEntry (some amount) id .mint))) := by
  by_cases h : isRuneMintable rune totalMints tx.location
  · refine Or.inr ⟨h, _, Option.some_get (termsAmount_isSome_of_mintable h) |>.symm, ?_⟩
    rw [applyMint, dif_pos h]
    rfl
  · refine Or.inl ⟨Bool.eq_false_iff.mpr h, ?_⟩
    rw [applyMint, dif_neg h]

theorem applyCenotaphMint_cases (tx : TransactionCache) (id : RuneId) (totalMints : Nat)
    (rune : DbRune) :
    (isRuneMintable rune totalMints tx.location = false ∧
        tx.applyCenotaphMint id totalMints rune = (tx, none)) ∨
      (isRuneMintable rune totalMints tx.location = true ∧ ∃ amount,
        rune.termsAmount = some amount ∧ tx.applyCenotaphMint id totalMints rune =
          (tx.nextEvent, some (tx.plainEntry (some amount) id .burn))) := by
  by_cases h : isRuneMintable rune totalMints tx.location
  · refine Or.inr ⟨h, _, Option.some_get (termsAmount_isSome_of_mintable h) |>.symm, ?_⟩
    rw [applyCenotaphMint, dif_pos h]
    rfl
  · refine Or.inl ⟨Bool.eq_false_iff.mpr h, ?_⟩
    rw [applyCenotaphMint, dif_neg h]

end TransactionCache

/-! ## Lookups -/

namespace Session

/-- Where `get_cached_rune_by_rune_id` finds a rune, and the session that it leaves. -/
inductive RuneLookup (id : RuneId) (s : Session) : Option DbRune → Session → Prop
  /-- The placeholder means the rune of the transaction. -/
  | etching (hid : id = .placeholder) : RuneLookup id s s.cache.txCache.etching s
  /-- The LRU cache has it. -/
  | hit {rune : DbRune} (hid : id ≠ .placeholder) (hpeek : s.cache.runeCache.peek id = some rune) :
    RuneLookup id s (some rune) (s.setRuneCache (s.cache.runeCache.get id).2)
  /-- Neither the LRU cache nor the table has it. -/
  | unknown {t : Session} (hid : id ≠ .placeholder) (hpeek : s.cache.runeCache.peek id = none)
      (hflush : s.flush = some t) (hdb : pgGetRuneById id t.db = none) : RuneLookup id s none t
  /-- The table has it, and the LRU cache gets it. -/
  | miss {t : Session} {rune : DbRune} (hid : id ≠ .placeholder)
      (hpeek : s.cache.runeCache.peek id = none) (hflush : s.flush = some t)
      (hdb : pgGetRuneById id t.db = some rune) :
    RuneLookup id s (some rune) (t.setRuneCache (t.cache.runeCache.put id rune))

/-- Where `get_cached_rune_total_mints` finds a count, and the session that it leaves. -/
inductive MintsLookup (id : RuneId) (s : Session) : Option Nat → Session → Prop
  /-- The placeholder means nothing. -/
  | noEtching (hid : s.realRuneId id = none) : MintsLookup id s none s
  /-- The LRU cache has it. -/
  | hit {real : RuneId} {total : Nat} (hid : s.realRuneId id = some real)
      (hpeek : s.cache.runeTotalMintsCache.peek real = some total) :
    MintsLookup id s (some total)
    (s.setRuneTotalMintsCache (s.cache.runeTotalMintsCache.get real).2)
  /-- Neither the LRU cache nor the table has it. -/
  | unknown {t : Session} {real : RuneId} (hid : s.realRuneId id = some real)
      (hpeek : s.cache.runeTotalMintsCache.peek real = none) (hflush : s.flush = some t)
      (hdb : pgGetRuneTotalMints id t.db = none) : MintsLookup id s none t
  /-- The table has it, and the LRU cache gets it. -/
  | miss {t : Session} {real : RuneId} {total : Nat} (hid : s.realRuneId id = some real)
      (hpeek : s.cache.runeTotalMintsCache.peek real = none) (hflush : s.flush = some t)
      (hdb : pgGetRuneTotalMints id t.db = some total) :
    MintsLookup id s (some total)
    (t.setRuneTotalMintsCache (t.cache.runeTotalMintsCache.put id total))

theorem runeLookup_of_eq_some {id : RuneId} {s s' : Session} {rune : Option DbRune}
    (h : s.getCachedRuneByRuneId id = some (rune, s')) : RuneLookup id s rune s' := by
  rw [getCachedRuneByRuneId] at h
  by_cases hid : id.block = 0 ∧ id.tx = 0
  · rw [if_pos hid] at h
    cases Option.some.inj h
    exact .etching ((RuneId.eq_placeholder_iff id).mp hid)
  · have hne : id ≠ .placeholder := fun he => hid ((RuneId.eq_placeholder_iff id).mpr he)
    rw [if_neg hid, LruCache.get] at h
    cases hpeek : s.cache.runeCache.peek id with
    | some cachedRune =>
      rw [hpeek] at h
      cases Option.some.inj h
      exact .hit hne hpeek
    | none =>
      rw [hpeek] at h
      obtain ⟨t, hflush, ht⟩ := Option.bind_eq_some_iff.mp h
      cases hdb : pgGetRuneById id t.db with
      | none =>
        rw [hdb] at ht
        cases Option.some.inj ht
        exact .unknown hne hpeek hflush hdb
      | some dbRune =>
        rw [hdb] at ht
        cases Option.some.inj ht
        exact .miss hne hpeek hflush hdb

theorem mintsLookup_of_eq_some {id : RuneId} {s s' : Session} {total : Option Nat}
    (h : s.getCachedRuneTotalMints id = some (total, s')) : MintsLookup id s total s' := by
  rw [getCachedRuneTotalMints] at h
  cases hid : s.realRuneId id with
  | none =>
    rw [hid] at h
    cases Option.some.inj h
    exact .noEtching hid
  | some real =>
    rw [hid] at h
    dsimp only at h
    rw [LruCache.get] at h
    cases hpeek : s.cache.runeTotalMintsCache.peek real with
    -- a cached total is taken as it is
    | some n =>
      rw [hpeek] at h
      cases Option.some.inj h
      exact .hit hid hpeek
    | none =>
      rw [hpeek] at h
      -- a miss flushes before it asks the table
      obtain ⟨t, hflush, ht⟩ := Option.bind_eq_some_iff.mp h
      cases hdb : pgGetRuneTotalMints id t.db with
      | none =>
        rw [hdb] at ht
        cases Option.some.inj ht
        exact .unknown hid hpeek hflush hdb
      | some n =>
        rw [hdb] at ht
        cases Option.some.inj ht
        exact .miss hid hpeek hflush hdb

theorem Quiet.setTxCache (s : Session) (tx : TransactionCache) : s.Quiet (s.setTxCache tx) :=
  ⟨rfl, rfl, fun _ => rfl, rfl, rfl⟩

theorem Quiet.setRuneCache (s : Session) (c : LruCache RuneId DbRune) :
    s.Quiet (s.setRuneCache c) :=
  ⟨rfl, rfl, fun _ => rfl, rfl, rfl⟩

theorem Quiet.setRuneTotalMintsCache (s : Session) (c : LruCache RuneId Nat) :
    s.Quiet (s.setRuneTotalMintsCache c) :=
  ⟨rfl, rfl, fun _ => rfl, rfl, rfl⟩

theorem Quiet.setNextRuneNumber (s : Session) (n : Nat) : s.Quiet (s.setNextRuneNumber n) :=
  ⟨rfl, rfl, fun _ => rfl, rfl, rfl⟩

/-- A lookup of a rune writes no entry. -/
theorem RuneLookup.writes {id : RuneId} {s s' : Session} {rune : Option DbRune}
    (h : RuneLookup id s rune s') : s.Writes [] [] s' := by
  cases h with
  | etching => exact .quiet (.refl s)
  | hit => exact .quiet (.setRuneCache s _)
  | unknown _ _ hflush => exact .flush hflush
  | miss _ _ hflush => exact (Writes.flush hflush).nil_trans (.quiet (.setRuneCache _ _))

/-- A lookup of a mint count writes no entry. -/
theorem MintsLookup.writes {id : RuneId} {s s' : Session} {total : Option Nat}
    (h : MintsLookup id s total s') : s.Writes [] [] s' := by
  cases h with
  | noEtching => exact .quiet (.refl s)
  | hit => exact .quiet (.setRuneTotalMintsCache s _)
  | unknown _ _ hflush => exact .flush hflush
  | miss _ _ hflush => exact (Writes.flush hflush).nil_trans (.quiet (.setRuneTotalMintsCache _ _))

theorem flush_txCache {s t : Session} (h : s.flush = some t) :
    t.cache.txCache = s.cache.txCache := by
  obtain ⟨db, -, rfl⟩ := flush_eq_some.mp h
  rfl

theorem RuneLookup.txCache_eq {id : RuneId} {s s' : Session} {rune : Option DbRune}
    (h : RuneLookup id s rune s') : s'.cache.txCache = s.cache.txCache := by
  cases h with
  | etching => rfl
  | hit => rfl
  | unknown _ _ hflush => exact flush_txCache hflush
  | miss _ _ hflush => exact (flush_txCache hflush :)

theorem MintsLookup.txCache_eq {id : RuneId} {s s' : Session} {total : Option Nat}
    (h : MintsLookup id s total s') : s'.cache.txCache = s.cache.txCache := by
  cases h with
  | noEtching => rfl
  | hit => rfl
  | unknown _ _ hflush => exact flush_txCache hflush
  | miss _ _ hflush => exact (flush_txCache hflush :)

/-! ## Mints -/

/-- A mint of a rune would be accepted: the rune is known, and its terms allow the mint. -/
def acceptsMint (id : RuneId) (s : Session) : Bool :=
  match s.getCachedRuneByRuneId id with
  | some (some dbRune, t) =>
    match t.getCachedRuneTotalMints id with
    | some (totalMints, u) => isRuneMintable dbRune (totalMints.getD 0) u.cache.txCache.location
    | none => false
  | _ => false

/-- What `apply_mint` and `apply_cenotaph_mint` can do: the rune is unknown, the mint is refused, or
it is accepted. -/
inductive MintOutcome
    (apply : TransactionCache → RuneId → Nat → DbRune → TransactionCache × Option DbLedgerEntry)
    (id : RuneId) (s : Session) : Session → Prop
  /-- The rune is not found. -/
  | unknown {t : Session} (haccepts : s.acceptsMint id = false) (hrune : RuneLookup id s none t) :
    MintOutcome apply id s t
  /-- The terms do not allow the mint. -/
  | refused {t u : Session} {rune : DbRune} {total : Option Nat}
      (haccepts : s.acceptsMint id = false)
      (hrune : RuneLookup id s (some rune) t) (htotal : MintsLookup id t total u)
      (hnone : (apply u.cache.txCache id (total.getD 0) rune).2 = none) :
    MintOutcome apply id s (u.setTxCache (apply u.cache.txCache id (total.getD 0) rune).1)
  /-- The entry is added and the count goes up. -/
  | accepted {t u v : Session} {rune : DbRune} {total : Option Nat} {entry : DbLedgerEntry}
      (haccepts : s.acceptsMint id = true) (hrune : RuneLookup id s (some rune) t)
      (htotal : MintsLookup id t total u)
      (hmint : isRuneMintable rune (total.getD 0) u.cache.txCache.location)
      (hsome : (apply u.cache.txCache id (total.getD 0) rune).2 = some entry)
      (hadd : (u.setTxCache
        (apply u.cache.txCache id (total.getD 0) rune).1).addLedgerEntriesToDbCache
        [entry] = some v) :
    MintOutcome apply id s (v.bumpTotalMints id)

theorem applyMintWith_cases
    {apply : TransactionCache → RuneId → Nat → DbRune → TransactionCache × Option DbLedgerEntry}
    {id : RuneId} {s s' : Session}
    (happly : ∀ tx total rune, (apply tx id total rune).2.isSome =
      isRuneMintable rune total tx.location)
    (h : s.applyMintWith apply id = some s') : MintOutcome apply id s s' := by
  rw [applyMintWith] at h
  obtain ⟨⟨rune, t⟩, hrune, h⟩ := Option.bind_eq_some_iff.mp h
  cases rune with
  | none =>
    cases Option.some.inj h
    have haccepts : s.acceptsMint id = false := by simp only [acceptsMint, hrune]
    exact .unknown haccepts (runeLookup_of_eq_some hrune)
  | some dbRune =>
    obtain ⟨⟨total, u⟩, htotal, h⟩ := Option.bind_eq_some_iff.mp h
    -- the outcome of the mint is that of the transaction cache for what the lookups found
    have haccepts :
        s.acceptsMint id = (apply u.cache.txCache id (total.getD 0) dbRune).2.isSome := by
      simp only [acceptsMint, hrune, htotal, happly]
    dsimp only at h
    cases hentry : (apply u.cache.txCache id (total.getD 0) dbRune).2 with
    | none =>
      rw [hentry] at h haccepts
      cases Option.some.inj h
      exact .refused haccepts (runeLookup_of_eq_some hrune) (mintsLookup_of_eq_some htotal) hentry
    | some entry =>
      have hmint := happly u.cache.txCache (total.getD 0) dbRune
      rw [hentry] at h haccepts hmint
      obtain ⟨v, hv, h⟩ := Option.bind_eq_some_iff.mp h
      cases Option.some.inj h
      exact .accepted haccepts (runeLookup_of_eq_some hrune)
        (mintsLookup_of_eq_some htotal) hmint.symm hentry hv

theorem applyMint_cases {id : RuneId} {s s' : Session} (h : s.applyMint id = some s') :
    MintOutcome TransactionCache.applyMint id s s' := by
  refine applyMintWith_cases (fun tx total rune => ?_) h
  obtain ⟨hmint, heq⟩ | ⟨hmint, _, _, heq⟩ :=
    tx.applyMint_cases id total rune <;> rw [heq, hmint] <;> rfl

theorem applyCenotaphMint_cases {id : RuneId} {s s' : Session}
    (h : s.applyCenotaphMint id = some s') :
    MintOutcome TransactionCache.applyCenotaphMint id s s' := by
  refine applyMintWith_cases (fun tx total rune => ?_) h
  obtain ⟨hmint, heq⟩ | ⟨hmint, _, _, heq⟩ := tx.applyCenotaphMint_cases id total rune <;>
    rw [heq, hmint] <;> rfl

theorem addLedgerEntries_txCache {s s' : Session} {es : List DbLedgerEntry}
    (h : s.addLedgerEntriesToDbCache es = some s') : s'.cache.txCache = s.cache.txCache := by
  obtain ⟨-, rfl⟩ := addLedgerEntriesToDbCache_eq_some.mp h
  rfl

/-- Putting another transaction cache in place and adding entries. -/
theorem writes_add {s s' : Session} {tx : TransactionCache} {es : List DbLedgerEntry}
    (h : (s.setTxCache tx).addLedgerEntriesToDbCache es = some s') :
    s.Writes es [] s' ∧ s'.cache.txCache = tx :=
  ⟨(Writes.quiet (.setTxCache s tx)).nil_trans (.add h), addLedgerEntries_txCache h⟩

/-- Recording an etching writes its entry. -/
theorem writes_record {s t : Session} {tx : TransactionCache} {rune : DbRune}
    {c : LruCache RuneId DbRune} {es : List DbLedgerEntry} {number : Nat}
    (h : (((s.setTxCache tx).pushRune rune).setRuneCache c).addLedgerEntriesToDbCache es = some t) :
    s.Writes es [rune] (t.setNextRuneNumber number) ∧
    (t.setNextRuneNumber number).cache.txCache = tx := by
  refine ⟨?_, addLedgerEntries_txCache h⟩
  have hbefore : s.Writes [] [rune] (((s.setTxCache tx).pushRune rune).setRuneCache c) :=
    (Writes.quiet (.setTxCache s tx)).nil_trans
      ((Writes.pushRune _ rune).trans_nil (.quiet (.setRuneCache _ c)))
  exact (hbefore.trans (.add h)).trans_nil (.quiet (.setNextRuneNumber t number))

theorem MintOutcome.writes
    {apply : TransactionCache → RuneId → Nat → DbRune → TransactionCache × Option DbLedgerEntry}
    {id : RuneId} {s s' : Session} (h : MintOutcome apply id s s') :
    ∃ es, s.Writes es [] s' ∧ ((es = [] ∧ s'.cache.txCache = s.cache.txCache) ∨
      ∃ rune total, es = (apply s.cache.txCache id total rune).2.toList ∧
        s'.cache.txCache = (apply s.cache.txCache id total rune).1) := by
  cases h with
  | unknown _ hrune => exact ⟨[], hrune.writes, Or.inl ⟨rfl, hrune.txCache_eq⟩⟩
  | @refused t u rune total _ hrune htotal hnone =>
    -- the lookups write nothing
    have hwrites : s.Writes [] [] u := hrune.writes.nil_trans htotal.writes
    have htx : u.cache.txCache = s.cache.txCache := htotal.txCache_eq.trans hrune.txCache_eq
    rw [htx] at hnone ⊢
    exact ⟨[], hwrites.nil_trans (.quiet (.setTxCache u _)),
      Or.inr ⟨rune, total.getD 0, by rw [hnone]; rfl, rfl⟩⟩
  | @accepted t u v rune total entry _ hrune htotal _ hsome hadd =>
    -- the lookups write nothing, and the entry is added after them
    have hwrites : s.Writes [] [] u := hrune.writes.nil_trans htotal.writes
    have htx : u.cache.txCache = s.cache.txCache := htotal.txCache_eq.trans hrune.txCache_eq
    rw [htx] at hsome hadd
    obtain ⟨hv, hvtx⟩ := writes_add hadd
    exact ⟨[entry], (hwrites.nil_trans hv).trans_nil (.quiet (.setRuneTotalMintsCache v _)),
      Or.inr ⟨rune, total.getD 0, by rw [hsome]; rfl, hvtx⟩⟩

end Session

/-! ## The calls -/

/-- **What a call does.** A call on the cache of an open transaction writes the entries that the
transaction's cache generates for it. -/
theorem Action.run_step {env : Environment} {block : Block} {a : Action} {s s' : Session}
    (ha : ∀ tx, a ≠ .beginTransaction tx) (h : a.run env block s = some s') :
    ∃ es rs, s.Writes es rs s' ∧ s.cache.txCache.Step env a es rs s'.cache.txCache := by
  cases a with
  | beginTransaction tx => exact absurd rfl (ha tx)
  | runestone r =>
    cases Option.some.inj h
    refine ⟨[], [], ?_, ?_⟩
    · rw [Session.applyRunestone]
      cases r.pointer with
      | none => exact .quiet (.refl s)
      | some p => exact .quiet (.setTxCache s _)
    · have hstep : s.cache.txCache.Step env (.runestone r) [] [] _ := .runestone r
      cases hp : r.pointer <;> simp only [hp] at hstep <;>
        simpa [Session.applyRunestone, hp, Session.setTxCache] using hstep
  | cenotaph =>
    obtain ⟨hwrites, htx⟩ := Session.writes_add h
    exact ⟨_, _, hwrites, htx ▸ .cenotaph⟩
  | etching e =>
    rw [Action.run, Session.applyEtching, TransactionCache.applyEtching_eq,
      Session.recordEtching] at h
    -- an etching writes its entry and its row, then counts the next number
    obtain ⟨t, hadd, hs⟩ := Option.bind_eq_some_iff.mp h
    cases Option.some.inj hs
    obtain ⟨hwrites, htx⟩ := Session.writes_record hadd
    exact ⟨_, _, hwrites, htx ▸ .etching e _⟩
  | cenotaphEtching rune =>
    rw [Action.run, Session.applyCenotaphEtching, TransactionCache.applyCenotaphEtching_eq,
      Session.recordEtching] at h
    obtain ⟨t, hadd, hs⟩ := Option.bind_eq_some_iff.mp h
    cases Option.some.inj hs
    obtain ⟨hwrites, htx⟩ := Session.writes_record hadd
    exact ⟨_, _, hwrites, htx ▸ .cenotaphEtching rune _⟩
  | mint id =>
    obtain ⟨es, hwrites, ⟨rfl, htx⟩ | ⟨rune, total, rfl, htx⟩⟩ := (Session.applyMint_cases h).writes
    · exact ⟨[], [], hwrites, htx ▸ .noMint id⟩
    · refine ⟨_, _, hwrites, ?_⟩
      rw [htx]
      -- the outcome of the lookups leaves the two branches of the transaction cache
      obtain ⟨-, heq⟩ | ⟨hmint, amount, hamount, heq⟩ :=
        s.cache.txCache.applyMint_cases id total rune
      · rw [heq]
        exact .noMint id
      · rw [heq]
        exact .mint hmint hamount
  | cenotaphMint id =>
    obtain ⟨es, hwrites, ⟨rfl, htx⟩ | ⟨rune, total, rfl, htx⟩⟩ :=
      (Session.applyCenotaphMint_cases h).writes
    · exact ⟨[], [], hwrites, htx ▸ .noCenotaphMint id⟩
    · refine ⟨_, _, hwrites, ?_⟩
      rw [htx]
      obtain ⟨-, heq⟩ | ⟨hmint, amount, hamount, heq⟩ :=
        s.cache.txCache.applyCenotaphMint_cases id total rune
      · rw [heq]
        exact .noCenotaphMint id
      · rw [heq]
        exact .cenotaphMint hmint hamount
  | edict e =>
    rw [Action.run, Session.applyEdict] at h
    obtain ⟨⟨rune, t⟩, hrune, h⟩ := Option.bind_eq_some_iff.mp h
    -- the lookup of the rune writes nothing, with or without a result
    have hlook := Session.runeLookup_of_eq_some hrune
    cases rune with
    | none =>
      cases Option.some.inj h
      exact ⟨[], [], hlook.writes, hlook.txCache_eq ▸ .noEdict e⟩
    | some rune =>
      obtain ⟨hwrites, htx⟩ := Session.writes_add h
      rw [hlook.txCache_eq] at hwrites htx
      exact ⟨_, _, hlook.writes.nil_trans hwrites, htx ▸ .edict e⟩
  | endTransaction =>
    obtain ⟨hwrites, htx⟩ := Session.writes_add h
    exact ⟨_, _, hwrites, htx ▸ .endTransaction⟩

end Runehook
