import Runehook.Accounting
import Runehook.MintCap
import Runehook.Readings
import Runehook.Registered
import Runehook.RunesLedger

/-! # Regular runs

What the protocol promises of the transactions of a chain (`Stage.Regular`), and what then holds of
every lookup. A rune is etched under a name and an id of its own, nobody mints the rune of the same
transaction, no cenotaph mints, an edict names an output that exists, and sums fit. On such a run
the caches cannot be stale (`OnRegularRun`): what a mint or an edict looks up is what the tables say
(`OnRegularRun.readMint_eq`, `OnRegularRun.findsRune`). -/

namespace Runehook

open Lib

/-! ## Faces -/

/-- A rune with the flag has no terms: the flag alone forbids no mint. -/
def DbRune.FlaggedWithoutTerms (rune : DbRune) : Prop :=
  rune.cenotaph = true → rune.termsAmount = none

/-- A mint is decided by the face. -/
theorem DbRune.mintable_face {rune : DbRune} (h : rune.FlaggedWithoutTerms) (totalMints : Nat)
    (location : TransactionLocation) :
    isRuneMintable rune.face totalMints location = isRuneMintable rune totalMints location := by
  cases hflag : rune.cenotaph with
  | false =>
    unfold isRuneMintable
    rw [hflag]
    rfl
  | true => simp [isRuneMintable, DbRune.face, h hflag]

/-- The rune that an action etches has terms only without the flag. -/
theorem Action.etchedRune_flaggedWithoutTerms {s : Session} {a : Action} {row : DbRune}
    (h : a.etchedRune s = some row) : row.FlaggedWithoutTerms := by
  cases a with
  | etching e =>
    cases Option.some.inj h
    exact fun hflag => absurd hflag Bool.false_ne_true
  | cenotaphEtching rune =>
    cases Option.some.inj h
    exact fun _ => rfl
  | _ => cases h

/-! ## What is promised -/

/-- **What the protocol promises of a stage.** -/
structure Stage.Regular (s : Session) (stage : Stage) : Prop where
  /-- What is etched has a name of its own, and not the id of the rune of the migrations. -/
  etches : ∀ row, stage.etchedRune s = some row →
    row.id ≠ .placeholder ∧ row.id ≠ uncommonGoods.id ∧ nameTaken s.runes row.name = false
  /-- The rune of the same transaction is not minted. -/
  mints : ∀ id, stage.mintId = some id →
    (id = .placeholder ∨ ∃ r, s.cache.txCache.etching = some r ∧ r.id = id) →
    s.acceptsMint id = false
  /-- No mint of a cenotaph is accepted. -/
  cenotaphMints : ∀ id, stage.cenotaphMintId = some id → s.acceptsMint id = false

namespace Stage.Regular

variable {s : Session} {stage : Stage}

theorem countsMints (h : stage.Regular s) : stage.CountsMints s where
  resolves := by
    cases stage with
    | call block a =>
      cases a with
      | mint id | cenotaphMint id => exact fun hid => h.mints id rfl (.inl hid)
      | etching | cenotaphEtching => exact (h.etches _ rfl).1
      | _ => trivial
    | _ => trivial
  noCenotaphMint := h.cenotaphMints
  etching hetches := by
    rw [← Stage.etchedRune_isSome s stage] at hetches
    obtain ⟨row, hrow⟩ := Option.isSome_iff_exists.mp hetches
    cases stage with
    | call block a => exact (Action.etchedRow hrow).id ▸ (h.etches row hrow).2.1
    | _ => cases hrow

theorem registers (h : stage.Regular s) : stage.registers s = true := by
  cases stage with
  | call block a =>
    cases a with
    | mint id | cenotaphMint id =>
      by_cases hid : id = .placeholder
      · simp [registers, h.mints id rfl (.inl hid)]
      · simp [registers, hid]
    | etching | cenotaphEtching => simpa [registers, Action.etchedRune] using (h.etches _ rfl).2.2
    | _ => rfl
  | _ => rfl

end Stage.Regular

/-- A rune that is etched has an id of its own, if it is not that of the migrations. -/
theorem RunesKnown.newId {c : Cursor} {recorded : List DbRune} {s : Session} {stage : Stage}
    {row : DbRune} (h : RunesKnown c recorded s) (hfits : stage.Fits c)
    (hrow : stage.etchedRune s = some row) (hgoods : row.id ≠ uncommonGoods.id) :
    ∀ r ∈ s.runes, r.id ≠ row.id := by
  cases stage with
  | call block a =>
    intro r hr hid
    -- the id of the transaction has not been etched before
    have hnew : row.id ∉ c.etched := by
      rw [(Action.etchedRow hrow).id, h.location]
      exact hfits.2.2.1 ((a.etchedRune_isSome s).symm.trans (Option.isSome_of_mem hrow))
    -- every known row is one of the recorded ones
    have hknown : ∀ r ∈ s.runes, r.IsOf (uncommonGoods :: recorded) := by
      have hkeep : ∀ rows runes : List DbRune, (∀ r ∈ rows, r.IsOf (uncommonGoods :: recorded)) →
          (∀ r ∈ runes, r.IsOf (uncommonGoods :: recorded)) →
          ∀ r ∈ rows.foldl keepRune runes, r.IsOf (uncommonGoods :: recorded) := by
        intro rows
        induction rows with
        | nil => exact fun _ _ hruns => hruns
        | cons row rows ih =>
          intro runes hrows hruns
          obtain ⟨⟨r₀, hr₀, heq⟩, hrows⟩ := List.forall_mem_cons.mp hrows
          refine ih _ hrows ?_
          unfold keepRune
          split
          · exact hruns
          · refine List.forall_mem_append.mpr ⟨hruns, List.forall_mem_singleton.mpr ⟨r₀, hr₀, ?_⟩⟩
            rw [heq]
            rfl
      exact hkeep _ _ h.waiting h.stored
    obtain ⟨r₀, hr₀, heq⟩ := hknown r hr
    have hid₀ : r₀.id = row.id := by rw [← hid, heq]
    rcases List.mem_cons.mp hr₀ with rfl | hr₀
    · exact hgoods hid₀.symm
    · exact hnew (h.ids ▸ hid₀ ▸ List.mem_map_of_mem hr₀)
  | _ => cases hrow

/-! ## The cache of runes -/

/-- The cached runes show the faces of the rows of the table, where no row has the flag and each id
has one row. -/
structure CachesFaces (s : Session) : Prop where
  /-- No row has the flag. -/
  stored : ∀ r ∈ s.runes, r.cenotaph = false
  /-- Each id has one row. -/
  ids : (s.runes.map DbRune.id).Nodup
  /-- A cached rune has the face of its row, and no terms if it has the flag. -/
  cached : ∀ id r, s.cache.runeCache.peek id = some r →
    (s.runeById id).map DbRune.face = some r.face ∧ r.FlaggedWithoutTerms

namespace CachesFaces

variable {s s' : Session}

theorem of_empty {network : Network} (h : s.cache.Empty network)
    (hdb : ∀ r ∈ s.db.runes, r.cenotaph = false) (hids : (s.db.runes.map DbRune.id).Nodup) :
    CachesFaces s where
  stored := by rwa [Session.runes_of_rest h.dbCache]
  ids := by rwa [Session.runes_of_rest h.dbCache]
  cached := by
    intro id r hr
    rw [h.runes] at hr
    cases hr

/-- A row of the table shows its own face. -/
theorem of_row (h : CachesFaces s) {id : RuneId} {r : DbRune} (hr : s.runeById id = some r) :
    (s.runeById id).map DbRune.face = some r.face ∧ r.FlaggedWithoutTerms := by
  refine ⟨by rw [hr, Option.map_some], fun hflag => ?_⟩
  rw [h.stored r (List.mem_of_find?_eq_some hr)] at hflag
  cases hflag

/-- A row of the table is the one of its id. -/
theorem runeById_of_mem (h : CachesFaces s) {r : DbRune} (hr : r ∈ s.runes) :
    s.runeById r.id = some r := by
  cases hfound : s.runeById r.id with
  | none =>
    exact absurd rfl (of_decide_eq_false
      (Bool.eq_false_iff.mpr (List.find?_eq_none.mp hfound r hr)))
  | some r' =>
    have hid : decide (r'.id = r.id) = true :=
      List.find?_some (p := fun r' : DbRune => r'.id = r.id) hfound
    rw [List.inj_on_of_nodup_map h.ids (List.mem_of_find?_eq_some hfound) hr
      (of_decide_eq_true hid)]

theorem same (h : CachesFaces s) (hsame : s.SameRunes s') : CachesFaces s' where
  stored := by
    rw [hsame.runes]
    exact h.stored
  ids := by
    rw [hsame.runes]
    exact h.ids
  cached := by
    intro id r hr
    rw [Session.runeById, hsame.runes]
    rcases hsame.cached id r hr with hr | hr
    · exact h.cached id r hr
    · exact h.of_row hr

/-- The row of a rune that is etched under a name and an id of its own is found under its id, and
the others as before. -/
theorem runeById_of_etches {row : DbRune} (hfree : nameTaken s.runes row.name = false)
    (hid : ∀ r ∈ s.runes, r.id ≠ row.id) (hetches : EtchesRune row s s') (id : RuneId) :
    s'.runes = s.runes ++ [row.stored] ∧
      s'.runeById id = if row.id = id then some row.stored else s.runeById id := by
  have hruns := hetches.runes.trans (keepRune_of_free hfree)
  refine ⟨hruns, ?_⟩
  unfold Session.runeById
  rw [hruns, List.find?_append]
  split
  · rename_i heq
    subst heq
    rw [List.find?_eq_none.mpr fun r' hr' => by simpa using hid r' hr', Option.none_or]
    simp [DbRune.stored]
  · rename_i hne
    have hother : ¬ decide (row.stored.id = id) = true := fun h => hne (of_decide_eq_true h)
    rw [List.find?_singleton, if_neg hother, Option.or_none]

theorem etches (h : CachesFaces s) {row : DbRune} (hterms : row.FlaggedWithoutTerms)
    (hfree : nameTaken s.runes row.name = false) (hid : ∀ r ∈ s.runes, r.id ≠ row.id)
    (hetches : EtchesRune row s s') :
    CachesFaces s' := by
  have hfound := runeById_of_etches hfree hid hetches
  refine ⟨?_, ?_, fun id r hr => ?_⟩
  · rw [(hfound row.id).1]
    exact List.forall_mem_append.mpr ⟨h.stored, List.forall_mem_singleton.mpr rfl⟩
  -- the id is new, so the ids stay distinct
  · rw [(hfound row.id).1, List.map_append]
    refine List.nodup_append.mpr ⟨h.ids, List.nodup_singleton _, ?_⟩
    rintro i hi j hj rfl
    obtain ⟨r, hr, rfl⟩ := List.mem_map.mp hi
    exact hid r hr (List.mem_singleton.mp hj)
  · rw [(hfound id).2]
    rcases hetches.cached id r hr with ⟨rfl, rfl⟩ | ⟨hne, hold⟩
    · rw [if_pos rfl]
      exact ⟨rfl, hterms⟩
    · rw [if_neg (Ne.symm hne)]
      exact h.cached id r hold

/-- What a lookup finds under an id shows the face of the row. -/
theorem lookup (h : CachesFaces s) {id : RuneId} (hid : id ≠ .placeholder) {rune : Option DbRune}
    (hlook : s.RuneLookup id rune s') :
    rune.map DbRune.face = (s.runeById id).map DbRune.face ∧ ∀ r ∈ rune, r.FlaggedWithoutTerms := by
  cases hlook with
  | etching heq => exact absurd heq hid
  | hit _ hpeek =>
    obtain ⟨hface, hterms⟩ := h.cached id _ hpeek
    refine ⟨hface.symm, fun r hr => ?_⟩
    rw [← Option.some.inj hr]
    exact hterms
  | unknown _ _ hflush hdb =>
    rw [← Session.pgGetRuneById_flush hflush, hdb]
    exact ⟨rfl, fun r hr => by cases hr⟩
  | miss _ _ hflush hdb =>
    rw [← hdb, Session.pgGetRuneById_flush hflush]
    exact ⟨rfl, fun r hr => (h.of_row hr).2⟩

end CachesFaces

/-- **Every stage of a regular run keeps the cache of runes and the table together.** -/
theorem Stage.cachesFaces {env : Environment} {c : Cursor} {recorded : List DbRune} {s s' : Session}
    {stage : Stage} (h : CachesFaces s) (hknown : RunesKnown c recorded s) (hfits : stage.Fits c)
    (hforward : ∀ height, stage ≠ .rollBack height)
    (hrest : stage.between = true → s.cache.dbCache = .new) (hregular : stage.Regular s)
    (hrun : stage.run env s = some s') : CachesFaces s' := by
  cases stage with
  | openBlock block =>
    obtain ⟨number, rfl, -⟩ := resetMaxRuneNumber_eq_some hrun
    exact ⟨h.stored, h.ids, h.cached⟩
  | call block a =>
    rcases Action.runes hrun with ⟨-, hsame⟩ | ⟨row, hrow, hetches⟩
    · exact h.same hsame
    · obtain ⟨-, hgoods, hfree⟩ := hregular.etches row hrow
      exact h.etches (Action.etchedRune_flaggedWithoutTerms hrow) hfree
        (hknown.newId hfits hrow hgoods) hetches
  | closeBlock block =>
    have hclosing : s.SameRunes (closing env block s) := .of_eq rfl rfl rfl fun _ _ hr => hr
    exact h.same (hclosing.trans (.flush hrun))
  | rollBack height => exact absurd rfl (hforward height)
  | restart cap hcap =>
    have hruns := Session.runes_of_rest (hrest rfl)
    obtain ⟨cache, hcache, rfl⟩ := restart_eq_some hrun
    exact .of_empty (IndexCache.new_empty hcache) (fun r hr => h.stored r (hruns.symm ▸ hr))
      (hruns ▸ h.ids)

/-! ## Lookups -/

/-- **What holds at every moment of a regular run**: the caches agree with the tables, of which all
balances in flight are, and every mint that was accepted is counted in the table. -/
structure OnRegularRun (c : Cursor) (s : Session) : Prop where
  /-- The cached runes show the rows. -/
  faces : CachesFaces s
  /-- Everything is about runes of the table. -/
  registered : RegisteredOnly s
  /-- Every mint that was accepted is counted. -/
  tracked : ∃ runes accepted, MintsTracked c runes accepted (fun _ => 0) s

namespace OnRegularRun

variable {c : Cursor} {s s' : Session}

/-- **A mint is decided as the tables have it.** -/
theorem readMint_eq (h : OnRegularRun c s) (hopen : c.isOpen = true) {id : RuneId}
    (hid : id ≠ .placeholder) {apply : TransactionCache → RuneId → Nat → DbRune →
      TransactionCache × Option DbLedgerEntry}
    (hrun : s.applyMintWith apply id = some s') : s.readMint id = s.tableMint id := by
  obtain ⟨runes, accepted, htracked⟩ := h.tracked
  rw [Session.applyMintWith] at hrun
  obtain ⟨⟨rune, t⟩, hlook, hrun⟩ := Option.bind_eq_some_iff.mp hrun
  have hfound := Session.runeLookup_of_eq_some hlook
  obtain ⟨hface, hterms⟩ := h.faces.lookup hid hfound
  have htable : s.tableRune id = s.runeById id :=
    if_neg fun heq => hid ((RuneId.eq_placeholder_iff id).mp heq)
  rw [Session.tableMint, Session.readMint, htable]
  cases rune with
  | none =>
    have haccepts : s.acceptsMint id = false := by simp only [Session.acceptsMint, hlook]
    rw [haccepts, Option.map_eq_none_iff.mp hface.symm]
    rfl
  | some rune =>
    obtain ⟨⟨total, u⟩, hlook', -⟩ := Option.bind_eq_some_iff.mp hrun
    have hcount := Session.mintsLookup_of_eq_some hlook'
    have htx : u.cache.txCache = s.cache.txCache := hcount.txCache_eq.trans hfound.txCache_eq
    have haccepts :
        s.acceptsMint id = isRuneMintable rune (total.getD 0) u.cache.txCache.location := by
      simp only [Session.acceptsMint, hlook, hlook']
    have hamount : s.mintAmount id = rune.termsAmount.getD 0 := by
      rw [Session.mintAmount, hlook, Option.bind_some, Option.bind_some]
    -- every accepted mint is an entry: the cached count is the count of the entries
    have hrecorded := htracked.recorded.lookup hopen hfound.writes hfound.txCache_eq
    have hcounted := htracked.counted.lookupRune hfound
    obtain ⟨hge, hle⟩ := hcounted.found hrecorded hid hcount
    have htotal : total.getD 0 = counted .totalMints id s.entries := by
      rw [← hcounted.split_eq] at hle
      rw [← entries_of_writes_nil hfound.writes]
      exact Nat.le_antisymm hle hge
    obtain ⟨row, hrow, hsame⟩ := Option.map_eq_some_iff.mp hface.symm
    have hmintable : isRuneMintable row (total.getD 0) s.cache.txCache.location =
        isRuneMintable rune (total.getD 0) s.cache.txCache.location := by
      rw [← DbRune.mintable_face (h.faces.of_row hrow).2, hsame,
        DbRune.mintable_face (hterms rune rfl)]
    have hsameTerms : row.face.termsAmount = rune.face.termsAmount :=
      congrArg DbRune.termsAmount hsame
    rw [DbRune.face_termsAmount, DbRune.face_termsAmount] at hsameTerms
    rw [haccepts, hamount, htx, hrow, Option.bind_some, ← htotal, hmintable, hsameTerms]
    split
    · rename_i hmint
      obtain ⟨amount, hamount⟩ := Option.isSome_iff_exists.mp (termsAmount_isSome_of_mintable hmint)
      rw [hamount, Option.getD_some]
    · rfl

/-- **An edict finds its rune** if there are balances of it. -/
theorem findsRune (h : OnRegularRun c s) {env : Environment} {e : Edict} {id : RuneId}
    (hmeans : s.cache.txCache.edictRuneId e.id = some id)
    (hsome : s.cache.txCache.available id ≠ []) (hrun : s.applyEdict env e = some s') :
    s.findsRune e.id = true := by
  rw [Session.applyEdict] at hrun
  obtain ⟨⟨rune, t⟩, hlook, -⟩ := Option.bind_eq_some_iff.mp hrun
  have hfound := Session.runeLookup_of_eq_some hlook
  -- balances of a rune that is not registered cannot come in
  have hregisters : s.Registers id := by
    by_contra hnot
    exact hsome (h.registered.confined.tx.available id hnot)
  -- the placeholder stands for the etched rune, another id for a registered one
  have hisSome : rune.isSome = true := by
    by_cases hid : e.id = .placeholder
    · cases hfound with
      | etching =>
        rw [TransactionCache.edictRuneId, if_pos ((RuneId.eq_placeholder_iff _).mpr hid)] at hmeans
        obtain ⟨r, hr, -⟩ := Option.map_eq_some_iff.mp hmeans
        rw [hr]
        rfl
      | hit hne | unknown hne | miss hne => exact absurd hid hne
    · rw [TransactionCache.edictRuneId, if_neg fun heq =>
        hid ((RuneId.eq_placeholder_iff _).mp heq)] at hmeans
      exact hfound.isSome_of_registers hid (Option.some.inj hmeans ▸ hregisters)
  rw [Session.findsRune, hlook]
  exact hisSome

end OnRegularRun

/-- The lookups of a call find what the tables say. -/
def Stage.Truthful (s : Session) : Stage → Prop
  | .call _ (.mint id) | .call _ (.cenotaphMint id) =>
    id ≠ .placeholder → s.readMint id = s.tableMint id
  | .call _ (.edict e) =>
    ∀ id, s.cache.txCache.edictRuneId e.id = some id → s.cache.txCache.available id ≠ [] →
      s.findsRune e.id = true
  | _ => True

/-- What the protocol promises of a stage, and what holds of it then: its lookups are truthful and
the id of what it etches is new. -/
structure Stage.Sound (s : Session) (stage : Stage) : Prop where
  /-- What the protocol promises. -/
  regular : stage.Regular s
  /-- Its lookups find what the tables have. -/
  truthful : stage.Truthful s
  /-- What it etches has a new id. -/
  newId : ∀ row, stage.etchedRune s = some row → ∀ r ∈ s.runes, r.id ≠ row.id

namespace OnRegularRun

variable {env : Environment} {c : Cursor} {s s' : Session} {stage : Stage}

theorem start {network : Network} {cap : Nat} {hcap : 0 < cap}
    (hstart : freshSession network cap hcap = some s) :
    OnRegularRun .start s := by
  obtain ⟨hempty, hdb⟩ := freshSession_eq_some hstart
  exact ⟨.of_empty hempty (hdb ▸ List.forall_mem_singleton.mpr rfl) (hdb ▸ List.nodup_singleton _),
    .of_empty hempty (hdb ▸ .migrated), [], _, .start hstart⟩

/-- **A regular stage goes on.** -/
theorem next (h : OnRegularRun c s) (hfits : stage.Fits c)
    (hforward : ∀ height, stage ≠ .rollBack height)
    (hrest : stage.between = true → s.cache.dbCache = .new) (hregular : stage.Regular s)
    (hrun : stage.run env s = some s') : OnRegularRun (c.next stage) s' := by
  obtain ⟨runes, accepted, htracked⟩ := h.tracked
  refine ⟨stage.cachesFaces h.faces htracked.known hfits hforward hrest hregular hrun,
    stage.registeredOnly h.registered hforward hrest hregular.registers hrun, ?_⟩
  obtain ⟨new, hnext⟩ := stage.mintsTracked htracked hfits hregular.countsMints.resolves hrun
  have hnone : countMintOf s stage.cenotaphMintId (fun _ => 0) = fun _ => 0 := by
    funext r
    rw [countMintOf, Nat.zero_add]
    refine if_neg fun hany => ?_
    obtain ⟨id, hid, hof⟩ := (Option.any_eq_true _ _).mp hany
    cases (hregular.cenotaphMints id hid).symm.trans ((Bool.and_eq_true _ _).mp hof).1
  rw [hnone] at hnext
  exact ⟨_, _, hnext⟩

/-- **A call of a regular run is sound**, and goes on. -/
theorem call {block : Block} {a : Action} (h : OnRegularRun c s)
    (hfits : (Stage.call block a).Fits c) (hregular : (Stage.call block a).Regular s)
    (hrun : a.run env block s = some s') :
    (Stage.call block a).Sound s ∧ OnRegularRun (c.call block a) s' := by
  refine ⟨⟨hregular, ?_, fun row hrow => ?_⟩,
    h.next hfits (fun _ heq => by cases heq) (fun heq => by cases heq) hregular hrun⟩
  · cases a with
    | mint id =>
      have hmint : s.applyMintWith TransactionCache.applyMint id = some s' := hrun
      exact fun hid => h.readMint_eq hfits.1 hid hmint
    | cenotaphMint id =>
      have hmint : s.applyMintWith TransactionCache.applyCenotaphMint id = some s' := hrun
      exact fun hid => h.readMint_eq hfits.1 hid hmint
    | edict e => exact fun id hmeans hsome => h.findsRune hmeans hsome hrun
    | _ => trivial
  · obtain ⟨runes, accepted, htracked⟩ := h.tracked
    exact htracked.known.newId hfits hrow (hregular.etches row hrow).2.1

end OnRegularRun

end Runehook
