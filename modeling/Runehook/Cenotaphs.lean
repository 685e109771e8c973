import Runehook.Backing
import Runehook.ChainRunes
import Runehook.MinedRows

/-! # Nothing survives a cenotaph

A cenotaph burns what comes into its transaction, and what it etches or mints leaves no balance
(`Action.AfterBurn`). Its rune has no mint terms: wherever the rune is found later, in the LRU cache
or back from the table, no mint of it is accepted (`Session.Unmintable`, `rejectsMint_of_cenotaph`).
Both are put together in `nothing_survives_cenotaph`, and `rejectsMint_onChain` is about states that
a chain reaches. -/

namespace Runehook

open Lib

/-! ## What a cenotaph writes -/

/-- A call that comes after the burn of a cenotaph. -/
def Action.AfterBurn : Action → Prop
  | .cenotaphEtching _ | .cenotaphMint _ | .endTransaction => True
  | _ => False

/-- An entry that moves no balance: it credits nothing, and it has no owner. -/
structure DbLedgerEntry.Ownerless (e : DbLedgerEntry) : Prop where
  /-- It is an etching or a burn, which credit nothing. -/
  operation : e.operation = .etching ∨ e.operation = .burn
  /-- Nobody is debited. -/
  address : e.address = none

namespace TransactionCache

variable {env : Environment} {tx tx' : TransactionCache} {a : Action} {es : List DbLedgerEntry}
    {rs : List DbRune}

/-- Nothing is allocated when nothing is left. -/
theorem allocateRemainingBalances_of_empty (hempty : ∀ id, tx.available id = []) :
    (tx.allocateRemainingBalances env).2 = [] := by
  rw [List.eq_nil_iff_forall_not_mem]
  intro e he
  -- an entry would be one of its own rune
  have hmem : e ∈ ofRune e.runeId (tx.allocateRemainingBalances env).2 :=
    List.mem_filter.mpr ⟨he, decide_eq_true rfl⟩
  have hrows := allocateRemainingBalances_rows env tx e.runeId
  rw [hempty, (movesRows_nil_balances _ _ _).1, List.map_eq_nil_iff] at hrows
  rw [hrows] at hmem
  exact List.not_mem_nil hmem

/-- **After the burn** nothing comes back: what a call writes has no owner, and it leaves no
balance. -/
theorem Step.afterBurn (h : tx.Step env a es rs tx') (ha : a.AfterBurn)
    (hempty : ∀ id, tx.available id = []) :
    (∀ id, tx'.available id = []) ∧ ∀ e ∈ es, e.Ownerless := by
  cases h with
  | cenotaphEtching rune number =>
    refine ⟨hempty, fun e he => ?_⟩
    rw [List.mem_singleton.mp he]
    exact ⟨.inl rfl, rfl⟩
  | cenotaphMint =>
    refine ⟨hempty, fun e he => ?_⟩
    rw [List.mem_singleton.mp he]
    exact ⟨.inr rfl, rfl⟩
  | noCenotaphMint => exact ⟨hempty, fun e he => absurd he List.not_mem_nil⟩
  | endTransaction =>
    rw [allocateRemainingBalances_of_empty hempty]
    exact ⟨fun id => available_clear tx _ id, fun e he => absurd he List.not_mem_nil⟩
  | _ => exact ha.elim

end TransactionCache

section

variable {env : Environment} {block : Block} {s s' : Session}

/-- The calls after the burn write entries without owner. -/
theorem calls_afterBurn {as : List Action} (has : ∀ a ∈ as, a.AfterBurn)
    (hempty : ∀ id, s.cache.txCache.available id = [])
    (hrun : as.foldlM (Action.run env block) s = some s') :
    ∃ es rs, s.Writes es rs s' ∧ ∀ e ∈ es, e.Ownerless := by
  induction as generalizing s with
  | nil =>
    cases Option.some.inj hrun
    exact ⟨[], [], .quiet (.refl _), fun e he => absurd he List.not_mem_nil⟩
  | cons a as ih =>
    obtain ⟨ha, has⟩ := List.forall_mem_cons.mp has
    obtain ⟨t, ht, hrun⟩ := foldlM_cons_eq_some.mp hrun
    have hnotBegin : ∀ tx, a ≠ .beginTransaction tx := by
      rintro tx rfl
      exact ha
    obtain ⟨es, rs, hwrites, hstep⟩ := Action.run_step hnotBegin ht
    obtain ⟨hleft, hes⟩ := hstep.afterBurn ha hempty
    obtain ⟨es', rs', hwrites', hes'⟩ := ih has hleft hrun
    exact ⟨es ++ es', rs ++ rs', hwrites.trans hwrites', List.forall_mem_append.mpr ⟨hes, hes'⟩⟩

/-- Entries that credit nothing leave the outputs of the block. -/
theorem foldl_creditOutput_of_no_receive {es : List DbLedgerEntry}
    (hes : ∀ e ∈ es, e.operation ≠ .receive) (m : BlockOutputCache) :
    es.foldl creditOutput m = m := by
  induction es with
  | nil => rfl
  | cons e es ih =>
    obtain ⟨he, hes⟩ := List.forall_mem_cons.mp hes
    rw [List.foldl_cons, creditOutput, if_neg he]
    exact ih hes

/-! ## The rune of a cenotaph -/

/-- No rune that the session can find under an id can be minted. -/
structure Session.Unmintable (id : RuneId) (s : Session) : Prop where
  /-- Neither one in the table nor one that waits. -/
  recorded : ∀ r ∈ s.db.runes ++ s.cache.dbCache.runes, r.id = id → r.termsAmount = none
  /-- Nor one in the LRU cache. -/
  cached : ∀ r, s.cache.runeCache.peek id = some r → r.termsAmount = none
  /-- Nor the one that the transaction etches. -/
  etching : ∀ r, s.cache.txCache.etching = some r → r.id = id → r.termsAmount = none

/-- A row of the table of runes is in the database or waits, up to the flag that the table loses. -/
theorem Session.isOf_of_mem_runes {r : DbRune} (hr : r ∈ s.runes) :
    r.IsOf (s.db.runes ++ s.cache.dbCache.runes) := by
  rw [runes] at hr
  generalize s.db.runes = table at hr
  generalize s.cache.dbCache.runes = rows at hr
  induction rows generalizing table with
  | nil =>
    rw [List.append_nil]
    exact .of_mem hr
  | cons row rows ih =>
    obtain ⟨r₀, hr₀, heq⟩ := ih (keepRune table row) hr
    rcases List.mem_append.mp hr₀ with hkept | hrow
    · unfold keepRune at hkept
      split at hkept
      · exact ⟨r₀, List.mem_append_left _ hkept, heq⟩
      · rcases List.mem_append.mp hkept with hold | hnew
        · exact ⟨r₀, List.mem_append_left _ hold, heq⟩
        · rw [List.mem_singleton.mp hnew] at heq
          exact ⟨row, List.mem_append_right _ List.mem_cons_self, heq⟩
    · exact ⟨r₀, List.mem_append_right _ (List.mem_cons_of_mem _ hrow), heq⟩

/-- A call that etches nothing records nothing. -/
theorem TransactionCache.Step.runes_eq_nil {tx tx' : TransactionCache} {a : Action}
    {es : List DbLedgerEntry} {rs : List DbRune} (h : tx.Step env a es rs tx')
    (hetch : a.etches = false) : rs = [] := by
  cases h with
  | etching | cenotaphEtching => cases hetch
  | _ => rfl

/-- A call records the rune that it etches. -/
theorem Action.writes_etched {a : Action} (hrun : a.run env block s = some s') :
    ∃ es, s.Writes es (a.etchedRune s).toList s' := by
  cases hetch : a.etches with
  | false =>
    have hnone : a.etchedRune s = none := by
      rw [← Option.not_isSome_iff_eq_none, a.etchedRune_isSome s, hetch]
      exact Bool.false_ne_true
    rw [hnone]
    by_cases hbegin : ∃ tx, a = .beginTransaction tx
    · obtain ⟨tx, rfl⟩ := hbegin
      exact ⟨[], .quiet (beginTransaction_quiet hrun)⟩
    · obtain ⟨es, rs, hwrites, hstep⟩ := Action.run_step (not_exists.mp hbegin) hrun
      rw [hstep.runes_eq_nil hetch] at hwrites
      exact ⟨es, hwrites⟩
  | true =>
    cases a with
    | etching e =>
      rw [run, Session.applyEtching, TransactionCache.applyEtching_eq,
        Session.recordEtching] at hrun
      obtain ⟨t, hadd, hs⟩ := Option.bind_eq_some_iff.mp hrun
      cases Option.some.inj hs
      exact ⟨_, (Session.writes_record hadd).1⟩
    | cenotaphEtching rune =>
      rw [run, Session.applyCenotaphEtching, TransactionCache.applyCenotaphEtching_eq,
        Session.recordEtching] at hrun
      obtain ⟨t, hadd, hs⟩ := Option.bind_eq_some_iff.mp hrun
      cases Option.some.inj hs
      exact ⟨_, (Session.writes_record hadd).1⟩
    | _ => cases hetch

/-- What a call leaves of the rune that the transaction etched. -/
theorem Action.etching_cases {a : Action} (hrun : a.run env block s = some s') :
    s'.cache.txCache.etching = none ∨ s'.cache.txCache.etching = s.cache.txCache.etching ∨
      s'.cache.txCache.etching = a.etchedRune s := by
  by_cases hbegin : ∃ tx, a = .beginTransaction tx
  · obtain ⟨tx, rfl⟩ := hbegin
    obtain ⟨-, rfl⟩ := run_beginTransaction hrun
    exact .inl rfl
  · cases hrow : a.etchedRune s with
    | some row => exact .inr (.inr (Action.etching_eq hrow hrun))
    | none =>
      obtain ⟨es, rs, -, hstep⟩ := Action.run_step (not_exists.mp hbegin) hrun
      refine .inr (.inl ?_)
      generalize s'.cache.txCache = tx' at hstep
      cases hstep with
      | etching | cenotaphEtching => cases hrow
      | edict e => exact (s.cache.txCache.applyEdict_frame env e).2
      | _ => rfl

namespace Session.Unmintable

variable {id : RuneId}

/-- A rune whose terms are gone under every flag. -/
theorem of_isOf {rows : List DbRune} (h : ∀ r ∈ rows, r.id = id → r.termsAmount = none) {r : DbRune}
    (hr : r.IsOf rows) (hid : r.id = id) : r.termsAmount = none := by
  obtain ⟨r₀, hr₀, heq⟩ := hr
  have hid₀ : r₀.id = id := by rw [← hid, heq]
  rw [heq]
  exact h r₀ hr₀ hid₀

/-- **A call keeps a rune unmintable**, if it does not etch another one under its id. -/
theorem call {a : Action} (h : s.Unmintable id) (hrun : a.run env block s = some s')
    (hetch : ∀ row, a.etchedRune s = some row → row.id = id → row.termsAmount = none) :
    s'.Unmintable id := by
  have hruns := Action.runes hrun
  have hetching := Action.etching_cases hrun
  obtain ⟨es, hwrites⟩ := Action.writes_etched hrun
  refine ⟨fun r hr hid => ?_, fun r hr => ?_, fun r hr hid => ?_⟩
  -- a recorded row was recorded before or is the one that the call etches
  · refine of_isOf (fun r hr hid => ?_) (hwrites.mem_runes r hr) hid
    rcases List.mem_append.mp hr with hr | hr
    · exact h.recorded r hr hid
    · exact hetch r (Option.mem_toList.mp hr) hid
  · rcases hruns with ⟨-, hsame⟩ | ⟨row, hrow, hnew⟩
    · rcases hsame.cached id r hr with hr | hr
      · exact h.cached r hr
      · exact of_isOf h.recorded (isOf_of_mem_runes (List.mem_of_find?_eq_some hr))
          (by simpa using List.find?_some hr)
    · rcases hnew.cached id r hr with ⟨hid, rfl⟩ | ⟨-, hold⟩
      · exact hetch r hrow hid.symm
      · exact h.cached r hold
  -- the etching of the transaction is none, the old one or the new one
  · rcases hetching with hnone | hold | hnew
    · rw [hnone] at hr
      cases hr
    · exact h.etching r (hold ▸ hr) hid
    · exact hetch r (hnew ▸ hr) hid

/-- **A stage keeps a rune unmintable**, if it does not etch another one under its id: rollbacks and
restarts only take runes away. -/
theorem stage {stage : Stage} (h : s.Unmintable id) (hrun : stage.run env s = some s')
    (hetch : ∀ row, stage.etchedRune s = some row → row.id = id → row.termsAmount = none) :
    s'.Unmintable id := by
  cases stage with
  | openBlock block =>
    obtain ⟨number, rfl, -⟩ := resetMaxRuneNumber_eq_some hrun
    exact ⟨h.recorded, h.cached, h.etching⟩
  | call block a => exact h.call hrun hetch
  | closeBlock block =>
    have hclosing : (closing env block s).Unmintable id := ⟨h.recorded, h.cached, h.etching⟩
    have hflush : (closing env block s).flush = some s' := hrun
    -- the flush only stores rows that were waiting
    refine ⟨fun r hr hid => ?_, ?_, ?_⟩
    · have hof := (Session.Writes.flush hflush).mem_runes r hr
      rw [List.append_nil] at hof
      exact of_isOf hclosing.recorded hof hid
    · obtain ⟨db, -, rfl⟩ := Session.flush_eq_some.mp hflush
      exact hclosing.cached
    · rw [Session.flush_txCache hflush]
      exact hclosing.etching
  | rollBack height =>
    cases Option.some.inj hrun
    refine ⟨fun r hr hid => ?_, h.cached, h.etching⟩
    -- a rollback only removes rows
    rcases List.mem_append.mp hr with hr | hr
    · exact h.recorded r (List.mem_append_left _ (List.mem_of_mem_filter hr)) hid
    · exact h.recorded r (List.mem_append_right _ hr) hid
  | restart cap hcap =>
    obtain ⟨cache, hcache, rfl⟩ := restart_eq_some hrun
    have hempty := IndexCache.new_empty hcache
    refine ⟨fun r hr hid => ?_, fun r hr => ?_, fun r hr => ?_⟩
    · rcases List.mem_append.mp hr with hr | hr
      · exact h.recorded r (List.mem_append_left _ hr) hid
      · have hr : r ∈ cache.dbCache.runes := hr
        rw [hempty.dbCache] at hr
        exact absurd hr List.not_mem_nil
    · have hr : cache.runeCache.peek id = some r := hr
      rw [hempty.runes] at hr
      cases hr
    · have hr : cache.txCache.etching = some r := hr
      rw [hempty.etching] at hr
      cases hr

/-- Whatever is found under the id, or under `0:0` for it, has no mint terms. -/
theorem lookup {asked : RuneId} {rune : Option DbRune} {t : Session} (h : s.Unmintable id)
    (hasked : s.realRuneId asked = some id) (hlook : s.RuneLookup asked rune t) :
    ∀ r, rune = some r → r.termsAmount = none := by
  cases hlook with
  | etching hid =>
    rw [Session.realRuneId, if_pos ((RuneId.eq_placeholder_iff asked).mpr hid)] at hasked
    intro r hr
    rw [hr] at hasked
    exact h.etching r hr (Option.some.inj hasked)
  | hit hid hpeek =>
    rw [Session.realRuneId,
      if_neg fun he => hid ((RuneId.eq_placeholder_iff asked).mp he)] at hasked
    cases Option.some.inj hasked
    intro r hr
    cases hr
    exact h.cached _ hpeek
  | unknown => exact fun r hr => (Option.some_ne_none r hr.symm).elim
  | miss hid _ hflush hdb =>
    rw [Session.realRuneId,
      if_neg fun he => hid ((RuneId.eq_placeholder_iff asked).mp he)] at hasked
    cases Option.some.inj hasked
    intro r hr
    cases hr
    rw [Session.pgGetRuneById_flush hflush] at hdb
    exact of_isOf h.recorded (isOf_of_mem_runes (List.mem_of_find?_eq_some hdb))
      (by simpa using List.find?_some hdb)

/-- A mint of a rune without mint terms writes nothing and mints nothing. -/
theorem mint {apply : TransactionCache → RuneId → Nat → DbRune →
      TransactionCache × Option DbLedgerEntry}
    {asked : RuneId} (h : s.Unmintable id) (hasked : s.realRuneId asked = some id)
    (happly : ∀ tx total rune, rune.termsAmount = none → apply tx asked total rune = (tx, none))
    (hout : s.MintOutcome apply asked s') :
    s'.entries = s.entries ∧ s'.cache.txCache = s.cache.txCache := by
  cases hout with
  | unknown _ hrune => exact ⟨hrune.writes.entries_eq.trans (List.append_nil _), hrune.txCache_eq⟩
  | @refused t u rune total _ hrune htotal _ =>
    have hnone := h.lookup hasked hrune rune rfl
    have hwrites := (hrune.writes.nil_trans htotal.writes).entries_eq
    rw [happly u.cache.txCache (total.getD 0) rune hnone]
    exact ⟨hwrites.trans (List.append_nil _), htotal.txCache_eq.trans hrune.txCache_eq⟩
  | @accepted t u v rune total entry _ hrune _ hmint _ _ =>
    -- a rune without terms is not mintable
    have hsome := termsAmount_isSome_of_mintable hmint
    rw [h.lookup hasked hrune rune rfl] at hsome
    cases hsome

end Session.Unmintable

/-! ## Later stages -/

/-- The stage does not etch a rune under an id. -/
def Stage.EtchesElsewhere (id : RuneId) (s : Session) (stage : Stage) : Prop :=
  stage.etches = true → s.cache.txCache.location.runeId ≠ id

/-- If the stage is a mint of a rune, by its id or by `0:0`, then it is rejected: it writes no
entry, and nothing comes into the transaction. -/
def Stage.RejectsMint (env : Environment) (id : RuneId) (s : Session) : Stage → Prop
  | .call block (.mint asked) =>
    s.realRuneId asked = some id → ∀ s', Action.run env block s (.mint asked) = some s' →
    s'.entries = s.entries ∧ s'.cache.txCache = s.cache.txCache
  | .call block (.cenotaphMint asked) => s.realRuneId asked = some id →
    ∀ s', Action.run env block s (.cenotaphMint asked) = some s' →
      s'.entries = s.entries ∧ s'.cache.txCache = s.cache.txCache
  | _ => True

theorem Session.Unmintable.rejectsMint {id : RuneId} (h : s.Unmintable id) (stage : Stage) :
    stage.RejectsMint env id s := by
  cases stage with
  | call block a =>
    cases a with
    | mint asked =>
      intro hasked s' hrun
      refine h.mint hasked (fun tx total rune hnone => ?_) (Session.applyMint_cases hrun)
      rcases tx.applyMint_cases asked total rune with ⟨-, heq⟩ | ⟨-, amount, hamount, -⟩
      · exact heq
      · exact absurd (hnone.symm.trans hamount) (Option.some_ne_none amount).symm
    | cenotaphMint asked =>
      intro hasked s' hrun
      refine h.mint hasked (fun tx total rune hnone => ?_) (Session.applyCenotaphMint_cases hrun)
      rcases tx.applyCenotaphMint_cases asked total rune with ⟨-, heq⟩ | ⟨-, amount, hamount, -⟩
      · exact heq
      · exact absurd (hnone.symm.trans hamount) (Option.some_ne_none amount).symm
    | _ => trivial
  | _ => trivial

/-- **A rune that cannot be minted never can**: every mint of it in the rest of the run is
rejected. -/
theorem Session.Unmintable.everyStage {id : RuneId} {l : List Stage} (h : s.Unmintable id)
    (helsewhere : EveryStage env (Stage.EtchesElsewhere id) l s) :
    EveryStage env (Stage.RejectsMint env id) l s := by
  induction l generalizing s with
  | nil =>
    intro done stage rest t hsplit
    cases done <;> cases hsplit
  | cons first l ih =>
    rintro (_ | ⟨first', done⟩) stage rest t hsplit hrun
    · obtain ⟨rfl, rfl⟩ := List.cons.inj hsplit
      cases Option.some.inj hrun
      exact h.rejectsMint _
    · obtain ⟨rfl, rfl⟩ := List.cons.inj hsplit
      obtain ⟨u, hu, hdone⟩ := foldlM_cons_eq_some.mp hrun
      obtain ⟨hfirst, hrest⟩ := (everyStage_cons hu).mp helsewhere
      refine ih (h.stage hu fun row hrow hid => ?_) hrest done stage rest t rfl hdone
      -- the first stage etches under another id
      have hetches : first.etches = true := by
        rw [← first.etchedRune_isSome s, hrow, Option.isSome_some]
      cases first with
      | call block a => exact absurd ((Action.etchedRow hrow).id.symm.trans hid) (hfirst hetches)
      | _ => cases hrow

/-! ## The transaction -/

/-- What the calls of a cenotaph are. -/
theorem Transaction.calls_of_cenotaph {tx : Transaction} {c : Cenotaph}
    (hartifact : env.decipher tx.outputs = some (.cenotaph c)) : tx.calls env = .cenotaph ::
      ((c.etching.map Action.cenotaphEtching).toList ++
        ((c.mint.map Action.cenotaphMint).toList ++ [.endTransaction])) := by
  rw [calls, hartifact]
  simp [Artifact.actions]

/-- A cenotaph that etches leaves a rune that cannot be minted, unless one that can is recorded
under its id. -/
theorem unmintable_of_cenotaphEtching {rune : Rune}
    (hrun : Action.run env block s (.cenotaphEtching rune) = some s')
    (hrecorded : ∀ r ∈ s.db.runes ++ s.cache.dbCache.runes,
        r.id = s.cache.txCache.location.runeId →
      r.termsAmount = none) : s'.Unmintable s.cache.txCache.location.runeId := by
  obtain ⟨es, hwrites⟩ := Action.writes_etched hrun
  refine ⟨fun r hr hid => ?_, fun r hr => ?_, fun r hr _ => ?_⟩
  -- the row of a cenotaph has no amount to mint
  · refine Session.Unmintable.of_isOf (fun r hr hid => ?_) (hwrites.mem_runes r hr) hid
    rcases List.mem_append.mp hr with hr | hr
    · exact hrecorded r hr hid
    · cases Option.mem_toList.mp hr
      rfl
  · rcases Action.runes hrun with ⟨hnone, -⟩ | ⟨row, hrow, hnew⟩
    · cases hnone
    · cases Option.some.inj hrow
      rcases hnew.cached _ r hr with ⟨-, rfl⟩ | ⟨hne, -⟩
      · rfl
      · exact absurd rfl hne
  · have hetched := Action.etching_eq (a := .cenotaphEtching rune) rfl hrun
    cases Option.some.inj (hetched.symm.trans hr)
    rfl

/-- **The rune of a cenotaph is never minted**, if no rune that can be is recorded under its id:
every mint of it is rejected, in the transaction itself and in the stages after it. -/
theorem rejectsMint_of_cenotaph {tx : Transaction} {c : Cenotaph}
    (hartifact : env.decipher tx.outputs = some (.cenotaph c)) (hetches : c.etching.isSome)
    (hrun : indexTransaction env block s tx = some s')
    (hnoTerms : ∀ r ∈ s.db.runes ++ s.cache.dbCache.runes, r.id = tx.runeId block →
      r.termsAmount = none)
    {later : List Stage}
    (helsewhere : EveryStage env (Stage.EtchesElsewhere (tx.runeId block)) later s') :
    EveryStage env (Stage.RejectsMint env (tx.runeId block)) (tx.stages env block ++ later) s := by
  obtain ⟨u, hbegin, hcalls⟩ := indexTransaction_eq_some.mp hrun
  rw [Transaction.calls_of_cenotaph hartifact] at hcalls
  obtain ⟨v, hburn, hrest⟩ := foldlM_cons_eq_some.mp hcalls
  have hquiet := Session.Writes.quiet (beginTransaction_quiet hbegin)
  obtain ⟨hburns, htx⟩ : u.Writes (u.cache.txCache.applyCenotaphInputBurn env).2 [] v ∧
    v.cache.txCache = (u.cache.txCache.applyCenotaphInputBurn env).1 := Session.writes_add hburn
  obtain ⟨rune, hrune⟩ := Option.isSome_iff_exists.mp hetches
  rw [hrune, Option.map_some, Option.toList_some, List.singleton_append] at hrest
  obtain ⟨w, hetching, hend⟩ := foldlM_cons_eq_some.mp hrest
  have hlocation : v.cache.txCache.location.runeId = tx.runeId block := by
    rw [htx]
    obtain ⟨-, rfl⟩ := run_beginTransaction hbegin
    rfl
  -- no rune comes or goes before the etching
  have hunmintable : w.Unmintable (tx.runeId block) := by
    rw [← hlocation]
    refine unmintable_of_cenotaphEtching hetching fun r hr hid => ?_
    refine Session.Unmintable.of_isOf hnoTerms ?_ (hid.trans hlocation)
    have hof := (hquiet.nil_trans hburns).mem_runes r hr
    rwa [List.append_nil] at hof
  have hsplit : tx.stages env block = .call block (.beginTransaction tx) :: .call block .cenotaph ::
      .call block (.cenotaphEtching rune) ::
        ((c.mint.map Action.cenotaphMint).toList ++ [Action.endTransaction]).map
        (Stage.call block) := by
    have hcalls : tx.stages env block = .call block (.beginTransaction tx) ::
        (tx.calls env).map (Stage.call block) :=
      rfl
    rw [hcalls, Transaction.calls_of_cenotaph hartifact, hrune]
    rfl
  have hlast : runStages env
      (((c.mint.map Action.cenotaphMint).toList ++ [Action.endTransaction]).map (Stage.call block))
      w = some s' := by
    rw [runStages, List.foldlM_map]
    exact hend
  have hbegin : (Stage.call block (.beginTransaction tx)).run env s = some u := hbegin
  have hburn : (Stage.call block .cenotaph).run env u = some v := hburn
  have hetching : (Stage.call block (.cenotaphEtching rune)).run env v = some w := hetching
  rw [hsplit, List.cons_append, List.cons_append, List.cons_append, everyStage_cons hbegin,
    everyStage_cons hburn, everyStage_cons hetching]
  refine ⟨trivial, trivial, trivial, hunmintable.everyStage (.append ?_ fun t ht => ?_)⟩
  · -- the rest of the transaction etches nothing
    refine .of_forall fun stage hstage t hetches => ?_
    simp at hstage
    rcases hstage with ⟨mint, -, rfl⟩ | rfl <;> cases hetches
  · cases Option.some.inj (hlast.symm.trans ht)
    exact helsewhere

/-- **Nothing survives a cenotaph**, whatever it is and whatever comes in. Its entries receive, send
and mint nothing; the first of them burn the balances that come in, one for one, and the others have
no owner; no output of the block is credited. If it etches a rune, then every later mint of it is
rejected, in the transaction itself and in all of the run after it, unless a rune that can be minted
was recorded under the same id before. -/
theorem nothing_survives_cenotaph {tx : Transaction} {c : Cenotaph}
    (hartifact : env.decipher tx.outputs = some (.cenotaph c))
    (hrun : indexTransaction env block s tx = some s') :
    (∃ u burns others, Action.run env block s (.beginTransaction tx) = some u ∧
      s'.entries = s.entries ++ (burns ++ others) ∧
      (∀ r, (ofRune r burns).map DbLedgerEntry.row =
        (u.cache.txCache.available r).map (burnRow r)) ∧ (∀ e ∈ others, e.Ownerless) ∧
      ∀ e ∈ burns ++ others, e.operation ≠ .receive ∧ e.operation ≠ .send ∧ e.operation ≠ .mint) ∧
    s'.cache.blockOutputCache = s.cache.blockOutputCache ∧
    (c.etching.isSome → ∀ later, EveryStage env (Stage.EtchesElsewhere (tx.runeId block)) later s' →
      EveryStage env (Stage.RejectsMint env (tx.runeId block)) (tx.stages env block ++ later) s ∨
        ∃ rune ∈ s.db.runes ++ s.cache.dbCache.runes, rune.id = tx.runeId block ∧
          rune.termsAmount.isSome) := by
  obtain ⟨u, hbegin, hcalls⟩ := indexTransaction_eq_some.mp hrun
  rw [Transaction.calls_of_cenotaph hartifact] at hcalls
  obtain ⟨v, hburn, hrest⟩ := foldlM_cons_eq_some.mp hcalls
  have hquiet := Session.Writes.quiet (beginTransaction_quiet hbegin)
  -- the burn is the first call and empties every deque
  obtain ⟨hburns, htx⟩ : u.Writes (u.cache.txCache.applyCenotaphInputBurn env).2 [] v ∧
    v.cache.txCache = (u.cache.txCache.applyCenotaphInputBurn env).1 := Session.writes_add hburn
  have hempty : ∀ id, v.cache.txCache.available id = [] := by
    rw [htx]
    exact fun id => TransactionCache.available_clear u.cache.txCache _ id
  -- the calls after it write entries without an owner only
  have hafter : ∀ a ∈ (c.etching.map Action.cenotaphEtching).toList ++
      ((c.mint.map Action.cenotaphMint).toList ++ [.endTransaction]), a.AfterBurn := by
    cases c.etching <;> cases c.mint <;> simp [Action.AfterBurn]
  obtain ⟨others, rs, hothers, hownerless⟩ := calls_afterBurn hafter hempty hrest
  have hrows :
      ∀ r, (ofRune r (u.cache.txCache.applyCenotaphInputBurn env).2).map DbLedgerEntry.row =
        (u.cache.txCache.available r).map (burnRow r) :=
    u.cache.txCache.applyCenotaphInputBurn_rows env
  have hoperations : ∀ e ∈ (u.cache.txCache.applyCenotaphInputBurn env).2 ++ others,
      e.operation = .etching ∨ e.operation = .burn := by
    intro e he
    rcases List.mem_append.mp he with he | he
    · -- an entry of the burn is the row of a balance
      have hmem : e.row ∈ (u.cache.txCache.available e.runeId).map (burnRow e.runeId) := by
        rw [← hrows]
        exact List.mem_map_of_mem (List.mem_filter.mpr ⟨he, decide_eq_true rfl⟩)
      obtain ⟨b, -, hb⟩ := List.mem_map.mp hmem
      exact .inr (congrArg LedgerRow.operation hb).symm
    · exact (hownerless e he).operation
  have hnot : ∀ e ∈ (u.cache.txCache.applyCenotaphInputBurn env).2 ++ others,
      e.operation ≠ .receive ∧ e.operation ≠ .send ∧ e.operation ≠ .mint := by
    intro e he
    rcases hoperations e he with hop | hop <;> rw [hop] <;> decide
  have hwrites := hquiet.nil_trans (hburns.trans hothers)
  refine ⟨⟨u, _, others, hbegin, hwrites.entries_eq, hrows, hownerless, hnot⟩, ?_,
    fun hetches later helsewhere => ?_⟩
  · rw [hwrites.blockOutputCache_eq]
    exact foldl_creditOutput_of_no_receive (fun e he => (hnot e he).1) _
  · rw [or_iff_not_imp_right]
    -- the exception: a mintable rune that already holds the id
    intro hnone
    refine rejectsMint_of_cenotaph hartifact hetches hrun (fun r hr hid => ?_) helsewhere
    by_contra hsome
    exact hnone ⟨r, hr, hid, Option.isSome_iff_ne_none.mpr hsome⟩

/-- **On a chain, the rune of a cenotaph is never minted.** The transactions of `block` are those of
its block before `tx`. -/
theorem rejectsMint_onChain {network : Network} {cap : Nat} {hcap : 0 < cap} {events : List Event}
    {blocks : List Block} {s₀ t t' : Session} {tx : Transaction} {c : Cenotaph}
    (hchain : survivingChain events = some blocks)
    (hstart : freshSession network cap hcap = some s₀) (hrun : runEvents env events s₀ = some s)
    (habove : ∀ b ∈ blocks, b.height < block.height)
    (hbefore : indexTransactions env block s = some t)
    (hindex : ∀ earlier ∈ block.transactions, earlier.index ≠ tx.index)
    (hgoods : tx.runeId block ≠ uncommonGoods.id)
    (hartifact : env.decipher tx.outputs = some (.cenotaph c)) (hetches : c.etching.isSome)
    (hstep : indexTransaction env block t tx = some t') {later : List Stage}
    (helsewhere : EveryStage env (Stage.EtchesElsewhere (tx.runeId block)) later t') :
    EveryStage env (Stage.RejectsMint env (tx.runeId block)) (tx.stages env block ++ later) t := by
  have hfree := (runEvents_etchedOnChain hchain hstart hrun).id_free habove hbefore hindex hgoods
  exact rejectsMint_of_cenotaph hartifact hetches hstep
    (fun r hr hid => absurd hid (hfree r hr)) helsewhere

end

/-- A script `OP_RETURN` mints the rune of the migrations; with more in it, it is a cenotaph that
etches a rune, and mints that of the migrations. -/
def flawedEnv : Environment := .plain fun script =>
  if script = [0x6a] then some (.runestone ⟨[], none, some ⟨1, 0⟩, none⟩)
  else some (.cenotaph ⟨some 0, none, some ⟨1, 0⟩⟩)

/-- A transaction that spends what `mintTx` minted. -/
def flawedTx : Transaction := ⟨"0xflawed", 1, [⟨"0xmint", 0⟩], [[1], [0x6a, 0x01]]⟩

def flawedBlock : Block := ⟨"0xb2", 840002, 1700000000, [flawedTx]⟩

/-- What alice spends is burned, and the rune of the cenotaph is not minted after that. -/
theorem nothing_survives_cenotaph_flawedTx :
    ∃ s₀ s s', freshSession .bitcoin 2 Nat.two_pos = some s₀ ∧
    runEvents flawedEnv [.index mintBlock] s₀ = some s ∧
    indexTransaction flawedEnv flawedBlock s flawedTx = some s' ∧
    (∃ burns others, s'.entries = s.entries ++ (burns ++ others) ∧
      (ofRune ⟨1, 0⟩ burns).map DbLedgerEntry.row = [burnRow ⟨1, 0⟩ ⟨some "alice", 1⟩] ∧
      ∀ e ∈ others, e.Ownerless) ∧
    s'.cache.blockOutputCache = s.cache.blockOutputCache ∧
    EveryStage flawedEnv (Stage.RejectsMint flawedEnv ⟨840002, 1⟩)
      (flawedTx.stages flawedEnv flawedBlock ++
        [.call flawedBlock (.beginTransaction mintTx), .call flawedBlock (.mint ⟨840002, 1⟩)])
        s := by
  have hruns : (freshSession .bitcoin 2 Nat.two_pos).any fun s₀ =>
      (runEvents flawedEnv [.index mintBlock] s₀).any fun s =>
        (indexTransaction flawedEnv flawedBlock s flawedTx).isSome ∧
        ((Action.run flawedEnv flawedBlock s (.beginTransaction flawedTx)).all fun u =>
          u.cache.txCache.available ⟨1, 0⟩ = [⟨some "alice", 1⟩]) ∧
        ∀ r ∈ s.db.runes ++ s.cache.dbCache.runes, r.id ≠ ⟨840002, 1⟩ := by
    decide +kernel
  obtain ⟨s₀, hstart, h⟩ := (Option.any_eq_true _ _).mp hruns
  obtain ⟨s, hrun, h⟩ := (Option.any_eq_true _ _).mp h
  obtain ⟨hsome, hspent, hfree⟩ := of_decide_eq_true h
  obtain ⟨s', hstep⟩ := Option.isSome_iff_exists.mp hsome
  have hartifact : flawedEnv.decipher flawedTx.outputs =
      some (.cenotaph ⟨some 0, none, some ⟨1, 0⟩⟩) := rfl
  obtain ⟨⟨u, burns, others, hbegin, hentries, hburns, hownerless, -⟩, houtputs, hrune⟩ :=
    nothing_survives_cenotaph hartifact hstep
  rw [hbegin, Option.all_some, decide_eq_true_iff] at hspent
  have hburned := hburns ⟨1, 0⟩
  rw [hspent] at hburned
  refine ⟨s₀, s, s', hstart, hrun, hstep, ⟨burns, others, hentries, hburned, hownerless⟩, houtputs,
    (hrune rfl _ (.of_forall fun stage hstage t hetches => ?_)).resolve_right ?_⟩
  · -- neither of the later stages etches
    rcases List.mem_pair.mp hstage with rfl | rfl <;> cases hetches
  · rintro ⟨rune, hmem, hid, -⟩
    exact hfree rune hmem hid

end Runehook
