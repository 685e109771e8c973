import Runehook.Confined
import Runehook.RuneTable

/-! # Every recorded rune is in the table of runes

The runes of a block wait in memory with their entries, and both are inserted together; but a rune
whose name is taken is dropped by the insert, and its entries are not. Where every name etched is
free, and no mint of `0:0` is accepted (`Stage.registers`), every row is about a rune that has a row
in `runes` (`RegisteredOnly`): `Stage.registeredOnly` for a stage, `runEvents_registered` for
runs. -/

namespace Runehook

open Lib

/-- The stage registers what it records: the name of a rune that it etches is free, and a mint of
`0:0`, which would be recorded under that id, is not accepted. -/
def Stage.registers (s : Session) : Stage → Bool
  | .call _ (.mint id) | .call _ (.cenotaphMint id) => id ≠ .placeholder || !s.acceptsMint id
  | .call _ a => (a.etchedRune s).all fun row => !nameTaken s.runes row.name
  | _ => true

/-- Everything that a session holds is about runes that the next flush leaves in the table, and so
is what the LRU cache of runes has. -/
structure RegisteredOnly (s : Session) : Prop where
  /-- A cached rune is in the table, or waits for it. -/
  cached : ∀ id r, s.cache.runeCache.peek id = some r → s.Registers id
  /-- So is every rune that something is held of. -/
  confined : s.Confined s.Registers

namespace RegisteredOnly

variable {env : Environment} {s s' : Session}

theorem of_empty {network : Network} (h : s.cache.Empty network)
    (hdb : s.db.AllRows fun id _ => s.Registers id) : RegisteredOnly s where
  cached := by
    intro id r hr
    rw [h.runes] at hr
    cases hr
  confined := .of_empty h hdb

/-- A mint other than of the placeholder is accepted of a rune that is in the cache, or in the
table. -/
theorem of_acceptsMint (h : RegisteredOnly s) {id : RuneId} (hid : id ≠ .placeholder)
    (haccepts : s.acceptsMint id = true) : s.Registers id := by
  rw [Session.acceptsMint] at haccepts
  cases hrune : s.getCachedRuneByRuneId id with
  | none =>
    rw [hrune] at haccepts
    cases haccepts
  | some found =>
    obtain ⟨_ | rune, t⟩ := found
    · rw [hrune] at haccepts
      cases haccepts
    · rcases (Session.runeLookup_of_eq_some hrune).found hid rfl with hpeek | hrow
      · exact h.cached id rune hpeek
      · exact Session.registers_of_runeById hrow

/-- What a call etches, or mints, is in the table after it. -/
theorem confines (h : RegisteredOnly s) {block : Block} {a : Action}
    (hsafe : (Stage.call block a).registers s = true)
    (hgrows : ∀ id, s.Registers id → s'.Registers id)
    (hetched : ∀ row, a.etchedRune s = some row → s'.Registers row.id) :
    (Stage.call block a).Confines s'.Registers s := by
  have hmint : ∀ id, (id ≠ .placeholder || !s.acceptsMint id) = true → s.acceptsMint id = true →
      s'.Registers id := by
    intro id hsafe haccepts
    refine hgrows id (h.of_acceptsMint (fun heq => ?_) haccepts)
    simp [heq, heq ▸ haccepts] at hsafe
  cases a with
  | mint id | cenotaphMint id => exact hmint id hsafe
  | etching | cenotaphEtching =>
    have hrow := hetched _ rfl
    exact hrow
  | _ => trivial

/-- **A call keeps the table of runes complete.** -/
theorem call (h : RegisteredOnly s) {block : Block} {a : Action}
    (hsafe : (Stage.call block a).registers s = true) (hrun : a.run env block s = some s') :
    RegisteredOnly s' := by
  -- a call etches one rune or leaves the known ones as they were
  rcases Action.runes hrun with ⟨hnone, hsame⟩ | ⟨row, hrow, hetches⟩
  · have hgrows : ∀ id, s.Registers id → s'.Registers id := by
      rintro id ⟨r, hr, heq⟩
      exact ⟨r, hsame.runes.symm ▸ hr, heq⟩
    refine ⟨fun id r hr => hgrows id ?_, ?_⟩
    · rcases hsame.cached id r hr with hr | hr
      · exact h.cached id r hr
      · exact Session.registers_of_runeById hr
    · refine (Stage.call block a).confined (h.confined.mono hgrows)
        (h.confines hsafe hgrows ?_) hrun
      exact fun row hrow => absurd (hnone.symm.trans hrow) (Option.some_ne_none row).symm
  -- the name is free, so the new row is kept
  · have hfree : nameTaken s.runes row.name = false := by
      cases a with
      | etching | cenotaphEtching =>
        cases Option.some.inj hrow
        simpa [Stage.registers, Action.etchedRune] using hsafe
      | _ => cases hrow
    have hruns := hetches.runes.trans (keepRune_of_free hfree)
    have hgrows : ∀ id, s.Registers id → s'.Registers id := by
      rintro id ⟨r, hr, heq⟩
      exact ⟨r, hruns.symm ▸ List.mem_append_left _ hr, heq⟩
    have hnew : s'.Registers row.id :=
      ⟨row.stored, hruns.symm ▸ List.mem_append_right _ List.mem_cons_self, rfl⟩
    refine ⟨fun id r hr => ?_, ?_⟩
    · rcases hetches.cached id r hr with ⟨rfl, -⟩ | ⟨-, hold⟩
      · exact hnew
      · exact hgrows id (h.cached id r hold)
    · refine (Stage.call block a).confined (h.confined.mono hgrows)
        (h.confines hsafe hgrows ?_) hrun
      intro row' hrow'
      cases Option.some.inj (hrow.symm.trans hrow')
      exact hnew

/-- Nothing else etches or mints. -/
theorem of_same (h : RegisteredOnly s) {stage : Stage} (hsame : s.SameRunes s')
    (hconfines : stage.Confines s'.Registers s) (hrun : stage.run env s = some s') :
    RegisteredOnly s' := by
  have hgrows : ∀ id, s.Registers id → s'.Registers id := by
    rintro id ⟨r, hr, heq⟩
    exact ⟨r, hsame.runes.symm ▸ hr, heq⟩
  refine ⟨fun id r hr => hgrows id ?_, stage.confined (h.confined.mono hgrows) hconfines hrun⟩
  rcases hsame.cached id r hr with hr | hr
  · exact h.cached id r hr
  · exact Session.registers_of_runeById hr

end RegisteredOnly

/-- **Every stage of a run without rollbacks keeps the table of runes complete**, if it registers
what it records. -/
theorem Stage.registeredOnly {env : Environment} {s s' : Session} {stage : Stage}
    (h : RegisteredOnly s) (hforward : ∀ height, stage ≠ .rollBack height)
    (hrest : stage.between = true → s.cache.dbCache = .new) (hsafe : stage.registers s = true)
    (hrun : stage.run env s = some s') : RegisteredOnly s' := by
  cases stage with
  | openBlock block =>
    have hopen := hrun
    obtain ⟨number, rfl, -⟩ := resetMaxRuneNumber_eq_some hopen
    refine ⟨h.cached, ?_⟩
    have hconfined := (Stage.openBlock block).confined h.confined trivial hrun
    exact hconfined
  | call block a => exact h.call hsafe hrun
  | closeBlock block =>
    have hclosing : (closing env block s).SameRunes s' := .flush hrun
    have hsame : s.SameRunes (closing env block s) := .of_eq rfl rfl rfl fun _ _ hr => hr
    have hconfines : (Stage.closeBlock block).Confines s'.Registers s := trivial
    exact h.of_same (hsame.trans hclosing) hconfines hrun
  | rollBack height => exact absurd rfl (hforward height)
  | restart cap hcap =>
    -- between stages the known rows are those of the table
    have hsame : s.runes = s.db.runes := Session.runes_of_rest (hrest rfl)
    obtain ⟨cache, hcache, rfl⟩ := restart_eq_some hrun
    have hempty := IndexCache.new_empty hcache
    have hrunes : Session.runes ⟨cache, s.db⟩ = s.db.runes := Session.runes_of_rest hempty.dbCache
    refine .of_empty hempty ?_
    have hstored := h.confined.rows.stored
    rw [show (Session.Registers ⟨cache, s.db⟩) = s.Registers by
      funext id
      rw [Session.Registers, hrunes, Session.Registers, hsame]]
    exact hstored

/-- **Referential integrity of runes**: in a run without rollbacks, whose stages register what they
record, every row of `ledger`, `supply_changes` and `balance_changes` is about a rune that has a row
in `runes`. -/
theorem runEvents_registered {env : Environment} {network : Network} {cap : Nat} {hcap : 0 < cap}
    {events : List Event} {s₀ s : Session} (hforward : ∀ e ∈ events, e.Forward)
    (hstart : freshSession network cap hcap = some s₀)
    (hsafe : EveryStage env (fun t stage => stage.registers t = true) (stages env events) s₀)
    (hrun : runEvents env events s₀ = some s) :
    s.db.AllRows fun id _ => ∃ r ∈ s.db.runes, r.id = id := by
  obtain ⟨hempty, hdb⟩ := freshSession_eq_some hstart
  -- nothing waits at the end, so the rows are all in the tables
  have hrest := runEvents_dbCache hempty.dbCache hrun
  rw [runEvents_eq_runStages] at hrun
  have hind :=
    stages_induction (P := fun _ t => RegisteredOnly t) (List.append_nil _).symm hempty.dbCache
      (.of_empty hempty (hdb ▸ .migrated)) ?_ hrun
  · have hstored := hind.1.confined.rows.stored
    rw [show s.Registers = fun id => ∃ r ∈ s.db.runes, r.id = id by
      funext id
      rw [Session.Registers, Session.runes_of_rest hrest]] at hstored
    exact hstored
  · intro done stage rest t t' hsplit hdone hbetween h hstep
    have hmem : stage ∈ stages env events := hsplit ▸ List.mem_append_right _ List.mem_cons_self
    exact stage.registeredOnly h (ne_rollBack_of_mem_stages hforward hmem) hbetween
      (hsafe done stage rest t hsplit hdone) hstep

/-- A rune etched under a free name, and its premine, are registered. -/
theorem runEvents_registered_freeName : ∃ s₀ s, freshSession .bitcoin 2 (by decide) = some s₀ ∧
    runEvents etchEnv [.index (etchBlock [freeNameTx])] s₀ = some s ∧ s.db.ledger.length = 2 ∧
      s.db.AllRows fun id _ => ∃ r ∈ s.db.runes, r.id = id := by
  have hruns : (freshSession .bitcoin 2 (by decide)).any fun s₀ =>
      ((runEvents etchEnv [.index (etchBlock [freeNameTx])] s₀).any fun s =>
        s.db.ledger.length = 2) ∧ checkStages etchEnv (fun s stage => stage.registers s)
          (stages etchEnv [.index (etchBlock [freeNameTx])]) s₀ := by decide +kernel
  obtain ⟨s₀, hstart, h⟩ := (Option.any_eq_true _ _).mp hruns
  obtain ⟨hany, hcheck⟩ := of_decide_eq_true h
  obtain ⟨s, hrun, hlength⟩ := (Option.any_eq_true _ _).mp hany
  exact ⟨s₀, s, hstart, hrun, of_decide_eq_true hlength,
    runEvents_registered (by simp [Event.Forward]) hstart (.of_check (fun _ _ h => h) hcheck) hrun⟩

/-- **A rune etched under a taken name is recorded but not registered**: its premine is credited,
and no row of `runes` has its id. -/
theorem exists_unregistered : ∃ s₀ s e, freshSession .bitcoin 2 (by decide) = some s₀ ∧
    runEvents etchEnv [.index (etchBlock [takenNameTx])] s₀ = some s ∧ e ∈ s.db.ledger ∧
      e.operation = .receive ∧ ∀ r ∈ s.db.runes, r.id ≠ e.runeId := by
  have hruns : (freshSession .bitcoin 2 (by decide)).any fun s₀ =>
      (runEvents etchEnv [.index (etchBlock [takenNameTx])] s₀).any fun s =>
        s.db.ledger.any fun e => e.operation = .receive ∧ ∀ r ∈ s.db.runes, r.id ≠ e.runeId := by
    decide +kernel
  obtain ⟨s₀, hstart, h⟩ := (Option.any_eq_true _ _).mp hruns
  obtain ⟨s, hrun, h⟩ := (Option.any_eq_true _ _).mp h
  obtain ⟨e, he, h⟩ := List.any_eq_true.mp h
  obtain ⟨hreceive, hnone⟩ := of_decide_eq_true h
  exact ⟨s₀, s, e, hstart, hrun, he, hreceive, hnone⟩

end Runehook
