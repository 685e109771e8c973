import Runehook.Confined

/-! # The placeholder id

Id `0:0` means the rune being etched in a transaction (`RuneId.placeholder`). Edicts resolve it; a
mint does not. Where no mint of `0:0` is accepted (`Stage.ResolvesPlaceholder`), nothing is ever
recorded under it (`NoPlaceholder`): `Stage.placeholderUnused` is the step, and
`runStages_placeholderUnused` the run. -/

namespace Runehook

open Lib

/-- Nothing of a rune is input to the transaction, and the transaction does not etch it. -/
structure TransactionCache.Avoids (r : RuneId) (tx : TransactionCache) : Prop where
  /-- Nothing of it is in flight. -/
  available : tx.available r = []
  /-- It is not the rune that is etched. -/
  etching : ∀ rune, tx.etching = some rune → rune.runeId ≠ r

/-- **Nothing is recorded under the placeholder**: no ledger entry, supply change or balance change,
in memory or in the tables, no balance of a cached output and no mint count. -/
structure NoPlaceholder (s : Session) : Prop where
  /-- No row is about it. -/
  rows : s.AllRows fun id _ => id ≠ .placeholder
  /-- No output of the block holds any of it. -/
  blockOutputs : ∀ k, (s.cache.blockOutputCache.getD k ∅).getD .placeholder [] = []
  /-- Nor does one in the LRU cache. -/
  outputs : ∀ k map, s.cache.outputCache.peek k = some map → map.getD .placeholder [] = []
  /-- No mints of it are counted. -/
  totalMints : s.cache.runeTotalMintsCache.peek .placeholder = none

/-- The table has no mint count of the placeholder. -/
theorem pgGetRuneTotalMints_placeholder {db : Db} (h : db.AllRows fun id _ => id ≠ .placeholder) :
    pgGetRuneTotalMints .placeholder db = none := by
  rw [pgGetRuneTotalMints, Option.map_eq_none_iff, Option.eq_none_iff_forall_not_mem]
  intro row hrow
  obtain ⟨hmem, hid⟩ := mem_of_latest hrow
  exact h.supplyChanges row hmem hid

/-- The stage may not record anything under the placeholder: a mint of it is not accepted, and no
rune is etched at block 0, transaction 0. -/
def Stage.ResolvesPlaceholder (s : Session) : Stage → Prop
  | .call _ (.mint id) | .call _ (.cenotaphMint id) => id = .placeholder → s.acceptsMint id = false
  | .call _ (.etching _) | .call _ (.cenotaphEtching _) =>
    s.cache.txCache.location.runeId ≠ .placeholder
  | _ => True

theorem Stage.ResolvesPlaceholder.of_ne {stage : Stage} (hmint : stage.mintId ≠ some .placeholder)
    (hetch : stage.etches = false) (s : Session) : stage.ResolvesPlaceholder s := by
  cases stage with
  | call block a =>
    cases a with
    | mint id | cenotaphMint id => exact fun heq => absurd (congrArg some heq) hmint
    | etching | cenotaphEtching => cases hetch
    | _ => trivial
  | _ => trivial

/-- The mints that such a stage accepts are not of the placeholder. -/
theorem Stage.ResolvesPlaceholder.ne_placeholder {stage : Stage} {s : Session} {id : RuneId}
    (h : stage.ResolvesPlaceholder s) (hmint : stage.mintId = some id)
    (haccepts : s.acceptsMint id = true) :
    id ≠ .placeholder := by
  rintro rfl
  cases stage with
  | call block a =>
    cases a with
    | mint id' | cenotaphMint id' =>
      cases Option.some.inj hmint
      cases (h rfl).symm.trans haccepts
    | _ => cases hmint
  | _ => cases hmint

/-- What the invariant of runs adds: the transaction avoids the placeholder. -/
structure PlaceholderUnused (s : Session) : Prop extends NoPlaceholder s where
  /-- The transaction avoids it. -/
  tx : s.cache.txCache.Avoids .placeholder

/-- The invariant is that everything is about runes other than the placeholder. -/
theorem placeholderUnused_iff {s : Session} :
    PlaceholderUnused s ↔ s.Confined (· ≠ .placeholder) where
  mp h := ⟨h.rows, fun k id hid => not_not.mp hid ▸ h.blockOutputs k,
    fun k map hmap id hid => not_not.mp hid ▸ h.outputs k map hmap,
    fun id hid => not_not.mp hid ▸ h.totalMints,
    ⟨fun id hid => not_not.mp hid ▸ h.tx.available, h.tx.etching⟩⟩
  mpr h := by
    have hnot : ¬ (RuneId.placeholder ≠ .placeholder) := not_not.mpr rfl
    exact ⟨⟨h.rows, fun k => h.blockOutputs k _ hnot, fun k map hmap => h.outputs k map hmap _ hnot,
      h.totalMints _ hnot⟩, ⟨h.tx.available _ hnot, h.tx.etching⟩⟩

theorem Stage.ResolvesPlaceholder.confines {stage : Stage} {s : Session}
    (h : stage.ResolvesPlaceholder s) :
    stage.Confines (· ≠ .placeholder) s := by
  cases stage with
  | call block a =>
    cases a with
    | mint id | cenotaphMint id =>
      intro haccepts heq
      exact Bool.false_ne_true ((h heq).symm.trans haccepts)
    | etching | cenotaphEtching => exact h
    | _ => trivial
  | _ => trivial

/-- **Nothing comes under the placeholder in a stage that resolves it**, be it a call, the end of a
block, a rollback or a restart. -/
theorem Stage.placeholderUnused {env : Environment} {s s' : Session} {stage : Stage}
    (h : PlaceholderUnused s) (hsafe : stage.ResolvesPlaceholder s)
    (hrun : stage.run env s = some s') : PlaceholderUnused s' :=
  placeholderUnused_iff.mpr (stage.confined (placeholderUnused_iff.mp h) hsafe.confines hrun)

/-- **A run whose stages resolve the placeholder records nothing under it**, whatever the blocks,
the rollbacks and the restarts. -/
theorem runStages_placeholderUnused {env : Environment} {network : Network} {cap : Nat}
    {hcap : 0 < cap} {stages : List Stage} {s₀ s : Session}
    (hstart : freshSession network cap hcap = some s₀)
    (hsafe : EveryStage env (fun t stage => stage.ResolvesPlaceholder t) stages s₀)
    (hrun : runStages env stages s₀ = some s) : PlaceholderUnused s := by
  obtain ⟨hempty, hdb⟩ := freshSession_eq_some hstart
  have hind := foldlM_induction_split
    (P := fun done t => runStages env done s₀ = some t ∧ PlaceholderUnused t) ⟨rfl, ?_⟩ ?_ hrun
  · exact hind.2
  · exact placeholderUnused_iff.mpr (.of_empty hempty (hdb ▸ .migrated))
  · rintro done stage rest t t' hsplit ⟨hdone, h⟩ hstep
    exact ⟨foldlM_append_eq_some.mpr ⟨t, hdone, foldlM_singleton_eq_some.mpr hstep⟩,
      stage.placeholderUnused h (hsafe done stage rest t hsplit hdone) hstep⟩

end Runehook
