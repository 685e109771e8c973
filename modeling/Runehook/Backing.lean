import Runehook.NoInflation
import Runehook.RuneTable

/-! # Balances in flight

Between two transactions the supply of a rune covers what the unspent outputs hold of it. Inside a
transaction it covers, too, what the transaction has still to allocate: what was input to it has
left the spent outputs and has not reached new ones. The invariant is `Backed`, and `Backed.stage`
says that every stage keeps it. -/

namespace Runehook

open Lib

/-! ## What a stage records -/

/-- The row that a stage makes of an etching. -/
def Stage.etchedRune (s : Session) : Stage → Option DbRune
  | .call _ a => a.etchedRune s
  | _ => none

theorem Stage.etchedRune_isSome (s : Session) (stage : Stage) :
    (stage.etchedRune s).isSome = stage.etches := by
  cases stage with
  | call block a => exact a.etchedRune_isSome s
  | _ => rfl

/-- **Every stage of a run without rollbacks keeps track of the runes**, and adds the row that it
etches. -/
theorem Stage.runesKnown_etched {env : Environment} {c : Cursor} {recorded : List DbRune}
    {s s' : Session} {stage : Stage} (h : RunesKnown c recorded s) (hfits : stage.Fits c)
    (hrun : stage.run env s = some s') :
    RunesKnown (c.next stage) (recorded ++ (stage.etchedRune s).toList) s' := by
  obtain ⟨new, hknown⟩ := stage.runesKnown h hfits hrun
  suffices hnew : new = (stage.etchedRune s).toList from hnew ▸ hknown
  have hids := hknown.ids
  rw [List.map_append, h.ids, c.etched_next stage] at hids
  cases hrow : stage.etchedRune s with
  | none =>
    have hetch : stage.etches = false := by
      rw [← stage.etchedRune_isSome s, hrow, Option.isSome_none]
    rw [hetch] at hids
    exact List.map_eq_nil_iff.mp (List.append_cancel_left (hids.trans (List.append_nil _).symm))
  | some row =>
    have hetch : stage.etches = true := by
      rw [← stage.etchedRune_isSome s, hrow, Option.isSome_some]
    rw [hetch, if_pos rfl] at hids
    obtain ⟨x, rfl, hx⟩ := List.map_eq_singleton_iff.mp (List.append_cancel_left hids)
    cases stage with
    | call block a =>
      obtain ⟨hmem, -⟩ := hknown.etching row (Action.etching_eq hrow hrun)
      rcases List.mem_append.mp hmem with hold | hnew
      · -- the transaction has not etched before
        have hid : row.id ∈ c.etched := h.ids ▸ List.mem_map_of_mem hold
        rw [(Action.etchedRow hrow).id, h.location] at hid
        exact absurd hid (hfits.etching hetch).1
      · rw [List.mem_singleton.mp hnew, Option.toList_some]
    | _ => cases hrow

/-- The outputs that a stage spends: those input to the transaction that it begins. -/
def Stage.spends : Stage → List (String × Nat)
  | .call _ (.beginTransaction tx) => tx.inputs.map TxIn.outputKey
  | _ => []

theorem Transaction.stages_spends (env : Environment) (block : Block) (tx : Transaction) :
    (tx.stages env block).flatMap Stage.spends = tx.inputs.map TxIn.outputKey := by
  have hcalls : ((tx.calls env).map (Stage.call block)).flatMap Stage.spends = [] := by
    rw [List.flatMap_eq_nil_iff]
    intro stage hstage
    obtain ⟨a, ha, rfl⟩ := List.mem_map.mp hstage
    cases a with
    | beginTransaction tx' => exact absurd rfl (Transaction.ne_beginTransaction ha tx')
    | _ => rfl
  show tx.inputs.map TxIn.outputKey ++
      ((tx.calls env).map (Stage.call block)).flatMap Stage.spends = _
  rw [hcalls, List.append_nil]

/-- The stages of a run spend what its blocks spend. -/
theorem stages_spends (env : Environment) (events : List Event) :
    (stages env events).flatMap Stage.spends = spends (indexedBlocks events) := by
  -- in a block only the starts of transactions spend
  have hblock : ∀ block : Block, (block.stages env).flatMap Stage.spends = block.spends := by
    intro block
    have htxs : ∀ txs : List Transaction,
        (txs.flatMap (Transaction.stages env block)).flatMap Stage.spends =
          txs.flatMap fun tx => tx.inputs.map TxIn.outputKey := by
      intro txs
      rw [List.flatMap_assoc]
      exact List.flatMap_congr fun tx _ => tx.stages_spends env block
    show [] ++ (block.transactions.flatMap (Transaction.stages env block) ++
      [Stage.closeBlock block]).flatMap Stage.spends = _
    rw [List.nil_append, List.flatMap_append, htxs]
    exact List.append_nil _
  induction events with
  | nil => rfl
  | cons e events ih =>
    rw [stages, List.flatMap_cons, List.flatMap_append, ← stages, ih]
    cases e with
    | index block =>
      rw [Event.stages, hblock]
      rfl
    | rollBack height => rfl
    | restart cap hcap => rfl

/-- What a stage adds to the supply of a rune by a premine. -/
def Stage.premine (s : Session) (r : RuneId) : Stage → Nat
  | .call _ a => a.premine s.cache.txCache.location r
  | _ => 0

/-! ## The invariant -/

/-- The supply of a rune covers what is unspent and what is in flight. -/
structure Backed (r : RuneId) (c : Cursor) (premined : Nat) (spent : List (String × Nat))
    (s : Session) : Prop where
  /-- The caches hold parts of what the entries credit; between blocks all entries are of earlier
  blocks. -/
  layered : ∃ earlier current, Layered PartOf earlier current s ∧ (c.isOpen = false → current = [])
  /-- What is unspent and what is in flight is at most what was premined and minted. -/
  covered : unspent r spent s.entries + totalAmount (s.cache.txCache.available r) ≤
      premined + minted r s.entries

namespace Backed

variable {env : Environment} {r : RuneId} {c : Cursor} {premined : Nat}
  {spent : List (String × Nat)} {s s' : Session}

/-- A process with empty caches, and an empty ledger. -/
theorem of_empty {network : Network} (h : s.cache.Empty network) (hentries : s.entries = []) :
    Backed r .start 0 [] s where
  layered := ⟨_, _, (AtRest.of_empty h).layered, fun _ => rfl⟩
  covered := by
    rw [hentries, TransactionCache.available, h.inputRunes, HashMap.getD_empty]
    exact Nat.le_refl _

/-- What is in flight is part of the supply. -/
theorem available_le (h : Backed r c premined spent s) :
    totalAmount (s.cache.txCache.available r) ≤ premined + minted r s.entries :=
  (Nat.le_add_left _ _).trans h.covered

/-- The end of a block. -/
theorem closeBlock {block : Block} (h : Backed r c premined spent s)
    (hflush : (closing env block s).flush = some s') :
    Backed r (c.next (.closeBlock block)) premined spent s' := by
  obtain ⟨earlier, current, hlay, -⟩ := h.layered
  obtain ⟨hrest, hentries⟩ := closing_atRest hlay (PartOf.moveRules _ _) hflush
  refine ⟨⟨_, _, hrest.layered, fun _ => rfl⟩, ?_⟩
  have htx := Session.flush_txCache hflush
  rw [hentries, htx]
  exact h.covered

/-- A restart between two blocks. -/
theorem restart {cap : Nat} {hcap : 0 < cap} (h : Backed r c premined spent s)
    (hclosed : c.isOpen = false) (hnew : s.cache.dbCache = .new)
    (hrun : s.restart cap hcap = some s') :
    Backed r (c.next (.restart cap hcap)) premined spent s' := by
  obtain ⟨earlier, current, hlay, hcurrent⟩ := h.layered
  have hnil := hcurrent hclosed
  subst hnil
  -- a closed cursor has nothing recorded in a block, so the session is at rest
  have hrest : AtRest PartOf s := by
    refine ⟨?_, by rw [hnew]; rfl⟩
    rw [hlay.entries, List.append_nil]
    exact hlay
  obtain ⟨hrest', hentries⟩ := restart_atRest hrest hrun
  refine ⟨⟨_, _, hrest'.layered, fun _ => rfl⟩, ?_⟩
  obtain ⟨cache, hcache, rfl⟩ := restart_eq_some hrun
  have hle := h.covered
  rw [hentries, TransactionCache.available, (IndexCache.new_empty hcache).inputRunes,
    HashMap.getD_empty, totalAmount_nil]
  omega

/-- The beginning of a transaction: its inputs leave the outputs that they spend. -/
theorem beginTransaction {block : Block} {tx : Transaction} (h : Backed r c premined spent s)
    (hopen : c.isOpen = true) (hnd : (spent ++ tx.inputs.map TxIn.outputKey).Nodup)
    (hrun : Action.run env block s (.beginTransaction tx) = some s') :
    Backed r (c.call block (.beginTransaction tx)) premined
    (spent ++ tx.inputs.map TxIn.outputKey) s' := by
  obtain ⟨earlier, current, hlay, -⟩ := h.layered
  have hwrites : s.Writes [] [] s' := .quiet (beginTransaction_quiet hrun)
  have hinputs := totalAmount_inputs_le hlay hrun r
  have hspend := unspent_spend_all r s.entries (tx.inputs.map TxIn.outputKey) spent hnd
  have hcovered := h.covered
  refine ⟨⟨_, _, hlay.writes hwrites (fun e he => absurd he List.not_mem_nil),
    fun hclosed => ?_⟩, ?_⟩
  · cases hopen.symm.trans hclosed
  · rw [hwrites.entries_eq, List.append_nil]
    omega

/-- Any other call: what it credits, and what it leaves to allocate, comes from what there was. -/
theorem call {block : Block} {a : Action} (h : Backed r c premined spent s)
    (hopen : c.isOpen = true) (hbegin : ∀ tx, a ≠ .beginTransaction tx)
    (hrun : a.run env block s = some s') :
    Backed r (c.call block a) (premined + a.premine s.cache.txCache.location r) spent s' := by
  obtain ⟨earlier, current, hlay, -⟩ := h.layered
  obtain ⟨es, rs, hwrites, hstep⟩ := Action.run_step hbegin hrun
  have hcovered := h.covered
  have hconserve := hstep.received_le r
  have hle := unspent_le_received r spent es
  refine ⟨⟨_, _, hlay.writes hwrites hstep.credit, fun hclosed => ?_⟩, ?_⟩
  · have hsame : (c.call block a).isOpen = c.isOpen := by cases a <;> rfl
    cases (hsame.trans hopen).symm.trans hclosed
  · rw [hwrites.entries_eq, unspent_append, minted_append]
    omega

/-- **Every stage of a run keeps what is in flight covered.** -/
theorem stage {stage : Stage} (h : Backed r c premined spent s)
    (hclosed : c.isOpen = false → s.cache.dbCache = .new) (hfits : stage.Fits c)
    (hnd : (spent ++ stage.spends).Nodup) (hrun : stage.run env s = some s') :
    Backed r (c.next stage) (premined + stage.premine s r) (spent ++ stage.spends) s' := by
  cases stage with
  | openBlock block =>
    obtain ⟨earlier, current, hlay, -⟩ := h.layered
    have hlay' := resetMaxRuneNumber_layered hlay hrun
    obtain ⟨number, rfl, -⟩ := resetMaxRuneNumber_eq_some hrun
    show Backed _ _ premined (spent ++ []) _
    rw [List.append_nil]
    exact ⟨⟨_, _, hlay', fun hopen => by cases hopen⟩, h.covered⟩
  | call block a =>
    have hrun : a.run env block s = some s' := hrun
    by_cases hbegin : ∃ tx, a = .beginTransaction tx
    · obtain ⟨tx, rfl⟩ := hbegin
      exact h.beginTransaction hfits.1 hnd hrun
    -- only the start of a transaction spends
    · have hne : ∀ tx, a ≠ .beginTransaction tx := fun tx heq => hbegin ⟨tx, heq⟩
      have hnone : (Stage.call block a).spends = [] := by
        cases a <;> first | rfl | exact absurd rfl (hne _)
      rw [hnone, List.append_nil]
      exact h.call hfits.1 hne hrun
  | closeBlock block =>
    show Backed _ _ premined (spent ++ []) _
    rw [List.append_nil]
    exact h.closeBlock hrun
  | rollBack height => exact hfits.elim
  | restart cap hcap =>
    show Backed _ _ premined (spent ++ []) _
    rw [List.append_nil]
    exact h.restart hfits (hclosed hfits) hrun

end Backed

end Runehook
