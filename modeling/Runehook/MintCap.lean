import Runehook.MintRuns

/-! # The cap of a mint

A mint accepted in a cenotaph is counted in the LRU cache only: its entry is a burn, so that the
count in `supply_changes` does not have it, and it is forgotten when the rune leaves the cache or
the process starts again. Where no cenotaph's mint is accepted (`Stage.CountsMints`), the cache and
the table agree, and the terms of a rune bound its mints: `Capped.stage` is the step, and
`acceptedMints_le_cap` the result on runs. -/

namespace Runehook

open Lib

/-- The stage counts the mints that it accepts where a restart finds them: it resolves the
placeholder, it accepts no mint of a cenotaph, and it does not etch a second rune under the id of
the rune of the migrations. -/
structure Stage.CountsMints (s : Session) (stage : Stage) : Prop where
  /-- It resolves the placeholder. -/
  resolves : stage.ResolvesPlaceholder s
  /-- It accepts no mint of a cenotaph. -/
  noCenotaphMint : ∀ id, stage.cenotaphMintId = some id → s.acceptsMint id = false
  /-- It does not etch under the id of the rune of the migrations. -/
  etching : stage.etches = true → s.cache.txCache.location.runeId ≠ uncommonGoods.id

/-- The terms of the known runes bound their mints, and an id has one rune. -/
structure Capped (runes : List DbRune) (accepted : RuneId → Nat) : Prop where
  /-- Each id has one rune. -/
  nodup : ((uncommonGoods :: runes).map DbRune.id).Nodup
  /-- No more mints are accepted than the terms allow. -/
  le_cap : ∀ r ∈ uncommonGoods :: runes, ∀ cap, r.termsCap = some cap → accepted r.id ≤ cap

section

variable {env : Environment} {c : Cursor} {s s' : Session} {accepted : RuneId → Nat}
    {runes : List DbRune}

/-- Where no cenotaph's mint was accepted, the mint entries are all mints. -/
theorem MintsCounted.split_eq (h : MintsCounted accepted (fun _ => 0) s) (id : RuneId) :
    counted .totalMints id s.entries = accepted id := (h.split id).symm

theorem Session.acceptsMint_eq_true {id : RuneId} (h : s.acceptsMint id = true) :
    ∃ rune t total u, s.RuneLookup id (some rune) t ∧ t.MintsLookup id total u ∧
      isRuneMintable rune (total.getD 0) u.cache.txCache.location := by
  rw [acceptsMint] at h
  split at h
  · rename_i rune t hrune
    split at h
    · rename_i total u htotal
      exact ⟨rune, t, total, u, runeLookup_of_eq_some hrune, mintsLookup_of_eq_some htotal, h⟩
    · cases h
  · cases h

/-- An accepted mint is below the cap of the rune that it is for. -/
theorem MintsTracked.lt_cap {id : RuneId} (h : MintsTracked c runes accepted (fun _ => 0) s)
    (hopen : c.isOpen = true) (hid : id ≠ .placeholder) (haccepts : s.acceptsMint id = true) :
    ∃ r ∈ uncommonGoods :: runes, r.id = id ∧ ∀ cap, r.termsCap = some cap → accepted id < cap := by
  obtain ⟨rune, t, total, u, hrune, htotal, hmint⟩ := Session.acceptsMint_eq_true haccepts
  have hrec := h.recorded.lookup hopen hrune.writes hrune.txCache_eq
  have hcount := h.counted.lookupRune hrune
  obtain ⟨hge, hle⟩ := hcount.found hrec hid htotal
  rw [hcount.split_eq] at hge
  have htotal : total.getD 0 = accepted id := Nat.le_antisymm hle hge
  obtain ⟨⟨r, hr, heq⟩, hruneid⟩ := (h.known.lookup hrune).2 rune rfl
  rw [if_neg hid] at hruneid
  refine ⟨r, hr, ?_, fun cap hcap => ?_⟩
  · rw [← hruneid, heq]
  · rw [← htotal]
    exact lt_cap_of_mintable hmint (by rw [heq]; exact hcap)

/-- A rune that is new has not been minted. -/
theorem MintsTracked.accepted_new {stage : Stage} (h : MintsTracked c runes accepted (fun _ => 0) s)
    (hfits : stage.Fits c) (hetch : stage.etches = true) : accepted c.tx = 0 := by
  obtain ⟨hnew, hblock, -⟩ := hfits.etching hetch
  rw [← h.counted.split_eq]
  exact counted_totalMints_eq_zero (h.recorded.not_minted hnew hblock)

/-- **A stage that counts its mints keeps them below the caps.** -/
theorem Capped.stage {stage : Stage} {new : List DbRune} (h : Capped runes accepted)
    (htracked : MintsTracked c runes accepted (fun _ => 0) s) (hfits : stage.Fits c)
    (hsafe : stage.CountsMints s) (hids : (runes ++ new).map DbRune.id = (c.next stage).etched) :
    Capped (runes ++ new) (countMintOf s stage.mintId accepted) := by
  -- the stage records a row if and only if it etches
  have hnewids : new.map DbRune.id = if stage.etches then [c.tx] else [] := by
    rw [List.map_append, htracked.known.ids, c.etched_next stage] at hids
    split at hids <;> rename_i hetch
    · rw [if_pos hetch]
      exact List.append_cancel_left hids
    · rw [if_neg hetch]
      exact List.append_cancel_left (hids.trans (List.append_nil _).symm)
  by_cases hetch : stage.etches
  · -- a new rune has not been minted, and the stage mints nothing
    rw [if_pos hetch] at hnewids
    obtain ⟨hnew, -, hmint⟩ := hfits.etching hetch
    have hgoods : c.tx ≠ uncommonGoods.id := by
      rw [← htracked.known.location]
      exact hsafe.etching hetch
    have hfresh := htracked.accepted_new hfits hetch
    rw [hmint, countMintOf_none]
    have hold : c.tx ∉ (uncommonGoods :: runes).map DbRune.id := by
      rw [List.map_cons, htracked.known.ids]
      exact List.not_mem_cons_of_ne_of_not_mem hgoods hnew
    refine ⟨?_, ?_⟩
    · rw [← List.cons_append, List.map_append, hnewids, List.nodup_append]
      refine ⟨h.nodup, List.nodup_singleton _, ?_⟩
      rintro a ha b hb rfl
      exact hold (List.mem_singleton.mp hb ▸ ha)
    · intro r hr cap hcap
      rw [← List.cons_append] at hr
      rcases List.mem_append.mp hr with hr | hr
      · exact h.le_cap r hr cap hcap
      · have hid : r.id ∈ new.map DbRune.id := List.mem_map_of_mem hr
        rw [hnewids] at hid
        rw [List.mem_singleton.mp hid, hfresh]
        exact Nat.zero_le _
  · rw [if_neg hetch, List.map_eq_nil_iff] at hnewids
    subst hnewids
    rw [List.append_nil]
    refine ⟨h.nodup, fun r hr cap hcap => ?_⟩
    rw [countMintOf]
    split
    · rename_i hany
      -- an accepted mint is of a recorded rune whose count is still below its cap
      obtain ⟨id, hid, hof⟩ := (Option.any_eq_true _ _).mp hany
      obtain ⟨haccepts, hreal⟩ := (Bool.and_eq_true _ _).mp hof
      have hne : id ≠ .placeholder := hsafe.resolves.ne_placeholder hid haccepts
      have hrid : id = r.id := by
        have hreal := of_decide_eq_true hreal
        rw [Session.realRuneId_of_ne hne] at hreal
        exact Option.some.inj hreal
      -- only one recorded rune has the id
      obtain ⟨r', hr', hid', hlt⟩ := htracked.lt_cap (hfits.before_mint hid).1 hne haccepts
      have heq : r' = r := List.inj_on_of_nodup_map h.nodup hr' hr (hid'.trans hrid)
      subst heq
      have := hlt cap hcap
      rw [← hrid]
      omega
    · exact h.le_cap r hr cap hcap

/-- **A run that counts its mints keeps them below the caps**, at every moment. -/
theorem runStages_capped {network : Network} {cap : Nat} {hcap : 0 < cap} {l : List Stage}
    {s₀ : Session} (hstart : freshSession network cap hcap = some s₀) (hfollows : Follows .start l)
    (hsafe : EveryStage env (fun t stage => stage.CountsMints t) l s₀)
    (hrun : runStages env l s₀ = some s) :
    ∃ runes, MintsTracked (l.foldl Cursor.next .start) runes (fun r => acceptedMints env r l s₀)
      (fun _ => 0) s ∧ Capped runes fun r => acceptedMints env r l s₀ := by
  have hind := foldlM_induction_split
    (P := fun l t => runStages env l s₀ = some t ∧ ∃ runes,
      MintsTracked (l.foldl Cursor.next .start) runes
      (fun r => acceptedMints env r l s₀) (fun _ => 0) t ∧
      Capped runes fun r => acceptedMints env r l s₀)
    ⟨rfl, [], .start hstart, ⟨List.nodup_singleton _, fun _ _ _ _ => Nat.zero_le _⟩⟩ ?_ hrun
  · exact hind.2
  · rintro done stage rest t t' rfl ⟨hdone, runes, htracked, hcapped⟩ hstep
    refine ⟨foldlM_append_eq_some.mpr ⟨t, hdone, foldlM_singleton_eq_some.mpr hstep⟩, ?_⟩
    have hstage := hsafe done stage rest t rfl hdone
    obtain ⟨new, hnext⟩ := stage.mintsTracked htracked hfollows.fits hstage.resolves hstep
    have hnone : countMintOf t stage.cenotaphMintId (fun _ => 0) = fun _ => 0 := by
      funext r
      rw [countMintOf, Nat.zero_add]
      refine if_neg fun hany => ?_
      obtain ⟨id, hid, hof⟩ := (Option.any_eq_true _ _).mp hany
      cases (hstage.noCenotaphMint id hid).symm.trans ((Bool.and_eq_true _ _).mp hof).1
    have hnewcapped := hcapped.stage htracked hfollows.fits hstage hnext.known.ids
    rw [countMintOf_acceptedMints hdone] at hnext hnewcapped
    rw [hnone] at hnext
    rw [List.foldl_append]
    exact ⟨_, hnext, hnewcapped⟩

/-- The count that is read again, when it is not in the cache, is the number of mint entries. -/
theorem SupplyTables.reread {height : Nat} {id : RuneId} {total : Option Nat}
    {mints : LruCache RuneId Nat} (h : SupplyTables (· = .totalMints) height s)
    (hid : id ≠ .placeholder) (hnone : mints.peek id = none)
    (hlook : (s.setRuneTotalMintsCache mints).MintsLookup id total s') :
    total.getD 0 = counted .totalMints id s.entries := by
  have hreal := Session.realRuneId_of_ne hid (s.setRuneTotalMintsCache mints)
  have hs : SupplyTables (· = .totalMints) height (s.setRuneTotalMintsCache mints) :=
    ⟨h.height_le, h.supply, h.pending_height, h.pendingSupply⟩
  cases hlook with
  -- only a hit could answer from the cache, and the id is not in it
  | noEtching hnone' => cases hreal.symm.trans hnone'
  | hit hreal' hpeek =>
    cases Option.some.inj (hreal.symm.trans hreal')
    cases hnone.symm.trans hpeek
  | unknown _ _ hflush hdb =>
    rw [← hdb]
    exact hs.table hflush id
  | miss _ _ hflush hdb =>
    rw [← hdb]
    exact hs.table hflush id

end

/-- **The cap of a mint holds across eviction and restart**, at every moment of a run without
rollbacks whose stages count their mints: no more mints of a rune are accepted than its terms allow,
and the count of a rune is the same from the cache and read again after an eviction. -/
theorem acceptedMints_le_cap {env : Environment} {network : Network} {cap : Nat} {hcap : 0 < cap}
    {events : List Event} {done rest : List Stage} {s₀ s : Session}
    (hsplit : stages env events = done ++ rest) (hforward : ∀ e ∈ events, e.Forward)
    (hblocks : Increasing (indexedBlocks events)) (hstart : freshSession network cap hcap = some s₀)
    (hrun : runStages env done s₀ = some s)
    (hsafe : EveryStage env (fun t stage => stage.CountsMints t) done s₀) :
    (∀ rune ∈ s.db.runes ++ s.cache.dbCache.runes, ∀ termsCap, rune.termsCap = some termsCap →
        acceptedMints env rune.id done s₀ ≤ termsCap) ∧
      ∀ (id : RuneId) (evicted : LruCache RuneId Nat) (total total' : Option Nat) (u u' : Session),
        id ≠ .placeholder → s.getCachedRuneTotalMints id = some (total, u) →
          evicted.peek id = none →
          (s.setRuneTotalMintsCache evicted).getCachedRuneTotalMints id = some (total', u') →
            total.getD 0 = total'.getD 0 := by
  have hfollows := stages_follow env hforward hblocks
  rw [hsplit] at hfollows
  -- the invariant of the run: rows as etched, counts below their caps
  obtain ⟨runes, htracked, hcapped⟩ :=
    runStages_capped hstart (follows_append.mp hfollows).1 hsafe hrun
  constructor
  · intro rune hrune termsCap hcap
    have hof : rune.IsOf (uncommonGoods :: runes) := by
      rcases List.mem_append.mp hrune with hrune | hrune
      · exact htracked.known.stored rune hrune
      · exact htracked.known.waiting rune hrune
    obtain ⟨r, hr, heq⟩ := hof
    rw [heq] at hcap
    rw [show rune.id = r.id by rw [heq]]
    exact hcapped.le_cap r hr termsCap hcap
  · intro id evicted total total' u u' hid htotal hevicted htotal'
    -- the total that was found is the count of accepted mints
    obtain ⟨hge, hle⟩ :=
      htracked.counted.found htracked.recorded hid (Session.mintsLookup_of_eq_some htotal)
    -- and so is the one read again from the tables
    have hagain :=
      htracked.recorded.tables.reread hid hevicted (Session.mintsLookup_of_eq_some htotal')
    rw [htracked.counted.split_eq] at hge hagain
    rw [hagain]
    exact Nat.le_antisymm hle hge

/-- `mintAgain` mints the rune of the migrations twice. -/
theorem acceptedMints_le_cap_mintAgain : ∃ s₀ s, freshSession .bitcoin 2 (by decide) = some s₀ ∧
    runStages mintEnv (stages mintEnv mintAgain) s₀ = some s ∧ uncommonGoods ∈ s.db.runes ∧
      acceptedMints mintEnv uncommonGoods.id (stages mintEnv mintAgain) s₀ = 2 ∧
        acceptedMints mintEnv uncommonGoods.id (stages mintEnv mintAgain) s₀ ≤
          340282366920938463463374607431768211455 := by
  have hruns : (freshSession .bitcoin 2 (by decide)).any fun s₀ =>
      ((runStages mintEnv (stages mintEnv mintAgain) s₀).any fun s => uncommonGoods ∈ s.db.runes) ∧
        acceptedMints mintEnv uncommonGoods.id (stages mintEnv mintAgain) s₀ = 2 := by
        decide +kernel
  obtain ⟨s₀, hstart, h⟩ := (Option.any_eq_true _ _).mp hruns
  obtain ⟨hany, htwo⟩ := of_decide_eq_true h
  obtain ⟨s, hrun, hmem⟩ := (Option.any_eq_true _ _).mp hany
  have hmem := of_decide_eq_true hmem
  have hplain : ∀ stage ∈ stages mintEnv mintAgain,
      stage.mintId ≠ some .placeholder ∧ stage.cenotaphMintId = none ∧
      stage.etches = false := by decide
  have hsafe :
      EveryStage mintEnv (fun t stage => stage.CountsMints t) (stages mintEnv mintAgain) s₀ := by
    refine .of_forall fun stage hstage t => ?_
    obtain ⟨hmint, hcenotaph, hetch⟩ := hplain stage hstage
    refine ⟨.of_ne hmint hetch t, fun id hid => ?_, fun h => ?_⟩
    · cases hcenotaph.symm.trans hid
    · cases hetch.symm.trans h
  have hforward : ∀ e ∈ mintAgain, e.Forward := by simp [mintAgain, mintAndRestart, Event.Forward]
  obtain ⟨hle, -⟩ :=
    acceptedMints_le_cap (List.append_nil _).symm hforward ⟨by decide, by decide⟩ hstart hrun hsafe
  exact ⟨s₀, s, hstart, hrun, hmem, htwo, hle uncommonGoods (List.mem_append_left _ hmem) _ rfl⟩

/-- An `OP_RETURN` output etches a rune that may be minted once, or it mints this rune, in a
cenotaph or in a runestone. -/
def mintOnceEnv : Environment := .plain fun script =>
  if script = [0x6a, 0] then
    some (.runestone ⟨[], some ⟨none, none, none, none, none,
      some ⟨some 7, some 1, (none, none), (none, none)⟩, false⟩, none, none⟩)
  else if script = [0x6a, 1] then some (.cenotaph ⟨none, none, some ⟨840001, 1⟩⟩)
  else some (.runestone ⟨[], none, some ⟨840001, 1⟩, none⟩)

/-- A rune with a cap of one is etched, minted in a cenotaph and, after a restart, minted again. -/
def mintTwice : List Event :=
  [.index ⟨"0xb1", 840001, 1700000000, [⟨"0xetch", 1, [], [[1], [0x6a, 0]]⟩]⟩,
    .index ⟨"0xb2", 840002, 1700000000, [⟨"0xcenotaph", 1, [], [[1], [0x6a, 1]]⟩]⟩,
    .restart 2 Nat.two_pos,
    .index ⟨"0xb3", 840003, 1700000000, [⟨"0xmint", 1, [], [[1], [0x6a]]⟩]⟩]

/-- **A restart forgets the mint of a cenotaph**: two mints of a rune with a cap of one. -/
theorem exists_cap_lt_acceptedMints : ∃ s₀ s rune, freshSession .bitcoin 2 (by decide) = some s₀ ∧
    runStages mintOnceEnv (stages mintOnceEnv mintTwice) s₀ = some s ∧ rune ∈ s.db.runes ∧
      rune.termsCap = some 1 ∧
      acceptedMints mintOnceEnv rune.id (stages mintOnceEnv mintTwice) s₀ = 2 := by
  have hruns : (freshSession .bitcoin 2 (by decide)).any fun s₀ =>
      (runStages mintOnceEnv (stages mintOnceEnv mintTwice) s₀).any fun s =>
        s.db.runes.any fun rune => rune.termsCap = some 1 ∧
          acceptedMints mintOnceEnv rune.id (stages mintOnceEnv mintTwice) s₀ = 2 := by
          decide +kernel
  obtain ⟨s₀, hstart, h⟩ := (Option.any_eq_true _ _).mp hruns
  obtain ⟨s, hrun, h⟩ := (Option.any_eq_true _ _).mp h
  obtain ⟨rune, hmem, h⟩ := List.any_eq_true.mp h
  obtain ⟨hcap, htwo⟩ := of_decide_eq_true h
  exact ⟨s₀, s, rune, hstart, hrun, hmem, hcap, htwo⟩

end Runehook
