import Runehook.MintCounts

/-! # Mints over whole runs

Every stage of a run keeps track of the mints: where their entries are, and what the cached counts
say (`MintsTracked`, `Stage.mintsTracked`). From it, for every run on increasing blocks: the count
that a mint consults is a count of mints of its rune, and nothing is recorded under the placeholder
(`placeholder_unused`). -/

namespace Runehook

open Lib

/-- Everything that is tracked of the mints. -/
structure MintsTracked (c : Cursor) (recorded : List DbRune) (accepted cenotaphs : RuneId → Nat)
    (s : Session) : Prop where
  /-- The runes that can be looked up were etched in the run. -/
  known : RunesKnown c recorded s
  /-- The mint entries are where they are looked for. -/
  recorded : MintsRecorded c s
  /-- They are those that were accepted. -/
  counted : MintsCounted accepted cenotaphs s

section

variable {env : Environment} {c : Cursor} {s s' : Session} {accepted cenotaphs : RuneId → Nat}
  {runes : List DbRune}

/-- Writing nothing, with the same count for every rune. -/
theorem MintsCounted.of_eq (h : MintsCounted accepted cenotaphs s)
    (hentries : s'.entries = s.entries)
    (hpeek : ∀ i n, s'.cache.runeTotalMintsCache.peek i = some n →
        s.cache.runeTotalMintsCache.peek i = some n) : MintsCounted accepted cenotaphs s' :=
  ⟨fun i => by rw [hentries, h.split],
    fun i n hn => by rw [hentries]; exact h.cached i n (hpeek i n hn)⟩

/-- A call that does not mint. -/
theorem MintsRecorded.call {block : Block} {a : Action} (h : MintsRecorded c s)
    (hknown : RunesKnown c runes s) (hfits : (Stage.call block a).Fits c) (ha : a.step ≠ 3)
    (hrun : a.run env block s = some s') :
    MintsRecorded (c.call block a) s' ∧ ∃ es, s'.entries = s.entries ++ es ∧ ∀ e ∈ es,
    e.operation ≠ .mint := by
  obtain ⟨hopen, hheight, hetch, hcalls⟩ := hfits
  by_cases hbegin : ∃ tx, a = .beginTransaction tx
  · obtain ⟨tx, rfl⟩ := hbegin
    have hquiet := beginTransaction_quiet hrun
    obtain ⟨-, rfl⟩ := run_beginTransaction hrun
    have hwrites : s.Writes [] [] _ := .quiet hquiet
    refine ⟨h.writes hwrites rfl hopen (fun _ h => h) (fun _ he => absurd he List.not_mem_nil)
      (fun _ he => absurd he List.not_mem_nil) ?_, [], hwrites.entries_eq,
        fun _ he => absurd he List.not_mem_nil⟩
    exact fun _ r hr => (Option.some_ne_none r hr.symm).elim
  · have hne : ∀ tx, a ≠ .beginTransaction tx := fun tx heq => hbegin ⟨tx, heq⟩
    obtain ⟨hblock, hafter⟩ := hcalls hne
    obtain ⟨es, rs, hwrites, hstep⟩ := Action.run_step hne hrun
    have hnone := hstep.operation_ne_mint ha
    -- the cursor only moves its step and learns the id of an etching
    have hcall : c.call block a =
        { c with step := a.step, etched := if a.etches then c.etched ++ [c.tx] else c.etched } := by
      cases a <;> first | rfl | exact absurd rfl (hne _)
    rw [hcall]
    refine ⟨h.writes hwrites rfl hopen ?_ ?_ hnone ?_, es, hwrites.entries_eq, hnone⟩
    · intro id hid
      show id ∈ if a.etches then c.etched ++ [c.tx] else c.etched
      split
      · exact List.mem_append_left _ hid
      · exact hid
    · intro e he
      -- the entry is of the block that is open
      rw [(hstep.at_location e he).blockHeight, hheight, ← hblock, ← hknown.location]
      rfl
    · -- a rune that has just been etched has not been minted, and nothing is minted before the mint
      intro hlt r hr
      have hlt : a.step < 3 := hlt
      by_cases he : a.etches
      · rw [hstep.etching_id he r hr, hknown.location]
        exact h.not_minted (hetch he) (hblock.trans hheight.symm)
      · rw [hstep.etching_eq (Bool.eq_false_iff.mpr he)] at hr
        refine h.fresh ?_ r hr
        rcases hafter with hafter | hafter <;> omega

/-- A block opens at a height that is not lower, with nothing waiting. -/
theorem SupplyTables.openBlock {C : SupplyCounter → Prop} {h height : Nat} (hs : SupplyTables C h s)
    (hempty : s.cache.dbCache = .new) (hle : h ≤ height) (number : Nat) :
    SupplyTables C height (s.setNextRuneNumber number) := by
  refine ⟨fun e he => (hs.height_le e he).trans hle, hs.supply, fun e he => ?_, ?_⟩
  · have he : e ∈ s.cache.dbCache.ledgerEntries := he
    rw [hempty] at he
    cases he
  · show SupplyPending _ _ s.cache.dbCache.supplyChanges s.cache.dbCache.ledgerEntries
    rw [hempty]
    exact .nil _ _

/-- The end of a block. -/
theorem SupplyTables.closeBlock {C : SupplyCounter → Prop} {h : Nat} {block : Block}
    (hs : SupplyTables C h s) (hflush : (closing env block s).flush = some s') :
    SupplyTables C h s' := by
  have hclosing : SupplyTables C h (closing env block s) :=
    ⟨hs.height_le, hs.supply, hs.pending_height, hs.pendingSupply⟩
  exact hclosing.flush hflush

/-- A restart with nothing waiting. -/
theorem SupplyTables.restart {C : SupplyCounter → Prop} {h : Nat} (hs : SupplyTables C h s)
    {cache : IndexCache} (hnew : cache.dbCache = .new) : SupplyTables C h ⟨cache, s.db⟩ := by
  refine ⟨hs.height_le, hs.supply, fun e he => ?_, ?_⟩ <;> rw [Session.pending, hnew] at *
  · cases he
  · exact .nil _ _

/-- A restart with nothing waiting loses no entry. -/
theorem entries_restart {cache : IndexCache} (hempty : s.cache.dbCache = .new)
    (hnew : cache.dbCache = .new) :
    Session.entries ⟨cache, s.db⟩ = s.entries := by
  rw [Session.entries, Session.entries, hempty, hnew]

/-- The mint entries at the beginning of a block. -/
theorem MintsRecorded.openBlock {block : Block} (h : MintsRecorded c s)
    (hfits : (Stage.openBlock block).Fits c) (number : Nat) :
    MintsRecorded (c.next (.openBlock block)) (s.setNextRuneNumber number) where
  tables := h.tables.openBlock (h.closed hfits.1) hfits.2 number
  closed := fun hopen => (Bool.true_eq_false ▸ hopen : False).elim
  minted := h.minted
  fresh := h.fresh

/-- The mint entries at the end of a block. -/
theorem MintsRecorded.closeBlock {block : Block} (h : MintsRecorded c s)
    (hflush : (closing env block s).flush = some s') :
    MintsRecorded (c.next (.closeBlock block)) s' := by
  have hentries : s'.entries = (closing env block s).entries :=
    entries_of_writes_nil (.flush hflush)
  have hentries : s'.entries = s.entries := hentries
  have htables := h.tables.closeBlock hflush
  obtain ⟨db, -, rfl⟩ := Session.flush_eq_some.mp hflush
  refine ⟨htables, fun _ => rfl, ?_, ?_⟩ <;> rw [hentries]
  · exact h.minted
  · exact h.fresh

/-- The mint entries after a restart. -/
theorem MintsRecorded.restart {cap : Nat} {hcap : 0 < cap} (h : MintsRecorded c s)
    (hfits : (Stage.restart cap hcap).Fits c) {network : Network} {cache : IndexCache}
    (hnew : cache.Empty network) :
    MintsRecorded (c.next (.restart cap hcap)) ⟨cache, s.db⟩ ∧
    Session.entries ⟨cache, s.db⟩ = s.entries := by
  have hentries : Session.entries ⟨cache, s.db⟩ = s.entries :=
    entries_restart (h.closed hfits) hnew.dbCache
  refine ⟨⟨h.tables.restart hnew.dbCache, fun _ => hnew.dbCache, ?_, ?_⟩, hentries⟩
  · rw [hentries]
    exact h.minted
  · intro _ r hr
    rw [hnew.etching] at hr
    cases hr

/-- Count a mint, if the stage mints and its mint is accepted. -/
def countMintOf (s : Session) (mintId : Option RuneId) (count : RuneId → Nat) (r : RuneId) : Nat :=
  count r + if mintId.any (s.acceptsMintOf r) then 1 else 0

theorem countMintOf_none (s : Session) (count : RuneId → Nat) :
    countMintOf s none count = count := rfl

/-- **Every stage of a run on increasing blocks keeps track of the mints**, where no mint of the
placeholder is accepted. -/
theorem Stage.mintsTracked {stage : Stage} (h : MintsTracked c runes accepted cenotaphs s)
    (hfits : stage.Fits c) (hsafe : stage.ResolvesPlaceholder s)
    (hrun : stage.run env s = some s') :
    ∃ new, MintsTracked (c.next stage) (runes ++ new) (countMintOf s stage.mintId accepted)
      (countMintOf s stage.cenotaphMintId cenotaphs) s' := by
  obtain ⟨new, hknown⟩ := stage.runesKnown h.known hfits hrun
  suffices hboth : MintsRecorded (c.next stage) s' ∧
      MintsCounted (countMintOf s stage.mintId accepted)
      (countMintOf s stage.cenotaphMintId cenotaphs) s' from ⟨new, hknown, hboth.1, hboth.2⟩
  clear hknown
  cases stage with
  | openBlock block =>
    obtain ⟨number, rfl, -⟩ := resetMaxRuneNumber_eq_some hrun
    exact ⟨h.recorded.openBlock hfits _, h.counted.of_eq rfl fun _ _ hn => hn⟩
  | call block a =>
    have hrun : a.run env block s = some s' := hrun
    by_cases ha : a.step = 3
    -- a mint comes after the start of its transaction, in the block of the cursor
    · have hcalls := hfits.2.2.2 (by rintro tx rfl; cases ha)
      have hblock := hcalls.1.trans hfits.2.1.symm
      cases a with
      | mint id =>
        obtain ⟨hrec, hcount⟩ :=
          h.counted.mint mintFunction_applyMint h.recorded h.known hfits.1 hblock hsafe
            (Session.applyMint_cases hrun)
        exact ⟨hrec, hcount.split, hcount.cached⟩
      | cenotaphMint id =>
        obtain ⟨hrec, hcount⟩ :=
          h.counted.mint mintFunction_applyCenotaphMint h.recorded h.known hfits.1
            hblock hsafe (Session.applyCenotaphMint_cases hrun)
        simp only [true_and] at hcount
        exact ⟨hrec, hcount⟩
      | _ => cases ha
    -- no other call writes a mint or touches the counters
    · obtain ⟨hrec, es, hentries, hnone⟩ := h.recorded.call h.known hfits ha hrun
      have hmints := Action.totalMints_eq ha hrun
      have hcount := h.counted.writes hentries hnone fun i n hn => Or.inl (hmints ▸ hn)
      cases a <;> first | exact ⟨hrec, hcount⟩ | exact absurd rfl ha
  | closeBlock block =>
    have hflush : (closing env block s).flush = some s' := hrun
    refine ⟨h.recorded.closeBlock hflush, ?_⟩
    have hentries : s'.entries = (closing env block s).entries :=
      entries_of_writes_nil (.flush hflush)
    refine h.counted.of_eq hentries fun i n hn => ?_
    obtain ⟨db, -, rfl⟩ := Session.flush_eq_some.mp hflush
    exact hn
  | rollBack height => exact hfits.elim
  | restart cap hcap =>
    obtain ⟨cache, hcache, rfl⟩ := restart_eq_some hrun
    obtain ⟨hrec, hentries⟩ := h.recorded.restart hfits (IndexCache.new_empty hcache)
    refine ⟨hrec, h.counted.of_eq hentries fun i n hn => ?_⟩
    have hnone := (IndexCache.new_empty hcache).totalMints i
    cases hnone.symm.trans hn

/-- A stage is the next one, and is counted if it is a mint. -/
theorem countMintOf_acceptedMints {done : List Stage} {stage : Stage} {s₀ : Session}
    (hdone : runStages env done s₀ = some s) :
    countMintOf s stage.mintId (fun r => acceptedMints env r done s₀) =
      fun r => acceptedMints env r (done ++ [stage]) s₀ := by
  funext r
  rw [acceptedMints, countStages_concat hdone]
  rfl

theorem countMintOf_acceptedCenotaphMints {done : List Stage} {stage : Stage} {s₀ : Session}
    (hdone : runStages env done s₀ = some s) :
    countMintOf s stage.cenotaphMintId (fun r => acceptedCenotaphMints env r done s₀) =
      fun r => acceptedCenotaphMints env r (done ++ [stage]) s₀ := by
  funext r
  rw [acceptedCenotaphMints, countStages_concat hdone]
  rfl

/-- Nothing is tracked before a run. -/
theorem MintsTracked.start {network : Network} {cap : Nat} {hcap : 0 < cap}
    (hstart : freshSession network cap hcap = some s) :
    MintsTracked .start [] (fun _ => 0) (fun _ => 0) s := by
  obtain ⟨hempty, hdb⟩ := freshSession_eq_some hstart
  -- nothing is recorded in a fresh session
  have hentries : s.entries = [] := by
    rw [Session.entries, hempty.dbCache, hdb]
    rfl
  have hpending : s.pending = [] := by
    rw [Session.pending, hempty.dbCache]
    rfl
  refine ⟨.of_empty hempty rfl rfl ?_, ⟨⟨?_, ?_, ?_, ?_⟩, fun _ => hempty.dbCache, ?_, ?_⟩, ?_, ?_⟩
  · intro r hr
    rw [hdb] at hr
    exact .of_mem hr
  · rw [hdb]
    exact fun e he => absurd he List.not_mem_nil
  · rw [hdb]
    exact .nil _
  · rw [hpending]
    exact fun e he => absurd he List.not_mem_nil
  · rw [hpending, hempty.dbCache]
    exact .nil _ _
  · rw [hentries]
    exact fun e he => absurd he List.not_mem_nil
  · intro _ r hr
    rw [hempty.etching] at hr
    cases hr
  · intro id
    rw [hentries]
    rfl
  · intro id n hn
    cases (hempty.totalMints id).symm.trans hn

/-- **A run on increasing blocks keeps track of the mints**, at every moment. -/
theorem runStages_mintsTracked {network : Network} {cap : Nat} {hcap : 0 < cap} {done : List Stage}
    {s₀ : Session} (hstart : freshSession network cap hcap = some s₀)
    (hfollows : Follows .start done)
    (hsafe : EveryStage env (fun t stage => stage.ResolvesPlaceholder t) done s₀)
    (hrun : runStages env done s₀ = some s) :
    ∃ runes,
      MintsTracked (done.foldl Cursor.next .start) runes (fun r => acceptedMints env r done s₀)
      (fun r => acceptedCenotaphMints env r done s₀) s := by
  -- over the stages, with the counts of those that were run
  have hind := foldlM_induction_split
    (P := fun l t => runStages env l s₀ = some t ∧ ∃ runes,
      MintsTracked (l.foldl Cursor.next .start) runes
      (fun r => acceptedMints env r l s₀) (fun r => acceptedCenotaphMints env r l s₀) t)
      ⟨rfl, [], ?_⟩ ?_ hrun
  · exact hind.2
  · exact .start hstart
  · rintro l stage rest t t' rfl ⟨hl, runes, h⟩ hstep
    refine ⟨foldlM_append_eq_some.mpr ⟨t, hl, foldlM_singleton_eq_some.mpr hstep⟩, ?_⟩
    obtain ⟨new, hnext⟩ := stage.mintsTracked h hfollows.fits (hsafe l stage rest t rfl hl) hstep
    rw [countMintOf_acceptedMints hl, countMintOf_acceptedCenotaphMints hl] at hnext
    rw [List.foldl_append]
    exact ⟨_, hnext⟩

end

/-! ## The count that a mint consults -/

/-- The count of a rune's mints that a mint of this id consults: what `get_cached_rune_total_mints`
answers once the rune is found. -/
def Session.consultedMints (id : RuneId) (s : Session) : Option Nat :=
  match s.getCachedRuneByRuneId id with
  | some (some _, t) => (t.getCachedRuneTotalMints id).map fun p => p.1.getD 0
  | _ => none

theorem Session.consultedMints_eq_some {id : RuneId} {s : Session} {n : Nat}
    (h : s.consultedMints id = some n) :
    ∃ rune t total u, s.RuneLookup id (some rune) t ∧ t.MintsLookup id total u ∧
    n = total.getD 0 := by
  rw [consultedMints] at h
  split at h
  · rename_i rune t hrune
    obtain ⟨⟨total, u⟩, htotal, rfl⟩ := Option.map_eq_some_iff.mp h
    exact ⟨rune, t, total, u, runeLookup_of_eq_some hrune, mintsLookup_of_eq_some htotal, rfl⟩
  · cases h

/-- The stage that comes at a mint is not past the mint. -/
theorem Stage.Fits.before_mint {c : Cursor} {stage : Stage} {id : RuneId} (h : stage.Fits c)
    (hmint : stage.mintId = some id) : c.isOpen = true ∧ c.step < 3 := by
  cases stage with
  | call block a =>
    cases a with
    | mint _ | cenotaphMint _ =>
      obtain ⟨hopen, -, -, hcalls⟩ := h
      have hafter := (hcalls fun _ => Action.noConfusion).2
      simp only [After, Action.step] at hafter
      exact ⟨hopen, by omega⟩
    | _ => cases hmint
  | _ => cases hmint

/-- **The placeholder never escapes**, from runs in which no mint of `0:0` is accepted and no rune
is etched at block 0, transaction 0. On increasing blocks, the count that a mint consults is then a
count of mints of its rune: it is at least the `mint` entries of the rune and at most all of its
accepted mints, which differ by the mints that were accepted in cenotaphs. -/
theorem placeholder_unused {env : Environment} {network : Network} {cap : Nat} {hcap : 0 < cap}
    {events : List Event} {done rest : List Stage} {s₀ s : Session}
    (hsplit : stages env events = done ++ rest) (hstart : freshSession network cap hcap = some s₀)
    (hrun : runStages env done s₀ = some s)
    (hsafe : EveryStage env (fun t stage => stage.ResolvesPlaceholder t) done s₀) :
    NoPlaceholder s ∧
      ((∀ e ∈ events, e.Forward) → Increasing (indexedBlocks events) →
        ∀ stage later id real n, rest = stage :: later → stage.mintId = some id →
          s.realRuneId id = some real → s.consultedMints id = some n →
          counted .totalMints real s.entries ≤ n ∧ n ≤ acceptedMints env real done s₀ ∧
            acceptedMints env real done s₀ =
              counted .totalMints real s.entries + acceptedCenotaphMints env real done s₀) := by
  have hunused := runStages_placeholderUnused hstart hsafe hrun
  refine ⟨hunused.toNoPlaceholder, ?_⟩
  rintro hforward hblocks stage later id real n rfl hmint hreal hn
  have hfollows := stages_follow env hforward hblocks
  rw [hsplit] at hfollows
  obtain ⟨runes, htracked⟩ :=
    runStages_mintsTracked hstart (follows_append.mp hfollows).1 hsafe hrun
  obtain ⟨hopen, hstep⟩ := hfollows.fits.before_mint hmint
  obtain ⟨rune, t, total, u, hrune, htotal, rfl⟩ := Session.consultedMints_eq_some hn
  -- the lookup of the rune leaves the counts as they were
  have hrec := htracked.recorded.lookup hopen hrune.writes hrune.txCache_eq
  have hrows := hunused.rows.writes hrune.writes fun e he => absurd he List.not_mem_nil
  have hrealt : t.realRuneId id = some real := by rwa [Session.realRuneId, hrune.txCache_eq]
  have hbounds := (htracked.counted.lookupRune hrune).consulted hrec hrows hstep hrealt htotal
  rw [entries_of_writes_nil hrune.writes] at hbounds
  exact ⟨hbounds.1, hbounds.2, htracked.counted.split real⟩

/-- A transaction like `mintTx`, in a later block. -/
def laterTx : Transaction := ⟨"0xlater", 1, [], [[1], [0x6a]]⟩

def laterBlock : Block := ⟨"0xb2", 840002, 1700000000, [laterTx]⟩

/-- `mintBlock`, a restart and a block with another mint. -/
def mintAgain : List Event := mintAndRestart ++ [.index laterBlock]

/-- The mint of `laterBlock` consults a count of one after the restart. -/
theorem placeholder_unused_mintAgain :
    ∃ s₀ s done stage later, stages mintEnv mintAgain = done ++ stage :: later ∧
    freshSession .bitcoin 2 (by decide) = some s₀ ∧ runStages mintEnv done s₀ = some s ∧
      stage.mintId = some ⟨1, 0⟩ ∧ s.consultedMints ⟨1, 0⟩ = some 1 ∧ NoPlaceholder s ∧
        counted .totalMints ⟨1, 0⟩ s.entries ≤ 1 ∧ 1 ≤ acceptedMints mintEnv ⟨1, 0⟩ done s₀ := by
  have hruns : ((freshSession .bitcoin 2 (by decide)).bind fun s₀ =>
      runStages mintEnv ((stages mintEnv mintAgain).take 10) s₀).any fun s =>
        s.consultedMints ⟨1, 0⟩ = some 1 ∧ s.realRuneId ⟨1, 0⟩ = some ⟨1, 0⟩ := by decide +kernel
  obtain ⟨s, hs, hconsulted⟩ := (Option.any_eq_true _ _).mp hruns
  obtain ⟨hn, hreal⟩ := of_decide_eq_true hconsulted
  obtain ⟨s₀, hstart, hrun⟩ := Option.bind_eq_some_iff.mp hs
  have hmints : ∀ stage ∈ (stages mintEnv mintAgain).take 10,
      stage.mintId ≠ some .placeholder ∧ stage.etches = false := by decide
  have hsafe : EveryStage mintEnv (fun t stage => stage.ResolvesPlaceholder t)
      ((stages mintEnv mintAgain).take 10) s₀ :=
    .of_forall fun stage hstage => .of_ne (hmints stage hstage).1 (hmints stage hstage).2
  have hforward : ∀ e ∈ mintAgain, e.Forward := by simp [mintAgain, mintAndRestart, Event.Forward]
  have hblocks : Increasing (indexedBlocks mintAgain) := ⟨by decide, by decide⟩
  have hsplit : stages mintEnv mintAgain = (stages mintEnv mintAgain).take 10 ++
      .call laterBlock (.mint ⟨1, 0⟩) :: [.call laterBlock .endTransaction,
        .closeBlock laterBlock] := rfl
  obtain ⟨hnone, hcount⟩ := placeholder_unused hsplit hstart hrun hsafe
  obtain ⟨hge, hle, -⟩ := hcount hforward hblocks _ _ _ _ _ rfl rfl hreal hn
  exact ⟨s₀, s, (stages mintEnv mintAgain).take 10, .call laterBlock (.mint ⟨1, 0⟩),
    [.call laterBlock .endTransaction, .closeBlock laterBlock], hsplit, hstart, hrun, rfl, hn,
      hnone, hge, hle⟩

/-- Every `OP_RETURN` output etches a rune with terms and mints `0:0`. -/
def etchAndMintEnv : Environment := .plain fun _ =>
  some (.runestone ⟨[], some ⟨none, none, none, none, none,
    some ⟨some 7, some 1, (none, none), (none, none)⟩, false⟩, some .placeholder, none⟩)

/-- **A mint of `0:0` escapes**: a transaction that etches and mints records the mint under `0:0`,
and so the first mint of the rune that a later transaction etches consults a count of one. -/
theorem exists_recorded_placeholder : ∃ s₀ s t done stage later,
    freshSession .bitcoin 2 (by decide) = some s₀ ∧
      runEvents etchAndMintEnv [.index mintBlock] s₀ = some s ∧ ¬ NoPlaceholder s ∧
        stages etchAndMintEnv [.index mintBlock, .index laterBlock] = done ++ stage :: later ∧
          stage.mintId = some .placeholder ∧ runStages etchAndMintEnv done s₀ = some t ∧
            t.realRuneId .placeholder = some ⟨840002, 1⟩ ∧ t.consultedMints .placeholder = some 1 ∧
              acceptedMints etchAndMintEnv ⟨840002, 1⟩ done s₀ = 0 := by
  have hruns : (freshSession .bitcoin 2 (by decide)).any fun s₀ =>
      ((runEvents etchAndMintEnv [.index mintBlock] s₀).any fun s =>
          s.db.ledger.any fun e => e.runeId = .placeholder) ∧
        ((runStages etchAndMintEnv
            ((stages etchAndMintEnv [.index mintBlock, .index laterBlock]).take 11) s₀).any fun t =>
          t.realRuneId .placeholder = some ⟨840002, 1⟩ ∧ t.consultedMints .placeholder = some 1) ∧
        acceptedMints etchAndMintEnv ⟨840002, 1⟩
          ((stages etchAndMintEnv [.index mintBlock, .index laterBlock]).take 11) s₀ = 0 := by
    decide +kernel
  obtain ⟨s₀, hstart, h⟩ := (Option.any_eq_true _ _).mp hruns
  obtain ⟨hfirst, hsecond, haccepted⟩ := of_decide_eq_true h
  obtain ⟨s, hs, hledger⟩ := (Option.any_eq_true _ _).mp hfirst
  obtain ⟨e, he, hid⟩ := List.any_eq_true.mp hledger
  obtain ⟨t, ht, hconsulted⟩ := (Option.any_eq_true _ _).mp hsecond
  obtain ⟨hreal, hn⟩ := of_decide_eq_true hconsulted
  exact ⟨s₀, s, t, (stages etchAndMintEnv [.index mintBlock, .index laterBlock]).take 11,
    .call laterBlock (.mint .placeholder),
    [.call laterBlock .endTransaction, .closeBlock laterBlock], hstart, hs,
    fun h => h.rows.stored.ledger e he (of_decide_eq_true hid), rfl, rfl, ht, hreal, hn, haccepted⟩

end Runehook
