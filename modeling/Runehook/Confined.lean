import Runehook.Mints

/-! # Runs that record some runes only

A property of rune ids is kept by a run when every rune etched has it and every rune minted does
(`Stage.Confines`): then all rows are about such runes, and so are the balances and mint counts in
memory (`Session.Confined`, kept by `Stage.confined`). -/

namespace Runehook

open Lib

variable {P : RuneId → Prop}

/-! ## Transactions -/

namespace TransactionCache

/-- What is input to the transaction, and what it etches, has the property. -/
structure Confined (P : RuneId → Prop) (tx : TransactionCache) : Prop where
  /-- Only balances of such runes are in flight. -/
  available : ∀ id, ¬ P id → tx.available id = []
  /-- The etched rune is one of them. -/
  etching : ∀ rune, tx.etching = some rune → P rune.runeId

/-- No balances, no entries. -/
theorem moveRuneBalanceToOutput_nil (env : Environment) (location : TransactionLocation)
    (output : Option Nat) (id : RuneId) (outputs : HashMap Nat ScriptBuf) (amount n : Nat) :
    moveRuneBalanceToOutput env location output id [] outputs amount n = ⟨[], [], n⟩ := by
  simp [moveRuneBalanceToOutput, takeBalances, senderEntries]

theorem applyMoves_nil (env : Environment) (location : TransactionLocation) (id : RuneId)
    (outputs : HashMap Nat ScriptBuf) (moves : List (Option Nat × Nat)) (n : Nat) :
    applyMoves env location id outputs moves [] n = ⟨[], [], n⟩ := by
  induction moves generalizing n with
  | nil => rfl
  | cons move moves ih =>
    obtain ⟨output, amount⟩ := move
    rw [applyMoves, moveRuneBalanceToOutput_nil]
    dsimp only
    rw [ih]
    rfl

variable {env : Environment} {tx tx' : TransactionCache} {a : Action} {es : List DbLedgerEntry}
  {rs : List DbRune}

/-- Entries of which none is about a rune without the property. -/
theorem forall_of_ofRune (h : ∀ id, ¬ P id → ofRune id es = []) : ∀ e ∈ es, P e.runeId := by
  intro e he
  by_contra hnot
  have hmem : e ∈ ofRune e.runeId es := List.mem_filter.mpr ⟨he, decide_eq_true rfl⟩
  rw [h e.runeId hnot] at hmem
  exact List.not_mem_nil hmem

/-- **A call keeps a property of runes**, if what it etches or mints has it. An edict resolves the
placeholder, and moves what is input to the transaction. -/
theorem Step.confined (h : tx.Step env a es rs tx') (hP : tx.Confined P)
    (hetch : a.etches → P tx.location.runeId)
    (hmint : ∀ id, a = .mint id ∨ a = .cenotaphMint id → es ≠ [] → P id) :
    (∀ e ∈ es, P e.runeId) ∧ tx'.Confined P := by
  have hplain : ∀ {amount : Option Nat} {id : RuneId} {operation : DbLedgerOperation}, P id →
      ∀ e ∈ [tx.plainEntry amount id operation], P e.runeId := by
    intro amount id operation hid e he
    rw [List.mem_singleton.mp he]
    exact hid
  -- the entries that a call writes for each rune of the map are none for a rune without balances
  have hover : ∀ {es' : List DbLedgerEntry} {g : RuneId → Nat → List DbLedgerEntry},
      (∀ id, id ∉ tx.inputRunes.keys → ofRune id es' = []) →
      (∀ id, id ∈ tx.inputRunes.keys → ∃ m, ofRune id es' = g id m) →
      (∀ id m, tx.available id = [] → g id m = []) → ∀ e ∈ es', P e.runeId := by
    intro es' g hnone hsome hg
    refine forall_of_ofRune fun id hid => ?_
    by_cases hmem : id ∈ tx.inputRunes.keys
    · obtain ⟨m, hm⟩ := hsome id hmem
      rw [hm, hg id m (hP.available id hid)]
    · exact hnone id hmem
  cases h with
  | runestone => exact ⟨fun e he => absurd he List.not_mem_nil, hP.available, hP.etching⟩
  | noMint | noCenotaphMint | noEdict => exact ⟨fun e he => absurd he List.not_mem_nil, hP⟩
  | cenotaph =>
    refine ⟨hover (fun id => (ofRune_applyCenotaphInputBurn env tx id).1)
      (fun id => (ofRune_applyCenotaphInputBurn env tx id).2) fun id m hnil => ?_,
      fun id _ => available_clear tx _ id, hP.etching⟩
    rw [hnil]
    rfl
  | etching e number =>
    have hlocation := hetch rfl
    refine ⟨hplain hlocation, fun id hid => ?_, fun rune hrune => ?_⟩
    · have hne : tx.location.runeId ≠ id := fun heq => hid (heq ▸ hlocation)
      rw [available_withEtching, if_neg hne]
      exact hP.available id hid
    · have hrune : some (DbRune.fromEtching e number tx.location) = some rune := by
        rw [← hrune]
        cases e.premine <;> rfl
      rw [← Option.some.inj hrune]
      exact hlocation
  | cenotaphEtching rune number =>
    have hlocation := hetch rfl
    refine ⟨hplain hlocation, hP.available, fun rune' hrune => ?_⟩
    have hrune : some (DbRune.fromCenotaphEtching rune number tx.location) = some rune' := hrune
    rw [← Option.some.inj hrune]
    exact hlocation
  | @mint id rune totalMints amount =>
    have hid := hmint id (Or.inl rfl) (List.cons_ne_nil _ _)
    refine ⟨hplain hid, fun id' hid' => ?_, hP.etching⟩
    have hne : id' ≠ id := fun heq => hid' (heq ▸ hid)
    show (tx.addInputRunes id ⟨none, amount⟩).available id' = []
    rw [available_addInputRunes, if_neg hne]
    exact hP.available id' hid'
  | @cenotaphMint id =>
    exact ⟨hplain (hmint id (Or.inr rfl) (List.cons_ne_nil _ _)), hP.available, hP.etching⟩
  | edict e =>
    rcases applyEdict_cases env tx e with he | ⟨id, balances, -, hlookup, he⟩ <;> rw [he]
    · exact ⟨fun e he => absurd he List.not_mem_nil, hP⟩
    · have hnil : ¬ P id → balances = [] := fun hid => by
        have havailable := hP.available id hid
        rwa [available, HashMap.getD, hlookup] at havailable
      refine ⟨fun e' he' => ?_, fun id' hid' => ?_, hP.etching⟩
      · by_contra hnot
        obtain ⟨output, hmove⟩ := applyMoves_moveOf _ _ _ e' he'
        rw [hmove.runeId] at hnot
        rw [hnil hnot, applyMoves_nil] at he'
        exact List.not_mem_nil he'
      · rw [available_insert]
        split
        · rename_i heq
          rw [hnil (heq ▸ hid'), applyMoves_nil]
        · exact hP.available id' hid'
  | endTransaction =>
    refine ⟨hover (fun id => (ofRune_allocate env tx id).1)
      (fun id => (ofRune_allocate env tx id).2)
      fun id m hnil => ?_, fun id _ => available_clear tx _ id, hP.etching⟩
    rw [moveToPointer, hnil, moveRuneBalanceToOutput_nil]

end TransactionCache

/-! ## Sessions -/

/-- Everything that a session holds is about runes with a property: the rows, the balances of cached
outputs and of the transaction, and the mint counts. -/
structure Session.Confined (P : RuneId → Prop) (s : Session) : Prop where
  /-- The rows, in memory and in the tables. -/
  rows : s.AllRows fun id _ => P id
  /-- The balances of the outputs of the block. -/
  blockOutputs : ∀ k id, ¬ P id → (s.cache.blockOutputCache.getD k ∅).getD id [] = []
  /-- The balances of the outputs in the LRU cache. -/
  outputs : ∀ k map, s.cache.outputCache.peek k = some map → ∀ id, ¬ P id → map.getD id [] = []
  /-- The mint counts in the LRU cache. -/
  totalMints : ∀ id, ¬ P id → s.cache.runeTotalMintsCache.peek id = none
  /-- The balances and the etching of the transaction. -/
  tx : s.cache.txCache.Confined P

/-- A row property may be weakened. -/
theorem Session.AllRows.mono {Q Q' : RuneId → Nat → Prop} {s : Session} (h : s.AllRows Q)
    (himp : ∀ id k, Q id k → Q' id k) : s.AllRows Q' where
  waiting := ⟨fun e he => himp _ _ (h.waiting.ledgerEntries e he),
    fun id c hc => himp _ _ (h.waiting.supplyChanges id c hc),
    fun o c hc => himp _ _ (h.waiting.balanceIncreases o c hc),
    fun o c hc => himp _ _ (h.waiting.balanceDeductions o c hc)⟩
  stored :=
    ⟨fun e he => himp _ _ (h.stored.ledger e he),
      fun r hr => himp _ _ (h.stored.supplyChanges r hr),
      fun r hr => himp _ _ (h.stored.balanceChanges r hr)⟩

namespace Session.Confined

variable {s s' : Session}

theorem mono {Q : RuneId → Prop} (h : s.Confined P) (himp : ∀ id, P id → Q id) : s.Confined Q where
  rows := h.rows.mono fun id _ => himp id
  blockOutputs k id hid := h.blockOutputs k id fun hp => hid (himp id hp)
  outputs k map hmap id hid := h.outputs k map hmap id fun hp => hid (himp id hp)
  totalMints id hid := h.totalMints id fun hp => hid (himp id hp)
  tx := ⟨fun id hid => h.tx.available id fun hp => hid (himp id hp),
    fun rune hrune => himp _ (h.tx.etching rune hrune)⟩

/-- A process with empty caches, on tables whose rows have the property. -/
theorem of_empty {network : Network} (h : s.cache.Empty network)
    (hdb : s.db.AllRows fun id _ => P id) :
    s.Confined P where
  rows := ⟨h.dbCache ▸ .new, hdb⟩
  blockOutputs := by
    intro k id _
    rw [h.blockOutputs, HashMap.getD_empty, HashMap.getD_empty]
  outputs := by
    intro k map hpeek
    rw [h.outputs] at hpeek
    cases hpeek
  totalMints id _ := h.totalMints id
  tx := by
    refine ⟨fun id _ => ?_, fun rune hrune => ?_⟩
    · rw [TransactionCache.available, h.inputRunes, HashMap.getD_empty]
    · rw [h.etching] at hrune
      cases hrune

end Session.Confined

/-- Crediting outputs with entries about runes with the property. -/
theorem getD_creditOutputs_confined {es : List DbLedgerEntry} (hes : ∀ e ∈ es, P e.runeId)
    {m : BlockOutputCache} (hm : ∀ k id, ¬ P id → (m.getD k ∅).getD id [] = []) (k : String × Nat)
    (id : RuneId) (hid : ¬ P id) : ((es.foldl creditOutput m).getD k ∅).getD id [] = [] := by
  induction es generalizing m with
  | nil => exact hm k id hid
  | cons e es ih =>
    refine ih (fun e' he' => hes e' (List.mem_cons_of_mem _ he')) fun k' id' hid' => ?_
    have he := hes e List.mem_cons_self
    rw [creditOutput]
    split
    · split
      · have hne : id' ≠ e.runeId := fun heq => hid' (heq ▸ he)
        rw [getD_cacheOutput, hm k' id' hid', if_neg fun h => hne h.2, List.append_nil]
      · exact hm k' id' hid'
    · exact hm k' id' hid'

/-- The table counts mints of runes with the property. -/
theorem of_pgGetRuneTotalMints {db : Db} {id : RuneId} {n : Nat} (h : db.AllRows fun id _ => P id)
    (hn : pgGetRuneTotalMints id db = some n) : P id := by
  obtain ⟨row, hrow, -⟩ := Option.map_eq_some_iff.mp hn
  obtain ⟨hmem, hid⟩ := mem_of_latest hrow
  exact hid ▸ h.supplyChanges row hmem

/-- Moving the outputs of the block to the LRU cache. -/
theorem peek_moveBlockOutputs_confined {env : Environment} {m : BlockOutputCache} {c : OutputCache}
    (hm : ∀ k id, ¬ P id → (m.getD k ∅).getD id [] = [])
    (hc : ∀ k map, c.peek k = some map → ∀ id, ¬ P id → map.getD id [] = []) :
    ∀ k map, (moveBlockOutputCacheToOutputCache env m c).peek k = some map →
      ∀ id, ¬ P id → map.getD id [] = [] := by
  rw [moveBlockOutputCacheToOutputCache]
  generalize env.outputOrder m.keys = ks
  have hcoherent : c.Coherent fun _ map => ∀ id, ¬ P id → map.getD id [] = [] := hc
  clear hc
  induction ks generalizing c with
  | nil => exact hcoherent
  | cons k ks ih =>
    refine ih ?_
    rw [moveOutput]
    cases hlookup : m.lookup k with
    | none => exact hcoherent
    | some map =>
      have hmap := hm k
      rw [HashMap.getD_of_lookup hlookup] at hmap
      dsimp only
      cases c.peek k with
      | none => exact hcoherent.put hmap
      | some old =>
        refine hcoherent.modify (fun v hv id hid => ?_) fun _ _ _ h => h
        rw [getD_extendBalances, hv id hid, hmap id hid, List.append_nil]

namespace Session.Confined

variable {s s' : Session}

/-- The balances of the outputs that a transaction spends. -/
theorem available_begin {env : Environment} {block : Block} {tx : Transaction} (h : s.Confined P)
    (hrun : Action.run env block s (.beginTransaction tx) = some s') (id : RuneId) (hid : ¬ P id) :
    s'.cache.txCache.available id = [] := by
  obtain ⟨-, rfl⟩ := run_beginTransaction hrun
  obtain ⟨parts, hparts, hfound⟩ := getD_inputRuneBalances env tx.inputs s.cache.blockOutputCache
    s.cache.outputCache s.db id
  show (inputRuneBalancesFromTxInputs env tx.inputs s.cache.blockOutputCache s.cache.outputCache
    s.db).1.getD id [] = []
  -- neither the caches nor the table credit the rune to an input
  have hnil :
      ∀ part input, Found env s.cache.blockOutputCache s.cache.outputCache s.db id part input →
      part = [] := by
    intro part input hf
    cases hcached : cachedOutput s.cache.blockOutputCache s.cache.outputCache input.outputKey with
    | some map =>
      rw [hf.cached map hcached]
      rw [cachedOutput] at hcached
      rcases Option.or_eq_some_iff.mp hcached with hblock | ⟨-, hlru⟩
      · have hnone := h.blockOutputs input.outputKey id hid
        rwa [HashMap.getD_of_lookup hblock] at hnone
      · exact h.outputs _ map hlru id hid
    | none =>
      have hledger : credits input.outputKey id s.db.ledger = [] := by
        rw [credits, List.filter_eq_nil_iff.mpr, List.map_nil]
        intro e he hp
        exact hid ((of_decide_eq_true hp).2.2 ▸ h.rows.stored.ledger e he)
      exact List.Perm.eq_nil (hledger ▸ hf.perm hcached)
  have hall :=
    (List.forall₂_and_left _ _).mp (hfound.imp fun part input hf => ⟨hnil part input hf, hf⟩)
  rw [hparts, List.flatten_eq_nil_iff]
  exact hall.1

/-- Writing entries about runes with the property. -/
theorem writes {es : List DbLedgerEntry} {rs : List DbRune} (h : s.Confined P)
    (hwrites : s.Writes es rs s') (hes : ∀ e ∈ es, P e.runeId)
    (hmints : ∀ id, ¬ P id → s'.cache.runeTotalMintsCache.peek id = none)
    (htx : s'.cache.txCache.Confined P) :
    s'.Confined P where
  rows := h.rows.writes hwrites hes
  blockOutputs := by
    rw [hwrites.blockOutputCache_eq]
    exact getD_creditOutputs_confined hes h.blockOutputs
  outputs k map hpeek := h.outputs k map ((hwrites.peek_outputCache k).symm.trans hpeek)
  totalMints := hmints
  tx := htx

/-- The mint counts after a mint of a rune with the property, or one that is refused. -/
theorem totalMints_mint
    {apply : TransactionCache → RuneId → Nat → DbRune → TransactionCache × Option DbLedgerEntry}
    {id : RuneId} (h : s.Confined P) (hid : s.acceptsMint id = true → P id)
    (hout : s.MintOutcome apply id s') (i : RuneId) (hi : ¬ P i) :
    s'.cache.runeTotalMintsCache.peek i = none := by
  rw [Option.eq_none_iff_forall_not_mem]
  intro n hn
  have hlookup : ∀ {t u : Session} {rune : Option DbRune} {total : Option Nat},
      s.RuneLookup id rune t →
      t.MintsLookup id total u → u.cache.runeTotalMintsCache.peek i ≠ some n := by
    intro t u rune total hrune htotal hu
    rcases htotal.peek hu with hold | ⟨rfl, v, hflush, hdb⟩
    · rw [hrune.totalMints_eq, h.totalMints i hi] at hold
      cases hold
    · have hrows :=
        h.rows.writes (hrune.writes.nil_trans (.flush hflush)) fun e he =>
          absurd he List.not_mem_nil
      exact hi (of_pgGetRuneTotalMints hrows.stored hdb)
  cases hout with
  | unknown _ hrune =>
    rw [hrune.totalMints_eq, h.totalMints i hi] at hn
    cases hn
  | refused _ hrune htotal _ => exact hlookup hrune htotal hn
  | accepted haccepts hrune htotal _ _ hadd =>
    rcases Session.peek_bumpTotalMints hn with ⟨-, hold⟩ | ⟨rfl, -⟩
    · obtain ⟨-, rfl⟩ := Session.addLedgerEntriesToDbCache_eq_some.mp hadd
      exact hlookup hrune htotal hold
    · exact hi (hid haccepts)

end Session.Confined

/-! ## Stages -/

/-- What the stage etches, or mints, has the property. -/
def Stage.Confines (P : RuneId → Prop) (s : Session) : Stage → Prop
  | .call _ (.mint id) | .call _ (.cenotaphMint id) => s.acceptsMint id = true → P id
  | .call _ (.etching _) | .call _ (.cenotaphEtching _) => P s.cache.txCache.location.runeId
  | _ => True

/-- The entries of a call for a mint that is refused. -/
theorem Session.MintOutcome.nil_of_refused
    {apply : TransactionCache → RuneId → Nat → DbRune → TransactionCache × Option DbLedgerEntry}
    {id : RuneId} {s s' : Session} {es : List DbLedgerEntry} {rs : List DbRune}
    (happly : ∀ tx total rune, (apply tx id total rune).2 = none → (apply tx id total rune).1 = tx)
    (hout : s.MintOutcome apply id s') (hwrites : s.Writes es rs s')
    (haccepts : s.acceptsMint id = false) :
    es = [] := by
  have hnil := (hout.refuses happly haccepts).1.entries_eq
  rw [hwrites.entries_eq] at hnil
  exact List.append_cancel_left hnil

/-- **Every stage keeps a property of runes**, be it a call, the end of a block, a rollback or a
restart. -/
theorem Stage.confined {env : Environment} {s s' : Session} {stage : Stage} (h : s.Confined P)
    (hsafe : stage.Confines P s) (hrun : stage.run env s = some s') : s'.Confined P := by
  cases stage with
  | openBlock block =>
    obtain ⟨number, rfl, -⟩ := resetMaxRuneNumber_eq_some hrun
    exact ⟨⟨h.rows.waiting, h.rows.stored⟩, h.blockOutputs, h.outputs, h.totalMints, h.tx⟩
  | call block a =>
    have hrun : a.run env block s = some s' := hrun
    by_cases hbegin : ∃ tx, a = .beginTransaction tx
    · obtain ⟨tx, rfl⟩ := hbegin
      have hnone := h.available_begin hrun
      have hquiet := beginTransaction_quiet hrun
      obtain ⟨-, rfl⟩ := run_beginTransaction hrun
      exact h.writes (.quiet hquiet) (fun e he => absurd he List.not_mem_nil) h.totalMints
        ⟨hnone, fun rune hrune => (Option.some_ne_none rune hrune.symm).elim⟩
    obtain ⟨es, rs, hwrites, hstep⟩ := Action.run_step (fun tx heq => hbegin ⟨tx, heq⟩) hrun
    -- a call etches the transaction's own id, which the condition allows
    have hetch : a.etches → P s.cache.txCache.location.runeId := by
      intro he
      cases a with
      | etching | cenotaphEtching => exact hsafe
      | _ => cases he
    -- an id outside the allowed ones is refused, so its counter is never cached
    have hmint : (∀ id, a = .mint id ∨ a = .cenotaphMint id → es ≠ [] → P id) ∧
        ∀ id, ¬ P id → s'.cache.runeTotalMintsCache.peek id = none := by
      by_cases ha : a.step = 3
      · cases a with
        | mint id =>
          have hout := Session.applyMint_cases hrun
          refine ⟨?_, h.totalMints_mint hsafe hout⟩
          rintro id' (heq | heq) hne
          · cases heq
            refine hsafe (Bool.not_eq_false _ ▸ fun hnot => hne ?_)
            exact hout.nil_of_refused (fun tx => tx.applyMint_none id) hwrites hnot
          · cases heq
        | cenotaphMint id =>
          have hout := Session.applyCenotaphMint_cases hrun
          refine ⟨?_, h.totalMints_mint hsafe hout⟩
          rintro id' (heq | heq) hne
          · cases heq
          · cases heq
            refine hsafe (Bool.not_eq_false _ ▸ fun hnot => hne ?_)
            exact hout.nil_of_refused (fun tx => tx.applyCenotaphMint_none id) hwrites hnot
        | _ => cases ha
      · refine ⟨?_, ?_⟩
        · rintro id (rfl | rfl) <;> exact absurd rfl ha
        · rw [Action.totalMints_eq ha hrun]
          exact h.totalMints
    obtain ⟨hes, htx⟩ := hstep.confined h.tx hetch hmint.1
    exact h.writes hwrites hes hmint.2 htx
  | closeBlock block =>
    -- the outputs of the block move to the cache of outputs
    have hclosing : (closing env block s).Confined P :=
      ⟨⟨h.rows.waiting, h.rows.stored.ledger, h.rows.stored.supplyChanges,
        h.rows.stored.balanceChanges⟩,
        fun k id _ => by rw [closing, Session.endBlock, HashMap.getD_empty, HashMap.getD_empty],
        peek_moveBlockOutputs_confined h.blockOutputs h.outputs, h.totalMints, h.tx⟩
    have hflush : (closing env block s).flush = some s' := hrun
    refine hclosing.writes (.flush hflush) (fun e he => absurd he List.not_mem_nil) ?_ ?_ <;>
      obtain ⟨db, -, rfl⟩ := Session.flush_eq_some.mp hflush
    · exact h.totalMints
    · exact h.tx
  | rollBack height =>
    cases Option.some.inj hrun
    exact ⟨⟨h.rows.waiting, h.rows.stored.rollBack height⟩, h.blockOutputs, h.outputs,
      h.totalMints, h.tx⟩
  | restart cap hcap =>
    obtain ⟨cache, hcache, rfl⟩ := restart_eq_some hrun
    exact .of_empty (IndexCache.new_empty hcache) h.rows.stored

end Runehook
