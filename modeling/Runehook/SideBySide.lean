import Runehook.BlockRows
import Runehook.Readings
import Runehook.WaitingSums

/-! # Two processes side by side

Two processes that index one block on the same tables write the same rows, if what they look up
comes to the same (`Stage.ReadsAlike`) and so do the sums that wait in memory
(`Stage.WaitsAlike`): what else is in their caches makes no difference, and neither do the orders
that their environments leave open, but for the numbers of the entries. This is shown call by call
(`Session.Matches.call`, `Session.CountsLike.call`), transaction by transaction
(`Session.Alongside.transaction`), and for a block (`SameTotals.indexBlock`). -/

namespace Runehook

open Lib

/-! ## Stage by stage -/

/-- Every stage of two runs, in the states that it starts from, has a property. -/
def EveryPair (env env' : Environment) (R : Session → Session → Stage → Prop) (stages : List Stage)
    (s t : Session) : Prop :=
  ∀ done stage rest u v, stages = done ++ stage :: rest → runStages env done s = some u →
    runStages env' done t = some v → R u v stage

section

variable {env env' : Environment} {R : Session → Session → Stage → Prop} {l l' : List Stage}
  {stage : Stage} {s s' t t' : Session}

theorem EveryPair.left (h : EveryPair env env' R (l ++ l') s t) : EveryPair env env' R l s t := by
  rintro done stage rest u v rfl hrun hrun'
  exact h done stage (rest ++ l') u v (by rw [List.append_assoc, List.cons_append]) hrun hrun'

theorem EveryPair.right (h : EveryPair env env' R (l ++ l') s t)
    (hrun : runStages env l s = some s') (hrun' : runStages env' l t = some t') :
    EveryPair env env' R l' s' t' := by
  rintro done stage rest u v rfl hdone hdone'
  exact h (l ++ done) stage rest u v (List.append_assoc _ _ _).symm
    (foldlM_append_eq_some.mpr ⟨s', hrun, hdone⟩) (foldlM_append_eq_some.mpr ⟨t', hrun', hdone'⟩)

theorem EveryPair.head (h : EveryPair env env' R (stage :: l) s t) : R s t stage :=
  h [] stage l s t rfl rfl rfl

theorem EveryPair.tail (h : EveryPair env env' R (stage :: l) s t)
    (hrun : stage.run env s = some s') (hrun' : stage.run env' t = some t') :
    EveryPair env env' R l s' t' :=
  EveryPair.right (l := [stage]) h (foldlM_singleton_eq_some.mpr hrun)
    (foldlM_singleton_eq_some.mpr hrun')

/-- One run beside itself. -/
theorem EveryPair.refl (h : ∀ s stage, R s s stage) (l : List Stage) (s : Session) :
    EveryPair env env R l s s := by
  intro done stage rest u v _ hrun hrun'
  cases Option.some.inj (hrun.symm.trans hrun')
  exact h u stage

/-- A test of every stage of two runs, in the states that it starts from. -/
def checkPairs (env env' : Environment) (p : Session → Session → Stage → Bool) :
    List Stage → Session → Session → Bool
  | [], _, _ => true
  | stage :: stages, s, t => p s t stage && (stage.run env s).all fun s' =>
      (stage.run env' t).all fun t' => checkPairs env env' p stages s' t'

theorem EveryPair.of_check {p : Session → Session → Stage → Bool}
    (hp : ∀ s t stage, p s t stage = true → R s t stage) (h : checkPairs env env' p l s t = true) :
    EveryPair env env' R l s t := by
  induction l generalizing s t with
  | nil =>
    intro done stage rest u v hsplit
    cases done <;> cases hsplit
  | cons first l ih =>
    obtain ⟨hfirst, hrest⟩ := (Bool.and_eq_true _ _).mp h
    rintro (_ | ⟨first', done⟩) stage rest u v hsplit hrun hrun'
    · obtain ⟨rfl, rfl⟩ := List.cons.inj hsplit
      cases Option.some.inj hrun
      cases Option.some.inj hrun'
      exact hp _ _ _ hfirst
    · obtain ⟨rfl, rfl⟩ := List.cons.inj hsplit
      obtain ⟨s', hs', hdone⟩ := foldlM_cons_eq_some.mp hrun
      obtain ⟨t', ht', hdone'⟩ := foldlM_cons_eq_some.mp hrun'
      rw [hs', Option.all_some, ht', Option.all_some] at hrest
      exact ih hrest done stage rest u v rfl hdone hdone'

end

/-- **The sums that wait are alike** in two processes: each that a call adds to, after the lookups
of the call, which flush what waits if they find nothing in a cache. -/
def Stage.WaitsAlike (env : Environment) (s t : Session) : Stage → Prop
  | .call _ a => ∀ u v, a.lookups s = some u → a.lookups t = some v → ∀ id,
      ∀ row ∈ a.rows id s env, ∀ q ∈ row.sum,
        q.Alike (added q (a.rows id s env)) (u.waiting q) (v.waiting q)
  | _ => True

/-- Two processes do the same in a stage: they read alike, and the sums that wait are alike. -/
structure Stage.Alike (env env' : Environment) (s t : Session) (stage : Stage) : Prop where
  /-- What the stage looks up comes to the same. -/
  reads : stage.ReadsAlike env env' s t
  /-- So do the sums that it adds to. -/
  waits : stage.WaitsAlike env s t

/-- A process does the same as itself. -/
theorem Stage.Alike.refl (env : Environment) (s : Session) (stage : Stage) :
    stage.Alike env env s s := by
  refine ⟨.refl env s stage, ?_⟩
  cases stage with
  | call block a =>
    intro u v hu hv id row _ q _
    cases Option.some.inj (hu.symm.trans hv)
    exact Or.inl rfl
  | _ => trivial

/-! ## Calls -/

/-- The caches of two transactions have the same in them, but for the order of the runes and the
event numbers. -/
structure TransactionCache.Matches (tx tx' : TransactionCache) : Prop where
  /-- The same place in the chain. -/
  location : tx.location = tx'.location
  /-- The same rune is etched. -/
  etching : tx.etching = tx'.etching
  /-- The same pointer. -/
  outputPointer : tx.outputPointer = tx'.outputPointer
  /-- The same balances of each rune, in order. -/
  available : ∀ id, tx.available id = tx'.available id
  /-- The same outputs that can get runes. -/
  eligibleOutputs : tx.eligibleOutputs = tx'.eligibleOutputs
  /-- As many outputs. -/
  totalOutputs : tx.totalOutputs = tx'.totalOutputs

/-- Two processes have the same runes, in the tables and waiting, and number the next one alike. -/
structure Session.Matches (s t : Session) : Prop where
  /-- The same network. -/
  network : s.cache.network = t.cache.network
  /-- The same next number. -/
  number : s.cache.nextRuneNumber = t.cache.nextRuneNumber
  /-- The same runes. -/
  runes : s.runes = t.runes

/-- The pointer that a call leaves. -/
def Action.pointer (outputPointer : Option Nat) : Action → Option Nat
  | .runestone r => r.pointer.or outputPointer
  | _ => outputPointer

/-- Calls set the pointer, and nothing else of the outputs. -/
theorem TransactionCache.Step.outputs {env : Environment} {tx tx' : TransactionCache} {a : Action}
    {es : List DbLedgerEntry} {rs : List DbRune} (h : tx.Step env a es rs tx') :
    tx'.eligibleOutputs = tx.eligibleOutputs ∧ tx'.outputPointer = a.pointer tx.outputPointer := by
  cases h with
  | edict e =>
    obtain ⟨inputRunes, n, hfst⟩ := TransactionCache.applyEdict_fst env tx e
    rw [hfst]
    exact ⟨rfl, rfl⟩
  | etching e =>
    unfold withEtching
    cases e.premine <;> exact ⟨rfl, rfl⟩
  | _ => exact ⟨rfl, rfl⟩

section

variable {env env' : Environment} {block : Block} {s s' t t' : Session}

theorem TransactionCache.Matches.edictRuneId_eq {tx tx' : TransactionCache} (h : tx.Matches tx')
    (id : RuneId) : tx.edictRuneId id = tx'.edictRuneId id := by
  rw [TransactionCache.edictRuneId, TransactionCache.edictRuneId, h.etching]

theorem TransactionCache.Matches.edictMoves_eq {tx tx' : TransactionCache} (h : tx.Matches tx') :
    tx.edictMoves = tx'.edictMoves := by
  funext e unallocated
  simp only [TransactionCache.edictMoves, h.eligibleOutputs, h.totalOutputs]

theorem TransactionCache.Matches.receiverAddress_eq {tx tx' : TransactionCache} (h : tx.Matches tx')
    (hsame : env.SameProtocol env') : receiverAddress env tx.location tx.eligibleOutputs =
      receiverAddress env' tx'.location tx'.eligibleOutputs := by
  funext output
  simp only [receiverAddress, h.location, h.eligibleOutputs, hsame.addressFromScript]

/-- **A call means the same for two processes that read alike.** -/
theorem Action.rows_eq (hsame : env.SameProtocol env')
    (htx : s.cache.txCache.Matches t.cache.txCache) {a : Action}
    (hreads : Stage.ReadsAlike env env' s t (.call block a)) (r : RuneId) :
    a.rows r s env = a.rows r t env' ∧ a.rest r s = a.rest r t := by
  -- a call that means the same writes the same rows, since the outputs agree
  have hrows : a.meaning r s = a.meaning r t →
      a.rows r s env = a.rows r t env' ∧ a.rest r s = a.rest r t := by
    intro hmeaning
    simp only [Action.rows, Action.rest, hmeaning, htx.outputPointer, htx.available,
      htx.edictMoves_eq, htx.receiverAddress_eq hsame, and_self]
  cases a with
  | mint id | cenotaphMint id =>
    have hreads : s.readMint id = t.readMint id := hreads
    exact hrows (by simp only [Action.meaning, hreads])
  | edict e =>
    have hreads : ∀ id, s.cache.txCache.edictRuneId e.id = some id →
        s.cache.txCache.available id ≠ [] → s.findsRune e.id = t.findsRune e.id := hreads
    by_cases hid : s.cache.txCache.edictRuneId e.id = some r
    · by_cases hempty : s.cache.txCache.available r = []
      · -- without balances an edict does nothing, whether or not its rune is known
        have hempty' : t.cache.txCache.available r = [] := (htx.available r).symm.trans hempty
        have hnothing : ∀ {env : Environment} {u : Session}, u.cache.txCache.available r = [] →
            (Action.edict e).rows r u env = [] ∧ (Action.edict e).rest r u = [] := by
          intro env u hempty
          obtain ⟨hrows, hrest⟩ := movesRows_nil_balances
            (receiverAddress env u.cache.txCache.location u.cache.txCache.eligibleOutputs) r
            (u.cache.txCache.edictMoves ⟨r, e.amount, e.output⟩ (TransactionCache.unallocated []))
          simp only [Action.rows, Action.rest, Action.ending, Action.meaning,
            Option.elim_none, hempty]
          split
          · exact ⟨hrows, hrest⟩
          · exact ⟨rfl, rfl⟩
        have hs := @hnothing env s hempty
        have ht := @hnothing env' t hempty'
        exact ⟨hs.1.trans ht.1.symm, hs.2.trans ht.2.symm⟩
      -- the two sessions agree on whether the rune is known
      · refine hrows ?_
        simp only [Action.meaning, htx.edictRuneId_eq, hreads r hid hempty]
    -- the edict names another rune on both sides
    · refine hrows ?_
      rw [Action.meaning, Action.meaning, ← htx.edictRuneId_eq, if_neg fun h => hid h.1,
        if_neg fun h => hid h.1]
  | _ => exact hrows (by simp only [Action.meaning, htx.location])

/-- **A call keeps two processes side by side**, if they read alike. -/
theorem Session.Matches.call (h : s.Matches t) (hsame : env.SameProtocol env')
    (htx : s.cache.txCache.Matches t.cache.txCache) {a : Action}
    (ha : ∀ tx, a ≠ .beginTransaction tx) (hreads : Stage.ReadsAlike env env' s t (.call block a))
    (hrun : a.run env block s = some s') (hrun' : a.run env' block t = some t') :
    s'.Matches t' ∧ s'.cache.txCache.Matches t'.cache.txCache ∧ ∃ es rs es' rs',
      s.Writes es rs s' ∧ t.Writes es' rs' t' ∧ (∀ e ∈ es, e.At s.cache.txCache.location) ∧
      (∀ e ∈ es', e.At s.cache.txCache.location) ∧ SameRows es es' ∧
      s'.cache.txCache.location = s.cache.txCache.location ∧
      ∀ r, (ofRune r es).map DbLedgerEntry.row = a.rows r s env := by
  obtain ⟨es, rs, hwrites, hstep, hrows⟩ := Action.run_reads ha hrun
  obtain ⟨es', rs', hwrites', hstep', hrows'⟩ := Action.run_reads ha hrun'
  have hmeans := Action.rows_eq (a := a) hsame htx hreads
  have hat' : ∀ e ∈ es', e.At s.cache.txCache.location := htx.location ▸ hstep'.at_location
  have hsameRows : SameRows es es' := .of_rows hstep.at_location hat' fun id => by
    rw [(hrows id).1, (hrows' id).1, (hmeans id).1]
  -- both etch the same row, or none
  have hetched : a.etchedRune s = a.etchedRune t := by
    cases a <;> simp only [Action.etchedRune, htx.location, h.number]
  have hrunes : s'.runes = t'.runes ∧ s'.cache.nextRuneNumber = t'.cache.nextRuneNumber ∧
      s'.cache.txCache.etching = t'.cache.txCache.etching := by
    rcases Action.runes hrun with ⟨hnone, hr⟩ | ⟨row, hrow, hr⟩ <;>
      rcases Action.runes hrun' with ⟨hnone', hr'⟩ | ⟨row', hrow', hr'⟩
    · have hetches : a.etches = false := by
        rw [← Action.etchedRune_isSome s, hnone]
        rfl
      rw [hr.runes, hr'.runes, hr.number, hr'.number, hstep.etching_eq hetches,
        hstep'.etching_eq hetches]
      exact ⟨h.runes, h.number, htx.etching⟩
    · cases hnone.symm.trans (hetched.trans hrow')
    · cases hrow.symm.trans (hetched.trans hnone')
    · cases Option.some.inj (hrow.symm.trans (hetched.trans hrow'))
      rw [hr.runes, hr'.runes, hr.number, hr'.number, Action.etching_eq hrow hrun,
        Action.etching_eq hrow' hrun', h.runes, h.number]
      exact ⟨rfl, rfl, rfl⟩
  refine ⟨⟨?_, hrunes.2.1, hrunes.1⟩, ⟨?_, hrunes.2.2, ?_, ?_, ?_, ?_⟩, es, rs, es', rs', hwrites,
    hwrites', hstep.at_location, hat', hsameRows, hstep.location_eq, fun r => (hrows r).1⟩
  · rw [hwrites.network_eq, hwrites'.network_eq, h.network]
  · rw [hstep.location_eq, hstep'.location_eq, htx.location]
  · rw [hstep.outputs.2, hstep'.outputs.2, htx.outputPointer]
  · exact fun id => by rw [(hrows id).2, (hrows' id).2, (hmeans id).2]
  · rw [hstep.outputs.1, hstep'.outputs.1, htx.eligibleOutputs]
  · rw [hstep.totalOutputs_eq, hstep'.totalOutputs_eq, htx.totalOutputs]

/-- **A call keeps what will be counted the same** in two processes in which the sums that wait are
alike. -/
theorem Session.CountsLike.call {k : Nat} {a : Action} {es es' : List DbLedgerEntry}
    (h : s.CountsLike t) (hs : s.InStep k) (ht : t.InStep k)
    (halike : (Stage.call block a).WaitsAlike env s t) (hrun : a.run env block s = some s')
    (hrun' : a.run env' block t = some t') (hentries : s'.entries = s.entries ++ es)
    (hentries' : t'.entries = t.entries ++ es')
    (hmeant : ∀ id, (ofRune id es).map DbLedgerEntry.row = a.rows id s env)
    (hrows : SameRows es es') : s'.CountsLike t' := by
  -- the lookups of the call change no sum, so the sums still agree before it adds
  obtain ⟨u, hu, hbefore, hadds⟩ := Action.adds_of_run hrun hentries
  obtain ⟨v, hv, hbefore', hadds'⟩ := Action.adds_of_run hrun' hentries'
  have hcounts : u.CountsLike v :=
    ((hs.countsLike hbefore rfl).trans h).trans (ht.countsLike hbefore' rfl).symm
  refine hcounts.adds hadds hadds' (hs.writes hbefore fun e he => absurd he List.not_mem_nil)
    (ht.writes hbefore' fun e he => absurd he List.not_mem_nil) hrows fun e he q hq => ?_
  -- the entry is one of the rows that both sides read
  have hrow : e.row ∈ a.rows e.runeId s env := by
    rw [← hmeant]
    exact List.mem_map_of_mem (List.mem_filter.mpr ⟨he, decide_eq_true rfl⟩)
  -- what a sum gains is what the rows of its rune add
  have hadded : added q (es.map DbLedgerEntry.row) = added q (a.rows e.runeId s env) := by
    have hid : q.runeId = e.runeId := runeId_of_sum hq
    rw [added_ofRune, hid, hmeant]
  rw [hadded]
  exact halike u v hu hv e.runeId e.row hrow q hq

end

/-! ## Transactions -/

/-- Two processes in the middle of block `h`: they have the same runes and will count the same. -/
structure Session.Alongside (h : Nat) (s t : Session) : Prop extends s.Matches t where
  /-- The tables of the one follow from its ledger. -/
  inStep : s.InStep h
  /-- And those of the other. -/
  inStep' : t.InStep h
  /-- Both will count the same. -/
  counts : s.CountsLike t

section

variable {env env' : Environment} {block : Block} {s s' t t' : Session}

/-- Two environments of one protocol go through the same stages. -/
theorem Transaction.stages_eq (hsame : env.SameProtocol env') (block : Block) (tx : Transaction) :
    tx.stages env block = tx.stages env' block := by
  simp only [Transaction.stages, Transaction.actions, hsame.decipher]

/-- They find the same outputs eligible. -/
theorem scanOutputs_eq (hsame : env.SameProtocol env') (outputs : List ScriptBuf) :
    scanOutputs env outputs = scanOutputs env' outputs := by
  have hstep : scanOutput env = scanOutput env' := by
    funext scan output
    simp only [scanOutput, hsame.isOpReturn]
  rw [scanOutputs, scanOutputs, hstep]

/-- The calls of a transaction keep two processes alongside. -/
theorem Session.Alongside.calls {as : List Action} (hsame : env.SameProtocol env')
    (hno : ∀ a ∈ as, ∀ tx, a ≠ .beginTransaction tx) (h : s.Alongside block.height t)
    (htx : s.cache.txCache.Matches t.cache.txCache)
    (hheight : s.cache.txCache.location.blockHeight = block.height)
    (halike : EveryPair env env' (Stage.Alike env env') (as.map (Stage.call block)) s t)
    (hrun : as.foldlM (Action.run env block) s = some s')
    (hrun' : as.foldlM (Action.run env' block) t = some t') :
    s'.Alongside block.height t' ∧ ∃ es es', s'.entries = s.entries ++ es ∧
      t'.entries = t.entries ++ es' ∧ SameRows es es' := by
  induction as generalizing s t with
  | nil =>
    cases Option.some.inj hrun
    cases Option.some.inj hrun'
    exact ⟨h, [], [], (List.append_nil _).symm, (List.append_nil _).symm, fun _ => rfl⟩
  | cons a as ih =>
    obtain ⟨u, hu, hrun⟩ := foldlM_cons_eq_some.mp hrun
    obtain ⟨v, hv, hrun'⟩ := foldlM_cons_eq_some.mp hrun'
    obtain ⟨hfirst, hrest⟩ := List.forall_mem_cons.mp hno
    -- the first call keeps the two alongside, with the rows it wrote
    have hstage : (Stage.call block a).Alike env env' s t := halike.head
    obtain ⟨hmatches, htxs, es, rs, es', rs', hwrites, hwrites', hat, hat', hrows,
        hlocation, hmeant⟩ :=
      h.toMatches.call hsame htx hfirst hstage.reads hu hv
    have halong : u.Alongside block.height v := {
      toMatches := hmatches
      inStep := h.inStep.writes hwrites fun e he => (hat e he).blockHeight.trans hheight
      inStep' := h.inStep'.writes hwrites' fun e he => (hat' e he).blockHeight.trans hheight
      counts := h.counts.call h.inStep h.inStep' hstage.waits hu hv hwrites.entries_eq
        hwrites'.entries_eq hmeant hrows }
    -- the calls behind it add theirs to these
    obtain ⟨hlast, fs, fs', hfs, hfs', hrows'⟩ := ih hrest halong htxs (hlocation ▸ hheight)
      (halike.tail (show Stage.run env s (.call block a) = some u from hu)
        (show Stage.run env' t (.call block a) = some v from hv)) hrun hrun'
    refine ⟨hlast, es ++ fs, es' ++ fs', ?_, ?_, hrows.append hrows'⟩
    · rw [hfs, hwrites.entries_eq, List.append_assoc]
    · rw [hfs', hwrites'.entries_eq, List.append_assoc]

/-- A transaction begins with the same in both processes. -/
theorem Session.Matches.beginTransaction {tx : Transaction} (h : s.Matches t)
    (hsame : env.SameProtocol env')
    (hreads : Stage.ReadsAlike env env' s t (.call block (.beginTransaction tx)))
    (hrun : Action.run env block s (.beginTransaction tx) = some s')
    (hrun' : Action.run env' block t (.beginTransaction tx) = some t') :
    s'.Matches t' ∧ s'.cache.txCache.Matches t'.cache.txCache ∧
      s'.cache.txCache.location = tx.location block s.cache.network := by
  have hreads : ∀ id, s.readInputs env tx.inputs id = t.readInputs env' tx.inputs id := hreads
  have hscan := scanOutputs_eq hsame tx.outputs
  obtain ⟨-, rfl⟩ := run_beginTransaction hrun
  obtain ⟨-, rfl⟩ := run_beginTransaction hrun'
  -- the inputs are read alike, and the outputs are those of the transaction
  refine ⟨⟨h.network, h.number, h.runes⟩, ⟨?_, rfl, ?_, fun id => ?_, ?_, rfl⟩, rfl⟩
  · show tx.location block s.cache.network = tx.location block t.cache.network
    rw [h.network]
  · show (scanOutputs env tx.outputs).firstEligibleOutput = _
    rw [hscan]
    rfl
  · show s.readInputs env tx.inputs id = t.readInputs env' tx.inputs id
    exact hreads id
  · show (scanOutputs env tx.outputs).eligibleOutputs = _
    rw [hscan]
    rfl

/-- **A transaction keeps two processes alongside**, and their ledgers the same. -/
theorem Session.Alongside.transaction {tx : Transaction} (hsame : env.SameProtocol env')
    (h : s.Alongside block.height t) (hledger : SameLedger s.entries t.entries)
    (halike : EveryPair env env' (Stage.Alike env env') (tx.stages env block) s t)
    (hrun : indexTransaction env block s tx = some s')
    (hrun' : indexTransaction env' block t tx = some t') :
    s'.Alongside block.height t' ∧ SameLedger s'.entries t'.entries := by
  obtain ⟨es, _, hentries, hnumbered, hat⟩ := indexTransaction_numbered hrun
  obtain ⟨es', _, hentries', hnumbered', hat'⟩ := indexTransaction_numbered hrun'
  obtain ⟨u, hu, hcalls⟩ := indexTransaction_eq_some.mp hrun
  obtain ⟨v, hv, hcalls'⟩ := indexTransaction_eq_some.mp hrun'
  have hfirst : (Stage.call block (.beginTransaction tx)).Alike env env' s t := halike.head
  obtain ⟨hmatches, htx, hlocation⟩ := h.toMatches.beginTransaction hsame hfirst.reads hu hv
  -- the beginning of a transaction writes nothing
  have hwrites : s.Writes [] [] u := .quiet (beginTransaction_quiet hu)
  have hwrites' : t.Writes [] [] v := .quiet (beginTransaction_quiet hv)
  have halong : u.Alongside block.height v := {
    toMatches := hmatches
    inStep := h.inStep.writes hwrites fun e he => absurd he List.not_mem_nil
    inStep' := h.inStep'.writes hwrites' fun e he => absurd he List.not_mem_nil
    counts := ((h.inStep.countsLike hwrites rfl).trans h.counts).trans
      (h.inStep'.countsLike hwrites' rfl).symm }
  have hsameCalls : tx.calls env = tx.calls env' := by
    simp only [Transaction.calls, hsame.decipher]
  rw [← hsameCalls] at hcalls'
  obtain ⟨hlast, fs, fs', hfs, hfs', hrows⟩ := halong.calls hsame
    (fun a ha => Transaction.ne_beginTransaction ha) htx (by rw [hlocation]; rfl)
    (halike.tail (show Stage.run env s (.call block (.beginTransaction tx)) = some u from hu)
      (show Stage.run env' t (.call block (.beginTransaction tx)) = some v from hv)) hcalls hcalls'
  refine ⟨hlast, ?_⟩
  rw [hwrites.entries_eq, List.append_nil, hentries] at hfs
  rw [hwrites'.entries_eq, List.append_nil, hentries'] at hfs'
  rw [← List.append_cancel_left hfs, ← List.append_cancel_left hfs'] at hrows
  rw [hentries, hentries']
  exact .transaction hledger hat (h.network ▸ hat') hnumbered hnumbered' hrows

/-- The transactions of a block. -/
theorem Session.Alongside.transactions {txs : List Transaction} (hsame : env.SameProtocol env')
    (h : s.Alongside block.height t) (hledger : SameLedger s.entries t.entries)
    (halike : EveryPair env env' (Stage.Alike env env')
      (txs.flatMap (Transaction.stages env block)) s t)
    (hrun : txs.foldlM (indexTransaction env block) s = some s')
    (hrun' : txs.foldlM (indexTransaction env' block) t = some t') :
    s'.Alongside block.height t' ∧ SameLedger s'.entries t'.entries := by
  induction txs generalizing s t with
  | nil =>
    cases Option.some.inj hrun
    cases Option.some.inj hrun'
    exact ⟨h, hledger⟩
  | cons tx txs ih =>
    obtain ⟨u, hu, hrun⟩ := foldlM_cons_eq_some.mp hrun
    obtain ⟨v, hv, hrun'⟩ := foldlM_cons_eq_some.mp hrun'
    rw [List.flatMap_cons] at halike
    obtain ⟨hnext, hledger'⟩ := h.transaction hsame hledger halike.left hu hv
    rw [indexTransaction_eq_runStages] at hu hv
    rw [← tx.stages_eq hsame block] at hv
    exact ih hnext hledger' (halike.right hu hv) hrun hrun'

end

/-! ## Blocks -/

/-- The reading of `balance_changes` below a height. -/
abbrev Db.balanceReading {M : Type} [AddCommMonoid M] (value : BalanceRow → M)
    (o : RuneId × Address) (k : Nat) (db : Db) : M :=
  reading BalanceRow.owner BalanceRow.blockHeight value o k db.balanceChanges

/-- The reading of a counter of `supply_changes` below a height. -/
abbrev Db.supplyReading (counter : SupplyCounter) (id : RuneId) (k : Nat) (db : Db) : Nat :=
  reading DbSupplyChange.runeId DbSupplyChange.blockHeight (fun r => r.counter counter) id k
    db.supplyChanges

/-- **The tables have the same in them**, as far as the other columns do not follow from the
ledger. -/
structure SameTotals (db db' : Db) : Prop where
  /-- The ledgers are the same, but for the numbers of the entries. -/
  ledger : SameLedger db.ledger db'.ledger
  /-- The runes are the same. -/
  runes : db.runes = db'.runes
  /-- What is minted and burned of a rune is the same at every height. -/
  amounts : ∀ counter, counter = .minted ∨ counter = .burned → ∀ id k,
    db.supplyReading counter id k = db'.supplyReading counter id k
  /-- What an owner has is the same at every height. -/
  balances : ∀ o k,
      db.balanceReading BalanceRow.balance o k = db'.balanceReading BalanceRow.balance o k
  /-- And so are the operations of an owner. -/
  operations : ∀ o k,
    db.balanceReading BalanceRow.totalOperations o k =
      db'.balanceReading BalanceRow.totalOperations o k

/-- Between two blocks the tables have a row wherever the ledger asks for one, the rows of the
ledger are rows of surviving blocks, and nothing waits in memory. -/
structure RestInStep (blocks : List Block) (s : Session) : Prop where
  /-- The blocks are at increasing heights. -/
  increasing : blocks.Pairwise fun b b' => b.height < b'.height
  /-- A row of the ledger is a row of one of them. -/
  heights : ∀ e ∈ s.db.ledger, ∃ b ∈ blocks, e.blockHeight = b.height
  /-- `supply_changes` counts mints, burns and operations. -/
  supply : SupplySound SupplyCounter.IsCount s.db.supplyChanges s.db.ledger
  /-- `balance_changes` has a row of an owner at a height at which the ledger moves its balance. -/
  owners : ∀ o k, HasRow BalanceRow.owner BalanceRow.blockHeight s.db.balanceChanges o k ↔
    ∃ e ∈ s.db.ledger, e.Moves o ∧ e.blockHeight = k
  /-- It has no two of them. -/
  unique : UniqueRows BalanceRow.owner BalanceRow.blockHeight s.db.balanceChanges
  /-- Nothing waits. -/
  dbCache : s.cache.dbCache = .new

section

variable {env env' : Environment} {block : Block} {blocks : List Block} {s s' t t' : Session}

/-- Indexing a block leaves what is read at its height or below. -/
theorem readings_indexBlock (hrest : s.cache.dbCache = .new)
    (hrun : indexBlock env block s = some s') {k : Nat} (hk : k ≤ block.height) :
    (∀ {M : Type} [AddCommMonoid M] (value : BalanceRow → M) (o : RuneId × Address),
      s'.db.balanceReading value o k = s.db.balanceReading value o k) ∧
    ∀ counter id, s'.db.supplyReading counter id k = s.db.supplyReading counter id k := by
  have hrows := (rowsWhere_indexBlock hrest hrun).2 (fun h => decide (h < k))
    (decide_eq_false (Nat.not_lt.mpr hk))
  have hbalance := congrArg BlockRows.balanceChanges hrows
  have hsupply := congrArg BlockRows.supplyChanges hrows
  refine ⟨fun value o => ?_, fun counter id => ?_⟩
  · rw [Db.balanceReading, Db.balanceReading, reading, reading, latestBefore, latestBefore]
    exact congrArg (fun rows => ((latest BalanceRow.owner BalanceRow.blockHeight o rows).map
      value).getD 0) hbalance
  · rw [Db.supplyReading, Db.supplyReading, reading, reading, latestBefore, latestBefore]
    exact congrArg
      (fun rows => ((latest DbSupplyChange.runeId DbSupplyChange.blockHeight id rows).map
        fun r => r.counter counter).getD 0) hsupply

theorem RestInStep.pending_nil (h : RestInStep blocks s) : s.pending = [] := by
  rw [Session.pending, h.dbCache]
  rfl

theorem RestInStep.entries_eq (h : RestInStep blocks s) : s.entries = s.db.ledger := by
  rw [Session.entries, h.dbCache]
  exact List.append_nil _

/-- Between two blocks a session may begin any block above them. -/
theorem RestInStep.inStep (h : RestInStep blocks s) {k : Nat} (hk : ∀ b ∈ blocks, b.height ≤ k) :
    s.InStep k := by
  have hledger : ∀ e ∈ s.db.ledger, e.blockHeight ≤ k := by
    intro e he
    obtain ⟨b, hb, heq⟩ := h.heights e he
    exact heq ▸ hk b hb
  have hrows : ∀ r ∈ s.db.balanceChanges, r.blockHeight ≤ k := by
    intro r hr
    obtain ⟨e, he, -, heq⟩ := (h.owners r.owner r.blockHeight).mp ⟨r, hr, rfl, rfl⟩
    exact heq ▸ hledger e he
  refine ⟨⟨hledger, h.supply, ?_, ?_⟩, ⟨hrows, ?_, ?_⟩, h.owners, h.unique⟩
  · rw [h.pending_nil]
    exact fun e he => absurd he List.not_mem_nil
  all_goals rw [h.pending_nil, h.dbCache]
  · exact .nil _ k
  · exact .nil k _
  · exact .nil k _

/-- What is in the middle of a block in step is so between two, once nothing waits. -/
theorem Session.InStep.rest {k : Nat} (h : s.InStep k)
    (hincreasing : blocks.Pairwise fun b b' => b.height < b'.height)
    (hheights : ∀ e ∈ s.db.ledger, ∃ b ∈ blocks, e.blockHeight = b.height)
    (hrest : s.cache.dbCache = .new) : RestInStep blocks s :=
  ⟨hincreasing, hheights, h.supply.supply, h.owners, h.unique, hrest⟩

/-- With nothing waiting everything is counted that will be. -/
theorem Session.InStep.counted_eq {k : Nat} (h : s.InStep k) (hrest : s.cache.dbCache = .new) :
    (∀ counter id, s.counterCounted counter id = s.db.supplyReading counter id (k + 1)) ∧
    (∀ o, s.balanceCounted o = s.db.balanceReading BalanceRow.balance o (k + 1)) ∧
    ∀ o, s.operationsCounted o = s.db.balanceReading BalanceRow.totalOperations o (k + 1) := by
  have hsupply := h.supply.supply.height_le h.supply.height_le
  refine ⟨fun counter id => ?_, fun o => ?_, fun o => ?_⟩
  · rw [Session.counterCounted, hrest, Db.supplyReading, reading,
      latestBefore_eq_latest fun r hr => Nat.lt_succ_of_le (hsupply r hr)]
    rfl
  · rw [Session.balanceCounted, Session.waiting, Session.waiting, hrest,
      balanceOf_eq_reading h.operations.rows_le]
    exact (add_sub_assoc _ _ _).trans (add_zero _)
  · rw [Session.operationsCounted, Session.pending, hrest,
      totalOperationsOf_eq h.operations.rows_le]
    rfl

/-- Above the block every reading is the same. -/
theorem Session.InStep.supplyReading_eq {h k : Nat} (hs : s.InStep h) (hk : h < k)
    (counter : SupplyCounter) (id : RuneId) :
    s.db.supplyReading counter id k = s.db.supplyReading counter id (h + 1) := by
  have hle := hs.supply.supply.height_le hs.supply.height_le
  rw [Db.supplyReading, Db.supplyReading, reading, reading,
    latestBefore_eq_latest fun r hr => (hle r hr).trans_lt hk,
    latestBefore_eq_latest fun r hr => Nat.lt_succ_of_le (hle r hr)]

theorem Session.InStep.balanceReading_eq {M : Type} [AddCommMonoid M] {value : BalanceRow → M}
    {h k : Nat} (hs : s.InStep h) (hk : h < k) (o : RuneId × Address) :
    s.db.balanceReading value o k = s.db.balanceReading value o (h + 1) := by
  have hle := hs.operations.rows_le
  rw [Db.balanceReading, Db.balanceReading, reading, reading,
    latestBefore_eq_latest fun r hr => (hle r hr).trans_lt hk,
    latestBefore_eq_latest fun r hr => Nat.lt_succ_of_le (hle r hr)]

/-- **A block keeps a session in step.** -/
theorem RestInStep.index (h : RestInStep blocks s) (habove : ∀ b ∈ blocks, b.height < block.height)
    (hrun : indexBlock env block s = some s') :
    RestInStep (blocks ++ [block]) s' ∧ s'.InStep block.height := by
  obtain ⟨t, htxs, hflush⟩ := indexBlock_eq_some.mp hrun
  obtain ⟨es, rs, hwrites, hat, -⟩ := indexTransactions_writes htxs
  have hes : ∀ e ∈ es, e.blockHeight = block.height := by
    intro e he
    obtain ⟨tx, -, hat⟩ := hat e he
    exact hat.blockHeight
  obtain ⟨hsupply, hoperations, howners, hunique⟩ :=
    (h.inStep fun b hb => (habove b hb).le).writes hwrites hes
  -- closing the block only empties its cache of outputs and moves the height
  have hclosing : (closing env block t).InStep block.height :=
    ⟨⟨hsupply.height_le, hsupply.supply, hsupply.pending_height, hsupply.pendingSupply⟩,
      ⟨hoperations.rows_le, hoperations.increases, hoperations.deductions⟩, howners, hunique⟩
  have hs' := (hclosing.flush hflush).1
  have hledger : s'.db.ledger = s.db.ledger ++ es := by
    obtain ⟨db, hdb, rfl⟩ := Session.flush_eq_some.mp hflush
    have hentries := hwrites.entries_eq
    rw [h.entries_eq] at hentries
    exact (DbCache.flush_ledger hdb).trans hentries
  refine ⟨hs'.rest ?_ ?_ (rowsWhere_indexBlock h.dbCache hrun).1, hs'⟩
  · refine List.pairwise_append.mpr ⟨h.increasing, List.pairwise_singleton _ _,
      fun b hb b' hb' => ?_⟩
    rw [List.mem_singleton.mp hb']
    exact habove b hb
  · intro e he
    rw [hledger] at he
    rcases List.mem_append.mp he with he | he
    · obtain ⟨b, hb, heq⟩ := h.heights e he
      exact ⟨b, List.mem_append_left _ hb, heq⟩
    · exact ⟨block, List.mem_append_right _ (List.mem_singleton.mpr rfl), hes e he⟩

/-- Two processes with the same tables at rest open a block alongside. -/
theorem SameTotals.openBlock (h : SameTotals s.db t.db)
    (hnetwork : s.cache.network = t.cache.network) (hs : RestInStep blocks s)
    (ht : RestInStep blocks t) (habove : ∀ b ∈ blocks, b.height < block.height)
    (hrun : s.resetMaxRuneNumber = some s') (hrun' : t.resetMaxRuneNumber = some t') :
    s'.Alongside block.height t' ∧ SameLedger s'.entries t'.entries := by
  have hle : ∀ b ∈ blocks, b.height ≤ block.height := fun b hb => (habove b hb).le
  have hledger : SameLedger s.entries t.entries := by
    rw [hs.entries_eq, ht.entries_eq]
    exact h.ledger
  have hrunes : s.runes = t.runes := by
    rw [Session.runes_of_rest hs.dbCache, Session.runes_of_rest ht.dbCache, h.runes]
  have hstep := hs.inStep hle
  have hstep' := ht.inStep hle
  -- nothing waits at rest, so the sums of the sessions are those of their tables
  obtain ⟨hamounts, hbalances, hoperations⟩ := hstep.counted_eq hs.dbCache
  obtain ⟨hamounts', hbalances', hoperations'⟩ := hstep'.counted_eq ht.dbCache
  have hcounts : s.CountsLike t :=
    ⟨fun counter hc id => by rw [hamounts, hamounts', h.amounts counter hc],
      fun o => by rw [hbalances, hbalances', h.balances],
      fun o => by rw [hoperations, hoperations', h.operations]⟩
  obtain ⟨number, rfl, hnumber⟩ := resetMaxRuneNumber_eq_some hrun
  obtain ⟨number', rfl, hnumber'⟩ := resetMaxRuneNumber_eq_some hrun'
  -- both numbers come from the same table of runes
  have hsame : number = number' := by
    rw [pgGetMaxRuneNumber, h.runes, ← pgGetMaxRuneNumber] at hnumber
    exact Option.some.inj (hnumber.symm.trans hnumber')
  have hwrites : s.Writes [] [] (s.setNextRuneNumber (number + 1)) :=
    .quiet (.setNextRuneNumber s _)
  have hwrites' : t.Writes [] [] (t.setNextRuneNumber (number' + 1)) :=
    .quiet (.setNextRuneNumber t _)
  refine ⟨⟨⟨hnetwork, congrArg (· + 1) hsame, hrunes⟩, hstep.writes hwrites ?_,
    hstep'.writes hwrites' ?_, ?_⟩, hledger⟩
  · exact fun e he => absurd he List.not_mem_nil
  · exact fun e he => absurd he List.not_mem_nil
  · exact ((hstep.countsLike hwrites rfl).trans hcounts).trans (hstep'.countsLike hwrites' rfl).symm

/-- **A block keeps the tables of two processes the same.** -/
theorem SameTotals.indexBlock (hsame : env.SameProtocol env') (h : SameTotals s.db t.db)
    (hnetwork : s.cache.network = t.cache.network) (hs : RestInStep blocks s)
    (ht : RestInStep blocks t) (habove : ∀ b ∈ blocks, b.height < block.height)
    (halike : EveryPair env env' (Stage.Alike env env') (block.stages env) s t)
    (hrun : indexBlock env block s = some s') (hrun' : indexBlock env' block t = some t') :
    SameTotals s'.db t'.db ∧ RestInStep (blocks ++ [block]) s' ∧
    RestInStep (blocks ++ [block]) t' := by
  obtain ⟨hrest, hafter⟩ := hs.index habove hrun
  obtain ⟨hrest', hafter'⟩ := ht.index habove hrun'
  obtain ⟨u, hu, hflush⟩ := indexBlock_eq_some.mp hrun
  obtain ⟨v, hv, hflush'⟩ := indexBlock_eq_some.mp hrun'
  obtain ⟨s₁, hopen, htxs⟩ := indexTransactions_eq_some.mp hu
  obtain ⟨t₁, hopen', htxs'⟩ := indexTransactions_eq_some.mp hv
  have hcalls := (halike.tail (show Stage.run env s (.openBlock block) = some s₁ from hopen)
    (show Stage.run env' t (.openBlock block) = some t₁ from hopen')).left
  -- the flush at the end inserts what waits: the tables are those that the calls promise
  obtain ⟨halong₁, hledger₁⟩ := h.openBlock hnetwork hs ht habove hopen hopen'
  obtain ⟨halong, hledger⟩ := halong₁.transactions hsame hledger₁ hcalls htxs htxs'
  have hclosing : ∀ {env : Environment} {w : Session}, w.InStep block.height →
      (closing env block w).InStep block.height ∧ (closing env block w).CountsLike w := by
    rintro env w ⟨hsupply, hoperations, howners, hunique⟩
    exact ⟨⟨⟨hsupply.height_le, hsupply.supply, hsupply.pending_height, hsupply.pendingSupply⟩,
      ⟨hoperations.rows_le, hoperations.increases, hoperations.deductions⟩, howners, hunique⟩,
      fun _ _ _ => rfl, fun _ => rfl, fun _ => rfl⟩
  have hcounts : s'.CountsLike t' := by
    have hleft := ((hclosing halong.inStep).1.flush hflush).2.trans (hclosing halong.inStep).2
    have hright := ((hclosing halong.inStep').1.flush hflush').2.trans (hclosing halong.inStep').2
    exact (hleft.trans halong.counts).trans hright.symm
  obtain ⟨hamounts, hbalances, hoperations⟩ := hafter.counted_eq hrest.dbCache
  obtain ⟨hamounts', hbalances', hoperations'⟩ := hafter'.counted_eq hrest'.dbCache
  refine ⟨⟨?_, ?_, fun counter hc id k => ?_, fun o k => ?_, fun o k => ?_⟩, hrest, hrest'⟩
  · obtain ⟨db, hdb, rfl⟩ := Session.flush_eq_some.mp hflush
    obtain ⟨db', hdb', rfl⟩ := Session.flush_eq_some.mp hflush'
    have hall : db.ledger = u.entries := (DbCache.flush_ledger hdb :)
    have hall' : db'.ledger = v.entries := (DbCache.flush_ledger hdb' :)
    show SameLedger db.ledger db'.ledger
    rw [hall, hall']
    exact hledger
  · rw [(Session.flush_runes hflush).1, (Session.flush_runes hflush').1]
    exact halong.runes
  -- above the block everything is counted, below it the rows are those from before
  · rcases Nat.lt_or_ge block.height k with hk | hk
    · rw [hafter.supplyReading_eq hk, hafter'.supplyReading_eq hk, ← hamounts, ← hamounts',
        hcounts.amounts counter hc]
    · rw [(readings_indexBlock hs.dbCache hrun hk).2, (readings_indexBlock ht.dbCache hrun' hk).2,
        h.amounts counter hc]
  · rcases Nat.lt_or_ge block.height k with hk | hk
    · rw [hafter.balanceReading_eq hk, hafter'.balanceReading_eq hk, ← hbalances, ← hbalances',
        hcounts.balances]
    · rw [(readings_indexBlock hs.dbCache hrun hk).1, (readings_indexBlock ht.dbCache hrun' hk).1,
        h.balances]
  · rcases Nat.lt_or_ge block.height k with hk | hk
    · rw [hafter.balanceReading_eq hk, hafter'.balanceReading_eq hk, ← hoperations, ← hoperations',
        hcounts.operations]
    · rw [(readings_indexBlock hs.dbCache hrun hk).1, (readings_indexBlock ht.dbCache hrun' hk).1,
        h.operations]

end

end Runehook
