import Runehook.Allocation
import Runehook.Holdings
import Runehook.RuneTable

/-! # What a mined transaction writes

The ledger rows that `index_block` writes for a transaction whose artifact neither etches nor mints,
rune by rune (`indexBlock_rows`): those of `Artifact.rows`, off the front of a deque that holds what
the ledger credits to the outputs it spends. `calls_rows` is about the calls of the transaction, and
`Session.Serves` about the sessions that know what is credited. -/

namespace Runehook

open Lib

/-! ## Moves -/

namespace TransactionCache

theorem senderEntries_rows (location : TransactionLocation) (id : RuneId) (output : Option Nat)
    (receiver : Option Address) (operation : DbLedgerOperation)
    (senders : List (Nat × Address)) (n : Nat) :
    (senderEntries location id output receiver operation senders n).1.map DbLedgerEntry.row =
      senders.map fun s => ⟨id, operation, some s.1, output, some s.2, receiver⟩ := by
  induction senders generalizing n with
  | nil => rfl
  | cons s senders ih => exact congrArg _ (ih (n + 1))

theorem moveRuneBalanceToOutput_rows (env : Environment) (location : TransactionLocation)
    (output : Option Nat) (id : RuneId) (balances : List InputRuneBalance)
    (outputs : HashMap Nat ScriptBuf) (amount n : Nat) :
    (moveRuneBalanceToOutput env location output id balances outputs amount n).entries.map
      DbLedgerEntry.row =
        moveRows (receiverAddress env location outputs) id output
      (takeBalances amount balances 0 []) := by
  rw [moveRuneBalanceToOutput, moveRows]
  dsimp only
  rw [List.map_append, senderEntries_rows]
  split <;> rfl

theorem applyMoves_rows (env : Environment) (location : TransactionLocation) (id : RuneId)
    (outputs : HashMap Nat ScriptBuf) (moves : List (Option Nat × Nat))
    (balances : List InputRuneBalance) (n : Nat) :
    (applyMoves env location id outputs moves balances n).entries.map DbLedgerEntry.row =
        movesRows (receiverAddress env location outputs) id moves balances ∧
      (applyMoves env location id outputs moves balances n).balances =
        movesRest moves balances := by
  induction moves generalizing balances n with
  | nil => exact ⟨rfl, rfl⟩
  | cons move moves ih =>
    obtain ⟨hrows, hrest⟩ := ih (takeBalances move.2 balances 0 []).balances
      (moveRuneBalanceToOutput env location move.1 id balances outputs move.2 n).nextEventIndex
    refine ⟨?_, hrest⟩
    rw [applyMoves, movesRows, ← hrows, List.map_append, moveRuneBalanceToOutput_rows]
    rfl

/-! ## Edicts -/

section

variable {env : Environment} {tx : TransactionCache} {id : RuneId}

theorem edictRuneId_of_ne {e : RuneId} (h : e ≠ .placeholder) : tx.edictRuneId e = some e :=
  if_neg fun he => h ((RuneId.eq_placeholder_iff e).mp he)

/-- An edict changes the balances and the event index. -/
theorem applyEdict_fst (env : Environment) (tx : TransactionCache) (e : Edict) :
    ∃ inputRunes n, (tx.applyEdict env e).1 =
      { tx with
        inputRunes := inputRunes
        nextEventIndex := n } := by
  rcases applyEdict_cases env tx e with he | ⟨id, balances, -, -, he⟩ <;> rw [he]
  · exact ⟨_, _, rfl⟩
  · exact ⟨_, _, rfl⟩

/-- An edict on no rune does nothing. -/
theorem applyEdict_of_none {e : Edict} (h : tx.edictRuneId e.id = none) :
    tx.applyEdict env e = (tx, []) := by
  rw [applyEdict, h]

variable (env) in
/-- **An edict** makes its moves of the rune that it means. -/
theorem applyEdict_moves {e : Edict} (hid : tx.edictRuneId e.id = some id) :
    (tx.applyEdict env e).2.map DbLedgerEntry.row =
        movesRows (receiverAddress env tx.location tx.eligibleOutputs) id
          (tx.edictMoves e (unallocated (tx.available id))) (tx.available id) ∧
      ∀ id', (tx.applyEdict env e).1.available id' =
        if id = id' then
          movesRest (tx.edictMoves e (unallocated (tx.available id))) (tx.available id)
        else tx.available id' := by
  rw [applyEdict, hid]
  dsimp only
  cases hlookup : tx.inputRunes.lookup id with
  | none =>
    -- nothing is there to move
    have hnone : tx.available id = [] := by rw [available, HashMap.getD, hlookup, Option.getD_none]
    obtain ⟨hrows, hrest⟩ :=
      movesRows_nil_balances (receiverAddress env tx.location tx.eligibleOutputs) id
        (tx.edictMoves e (unallocated []))
    rw [hnone, hrows, hrest]
    refine ⟨rfl, fun id' => ?_⟩
    dsimp only
    split
    · rename_i he
      exact he ▸ hnone
    · rfl
  | some balances =>
    obtain ⟨hrows, hrest⟩ := applyMoves_rows env tx.location id tx.eligibleOutputs
      (tx.edictMoves e (unallocated balances)) balances tx.nextEventIndex
    have hsome : tx.available id = balances := by rw [available, HashMap.getD_of_lookup hlookup]
    rw [hsome]
    refine ⟨hrows, fun id' => ?_⟩
    rw [available_insert, ← hrest]
    by_cases he : id = id'
    · rw [if_pos he, if_pos he.symm]
    · rw [if_neg he, if_neg (Ne.symm he)]

variable (env) in
/-- The entries of an edict are of the rune that it means. -/
theorem applyEdict_runeId {e : Edict} (hid : tx.edictRuneId e.id = some id) :
    ∀ e' ∈ (tx.applyEdict env e).2, e'.runeId = id := by
  intro e' he'
  rcases applyEdict_cases env tx e with he | ⟨id', balances, hid', -, he⟩ <;> rw [he] at he'
  · exact absurd he' List.not_mem_nil
  · obtain ⟨output, hmove⟩ := applyMoves_moveOf _ _ _ e' he'
    exact hmove.runeId.trans (Option.some.inj (hid'.symm.trans hid))

/-- **An edict**, rune by rune. -/
theorem applyEdict_rows (env : Environment) (tx : TransactionCache) (e : Edict) (id : RuneId) :
    (ofRune id (tx.applyEdict env e).2).map DbLedgerEntry.row =
        (if tx.edictRuneId e.id =
          some id then movesRows (receiverAddress env tx.location tx.eligibleOutputs) id
          (tx.edictMoves e (unallocated (tx.available id))) (tx.available id) else []) ∧
      (tx.applyEdict env e).1.available id =
        if tx.edictRuneId e.id = some id then
          movesRest (tx.edictMoves e (unallocated (tx.available id))) (tx.available id)
        else tx.available id := by
  cases hmeans : tx.edictRuneId e.id with
  | none =>
    rw [applyEdict_of_none hmeans, if_neg (Option.some_ne_none id).symm,
      if_neg (Option.some_ne_none id).symm]
    exact ⟨rfl, rfl⟩
  | some id' =>
    obtain ⟨hrows, hrest⟩ := applyEdict_moves env hmeans
    have hruneId := applyEdict_runeId env hmeans
    rw [hrest]
    by_cases he : id' = id
    · subst he
      rw [if_pos rfl, if_pos rfl, if_pos rfl, ofRune_eq_self hruneId]
      exact ⟨hrows, rfl⟩
    · have hne : ¬some id' = some id := fun h => he (Option.some.inj h)
      rw [if_neg hne, if_neg hne, if_neg he, ofRune_eq_nil fun e' he' =>
        (hruneId e' he').trans_ne he]
      exact ⟨rfl, rfl⟩

/-- The edicts under the ids of the runes that they mean. Those that mean none are left out. -/
def resolve (tx : TransactionCache) (edicts : List Edict) : List Edict :=
  edicts.filterMap fun e => (tx.edictRuneId e.id).map fun id => { e with id := id }

/-- Edicts on real ids mean those. -/
theorem resolve_eq_self {edicts : List Edict} (hids : ∀ e ∈ edicts, e.id ≠ .placeholder) :
    tx.resolve edicts = edicts := by
  induction edicts with
  | nil => rfl
  | cons e edicts ih =>
    obtain ⟨hid, hids⟩ := List.forall_mem_cons.mp hids
    rw [resolve, List.filterMap_cons, edictRuneId_of_ne hid]
    exact congrArg (List.cons e) (ih hids)

/-- The edicts of a runestone, one after the other. -/
def applyEdicts (env : Environment) :
    List Edict → TransactionCache → TransactionCache × List DbLedgerEntry
  | [], tx => (tx, [])
  | e :: edicts, tx =>
    let (tx, entries) := tx.applyEdict env e
    let (tx, more) := applyEdicts env edicts tx
    (tx, entries ++ more)

theorem applyEdicts_fst (env : Environment) (edicts : List Edict) (tx : TransactionCache) :
    ∃ inputRunes n, (applyEdicts env edicts tx).1 =
      { tx with
        inputRunes := inputRunes
        nextEventIndex := n } := by
  induction edicts generalizing tx with
  | nil => exact ⟨_, _, rfl⟩
  | cons e edicts ih =>
    obtain ⟨m, n, hfirst⟩ := applyEdict_fst env tx e
    obtain ⟨m', n', hrest⟩ := ih (tx.applyEdict env e).1
    refine ⟨m', n', ?_⟩
    rw [applyEdicts]
    dsimp only
    rw [hrest, hfirst]

/-- The moves of an edict on a rune, if it is one on that rune, and then those of the others. -/
theorem edictsMoves_resolve_cons (tx : TransactionCache) (id : RuneId) (e : Edict)
    (edicts : List Edict) (total : Nat) :
    edictsMoves tx.edictMoves id (tx.resolve (e :: edicts)) total =
      if tx.edictRuneId e.id = some id then tx.edictMoves e total ++
        edictsMoves tx.edictMoves id (tx.resolve edicts) (movesLeave (tx.edictMoves e total) total)
      else edictsMoves tx.edictMoves id (tx.resolve edicts) total := by
  rw [resolve, List.filterMap_cons]
  cases tx.edictRuneId e.id with
  | none => rfl
  | some id' =>
    simp only [Option.map_some, Option.some.injEq]
    rfl

variable (env) in
/-- **The edicts**, rune by rune. -/
theorem applyEdicts_rows (edicts : List Edict) (hpos : ∀ b ∈ tx.available id, 0 < b.amount)
    (hfits : totalAmount (tx.available id) < 2 ^ 128) :
    (ofRune id (applyEdicts env edicts tx).2).map DbLedgerEntry.row =
        movesRows (receiverAddress env tx.location tx.eligibleOutputs) id
          (edictsMoves tx.edictMoves id (tx.resolve edicts) (totalAmount (tx.available id)))
      (tx.available id) ∧ (applyEdicts env edicts tx).1.available id =
        movesRest (edictsMoves tx.edictMoves id (tx.resolve edicts) (totalAmount (tx.available id)))
          (tx.available id) := by
  induction edicts generalizing tx with
  | nil => exact ⟨rfl, rfl⟩
  | cons e edicts ih =>
    obtain ⟨hrows, hrest⟩ := applyEdict_rows env tx e id
    obtain ⟨m, n, hfst⟩ := applyEdict_fst env tx e
    rw [unallocated_eq hfits] at hrows hrest
    -- the edict leaves positive balances, of the total that its moves leave
    have hnext : (∀ b ∈ (tx.applyEdict env e).1.available id, 0 < b.amount) ∧
        totalAmount ((tx.applyEdict env e).1.available id) =
          if tx.edictRuneId e.id =
            some id then movesLeave (tx.edictMoves e (totalAmount (tx.available id)))
            (totalAmount (tx.available id)) else totalAmount (tx.available id) := by
      rw [hrest]
      split
      · exact movesRest_left hpos hfits
      · exact ⟨hpos, rfl⟩
    have hle : totalAmount ((tx.applyEdict env e).1.available id) < 2 ^ 128 := by
      rw [hnext.2]
      split
      · exact (movesLeave_le _ _).trans_lt hfits
      · exact hfits
    obtain ⟨hrows', hrest'⟩ := ih hnext.1 hle
    have hmoves : (tx.applyEdict env e).1.edictMoves = tx.edictMoves := by
      rw [hfst]
      rfl
    have hresolve : (tx.applyEdict env e).1.resolve edicts = tx.resolve edicts := by
      rw [hfst]
      rfl
    have hreceiver :
        receiverAddress env (tx.applyEdict env e).1.location
        (tx.applyEdict env e).1.eligibleOutputs =
          receiverAddress env tx.location tx.eligibleOutputs := by rw [hfst]
    rw [hmoves, hresolve, hnext.2, hrest] at hrows' hrest'
    rw [hreceiver] at hrows'
    rw [applyEdicts, edictsMoves_resolve_cons]
    dsimp only
    rw [ofRune_append, List.map_append, hrows, hrows', hrest']
    split
    · rw [movesRows_append, movesRest_append]
      exact ⟨rfl, rfl⟩
    · exact ⟨rfl, rfl⟩

/-! ## The end of a transaction, and cenotaphs -/

/-- **The final allocation**, rune by rune: everything goes to the pointer. -/
theorem allocateRemainingBalances_rows (env : Environment) (tx : TransactionCache) (id : RuneId) :
    (ofRune id (tx.allocateRemainingBalances env).2).map DbLedgerEntry.row =
      movesRows (receiverAddress env tx.location tx.eligibleOutputs) id [(tx.outputPointer, 0)]
        (tx.available id) := by
  obtain ⟨hnone, hsome⟩ := ofRune_allocate env tx id
  by_cases hid : id ∈ tx.inputRunes.keys
  · obtain ⟨m, hm⟩ := hsome hid
    rw [hm, moveToPointer, movesRows, movesRows, List.append_nil]
    exact moveRuneBalanceToOutput_rows ..
  · rw [hnone hid, available_of_not_mem hid, (movesRows_nil_balances _ id _).1, List.map_nil]

theorem burnEntries_rows (location : TransactionLocation) (id : RuneId)
    (balances : List InputRuneBalance) (n : Nat) :
    (burnEntries location id balances n).1.map DbLedgerEntry.row = balances.map (burnRow id) := by
  induction balances generalizing n with
  | nil => rfl
  | cons b balances ih => exact congrArg _ (ih (n + 1))

/-- **A cenotaph**, rune by rune: everything is burned. -/
theorem applyCenotaphInputBurn_rows (env : Environment) (tx : TransactionCache) (id : RuneId) :
    (ofRune id (tx.applyCenotaphInputBurn env).2).map DbLedgerEntry.row =
      (tx.available id).map (burnRow id) := by
  obtain ⟨hnone, hsome⟩ := ofRune_applyCenotaphInputBurn env tx id
  by_cases hid : id ∈ tx.inputRunes.keys
  · obtain ⟨m, hm⟩ := hsome hid
    rw [hm, burnEntries_rows]
  · rw [hnone hid, available_of_not_mem hid, List.map_nil, List.map_nil]

end

end TransactionCache

/-! ## The calls -/

namespace Session

variable {env : Environment} {block : Block} {s s' : Session}

/-- A rune of the table is found. -/
theorem RuneLookup.isSome_of_registers {id : RuneId} {rune : Option DbRune}
    (h : s.RuneLookup id rune s') (hid : id ≠ .placeholder) (hregisters : s.Registers id) :
    rune.isSome := by
  have hfound : (s.runeById id).isSome := by
    obtain ⟨r, hr, hrid⟩ := hregisters
    exact List.find?_isSome.mpr ⟨r, hr, decide_eq_true hrid⟩
  cases h with
  | etching hplaceholder => exact absurd hplaceholder hid
  | hit | miss => rfl
  | unknown _ _ hflush hdb => rwa [← pgGetRuneById_flush hflush, hdb] at hfound

/-- An edict on a rune of the table is carried out. -/
theorem applyEdict_of_registers {e : Edict} (h : s.applyEdict env e = some s')
    (hid : e.id ≠ .placeholder) (hregisters : s.Registers e.id) :
    s.Writes (s.cache.txCache.applyEdict env e).2 [] s' ∧
      s'.cache.txCache = (s.cache.txCache.applyEdict env e).1 ∧ s.SameRunes s' := by
  obtain ⟨⟨rune, t⟩, hrune, h⟩ := Option.bind_eq_some_iff.mp h
  have hlook := runeLookup_of_eq_some hrune
  obtain ⟨row, rfl⟩ := Option.isSome_iff_exists.mp (hlook.isSome_of_registers hid hregisters)
  obtain ⟨hwrites, htx⟩ := writes_add h
  have hsame := (SameRunes.lookup hlook).trans ((SameRunes.setTxCache t _).trans (.add h))
  rw [hlook.txCache_eq] at hwrites htx
  exact ⟨hlook.writes.nil_trans hwrites, htx, hsame⟩

/-- The edicts of a runestone on runes of the table are carried out. -/
theorem applyEdicts_of_registers {edicts : List Edict}
    (h : (edicts.map Action.edict).foldlM (Action.run env block) s = some s')
    (hedicts : ∀ e ∈ edicts, e.id ≠ .placeholder ∧ s.Registers e.id) :
    s.Writes (s.cache.txCache.applyEdicts env edicts).2 [] s' ∧
      s'.cache.txCache = (s.cache.txCache.applyEdicts env edicts).1 := by
  induction edicts generalizing s with
  | nil =>
    cases Option.some.inj h
    exact ⟨.quiet (.refl _), rfl⟩
  | cons e edicts ih =>
    obtain ⟨t, ht, h⟩ := foldlM_cons_eq_some.mp h
    obtain ⟨⟨hid, hregisters⟩, hrest⟩ := List.forall_mem_cons.mp hedicts
    obtain ⟨hwrites, htx, hsame⟩ := applyEdict_of_registers ht hid hregisters
    -- the other ids are known after the edict as before it
    obtain ⟨hwrites', htx'⟩ := ih h fun e' he' => by
      refine ⟨(hrest e' he').1, ?_⟩
      rw [Registers, hsame.runes]
      exact (hrest e' he').2
    rw [htx] at hwrites' htx'
    exact ⟨hwrites.trans hwrites', htx'⟩

end Session

/-! ## The transaction -/

/-- **The calls of a transaction** whose artifact only moves write the rows of the artifact, rune by
rune. -/
theorem calls_rows {env : Environment} {block : Block} {tx : Transaction} {artifact : Artifact}
    {s t : Session} (hartifact : env.decipher tx.outputs = some artifact)
    (honly : artifact.OnlyMoves s.Registers)
    (hheld : ∀ id, ∀ b ∈ s.cache.txCache.available id, b.Held)
    (hfits : ∀ id, totalAmount (s.cache.txCache.available id) < 2 ^ 128)
    (hrun : (tx.calls env).foldlM (Action.run env block) s = some t) :
    ∃ es, s.Writes es [] t ∧ ∀ id, (ofRune id es).map DbLedgerEntry.row = artifact.rows
      (receiverAddress env s.cache.txCache.location s.cache.txCache.eligibleOutputs)
      s.cache.txCache.edictMoves id
      ((Mempool.outputPointer artifact).or s.cache.txCache.outputPointer)
      (s.cache.txCache.available id) := by
  rw [Transaction.calls, hartifact] at hrun
  cases artifact with
  | runestone r =>
    obtain ⟨hetching, hmint, hedicts⟩ := honly
    have hcalls : ((some (Artifact.runestone r)).map Artifact.actions).getD [] ++
        [Action.endTransaction] =
          .runestone r :: (r.edicts.map Action.edict ++ [.endTransaction]) := by
      simp [Artifact.actions, hetching, hmint]
    rw [hcalls] at hrun
    obtain ⟨u, hu, hrun⟩ := foldlM_cons_eq_some.mp hrun
    obtain ⟨v, hv, hend⟩ := foldlM_append_eq_some.mp hrun
    rw [foldlM_singleton_eq_some] at hend
    -- the runestone sets the pointer
    have hpointer : s.Writes [] [] u ∧ u.runes = s.runes ∧ u.cache.txCache =
        { s.cache.txCache with outputPointer := r.pointer.or s.cache.txCache.outputPointer } := by
      cases Option.some.inj hu
      rw [Session.applyRunestone]
      cases r.pointer with
      | none => exact ⟨.quiet (.refl s), rfl, rfl⟩
      | some p => exact ⟨.quiet (.setTxCache s _), rfl, rfl⟩
    obtain ⟨hu, hrunes, htx⟩ := hpointer
    obtain ⟨hwrites, htx'⟩ := Session.applyEdicts_of_registers hv fun e he => by
      rw [Session.Registers, hrunes]
      exact hedicts e he
    have hwritesEnd : v.Writes (v.cache.txCache.allocateRemainingBalances env).2 [] t :=
      (Session.writes_add hend).1
    rw [htx'] at hwritesEnd
    refine ⟨_, (hu.nil_trans hwrites).trans hwritesEnd, fun id => ?_⟩
    rw [htx]
    generalize htx₀ : ({ s.cache.txCache with
      outputPointer := r.pointer.or s.cache.txCache.outputPointer } : TransactionCache) = tx₀
    have havailable : tx₀.available id = s.cache.txCache.available id := by
      rw [← htx₀]
      rfl
    obtain ⟨hrows, hrest⟩ := @TransactionCache.applyEdicts_rows env tx₀ id r.edicts
      (fun b hb => (hheld id b (havailable ▸ hb)).pos) (havailable ▸ hfits id)
    rw [TransactionCache.resolve_eq_self fun e he => (hedicts e he).1] at hrows hrest
    obtain ⟨m, n, hfst⟩ := TransactionCache.applyEdicts_fst env r.edicts tx₀
    rw [ofRune_append, List.map_append, TransactionCache.allocateRemainingBalances_rows,
      hrest, hrows, hfst, Artifact.rows, runeMoves, movesRows_append, havailable, ← htx₀]
    rfl
  | cenotaph c =>
    obtain ⟨hetching, hmint⟩ := honly
    have hcalls : ((some (Artifact.cenotaph c)).map Artifact.actions).getD [] ++
        [Action.endTransaction] = [.cenotaph, .endTransaction] := by
      simp [Artifact.actions, hetching, hmint]
    rw [hcalls] at hrun
    obtain ⟨u, hu, hend⟩ := foldlM_cons_eq_some.mp hrun
    rw [foldlM_singleton_eq_some] at hend
    have hburn : s.Writes (s.cache.txCache.applyCenotaphInputBurn env).2 [] u ∧
      u.cache.txCache = (s.cache.txCache.applyCenotaphInputBurn env).1 := Session.writes_add hu
    obtain ⟨hwrites, htx⟩ := hburn
    have hwritesEnd : u.Writes (u.cache.txCache.allocateRemainingBalances env).2 [] t :=
      (Session.writes_add hend).1
    rw [htx] at hwritesEnd
    refine ⟨_, hwrites.trans hwritesEnd, fun id => ?_⟩
    have hempty : (s.cache.txCache.applyCenotaphInputBurn env).1.available id = [] :=
      TransactionCache.available_clear s.cache.txCache _ id
    rw [ofRune_append, List.map_append, TransactionCache.allocateRemainingBalances_rows, hempty,
      (movesRows_nil_balances _ id _).1, List.append_nil,
        TransactionCache.applyCenotaphInputBurn_rows, Artifact.rows]

/-! ## The block -/

/-- A session that a ledger can be asked of: the process has just started, on tables whose credits
have all their fields, or it has indexed distinct transactions from fresh tables on, without
rollbacks. -/
inductive Session.Serves (env : Environment) : Session → Prop
  /-- The process has just started. -/
  | start {network : Network} {cap : Nat} {hcap : 0 < cap} {db : Db} {cache : IndexCache}
      (hnew : IndexCache.new network cap hcap db = some cache) (hcredits : CreditsOk db.ledger) :
      Serves env ⟨cache, db⟩
  /-- The process has indexed a chain. -/
  | run {network : Network} {cap : Nat} {hcap : 0 < cap} {events : List Event} {s₀ s : Session}
      (hforward : ∀ e ∈ events, e.Forward) (hids : (txIds (indexedBlocks events)).Nodup)
      (hstart : freshSession network cap hcap = some s₀) (hrun : runEvents env events s₀ = some s) :
      Serves env s

/-- The credits that the indexer writes have all their fields. -/
theorem runEvents_creditsOk {env : Environment} {events : List Event} {s₀ s : Session}
    (hcredits : CreditsOk s₀.entries) (hrun : runEvents env events s₀ = some s) :
    CreditsOk s.entries := by
  refine foldlM_invariant (P := fun t => CreditsOk t.entries) hcredits ?_ hrun
  intro e t t' ht hstep
  cases e with
  | index block =>
    obtain ⟨u, htxs, hflush⟩ := indexBlock_eq_some.mp hstep
    obtain ⟨es, rs, hwrites, -, hes, -⟩ := indexTransactions_writes htxs
    have hclosing : (closing env block u).entries = u.entries := rfl
    rw [(Session.Writes.flush hflush).entries_eq, List.append_nil, hclosing, hwrites.entries_eq]
    exact ht.append hes
  | rollBack height =>
    cases Option.some.inj hstep
    intro e he
    rcases List.mem_append.mp he with he | he
    · exact ht e (List.mem_append_left _ (List.mem_of_mem_filter he))
    · exact ht e (List.mem_append_right _ he)
  | restart cap hcap =>
    obtain ⟨cache, hcache, rfl⟩ := restart_eq_some hstep
    have hentries : (⟨cache, t.db⟩ : Session).entries = t.db.ledger ++ [] := by
      rw [Session.entries, (IndexCache.new_empty hcache).dbCache]
      rfl
    rw [hentries, List.append_nil]
    exact fun e he => ht e (List.mem_append_left _ he)

/-- Such a session is at rest, with caches that mirror the ledger. -/
theorem Session.Serves.atRest {env : Environment} {s : Session} (h : s.Serves env) :
    AtRest AllOf s ∧ s.cache.dbCache = .new ∧ CreditsOk s.db.ledger := by
  cases h with
  | start hnew hcredits =>
    have hempty := IndexCache.new_empty hnew
    exact ⟨.of_empty hempty, hempty.dbCache, hcredits⟩
  | run hforward hids hstart hrun =>
    obtain ⟨hempty, hdb⟩ := freshSession_eq_some hstart
    have hrest := (runEvents_exact hempty hdb hforward hids hrun).1
    refine ⟨hrest, runEvents_dbCache hempty.dbCache hrun, ?_⟩
    rw [← hrest.entries_eq]
    refine runEvents_creditsOk ?_ hrun
    rw [Session.entries, hdb, hempty.dbCache]
    exact fun e he => absurd he List.not_mem_nil

/-- What a transaction begins with is what its inputs spend, in some order. -/
theorem available_begin_perm {env : Environment} {block : Block} {tx : Transaction} {s t : Session}
    (hlay : Layered AllOf s.entries [] s)
    (hrun : Action.run env block s (.beginTransaction tx) = some t) (id : RuneId) :
    (t.cache.txCache.available id).Perm
    (spentBalances id (tx.inputs.map TxIn.outputKey) s.entries) := by
  have hsep : Separate s.entries [] := fun k _ hk => absurd hk.choose_spec.1 List.not_mem_nil
  obtain ⟨parts, hparts, hperm⟩ := available_begin id hlay hsep hrun
  rw [hparts, spentBalances]
  clear hparts
  generalize tx.inputs.map TxIn.outputKey = ks at hperm
  induction hperm with
  | nil => exact .refl _
  | cons hp _ ih => exact hp.append ih

/-- **What `index_block` writes** for a transaction that is mined alone: the rows of its artifact,
rune by rune, off a deque of the balances that its inputs spend. -/
theorem indexBlock_rows {env : Environment} {block : Block} {tx : Transaction} {artifact : Artifact}
    {s s' : Session} (hserves : s.Serves env) (hblock : block.transactions = [tx])
    (hartifact : env.decipher tx.outputs = some artifact)
    (honly : artifact.OnlyMoves fun id => (pgGetRuneById id s.db).isSome)
    (hfits : ∀ id,
      totalAmount (spentBalances id (tx.inputs.map TxIn.outputKey) s.db.ledger) < 2 ^ 128)
    (hindex : indexBlock env block s = some s') :
    ∃ written, s'.db.ledger = s.db.ledger ++ written ∧ ∀ id, ∃ balances,
      balances.Perm (spentBalances id (tx.inputs.map TxIn.outputKey) s.db.ledger) ∧
      (ofRune id written).map DbLedgerEntry.row =
        artifact.rows (receiverIn env s.cache.network tx.outputs) (movesIn env tx.outputs) id
        ((Mempool.outputPointer artifact).or (scanOutputs env tx.outputs).firstEligibleOutput)
        balances := by
  obtain ⟨hrest, hnew, hcredits⟩ := hserves.atRest
  obtain ⟨w, htxs, hflush⟩ := indexBlock_eq_some.mp hindex
  obtain ⟨t, hreset, htx⟩ := indexTransactions_eq_some.mp htxs
  rw [hblock, foldlM_singleton_eq_some] at htx
  obtain ⟨u, hbegin, hcalls⟩ := indexTransaction_eq_some.mp htx
  obtain ⟨number, rfl, -⟩ := resetMaxRuneNumber_eq_some hreset
  -- the block starts with nothing of its own recorded
  have hlay : Layered AllOf s.entries [] (s.setNextRuneNumber (number + 1)) :=
    resetMaxRuneNumber_layered hrest.layered hreset
  have hspent := available_begin_perm hlay hbegin
  have hentries : (s.setNextRuneNumber (number + 1)).entries = s.db.ledger := hrest.entries_eq
  rw [hentries] at hspent
  -- a rune of the table can be named by the edicts and the mint
  have hregisters : ∀ id, (pgGetRuneById id s.db).isSome → u.Registers id := by
    intro id hknown
    obtain ⟨row, hrow⟩ := Option.isSome_iff_exists.mp hknown
    obtain ⟨-, rfl⟩ := run_beginTransaction hbegin
    refine ⟨row, ?_, by simpa using List.find?_some hrow⟩
    have hrunes := Session.runes_of_rest hnew
    show row ∈ s.runes
    rw [hrunes]
    exact List.mem_of_find?_eq_some hrow
  -- every incoming balance was held in an output
  have hheld : ∀ id, ∀ b ∈ u.cache.txCache.available id, b.Held := fun id b hb =>
    spentBalances_held hcredits b ((hspent id).mem_iff.mp hb)
  obtain ⟨es, hwrites, hrows⟩ := calls_rows hartifact (honly.mono hregisters) hheld
    (fun id => (totalAmount_perm (hspent id)).trans_lt (hfits id)) hcalls
  refine ⟨es, ?_, fun id => ⟨u.cache.txCache.available id, hspent id, ?_⟩⟩
  -- the rows of the block are those of its only transaction
  · have hclosing : (closing env block w).entries = w.entries := rfl
    have hquiet := (Session.Writes.quiet (beginTransaction_quiet hbegin)).entries_eq
    have hend := (Session.Writes.flush hflush).entries_eq
    rw [hclosing, hwrites.entries_eq, hquiet, hentries, List.append_nil, List.append_nil] at hend
    obtain ⟨db, -, rfl⟩ := Session.flush_eq_some.mp hflush
    exact (List.append_nil db.ledger).symm.trans hend
  · rw [hrows]
    obtain ⟨-, rfl⟩ := run_beginTransaction hbegin
    rfl

end Runehook
