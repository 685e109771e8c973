import Runehook.Interference
import Runehook.Losses

/-! # What a call reads

`index_block` reads in three places: the balances of the outputs that a transaction spends, the
rune that an edict names, and what a mint is decided on. Each is looked up in a cache first. What
a call does to a rune (`Action.rows`, `Action.rest`) is a function of what it reads and of what
the transaction holds of that rune (`Action.run_reads`). -/

namespace Runehook

open Lib

/-! ## Readings -/

namespace Session

/-- The row of the rune that an id means: `0:0` is the rune etched in the transaction. -/
def tableRune (id : RuneId) (s : Session) : Option DbRune :=
  if id.block = 0 ∧ id.tx = 0 then s.cache.txCache.etching else s.runeById id

/-- What a mint is of by the tables, if it is accepted: the row of the rune and the mints in the
ledger decide. -/
def tableMint (id : RuneId) (s : Session) : Option Nat :=
  (s.tableRune id).bind fun rune =>
    if isRuneMintable rune (counted .totalMints id s.entries) s.cache.txCache.location then
      rune.termsAmount
    else none

/-- What a mint is of by the lookups, if it is accepted. -/
def readMint (id : RuneId) (s : Session) : Option Nat :=
  if s.acceptsMint id then some (s.mintAmount id) else none

/-- All balances that the inputs of a transaction bring in, as they are looked up. -/
def lookedUpInputs (env : Environment) (inputs : List TxIn) (s : Session) : RuneBalances :=
  (inputRuneBalancesFromTxInputs env inputs s.cache.blockOutputCache s.cache.outputCache s.db).1

/-- The balances of a rune that the inputs of a transaction bring in, as they are looked up. -/
def readInputs (env : Environment) (inputs : List TxIn) (id : RuneId) (s : Session) :
    List InputRuneBalance :=
  (s.lookedUpInputs env inputs).getD id []

end Session

/-! ## What a call means -/

section

variable (r : RuneId) (s : Session)

/-- What a call means for a rune. -/
def Action.meaning : Action → Option RuneOperation
  | .etching e => if s.cache.txCache.location.runeId = r then some (.etch e.premine) else none
  | .cenotaphEtching _ => if s.cache.txCache.location.runeId = r then some (.etch none) else none
  | .mint id => if id = r then (s.readMint id).map .mint else none
  | .cenotaphMint id => if id = r then (s.readMint id).map .burnMint else none
  | .edict e =>
    if s.cache.txCache.edictRuneId e.id = some r ∧ s.findsRune e.id then
      some (.move e.amount e.output)
    else none
  | .beginTransaction _ | .runestone _ | .cenotaph | .endTransaction => none

/-- The end that a call makes of what is left of the balances. -/
def Action.ending : Action → Option TransactionEnd
  | .cenotaph => some .cenotaphInputBurn
  | .endTransaction => some .allocateRemainingBalances
  | _ => none

/-- The rows of a rune that a call writes. -/
def Action.rows (env : Environment) (a : Action) : List LedgerRow :=
  let tx := s.cache.txCache
  let receiver := receiverAddress env tx.location tx.eligibleOutputs
  a.ending.elim
    ((a.meaning r s).elim [] (RuneOperation.rows receiver tx.edictMoves r (tx.available r)))
    (TransactionEnd.rows receiver r tx.outputPointer (tx.available r))

/-- The balances of a rune that a call leaves. -/
def Action.rest (a : Action) : List InputRuneBalance :=
  let tx := s.cache.txCache
  a.ending.elim
    ((a.meaning r s).elim (tx.available r) (RuneOperation.rest tx.edictMoves r (tx.available r)))
    fun _ => []

end

/-! ## Mints -/

namespace Session

/-- **A mint does what is read**: nothing, or one entry of the amount. -/
theorem applyMintWith_read
    {apply : TransactionCache → RuneId → Nat → DbRune → TransactionCache × Option DbLedgerEntry}
    {next : TransactionCache → Nat → TransactionCache} {op : DbLedgerOperation} {id : RuneId}
    {s s' : Session}
    (happly : ∀ tx total rune,
      (isRuneMintable rune total tx.location = false ∧ apply tx id total rune = (tx, none)) ∨
        (isRuneMintable rune total tx.location = true ∧ ∃ amount, rune.termsAmount = some amount ∧
          apply tx id total rune =
            (next tx amount, some (tx.plainEntry (some amount) id op))))
    (h : s.applyMintWith apply id = some s') :
    (s.readMint id = none ∧ s.Writes [] [] s' ∧ s'.cache.txCache = s.cache.txCache) ∨
      ∃ amount, s.readMint id = some amount ∧
        s.Writes [s.cache.txCache.plainEntry (some amount) id op] [] s' ∧
        s'.cache.txCache = next s.cache.txCache amount := by
  rw [applyMintWith] at h
  obtain ⟨⟨rune, t⟩, hrune, h⟩ := Option.bind_eq_some_iff.mp h
  have hlook := runeLookup_of_eq_some hrune
  cases rune with
  | none =>
    cases Option.some.inj h
    -- a rune that is not found is not minted
    have haccepts : s.acceptsMint id = false := by simp only [acceptsMint, hrune]
    have hread : s.readMint id = none := by rw [readMint, haccepts, if_neg Bool.false_ne_true]
    exact Or.inl ⟨hread, hlook.writes, hlook.txCache_eq⟩
  | some rune =>
    obtain ⟨⟨total, u⟩, htotal, h⟩ := Option.bind_eq_some_iff.mp h
    have hlook' := mintsLookup_of_eq_some htotal
    have hwrites : s.Writes [] [] u := hlook.writes.nil_trans hlook'.writes
    have htx : u.cache.txCache = s.cache.txCache := hlook'.txCache_eq.trans hlook.txCache_eq
    -- both lookups were made, so the outcome is that of their answers
    have haccepts : s.acceptsMint id =
        isRuneMintable rune (total.getD 0) u.cache.txCache.location := by
      simp only [acceptsMint, hrune, htotal]
    have hamount : s.mintAmount id = rune.termsAmount.getD 0 := by
      rw [mintAmount, hrune, Option.bind_some, Option.bind_some]
    dsimp only at h
    rcases happly u.cache.txCache (total.getD 0) rune with
      ⟨hmint, heq⟩ | ⟨hmint, amount, hterms, heq⟩ <;> rw [heq] at h
    · cases Option.some.inj h
      have hread : s.readMint id = none := by
        rw [readMint, haccepts, hmint, if_neg Bool.false_ne_true]
      exact Or.inl ⟨hread, hwrites.nil_trans (.quiet (.setTxCache u _)), htx⟩
    · obtain ⟨v, hadd, h⟩ := Option.bind_eq_some_iff.mp h
      cases Option.some.inj h
      obtain ⟨hv, hvtx⟩ := writes_add hadd
      have hread : s.readMint id = some amount := by
        rw [readMint, haccepts, hmint, if_pos rfl, hamount, hterms, Option.getD_some]
      rw [htx] at hv hvtx
      exact Or.inr ⟨amount, hread,
        (hwrites.nil_trans hv).trans_nil (.quiet (.setRuneTotalMintsCache v _)), hvtx⟩

end Session

/-! ## Calls -/

section

variable {env : Environment} {block : Block} {s s' : Session}

/-- A mint does what is read. -/
theorem Session.applyMint_read {id : RuneId} (h : s.applyMint id = some s') :
    (s.readMint id = none ∧ s.Writes [] [] s' ∧ s'.cache.txCache = s.cache.txCache) ∨
      ∃ amount, s.readMint id = some amount ∧
        s.Writes [s.cache.txCache.plainEntry (some amount) id .mint] [] s' ∧
        s'.cache.txCache = (s.cache.txCache.addInputRunes id ⟨none, amount⟩).nextEvent :=
  @Session.applyMintWith_read TransactionCache.applyMint
    (fun tx amount => (tx.addInputRunes id ⟨none, amount⟩).nextEvent) .mint id s s'
    (fun tx total rune => tx.applyMint_cases id total rune) h

/-- A cenotaph's mint does what is read. -/
theorem Session.applyCenotaphMint_read {id : RuneId} (h : s.applyCenotaphMint id = some s') :
    (s.readMint id = none ∧ s.Writes [] [] s' ∧ s'.cache.txCache = s.cache.txCache) ∨
      ∃ amount, s.readMint id = some amount ∧
        s.Writes [s.cache.txCache.plainEntry (some amount) id .burn] [] s' ∧
        s'.cache.txCache = s.cache.txCache.nextEvent :=
  @Session.applyMintWith_read TransactionCache.applyCenotaphMint (fun tx _ => tx.nextEvent) .burn
    id s s' (fun tx total rune => tx.applyCenotaphMint_cases id total rune) h

/-- **A call does to every rune what it means by what it reads.** -/
theorem Action.run_reads {a : Action} (ha : ∀ tx, a ≠ .beginTransaction tx)
    (hrun : a.run env block s = some s') :
    ∃ es rs, s.Writes es rs s' ∧ s.cache.txCache.Step env a es rs s'.cache.txCache ∧
      ∀ r, (ofRune r es).map DbLedgerEntry.row = a.rows r s env ∧
        s'.cache.txCache.available r = a.rest r s := by
  obtain ⟨es, rs, hwrites, hstep⟩ := Action.run_step ha hrun
  refine ⟨es, rs, hwrites, hstep, fun r => ?_⟩
  -- the entries are those of any account of what was written
  have hsame : ∀ {es' rs'}, s.Writes es' rs' s' → es = es' := fun h =>
    List.append_cancel_left (hwrites.entries_eq.symm.trans h.entries_eq)
  generalize htx : s'.cache.txCache = tx' at hstep
  cases a with
  | beginTransaction tx => exact absurd rfl (ha tx)
  | runestone p =>
    cases hstep
    exact ⟨rfl, rfl⟩
  | cenotaph =>
    cases hstep
    exact ⟨TransactionCache.applyCenotaphInputBurn_rows env _ r, rfl⟩
  | etching e =>
    cases hstep
    rw [ofRune_plainEntry, TransactionCache.available_withEtching]
    simp only [Action.rows, Action.rest, Action.ending, Action.meaning, Option.elim_none]
    split <;> exact ⟨rfl, rfl⟩
  | cenotaphEtching rune =>
    cases hstep
    rw [ofRune_plainEntry, TransactionCache.available_withEtching]
    simp only [Action.rows, Action.rest, Action.ending, Action.meaning, Option.elim_none]
    split <;> exact ⟨rfl, rfl⟩
  | mint id =>
    rw [← htx]
    simp only [Action.rows, Action.rest, Action.ending, Action.meaning, Option.elim_none]
    obtain ⟨hnone, hw, hnext⟩ | ⟨amount, hsome, hw, hnext⟩ := Session.applyMint_read hrun <;>
      rw [hsame hw, hnext]
    · rw [hnone, Option.map_none, ite_self]
      exact ⟨rfl, rfl⟩
    · rw [hsome, ofRune_plainEntry]
      refine ⟨by split <;> rfl,
        (TransactionCache.available_addInputRunes _ id r ⟨none, amount⟩).trans ?_⟩
      by_cases hid : id = r
      · rw [if_pos hid.symm, if_pos hid, hid]
        rfl
      · rw [if_neg (Ne.symm hid), if_neg hid]
        rfl
  | cenotaphMint id =>
    rw [← htx]
    simp only [Action.rows, Action.rest, Action.ending, Action.meaning, Option.elim_none]
    obtain ⟨hnone, hw, hnext⟩ | ⟨amount, hsome, hw, hnext⟩ :=
      Session.applyCenotaphMint_read hrun <;> rw [hsame hw, hnext]
    · rw [hnone, Option.map_none, ite_self]
      exact ⟨rfl, rfl⟩
    · rw [hsome, ofRune_plainEntry]
      split <;> exact ⟨rfl, rfl⟩
  | edict e =>
    rw [← htx]
    simp only [Action.rows, Action.rest, Action.ending, Action.meaning, Option.elim_none]
    obtain ⟨hfinds, hw, hnext⟩ | ⟨hfinds, hw, hnext⟩ := Session.applyEdict_read hrun <;>
      rw [hsame hw, hnext]
    · rw [if_neg fun h => Bool.false_ne_true (hfinds.symm.trans h.2)]
      exact ⟨rfl, rfl⟩
    · obtain ⟨hrows, hrest⟩ := TransactionCache.applyEdict_rows env s.cache.txCache e r
      rw [hrows, hrest]
      by_cases hmeans : s.cache.txCache.edictRuneId e.id = some r
      · rw [if_pos hmeans, if_pos hmeans, if_pos ⟨hmeans, hfinds⟩]
        exact ⟨rfl, rfl⟩
      · rw [if_neg hmeans, if_neg hmeans, if_neg fun h => hmeans h.1]
        exact ⟨rfl, rfl⟩
  | endTransaction =>
    cases hstep
    exact ⟨TransactionCache.allocateRemainingBalances_rows env _ r, rfl⟩

end

/-! ## Two processes that read alike -/

/-- **Two processes read alike** before a stage: what it would look up comes to the same in both.
For an edict that is asked only if there is something to move. -/
def Stage.ReadsAlike (env env' : Environment) (s t : Session) : Stage → Prop
  | .call _ (.beginTransaction tx) =>
    ∀ id, s.readInputs env tx.inputs id = t.readInputs env' tx.inputs id
  | .call _ (.mint id) | .call _ (.cenotaphMint id) => s.readMint id = t.readMint id
  | .call _ (.edict e) => ∀ id, s.cache.txCache.edictRuneId e.id = some id →
      s.cache.txCache.available id ≠ [] → s.findsRune e.id = t.findsRune e.id
  | _ => True

/-- Only the runes that one of the processes finds can be read differently. -/
theorem Session.readInputs_eq_iff (env env' : Environment) (inputs : List TxIn) (s t : Session) :
    (∀ id, s.readInputs env inputs id = t.readInputs env' inputs id) ↔
      ∀ id ∈ (s.lookedUpInputs env inputs).keys ++ (t.lookedUpInputs env' inputs).keys,
        s.readInputs env inputs id = t.readInputs env' inputs id := by
  constructor
  · exact fun h id _ => h id
  · intro h id
    by_cases hmem : id ∈ (s.lookedUpInputs env inputs).keys ++ (t.lookedUpInputs env' inputs).keys
    · exact h id hmem
    · rw [List.mem_append, not_or] at hmem
      rw [readInputs, readInputs, HashMap.getD, HashMap.getD,
        (HashMap.lookup_eq_none_iff _ _).mpr hmem.1, (HashMap.lookup_eq_none_iff _ _).mpr hmem.2]

instance (env env' : Environment) (s t : Session) (stage : Stage) :
    Decidable (stage.ReadsAlike env env' s t) :=
  match stage with
  | .call _ (.beginTransaction tx) =>
    decidable_of_iff _ (s.readInputs_eq_iff env env' tx.inputs t).symm
  | .call _ (.mint id) | .call _ (.cenotaphMint id) =>
    inferInstanceAs (Decidable (s.readMint id = t.readMint id))
  | .call _ (.edict e) => decidable_of_iff (∀ id ∈ s.cache.txCache.edictRuneId e.id,
      s.cache.txCache.available id ≠ [] → s.findsRune e.id = t.findsRune e.id) Iff.rfl
  | .call _ (.runestone _) | .call _ .cenotaph | .call _ (.etching _) | .call _ (.cenotaphEtching _)
  | .call _ .endTransaction | .openBlock _ | .closeBlock _ | .rollBack _ | .restart _ _ =>
    .isTrue trivial

/-- A process reads like itself. -/
theorem Stage.ReadsAlike.refl (env : Environment) (s : Session) (stage : Stage) :
    stage.ReadsAlike env env s s := by
  cases stage with
  | call block a => cases a <;> simp only [Stage.ReadsAlike, implies_true]
  | _ => trivial

end Runehook
