import Runehook.InputBalances
import Runehook.TransactionCache

/-! # Transactions of the mempool

`parse_mempool_tx` of `mempool.rs` (`parseMempoolTx`): what a transaction that is not mined yet
would do to the balances of the outputs it spends. It is a second version of the operations of
`TransactionCache`; it takes balances off the back of a vector and knows no mints. Its rows are
numbered in sequence (`parseMempoolTx_rows`). -/

namespace Runehook

open Lib

/-! ## Transactions -/

/-- A `Txid`: the hexadecimal digits of its text. -/
structure Txid where
  /-- The digits. -/
  digits : List (Fin 16)
  /-- A hash has 32 bytes. -/
  length_eq : digits.length = 64
  deriving DecidableEq

/-- `Display for Txid`. -/
def Txid.toText (id : Txid) : String := String.ofList (id.digits.map fun d => d.val.digitChar)

/-- `bitcoin::Transaction`: what the mempool service reads of a transaction. Its id is the hash
`compute_txid` of the rest. -/
structure MempoolTransaction where
  /-- Its id. -/
  txid : Txid
  /-- The outputs that the inputs spend. -/
  inputs : List (Txid × Nat)
  /-- The scripts of the outputs. -/
  outputs : List ScriptBuf
  deriving DecidableEq

/-- `DBMempoolLedgerEntry`: a row of `mempool_ledger`. -/
structure DBMempoolLedgerEntry where
  /-- The rune. -/
  runeId : RuneId
  /-- The place among the entries of the transaction. -/
  eventIndex : Nat
  /-- The transaction. -/
  txId : String
  /-- The output that gets the amount, or that it is sent to. -/
  output : Option Nat
  /-- The owner that the operation is about. -/
  address : Option Address
  /-- The owner of the output. -/
  receiverAddress : Option Address
  /-- How much of the rune. -/
  amount : Option Nat
  /-- What is done. -/
  operation : DbLedgerOperation
  deriving DecidableEq, Repr

/-- The outside of the mempool service: two more maps are iterated, that of the balances by input
and that of the input runes. -/
structure MempoolEnvironment extends Environment where
  /-- The order in which the inputs are iterated. -/
  inputOrder : List Nat → List Nat
  /-- No input is left out or comes twice. -/
  inputOrder_perm : ∀ l, (inputOrder l).Perm l
  /-- The order in which the runes of an input are iterated. -/
  inputRuneOrder : List RuneId → List RuneId
  /-- No rune is left out or comes twice. -/
  inputRuneOrder_perm : ∀ l, (inputRuneOrder l).Perm l

/-- A service that iterates in order. -/
def MempoolEnvironment.plain (table : ScriptBuf → Option Artifact) : MempoolEnvironment where
  toEnvironment := .plain table
  inputOrder l := l
  inputOrder_perm _ := .refl _
  inputRuneOrder l := l
  inputRuneOrder_perm _ := .refl _

namespace Mempool

/-! ## Entries in sequence -/

/-- Entries that are numbered from an event index on, with the index after them. -/
abbrev Emit : Type := Nat → List DBMempoolLedgerEntry × Nat

/-- No entries. -/
def Emit.none : Emit := fun nextEventIndex => ([], nextEventIndex)

/-- Entries after entries. -/
def Emit.append (first second : Emit) : Emit := fun nextEventIndex =>
  let (entries, nextEventIndex) := first nextEventIndex
  let (more, nextEventIndex) := second nextEventIndex
  (entries ++ more, nextEventIndex)

/-- The entries of a list of emitters, in order. -/
def Emit.all (emits : List Emit) : Emit := emits.foldr Emit.append .none

/-- `new_mempool_entry_with_idx_incr`. -/
def newMempoolEntryWithIdxIncr (amount : Option Nat) (runeId : RuneId) (output : Option Nat)
    (address receiverAddress : Option Address) (operation : DbLedgerOperation)
    (txId : String) : Emit :=
  fun nextEventIndex =>
    ([⟨runeId, nextEventIndex, txId, output, address, receiverAddress, amount, operation⟩],
      nextEventIndex + 1)

/-! ## Moving -/

/-- The loop of `move_rune_balance_to_output`. It is the one of the index, which pops and pushes at
the front, at the back of the vector. -/
def takeBalances (amount : Nat) (inputBalances : List InputRuneBalance) : Taking :=
  let taking := Runehook.takeBalances amount inputBalances.reverse 0 []
  { taking with balances := taking.balances.reverse }

/-- Who the balance goes to. -/
def receiverAddress (env : MempoolEnvironment) (network : Network) (outputs : HashMap Nat ScriptBuf)
    (output : Option Nat) : Option Address :=
  output.bind fun output => (outputs.lookup output).bind fun script =>
    env.addressFromScript script network

/-- `move_rune_balance_to_output`: the entries, and the vector after the move. -/
def moveRuneBalanceToOutput (env : MempoolEnvironment) (network : Network) (output : Option Nat)
    (runeId : RuneId) (inputBalances : List InputRuneBalance) (outputs : HashMap Nat ScriptBuf)
    (amount : Nat) (txId : String) : Emit × List InputRuneBalance :=
  let receiver := receiverAddress env network outputs output
  let operation := if receiver.isSome then DbLedgerOperation.send else .burn
  let taking := takeBalances amount inputBalances
  let receive :=
    if receiver.isSome ∧ 0 < taking.totalSent then
      newMempoolEntryWithIdxIncr (some taking.totalSent) runeId output receiver none .receive txId
    else .none
  let sends := taking.senders.map fun (balanceTaken, senderAddress) =>
    newMempoolEntryWithIdxIncr (some balanceTaken) runeId output (some senderAddress) receiver
      operation txId
  (receive.append (.all sends), taking.balances)

/-- A sequence of moves of one rune. -/
def applyMoves (env : MempoolEnvironment) (network : Network) (runeId : RuneId)
    (outputs : HashMap Nat ScriptBuf) (txId : String) :
    List (Option Nat × Nat) → List InputRuneBalance → Emit × List InputRuneBalance
  | [], balances => (.none, balances)
  | (output, amount) :: moves, balances =>
    let (first, balances) :=
      moveRuneBalanceToOutput env network output runeId balances outputs amount txId
    let (rest, balances) := applyMoves env network runeId outputs txId moves balances
    (first.append rest, balances)

/-! ## The parts of a transaction -/

/-- `collect_eligible_outputs`. -/
def collectEligibleOutputs (env : MempoolEnvironment) (tx : MempoolTransaction) :
    HashMap Nat ScriptBuf :=
  tx.outputs.zipIdx.foldl (fun eligibleOutputs (output, i) =>
    if env.isOpReturn output then eligibleOutputs else eligibleOutputs.insert i output) ∅

/-- `collect_input_rune_balances_pg`. -/
def collectInputRuneBalancesPg (env : MempoolEnvironment) (inputs : List (Txid × Nat)) (db : Db) :
    HashMap RuneId (List InputRuneBalance) :=
  let outputs := inputs.zipIdx.map fun ((txid, vout), i) => (i, txid.toText, vout)
  let outputBalances := pgGetInputRuneBalances env.toEnvironment outputs db
  (env.inputOrder outputBalances.keys).foldl
    (fun acc input => extendBalances acc (outputBalances.getD input ∅)) ∅

/-- `burn_input`. The map is cleared afterwards. -/
def burnInput (env : MempoolEnvironment) (txId : String)
    (inputRunes : HashMap RuneId (List InputRuneBalance)) :
    Emit :=
  .all <| (env.inputRuneOrder inputRunes.keys).flatMap fun runeId =>
    (inputRunes.getD runeId []).map fun balance =>
      newMempoolEntryWithIdxIncr (some balance.amount) runeId none balance.address none .burn txId

/-- `apply_cenotaph_etching`. -/
def applyCenotaphEtching (runeId : RuneId) (txId : String) : Emit :=
  newMempoolEntryWithIdxIncr none runeId none none none .etching txId

/-- `allocate_remaining_balances`. The map is cleared afterwards. -/
def allocateRemainingBalances (env : MempoolEnvironment) (network : Network) (txId : String)
    (outputPointer : Option Nat) (inputRunesBalances : HashMap RuneId (List InputRuneBalance))
    (eligibleOutputs : HashMap Nat ScriptBuf) : Emit :=
  .all <| (env.inputRuneOrder inputRunesBalances.keys).map fun runeId =>
    (moveRuneBalanceToOutput env network outputPointer runeId (inputRunesBalances.getD runeId [])
      eligibleOutputs 0 txId).1

/-- The moves of an edict: to which output, or `none` to burn, and how much. -/
def edictMoves (edict : Edict) (eligibleOutputs : HashMap Nat ScriptBuf)
    (txTotalOutputs unallocated : Nat) :
    List (Option Nat × Nat) :=
  if eligibleOutputs.keys.length = 0 then [(none, edict.amount)]
  else if edict.output = txTotalOutputs then
    let outputKeys := eligibleOutputs.keys.insertionSort (· ≤ ·)
    if edict.amount = 0 then
      let len := eligibleOutputs.keys.length
      TransactionCache.evenShares (unallocated / len) outputKeys (unallocated % len)
    else outputKeys.map fun output => (some output, min edict.amount unallocated)
  else if edict.output < txTotalOutputs then
    [(some edict.output, if edict.amount = 0 then unallocated else edict.amount)]
  else [(none, edict.amount)]

/-- `collect_edicts`: the entries of an edict, and the balances after it. -/
def collectEdicts (env : MempoolEnvironment) (network : Network) (edict : Edict)
    (inputRunesBalances : HashMap RuneId (List InputRuneBalance))
    (eligibleOutputs : HashMap Nat ScriptBuf) (txId : String) (txTotalOutputs : Nat) :
    Emit × HashMap RuneId (List InputRuneBalance) :=
  if edict.id.block = 0 ∧ edict.id.tx = 0 then (.none, inputRunesBalances)
  else
    match inputRunesBalances.lookup edict.id with
    | none => (.none, inputRunesBalances)
    | some availableInputs =>
      let (entries, balances) := applyMoves env network edict.id eligibleOutputs txId
        (edictMoves edict eligibleOutputs txTotalOutputs
          (TransactionCache.unallocated availableInputs)) availableInputs
      (entries, inputRunesBalances.insert edict.id balances)

/-! ## Parsing -/

/-- The variables of `parse_mempool_tx`. -/
structure Parse where
  /-- The entries so far. -/
  ledgerEntries : List DBMempoolLedgerEntry
  /-- The balances that are left, by rune. -/
  inputRunesBalances : HashMap RuneId (List InputRuneBalance)
  /-- The outputs that can get runes. -/
  eligibleOutputs : HashMap Nat ScriptBuf
  /-- The index of the next entry. -/
  nextEventIndex : Nat

/-- Extend the entries. -/
def Parse.extend (emit : Emit) (p : Parse) : Parse :=
  { p with
    ledgerEntries := p.ledgerEntries ++ (emit p.nextEventIndex).1
    nextEventIndex := (emit p.nextEventIndex).2 }

/-- The loop over the edicts. An edict on the rune of an etching clears everything and ends the
loop. -/
def applyEdicts (env : MempoolEnvironment) (network : Network) (txId : String)
    (txTotalOutputs : Nat) :
    List Edict → Parse → Parse
  | [], p => p
  | edict :: edicts, p =>
    if edict.id = .placeholder then
      { p with ledgerEntries := [], inputRunesBalances := ∅, eligibleOutputs := ∅ }
    else
      let (entries, balances) :=
        collectEdicts env network edict p.inputRunesBalances p.eligibleOutputs txId txTotalOutputs
      applyEdicts env network txId txTotalOutputs edicts
        { p.extend entries with inputRunesBalances := balances }

/-- What `parse_mempool_tx` does with an artifact, up to the allocation of the remaining
balances. -/
def applyArtifact (env : MempoolEnvironment) (network : Network) (txId : String)
    (txTotalOutputs : Nat) (p : Parse) : Artifact → Parse
  | .runestone runestone => applyEdicts env network txId txTotalOutputs runestone.edicts p
  | .cenotaph cenotaph =>
    let p := { p.extend (burnInput env txId p.inputRunesBalances) with inputRunesBalances := ∅ }
    match cenotaph.etching with
    | some _ => p.extend (applyCenotaphEtching .placeholder txId)
    | none => p

/-- The output pointer: it is the one of a runestone or none at all. -/
def outputPointer : Artifact → Option Nat
  | .runestone runestone => runestone.pointer
  | .cenotaph _ => none

/-- `parse_mempool_tx`. -/
def parseMempoolTx (env : MempoolEnvironment) (network : Network) (tx : MempoolTransaction)
    (txId : String) (db : Db) : List DBMempoolLedgerEntry :=
  match env.decipher tx.outputs with
  | none => []
  | some artifact =>
    let p := applyArtifact env network txId tx.outputs.length
      ⟨[], collectInputRuneBalancesPg env tx.inputs db, collectEligibleOutputs env tx, 0⟩ artifact
    (p.extend (allocateRemainingBalances env network txId (outputPointer artifact)
      p.inputRunesBalances p.eligibleOutputs)).ledgerEntries

/-! ## The rows of a transaction -/

/-- The entries of a transaction, numbered without gaps. -/
structure Emit.Sequential (txId : String) (emit : Emit) : Prop where
  /-- The indexes follow each other. -/
  indexes : ∀ n, (emit n).1.map DBMempoolLedgerEntry.eventIndex = List.range' n (emit n).1.length
  /-- The next one comes after them. -/
  next : ∀ n, (emit n).2 = n + (emit n).1.length
  /-- All entries are of the transaction. -/
  txIds : ∀ n, ∀ e ∈ (emit n).1, e.txId = txId

theorem Emit.Sequential.none {txId : String} : Emit.none.Sequential txId :=
  ⟨fun _ => rfl, fun _ => rfl, fun _ _ he => absurd he List.not_mem_nil⟩

theorem Emit.Sequential.ite {txId : String} {emit : Emit} (c : Prop) [Decidable c]
    (h : emit.Sequential txId) :
    (if c then emit else .none).Sequential txId := by
  split
  · exact h
  · exact .none

theorem Emit.Sequential.append {txId : String} {first second : Emit} (h₁ : first.Sequential txId)
    (h₂ : second.Sequential txId) : (first.append second).Sequential txId := by
  refine ⟨fun n => ?_, fun n => ?_, fun n => ?_⟩
  · show ((first n).1 ++ (second (first n).2).1).map _ = List.range' n ((first n).1 ++ _).length
    rw [List.map_append, List.length_append, h₁.indexes, h₂.indexes,
      h₁.next, ← List.range'_append_1]
  · show (second (first n).2).2 = n + ((first n).1 ++ _).length
    rw [h₂.next, List.length_append, h₁.next]
    omega
  · intro e he
    rcases List.mem_append.mp he with he | he
    · exact h₁.txIds n e he
    · exact h₂.txIds _ e he

theorem Emit.Sequential.all {txId : String} {emits : List Emit}
    (h : ∀ emit ∈ emits, emit.Sequential txId) :
    (Emit.all emits).Sequential txId := by
  induction emits with
  | nil => exact .none
  | cons emit emits ih =>
    exact (h emit List.mem_cons_self).append (ih fun e he => h e (List.mem_cons_of_mem _ he))

theorem newMempoolEntry_sequential (amount : Option Nat) (runeId : RuneId) (output : Option Nat)
    (address receiverAddress : Option Address) (operation : DbLedgerOperation) (txId : String) :
    (newMempoolEntryWithIdxIncr amount runeId output address receiverAddress
      operation txId).Sequential txId := by
  refine ⟨fun n => rfl, fun n => rfl, fun n e he => ?_⟩
  rw [List.mem_singleton.mp he]

section

variable (env : MempoolEnvironment) (network : Network) (txId : String)

theorem moveRuneBalanceToOutput_sequential (output : Option Nat) (runeId : RuneId)
    (inputBalances : List InputRuneBalance) (outputs : HashMap Nat ScriptBuf) (amount : Nat) :
    (moveRuneBalanceToOutput env network output runeId inputBalances outputs
      amount txId).1.Sequential txId := by
  refine (Emit.Sequential.ite _ (newMempoolEntry_sequential ..)).append (.all fun emit hemit => ?_)
  obtain ⟨⟨taken, sender⟩, -, rfl⟩ := List.mem_map.mp hemit
  exact newMempoolEntry_sequential ..

theorem applyMoves_sequential (runeId : RuneId) (outputs : HashMap Nat ScriptBuf)
    (moves : List (Option Nat × Nat)) (balances : List InputRuneBalance) :
    (applyMoves env network runeId outputs txId moves balances).1.Sequential txId := by
  induction moves generalizing balances with
  | nil => exact .none
  | cons move moves ih =>
    obtain ⟨output, amount⟩ := move
    exact (moveRuneBalanceToOutput_sequential env network txId output runeId balances
      outputs amount).append (ih _)

theorem collectEdicts_sequential (edict : Edict)
    (inputRunesBalances : HashMap RuneId (List InputRuneBalance))
    (eligibleOutputs : HashMap Nat ScriptBuf) (txTotalOutputs : Nat) :
    (collectEdicts env network edict inputRunesBalances eligibleOutputs txId
      txTotalOutputs).1.Sequential
      txId := by
  unfold collectEdicts
  split
  · exact .none
  · split
    · exact .none
    · exact applyMoves_sequential env network txId ..

theorem burnInput_sequential (inputRunes : HashMap RuneId (List InputRuneBalance)) :
    (burnInput env txId inputRunes).Sequential txId := by
  refine .all fun emit hemit => ?_
  obtain ⟨runeId, -, hemit⟩ := List.mem_flatMap.mp hemit
  obtain ⟨balance, -, rfl⟩ := List.mem_map.mp hemit
  exact newMempoolEntry_sequential ..

theorem allocateRemainingBalances_sequential (outputPointer : Option Nat)
    (inputRunesBalances : HashMap RuneId (List InputRuneBalance))
    (eligibleOutputs : HashMap Nat ScriptBuf) :
    (allocateRemainingBalances env network txId outputPointer inputRunesBalances
      eligibleOutputs).Sequential
      txId := by
  refine .all fun emit hemit => ?_
  obtain ⟨runeId, -, rfl⟩ := List.mem_map.mp hemit
  exact moveRuneBalanceToOutput_sequential env network txId ..

/-- The entries so far are those of the transaction, at increasing indexes below the next one. -/
structure Parse.Numbered (txId : String) (p : Parse) : Prop where
  /-- The indexes increase. -/
  increasing : p.ledgerEntries.Pairwise fun e e' => e.eventIndex < e'.eventIndex
  /-- The next one is above them. -/
  below : ∀ e ∈ p.ledgerEntries, e.eventIndex < p.nextEventIndex
  /-- All entries are of the transaction. -/
  txIds : ∀ e ∈ p.ledgerEntries, e.txId = txId

variable {env network txId}

theorem Parse.Numbered.extend {p : Parse} {emit : Emit} (h : p.Numbered txId)
    (hemit : emit.Sequential txId) :
    (p.extend emit).Numbered txId := by
  have hindexes := hemit.indexes p.nextEventIndex
  have hnext := hemit.next p.nextEventIndex
  have hrange : ∀ e ∈ (emit p.nextEventIndex).1, p.nextEventIndex ≤ e.eventIndex ∧
      e.eventIndex < p.nextEventIndex + (emit p.nextEventIndex).1.length := by
    intro e he
    exact List.mem_range'_1.mp (hindexes ▸ List.mem_map_of_mem he)
  refine ⟨List.pairwise_append.mpr ⟨h.increasing, ?_, ?_⟩, ?_, ?_⟩
  · rw [← List.pairwise_map (R := (· < ·)), hindexes]
    exact List.pairwise_lt_range'
  · intro e he e' he'
    exact (h.below e he).trans_le (hrange e' he').1
  · intro e he
    show e.eventIndex < (emit p.nextEventIndex).2
    rcases List.mem_append.mp he with he | he
    · have := h.below e he
      omega
    · have := hrange e he
      omega
  · intro e he
    rcases List.mem_append.mp he with he | he
    · exact h.txIds e he
    · exact hemit.txIds _ e he

theorem Parse.Numbered.applyEdicts {edicts : List Edict} {txTotalOutputs : Nat} {p : Parse}
    (h : p.Numbered txId) :
    (applyEdicts env network txId txTotalOutputs edicts p).Numbered txId := by
  induction edicts generalizing p with
  | nil => exact h
  | cons edict edicts ih =>
    unfold Mempool.applyEdicts
    split
    · exact ⟨.nil, fun _ he => absurd he List.not_mem_nil, fun _ he => absurd he List.not_mem_nil⟩
    · refine ih ?_
      have hnext := h.extend (collectEdicts_sequential env network txId edict p.inputRunesBalances
        p.eligibleOutputs txTotalOutputs)
      exact ⟨hnext.increasing, hnext.below, hnext.txIds⟩

theorem Parse.Numbered.applyArtifact {artifact : Artifact} {txTotalOutputs : Nat} {p : Parse}
    (h : p.Numbered txId) :
    (applyArtifact env network txId txTotalOutputs p artifact).Numbered txId := by
  cases artifact with
  | runestone runestone => exact h.applyEdicts
  | cenotaph cenotaph =>
    have hburnt := h.extend (burnInput_sequential env txId p.inputRunesBalances)
    have hcleared : ({ p.extend (burnInput env txId p.inputRunesBalances) with
        inputRunesBalances := ∅ } : Parse).Numbered txId :=
      ⟨hburnt.increasing, hburnt.below, hburnt.txIds⟩
    unfold Mempool.applyArtifact
    dsimp only
    split
    · exact hcleared.extend (newMempoolEntry_sequential ..)
    · exact hcleared

end

/-- **The rows of a transaction carry its id, at increasing event indexes.** -/
theorem parseMempoolTx_rows (env : MempoolEnvironment) (network : Network) (tx : MempoolTransaction)
    (txId : String) (db : Db) :
    (∀ e ∈ parseMempoolTx env network tx txId db, e.txId = txId) ∧
      (parseMempoolTx env network tx txId db).Pairwise fun e e' => e.eventIndex <
        e'.eventIndex := by
  unfold parseMempoolTx
  split
  · exact ⟨fun _ he => absurd he List.not_mem_nil, .nil⟩
  · next artifact _ =>
    have hstart : Parse.Numbered txId ⟨[], collectInputRuneBalancesPg env tx.inputs db,
        collectEligibleOutputs env tx, 0⟩ :=
      ⟨.nil, fun _ he => absurd he List.not_mem_nil, fun _ he => absurd he List.not_mem_nil⟩
    have hparsed :
        Parse.Numbered txId (applyArtifact env network txId tx.outputs.length _ artifact) :=
      hstart.applyArtifact
    -- the rest is numbered behind the artifact's own rows
    have hallocate : ∀ p : Parse, p.Numbered txId → Parse.Numbered txId (p.extend
        (allocateRemainingBalances env network txId (outputPointer artifact) p.inputRunesBalances
          p.eligibleOutputs)) :=
      fun p hp => hp.extend (allocateRemainingBalances_sequential ..)
    have hend := hallocate _ hparsed
    exact ⟨hend.txIds, hend.increasing⟩

end Mempool

end Runehook
