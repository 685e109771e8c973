import Runehook.Holdings
import Runehook.Lib.UnspentAmounts
import Runehook.Shares

/-! # The ledger of runes

What the indexer is for: who holds how much of which rune (`RunesLedger`). This is the protocol on
outputs and totals, without a database, caches, senders or the order of balances. A transaction
etches at most one rune and makes at most one mint; what its inputs held of a rune, with the premine
and the mint, is shared out by the rule for its edicts, and a share without an output to go to is
burned (`RunesLedger.transaction`). What is held and what was burned is what was issued
(`balanced_after`), and that is the premine and the mints (`issuedByTerms_after`). -/

namespace Runehook

open Lib

/-! ## Runes -/

/-- The face of a row: all that it says but the number and the flag of a cenotaph, of which the
protocol knows nothing. -/
def DbRune.face (rune : DbRune) : DbRune := { rune with number := 0, cenotaph := false }

@[simp] theorem DbRune.face_id (rune : DbRune) : rune.face.id = rune.id := rfl

@[simp] theorem DbRune.face_premine (rune : DbRune) : rune.face.premine = rune.premine := rfl

@[simp] theorem DbRune.face_termsAmount (rune : DbRune) :
    rune.face.termsAmount = rune.termsAmount := rfl

@[simp] theorem DbRune.face_stored (rune : DbRune) : rune.stored.face = rune.face := rfl

/-- The face of the rune that an artifact etches at a location. -/
def Artifact.etchedFace (location : TransactionLocation) : Artifact → Option DbRune
  | .runestone r => r.etching.map fun e => (DbRune.fromEtching e 0 location).face
  | .cenotaph c => c.etching.map fun rune => (DbRune.fromCenotaphEtching rune 0 location).face

/-- `Artifact::mint`. -/
def Artifact.mint : Artifact → Option RuneId
  | .runestone r => r.mint
  | .cenotaph c => c.mint

/-! ## Outputs -/

/-- The outputs that a transaction spends. -/
def Transaction.spent (tx : Transaction) : Finset (String × Nat) :=
  (tx.inputs.map TxIn.outputKey).toFinset

/-- The output that gets what goes to an index: only one that pays to an address can hold runes. -/
def Transaction.payee (env : Environment) (network : Network) (tx : Transaction)
    (output : Option Nat) :
    Option (String × Nat) :=
  if (receiverIn env network tx.outputs output).isSome then output.map fun o =>
    (tx.ledgerId, o) else none

/-- Where the rest goes: to the output that the runestone points to, or to the first that is
eligible. -/
def Transaction.pointer (env : Environment) (tx : Transaction) : Option Nat :=
  ((env.decipher tx.outputs).bind Mempool.outputPointer).or
    (scanOutputs env tx.outputs).firstEligibleOutput

/-- What the rule for a rune reads of a transaction: its outputs, where the rest goes, and the rune
that it etches. -/
def Transaction.outline (env : Environment) (network : Network) (block : Block) (tx : Transaction)
    (pointer : Option Nat) (etched : Option DbRune) : TransactionCache :=
  { TransactionCache.new (tx.location block network) ∅
      (scanOutputs env tx.outputs).eligibleOutputs pointer tx.outputs.length with
    etching := etched }

/-- The shares of a total of a rune: a runestone's edicts come first, and a cenotaph burns
everything. -/
def TransactionCache.artifactShares (outline : TransactionCache) (id : RuneId) (total : Nat) :
    Option Artifact → List (Option Nat × Nat)
  | none => outline.runeShares id [] total
  | some (.runestone r) => outline.runeShares id r.edicts total
  | some (.cenotaph _) => [(none, total)]

theorem TransactionCache.given_artifactShares (outline : TransactionCache)
    (id : RuneId) (total : Nat) (artifact : Option Artifact) :
    given (outline.artifactShares id total artifact) = total := by
  cases artifact with
  | none => exact outline.given_runeShares id [] total
  | some artifact =>
    cases artifact with
    | runestone r => exact outline.given_runeShares id r.edicts total
    | cenotaph c => exact Nat.add_zero total

/-- The transactions of some blocks, each with its block. -/
def locatedTransactions (blocks : List Block) : List (Block × Transaction) :=
  blocks.flatMap fun block => block.transactions.map fun tx => (block, tx)

/-! ## The ledger -/

/-- The ledger of runes. -/
structure RunesLedger where
  /-- The runes, by id. -/
  runes : RuneId → Option DbRune
  /-- How often each rune was minted. -/
  mints : RuneId → ℕ
  /-- What each unspent output holds of a rune. -/
  holdings : RuneId → String × ℕ →₀ ℕ
  /-- What was premined and minted of a rune. -/
  issued : RuneId → ℕ
  /-- What was burned of a rune. -/
  burned : RuneId → ℕ

namespace RunesLedger

/-- The ledger before the first block: it has the rune of the migrations. -/
def genesis : RunesLedger where
  runes id := if uncommonGoods.id = id then some uncommonGoods.face else none
  mints _ := 0
  holdings _ := 0
  issued _ := 0
  burned _ := 0

section

variable (env : Environment) (network : Network) (L : RunesLedger) (block : Block)
    (tx : Transaction)

/-- A rune may be etched: neither its id nor its name is taken. -/
def Free (row : DbRune) : Prop :=
  L.runes row.id = none ∧ ∀ id r, L.runes id = some r → r.name ≠ row.name

open Classical in
/-- The rune that a transaction etches. -/
noncomputable def etched : Option DbRune :=
  ((env.decipher tx.outputs).bind (Artifact.etchedFace (tx.location block network))).filter
    fun row => L.Free row

/-- The mint that a transaction makes, of a rune etched before it. -/
def minted : Option (RuneId × ℕ) := do
  let id ← (env.decipher tx.outputs).bind Artifact.mint
  let rune ← L.runes id
  if isRuneMintable rune (L.mints id) (tx.location block network) then rune.termsAmount.map (id, ·)
    else none

/-- What an etching and a mint add to a rune: the premine, and the amount of the mint. -/
def addition (etched : Option DbRune) (minted : Option (RuneId × ℕ)) (id : RuneId) : ℕ :=
  etched.elim 0 (fun row => if row.id = id then row.premine else 0) +
    minted.elim 0 fun mint => if mint.1 = id then mint.2 else 0

/-- What a transaction adds to a rune. -/
noncomputable def added (id : RuneId) : ℕ :=
  addition (L.etched env network block tx) (L.minted env network block tx) id

/-- What a transaction has of a rune to share out. -/
noncomputable def pot (id : RuneId) : ℕ :=
  heldBy tx.spent (L.holdings id) + L.added env network block tx id

/-- The shares of a rune. -/
noncomputable def shares (id : RuneId) : List (Option ℕ × ℕ) :=
  (tx.outline env network block (tx.pointer env) (L.etched env network block tx)).artifactShares id
    (L.pot env network block tx id) (env.decipher tx.outputs)

/-- **The ledger after a transaction.** -/
noncomputable def transaction : RunesLedger where
  runes id :=
    if (L.etched env network block tx).map DbRune.id = some id then L.etched env network block tx
      else L.runes id
  mints id := L.mints id + if (L.minted env network block tx).map Prod.fst = some id then 1 else 0
  holdings id :=
    spend tx.spent (L.holdings id) + pay (tx.payee env network) (L.shares env network block tx id)
  issued id := L.issued id + L.added env network block tx id
  burned id := L.burned id + lost (tx.payee env network) (L.shares env network block tx id)

/-- **A transaction is lawful**, in the ledger before it. -/
structure Lawful : Prop where
  /-- What it etches has an id and a name of its own. -/
  etches : ∀ row,
    (env.decipher tx.outputs).bind (Artifact.etchedFace (tx.location block network)) = some row →
    row.id ≠ .placeholder ∧ row.id ≠ uncommonGoods.id ∧ L.Free row
  /-- It does not mint what it etches. -/
  mints : ∀ id, (env.decipher tx.outputs).bind Artifact.mint = some id → id ≠ .placeholder ∧
    ((env.decipher tx.outputs).bind (Artifact.etchedFace (tx.location block network))).map
    DbRune.id ≠ some id
  /-- A cenotaph mints nothing. -/
  cenotaph : ∀ c, env.decipher tx.outputs = some (.cenotaph c) →
      L.minted env network block tx = none
  /-- Its edicts are for its outputs. -/
  edicts : ∀ r, env.decipher tx.outputs = some (.runestone r) → ∀ e ∈ r.edicts,
      e.output ≤ tx.outputs.length
  /-- What was issued of a rune fits in a `u128`. -/
  issued : ∀ id, (L.transaction env network block tx).issued id < 2 ^ 128

/-- The ledger after some transactions. -/
noncomputable def after (txs : List (Block × Transaction)) : RunesLedger :=
  txs.foldl (fun L p => L.transaction env network p.1 p.2) genesis

/-- The ledger of some blocks. -/
noncomputable def ofBlocks (blocks : List Block) : RunesLedger :=
  after env network (locatedTransactions blocks)

/-- **A chain is lawful**: no id of a transaction comes twice, no output is spent twice, and every
transaction is lawful in the ledger before it. -/
structure LawfulChain (blocks : List Block) : Prop where
  /-- The transactions of a block have distinct indexes. -/
  indexes : ∀ b ∈ blocks, (b.transactions.map Transaction.index).Nodup
  /-- No id of a transaction comes twice. -/
  ids : (txIds blocks).Nodup
  /-- No output is spent twice. -/
  spends : (spends blocks).Nodup
  /-- Each transaction is lawful where it stands. -/
  transactions : ∀ done block tx rest, locatedTransactions blocks = done ++ (block, tx) :: rest →
    (after env network done).Lawful env network block tx

end

/-! ## Runs of the ledger -/

section

variable {env : Environment} {network : Network}

section

variable {env' : Environment} (h : env.SameProtocol env') {blocks : List Block}

include h

/-- **The ledger knows no orders.** -/
theorem ofBlocks_eq_of_sameProtocol :
    ofBlocks env network blocks = ofBlocks env' network blocks := by
  obtain ⟨haddress, hopReturn, hdecipher⟩ := h
  cases env
  cases env'
  cases haddress
  cases hopReturn
  cases hdecipher
  rfl

/-- Nor do the laws. -/
theorem LawfulChain.of_sameProtocol (hlawful : LawfulChain env network blocks) :
    LawfulChain env' network blocks := by
  obtain ⟨haddress, hopReturn, hdecipher⟩ := h
  cases env
  cases env'
  cases haddress
  cases hopReturn
  cases hdecipher
  refine ⟨hlawful.indexes, hlawful.ids, hlawful.spends, fun done block tx rest hsplit => ?_⟩
  obtain ⟨hetches, hmints, hcenotaph, hedicts, hissued⟩ :=
    hlawful.transactions done block tx rest hsplit
  exact ⟨hetches, hmints, hcenotaph, hedicts, hissued⟩

end

theorem after_concat (txs : List (Block × Transaction)) (block : Block) (tx : Transaction) :
    after env network (txs ++ [(block, tx)]) =
      (after env network txs).transaction env network block tx := by
  rw [after, List.foldl_append]
  rfl

/-- **Induction over the transactions**. -/
theorem after_induction {P : RunesLedger → Prop} (start : P genesis)
    (step : ∀ L block tx, P L → P (L.transaction env network block tx))
    (txs : List (Block × Transaction)) :
    P (after env network txs) := by
  induction txs using List.reverseRecOn with
  | nil => exact start
  | append_singleton txs p ih =>
    rw [after_concat]
    exact step _ _ _ ih

/-- What was issued of a rune is held or burned. -/
def Balanced (L : RunesLedger) : Prop := ∀ id, (L.holdings id).degree + L.burned id = L.issued id

/-- **The ledger is balanced**: of each rune, what was premined and minted is held by outputs or was
burned, because a transaction shares out exactly what it has. -/
theorem balanced_after (txs : List (Block × Transaction)) : (after env network txs).Balanced := by
  refine after_induction (fun _ => Nat.add_zero _) (fun L block tx h id => ?_) txs
  have hgiven : given (L.shares env network block tx id) =
      heldBy tx.spent (L.holdings id) + L.added env network block tx id :=
    TransactionCache.given_artifactShares _ id _ _
  have hdegree : (spend tx.spent (L.holdings id) +
      pay (tx.payee env network) (L.shares env network block tx id)).degree +
        lost (tx.payee env network) (L.shares env network block tx id) =
      (L.holdings id).degree + L.added env network block tx id := degree_spend_add_pay hgiven
  have hbefore := h id
  simp only [transaction]
  omega

/-- What was issued of a rune is its premine and the amount of each mint, and only a rune is
minted. -/
structure IssuedByTerms (L : RunesLedger) : Prop where
  /-- The premine, and the amount of the terms for each mint. -/
  issued : ∀ id, L.issued id =
    (L.runes id).elim 0 fun rune => rune.premine + L.mints id * rune.termsAmount.getD 0
  /-- What is no rune is not minted. -/
  unknown : ∀ id, L.runes id = none → L.mints id = 0

/-- A transaction without an artifact etches nothing and mints nothing. -/
theorem etched_minted_of_none {block : Block} {tx : Transaction}
    (h : env.decipher tx.outputs = none) (L : RunesLedger) :
    L.etched env network block tx = none ∧ L.minted env network block tx = none := by
  rw [etched, minted, h]
  exact ⟨rfl, rfl⟩

/-- What a transaction etches is free. -/
theorem free_of_etched {L : RunesLedger} {block : Block} {tx : Transaction} {row : DbRune}
    (h : L.etched env network block tx = some row) : L.Free row := by
  simpa using (Option.filter_eq_some_iff.mp h).2

/-- What a transaction mints is the amount of a rune of the ledger. -/
theorem exists_rune_of_minted {L : RunesLedger} {block : Block} {tx : Transaction}
    {mint : RuneId × ℕ} (h : L.minted env network block tx = some mint) :
    ∃ rune, L.runes mint.1 = some rune ∧ rune.termsAmount = some mint.2 := by
  obtain ⟨id, -, h⟩ := Option.bind_eq_some_iff.mp h
  obtain ⟨rune, hrune, h⟩ := Option.bind_eq_some_iff.mp h
  split at h
  · obtain ⟨amount, hamount, rfl⟩ := Option.map_eq_some_iff.mp h
    exact ⟨rune, hrune, hamount⟩
  · cases h

/-- A rune that is etched has not been minted, and a mint adds the amount of its rune. -/
theorem IssuedByTerms.transaction {L : RunesLedger} (h : L.IssuedByTerms) (block : Block)
    (tx : Transaction) :
    (L.transaction env network block tx).IssuedByTerms := by
  -- a rune that the ledger does not know is not minted
  have hminted :
      ∀ id, L.runes id = none → (L.minted env network block tx).map Prod.fst ≠ some id := by
    intro id hnone heq
    obtain ⟨mint, hmint, rfl⟩ := Option.map_eq_some_iff.mp heq
    obtain ⟨rune, hrune, -⟩ := exists_rune_of_minted hmint
    cases hnone.symm.trans hrune
  refine ⟨fun id => ?_, fun id hnone => ?_⟩
  · simp only [RunesLedger.transaction, added, addition]
    by_cases hetched : (L.etched env network block tx).map DbRune.id = some id
    -- the new rune has its premine, and no mint of it is accepted in the same transaction
    · obtain ⟨row, hrow, rfl⟩ := Option.map_eq_some_iff.mp hetched
      have hnone : L.runes row.id = none := (free_of_etched hrow).1
      have hother := hminted row.id hnone
      have hissued := h.issued row.id
      rw [hnone, Option.elim_none] at hissued
      rw [if_pos hetched, if_neg hother, hrow, Option.elim_some, Option.elim_some,
        if_pos rfl, hissued, h.unknown row.id hnone]
      cases hmint : L.minted env network block tx with
      | none => simp
      | some mint =>
        rw [hmint] at hother
        have hne : mint.1 ≠ row.id := fun heq => hother (congrArg some heq)
        simp [hne]
    · have hpremine :
          (L.etched env network block tx).elim 0
            (fun row => if row.id = id then row.premine else 0) = 0 := by
        cases hrow : L.etched env network block tx with
        | none => rfl
        | some row =>
          rw [hrow] at hetched
          exact if_neg fun heq => hetched (congrArg some heq)
      -- an old rune grows by the amount of its terms if it is the minted one
      rw [if_neg hetched, hpremine, h.issued, Nat.zero_add]
      cases hmint : L.minted env network block tx with
      | none => simp
      | some mint =>
        by_cases hid : mint.1 = id
        · obtain ⟨rune, hrune, hamount⟩ := exists_rune_of_minted hmint
          rw [hid] at hrune
          simp [hrune, hamount, hid, Nat.add_mul, Nat.add_assoc]
        · simp [hid]
  -- a rune unknown afterwards was unknown before
  · have hruns :
        (if (L.etched env network block tx).map DbRune.id =
          some id then L.etched env network block tx
          else L.runes id) = none := hnone
    show L.mints id + _ = 0
    split at hruns
    · rename_i hetched
      rw [hruns] at hetched
      cases hetched
    · rw [h.unknown id hruns, if_neg (hminted id hruns)]

theorem issuedByTerms_after (txs : List (Block × Transaction)) :
    (after env network txs).IssuedByTerms := by
  refine after_induction ⟨fun id => ?_, fun _ _ => rfl⟩
    (fun L block tx h => h.transaction block tx) txs
  simp only [genesis]
  split <;> simp [DbRune.face, uncommonGoods]

end

end RunesLedger

end Runehook
