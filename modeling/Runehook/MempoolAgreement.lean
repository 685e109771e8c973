import Runehook.MempoolRows
import Runehook.MinedRows

/-! # The mempool against the ledger

`parse_mempool_tx` repeats what `index_block` does with a transaction, with two differences. The
rest of a rune that no edict moves goes to the first eligible output when a transaction is mined,
and nowhere in the mempool, unless the runestone sets a pointer (`Artifact.RestAgrees`). And
balances are taken off opposite ends, so that an edict that takes part of a rune debits other
senders (`Artifact.OrderAgrees`). Where neither shows, both write the same rows:
`Mempool.parseMempoolTx_agrees`. -/

namespace Runehook

open Lib

/-! ## The transaction in a block -/

/-- The transaction in a block: chainhook writes hashes with a prefix. -/
def MempoolTransaction.mined (tx : MempoolTransaction) (index : Nat) : Transaction where
  hash := "0x" ++ tx.txid.toText
  index := index
  inputs := tx.inputs.map fun (txid, vout) => ⟨"0x" ++ txid.toText, vout⟩
  outputs := tx.outputs

theorem stripHexPrefix_append (text : String) : stripHexPrefix ("0x" ++ text) = text := by
  rw [stripHexPrefix, String.toList_append]
  exact String.ofList_toList

/-- It spends the same outputs. -/
theorem MempoolTransaction.mined_spends (tx : MempoolTransaction) (index : Nat) :
    (tx.mined index).inputs.map TxIn.outputKey = tx.spends := by
  rw [mined, List.map_map, spends]
  refine List.map_congr_left fun input _ => ?_
  exact congrArg (·, input.2) (stripHexPrefix_append input.1.toText)

/-! ## Where both agree -/

/-- It makes no difference where the rest goes: the runestone sets a pointer, no output can receive
anything, or nothing is left of any rune. -/
def Artifact.RestAgrees (env : Environment) (outputs : List ScriptBuf) (spent : List (String × Nat))
    (ledger : List DbLedgerEntry) : Artifact → Prop
  | .runestone r => r.pointer.isSome ∨ (scanOutputs env outputs).firstEligibleOutput = none ∨
      ∀ id,
      edictsLeave (movesIn env outputs) id r.edicts (totalAmount (spentBalances id spent ledger)) =
        0
  | .cenotaph _ => True

/-- It makes no difference from which end balances are taken: those of a rune are all the same, or
the first move takes them all. -/
def Artifact.OrderAgrees (env : Environment) (outputs : List ScriptBuf)
    (spent : List (String × Nat)) (ledger : List DbLedgerEntry) : Artifact → Prop
  | .runestone r => ∀ id, Orderless (runeMoves (movesIn env outputs) id r.edicts r.pointer
      (totalAmount (spentBalances id spent ledger))) (spentBalances id spent ledger)
  | .cenotaph _ => True

namespace Mempool

/-- Rows agree up to order if they do rune by rune. -/
theorem rows_perm_iff {es : List DbLedgerEntry} {es' : List DBMempoolLedgerEntry} :
    (es.map DbLedgerEntry.row).Perm (es'.map DBMempoolLedgerEntry.row) ↔
      ∀ id,
      ((ofRune id es).map DbLedgerEntry.row).Perm
      (rowsOf id (es'.map DBMempoolLedgerEntry.row)) := by
  have hof : ∀ id, (ofRune id es).map DbLedgerEntry.row = rowsOf id (es.map DbLedgerEntry.row) := by
    intro id
    rw [rowsOf, List.filter_map]
    rfl
  constructor
  · intro hperm id
    rw [hof]
    exact hperm.filter _
  · intro hrunes
    refine perm_of_forall_filter LedgerRow.runeId fun id => ?_
    have hid := hrunes id
    rwa [hof] at hid

/-- **The mempool agrees with the ledger.** A transaction that only moves balances, mined alone on
the ledger that the mempool knows, writes the rows that the mempool has for it, up to order: only if
it makes no difference where the rest of a rune goes; and always then, if it makes no difference
from which end balances are taken. -/
theorem parseMempoolTx_agrees {env : MempoolEnvironment} {block : Block}
    {tx : MempoolTransaction} {index : Nat} {artifact : Artifact} {s s' : Session}
    (hserves : s.Serves env.toEnvironment) (hblock : block.transactions = [tx.mined index])
    (hartifact : env.decipher tx.outputs = some artifact)
    (honly : artifact.OnlyMoves fun id => (pgGetRuneById id s.db).isSome)
    (hfits : ∀ id, totalAmount (spentBalances id tx.spends s.db.ledger) < 2 ^ 128)
    (hindex : indexBlock env.toEnvironment block s = some s') (txId : String) :
    ∃ written, s'.db.ledger = s.db.ledger ++ written ∧
      ((written.map DbLedgerEntry.row).Perm
          ((parseMempoolTx env s.cache.network tx txId s.db).map DBMempoolLedgerEntry.row) →
        artifact.RestAgrees env.toEnvironment tx.outputs tx.spends s.db.ledger) ∧
      (artifact.OrderAgrees env.toEnvironment tx.outputs tx.spends s.db.ledger →
        artifact.RestAgrees env.toEnvironment tx.outputs tx.spends s.db.ledger →
        (written.map DbLedgerEntry.row).Perm
          ((parseMempoolTx env s.cache.network tx txId s.db).map DBMempoolLedgerEntry.row)) := by
  have hcredits := hserves.atRest.2.2
  have hwrites := parseMempoolTx_writes hartifact honly hcredits hfits s.cache.network txId
  rw [← tx.mined_spends index] at hfits
  obtain ⟨written, hledger, hmined⟩ := indexBlock_rows hserves hblock hartifact honly hfits hindex
  rw [tx.mined_spends] at hmined hfits
  refine ⟨written, hledger, ?_⟩
  rw [rows_perm_iff]
  cases artifact with
  | cenotaph c =>
    refine ⟨fun _ => trivial, fun _ _ id => ?_⟩
    obtain ⟨balances, hperm, hrows⟩ := hmined id
    obtain ⟨balances', hperm', hrows'⟩ := hwrites id
    rw [hrows, hrows', Artifact.rows, Artifact.rows]
    exact (hperm.trans hperm'.symm).map _
  | runestone r =>
    -- rune by rune: two orders of the same held balances, and two pointers
    have hrune : ∀ id, ∃ balances balances' : List InputRuneBalance, balances.Perm balances' ∧
        (∀ b ∈ balances, b.Held) ∧ balances.Perm (spentBalances id tx.spends s.db.ledger) ∧
        (ofRune id written).map DbLedgerEntry.row =
          movesRows (receiverIn env.toEnvironment s.cache.network tx.outputs)
          id (runeMoves (movesIn env.toEnvironment tx.outputs) id r.edicts
            (r.pointer.or (scanOutputs env.toEnvironment tx.outputs).firstEligibleOutput)
            (totalAmount balances)) balances ∧
        rowsOf id ((parseMempoolTx env s.cache.network tx txId s.db).map DBMempoolLedgerEntry.row) =
          movesRows (receiverIn env.toEnvironment s.cache.network tx.outputs) id
            (runeMoves (movesIn env.toEnvironment tx.outputs) id r.edicts r.pointer
              (totalAmount balances))
            balances' := by
      intro id
      obtain ⟨balances, hperm, hrows⟩ := hmined id
      obtain ⟨balances', hperm', hrows'⟩ := hwrites id
      have hboth := hperm.trans hperm'.symm
      refine ⟨balances, balances', hboth, fun b hb =>
        spentBalances_held hcredits b (hperm.mem_iff.mp hb), hperm, hrows,
        ?_⟩
      rw [totalAmount_perm hboth]
      exact hrows'
    constructor
    · intro hagree
      by_cases hpointer : r.pointer.isSome
      · exact .inl hpointer
      · rw [Option.not_isSome_iff_eq_none] at hpointer
        cases hfirst : (scanOutputs env.toEnvironment tx.outputs).firstEligibleOutput with
        | none => exact .inr (.inl hfirst)
        | some k =>
          refine .inr (.inr fun id => ?_)
          obtain ⟨balances, balances', hboth, hheld, hperm, hrows, hrows'⟩ := hrune id
          have hid := hagree id
          rw [hrows, hrows', hpointer, hfirst] at hid
          rw [← totalAmount_perm hperm]
          exact edictsLeave_of_rows_perm rfl hboth hheld
            ((totalAmount_perm hperm).trans_lt (hfits id)) hid
    · intro horder hrest id
      obtain ⟨balances, balances', hboth, hheld, hperm, hrows, hrows'⟩ := hrune id
      have htotal := totalAmount_perm hperm
      have horder' := (horder id).perm hperm.symm
      rw [← htotal] at horder'
      rw [hrows, hrows']
      refine runeMoves_rows_perm hboth (fun b hb => (hheld b hb).pos)
        (htotal.trans_lt (hfits id)) horder' ?_
      rcases hrest with hpointer | hnone | hleft
      · obtain ⟨p, hp⟩ := Option.isSome_iff_exists.mp hpointer
        rw [hp]
        exact .inl rfl
      · rw [hnone, Option.or_none]
        exact .inl rfl
      · rw [htotal]
        exact .inr (hleft id)

/-! ## Payments -/

/-- What can be spent of a rune is at most what the ledger has for each output. -/
theorem totalAmount_spentBalances_le (id : RuneId) (spent : List (String × Nat))
    (ledger : List DbLedgerEntry) :
    totalAmount (spentBalances id spent ledger) ≤
      spent.length * (ledger.map DbLedgerEntry.value).sum := by
  induction spent with
  | nil => exact Nat.zero_le _
  | cons k spent ih =>
    have hcredits : totalAmount (credits k id ledger) ≤ (ledger.map DbLedgerEntry.value).sum := by
      rw [totalAmount_credits]
      exact tally_le_sum fun _ => Nat.le_refl _
    rw [spentBalances, List.flatMap_cons, totalAmount_append, List.length_cons, Nat.add_one_mul]
    rw [spentBalances] at ih
    omega

/-- An `OP_RETURN` output mints, or it carries a runestone that moves: nothing, or one unit to the
first output and the rest to the second. The balances of the inputs are iterated backwards. -/
def payEnv : MempoolEnvironment where
  toEnvironment := .plain fun script =>
    if script = [0x6a] then some (.runestone ⟨[], none, some uncommonGoods.id, none⟩)
    else if script = [0x6a, 0] then some (.runestone ⟨[], none, none, none⟩)
    else some (.runestone ⟨[⟨uncommonGoods.id, 1, 0⟩], none, none, some 1⟩)
  inputOrder := List.reverse
  inputOrder_perm := List.reverse_perm
  inputRuneOrder l := l
  inputRuneOrder_perm _ := .refl _

/-- An id whose digits are all the same. -/
def uniformTxid (digit : Nat) : Txid :=
  ⟨List.replicate 64 ⟨digit % 16, Nat.mod_lt digit (Nat.succ_pos 15)⟩, List.length_replicate⟩

/-- A transaction that mints to a script. -/
def mintingTx (digit : Nat) (script : ScriptBuf) : MempoolTransaction :=
  ⟨uniformTxid digit, [], [script, [0x6a]]⟩

/-- Alice and bob mint. -/
def mintingBlock : Block :=
  ⟨"0xb1", 840001, 1700000000, [(mintingTx 0 [1]).mined 0, (mintingTx 1 [2]).mined 1]⟩

/-- A transaction that spends what alice minted, and what bob did after it. -/
def payingTx (withBob : Bool) (outputs : List ScriptBuf) : MempoolTransaction where
  txid := uniformTxid 2
  inputs := ((mintingTx 0 [1]).txid, 0) :: if withBob then [((mintingTx 1 [2]).txid, 0)] else []
  outputs := outputs

/-- The block that mines a transaction. -/
def payingBlock (tx : MempoolTransaction) : Block := ⟨"0xb2", 840002, 1700000000, [tx.mined 0]⟩

/-- The sessions before and after the block that mines a transaction. -/
structure Pays (tx : MempoolTransaction) (s s' : Session) : Prop where
  /-- The ledger can be asked before the block. -/
  serves : s.Serves payEnv.toEnvironment
  /-- The block mines the transaction. -/
  index : indexBlock payEnv.toEnvironment (payingBlock tx) s = some s'

/-- A test of the tables before and after the block that mines a transaction. -/
def checkPays (tx : MempoolTransaction) (p : Session → Session → Bool) : Bool :=
  ((freshSession .bitcoin 1 Nat.one_pos).bind fun s₀ =>
    (runEvents payEnv.toEnvironment [.index mintingBlock] s₀).bind fun s =>
      (indexBlock payEnv.toEnvironment (payingBlock tx) s).map (p s)).any id

theorem exists_pays {tx : MempoolTransaction} {p : Session → Session → Bool} (h : checkPays tx p) :
    ∃ s s', Pays tx s s' ∧ p s s' := by
  obtain ⟨passed, hruns, hpassed⟩ := (Option.any_eq_true id _).mp h
  obtain ⟨s₀, hstart, hruns⟩ := Option.bind_eq_some_iff.mp hruns
  obtain ⟨s, hrun, hruns⟩ := Option.bind_eq_some_iff.mp hruns
  obtain ⟨s', hindex, rfl⟩ := Option.map_eq_some_iff.mp hruns
  have hforward : ∀ e ∈ [Event.index mintingBlock], e.Forward := by simp [Event.Forward]
  exact ⟨s, s', ⟨.run hforward (by decide +kernel) hstart hrun, hindex⟩, hpassed⟩

/-- Alice pays what she minted to the first output. -/
def alicePays : MempoolTransaction := payingTx false [[1], [2], [0x6a, 1]]

theorem alicePays_order {ledger : List DbLedgerEntry}
    (hle : totalAmount (spentBalances uncommonGoods.id alicePays.spends ledger) ≤ 1) :
    Artifact.OrderAgrees payEnv.toEnvironment alicePays.outputs alicePays.spends ledger
      (.runestone ⟨[⟨uncommonGoods.id, 1, 0⟩], none, none, some 1⟩) := by
  intro id
  refine .inr fun move hmove => ?_
  rw [runeMoves, edictsMoves] at hmove
  by_cases hid : uncommonGoods.id = id
  · subst hid
    rw [if_pos rfl] at hmove
    cases Option.some.inj hmove
    exact .inr hle
  · rw [if_neg hid] at hmove
    cases Option.some.inj hmove
    exact .inl rfl

/-- The mempool agrees on that. -/
theorem parseMempoolTx_agrees_alicePays : ∃ s s' written, Pays alicePays s s' ∧
    s'.db.ledger = s.db.ledger ++ written ∧ (written.map DbLedgerEntry.row).Perm
      ((parseMempoolTx payEnv s.cache.network alicePays "" s.db).map DBMempoolLedgerEntry.row) := by
  -- both sides are run once, and the facts about the run read off
  have hcheck : checkPays alicePays fun s _ => (s.db.ledger.map DbLedgerEntry.value).sum < 2 ^ 128 ∧
      (pgGetRuneById uncommonGoods.id s.db).isSome ∧
      totalAmount (spentBalances uncommonGoods.id alicePays.spends s.db.ledger) ≤ 1 := by
    decide +kernel
  obtain ⟨s, s', hpays, hp⟩ := exists_pays hcheck
  obtain ⟨hsum, hknown, hle⟩ := of_decide_eq_true hp
  have hdecipher : payEnv.decipher alicePays.outputs =
      some (.runestone ⟨[⟨uncommonGoods.id, 1, 0⟩], none, none, some 1⟩) := by decide
  have honly : Artifact.OnlyMoves (fun id => (pgGetRuneById id s.db).isSome)
      (.runestone ⟨[⟨uncommonGoods.id, 1, 0⟩], none, none, some 1⟩) := by
    refine ⟨rfl, rfl, fun e he => ?_⟩
    rw [List.mem_singleton.mp he]
    exact ⟨by decide, hknown⟩
  have hfits :
      ∀ id, totalAmount (spentBalances id alicePays.spends s.db.ledger) < 2 ^ 128 := fun id =>
    (totalAmount_spentBalances_le id _ _).trans_lt ((Nat.one_mul _).trans_lt hsum)
  obtain ⟨written, hledger, -, hagrees⟩ :=
    parseMempoolTx_agrees hpays.serves rfl hdecipher honly hfits hpays.index ""
  exact ⟨s, s', written, hpays, hledger, hagrees (alicePays_order hle) (.inl rfl)⟩

/-- A transaction that only moves is mined on a ledger that knows its runes, and the mempool has
other rows for it. -/
def Disagrees (tx : MempoolTransaction) : Prop :=
  ∃ s s' artifact, Pays tx s s' ∧ payEnv.decipher tx.outputs = some artifact ∧
    (artifact.OnlyMoves fun id => (pgGetRuneById id s.db).isSome) ∧
    ∀ written, s'.db.ledger = s.db.ledger ++ written → ¬ (written.map DbLedgerEntry.row).Perm
      ((parseMempoolTx payEnv s.cache.network tx "" s.db).map DBMempoolLedgerEntry.row)

theorem disagrees_of_check {tx : MempoolTransaction} {artifact : Artifact}
    (hdecipher : payEnv.decipher tx.outputs = some artifact)
    (honly : artifact.OnlyMoves fun id => id = uncommonGoods.id)
    (h : checkPays tx fun s s' => (pgGetRuneById uncommonGoods.id s.db).isSome ∧
      ¬ ((s'.db.ledger.drop s.db.ledger.length).map DbLedgerEntry.row).Perm
        ((parseMempoolTx payEnv s.cache.network tx "" s.db).map DBMempoolLedgerEntry.row)) :
        Disagrees tx := by
  obtain ⟨s, s', hpays, hp⟩ := exists_pays h
  obtain ⟨hknown, hrows⟩ := of_decide_eq_true hp
  refine ⟨s, s', artifact, hpays, hdecipher, honly.mono ?_, fun written hledger => ?_⟩
  · rintro id rfl
    exact hknown
  · rwa [hledger, List.drop_left] at hrows

/-- Without a pointer what alice minted goes to bob when the transaction is mined, and nowhere in
the mempool; and where bob's balance comes after hers, it is hers that goes to the first output when
the transaction is mined, and his in the mempool. -/
theorem exists_disagrees :
    Disagrees (payingTx false [[2], [0x6a, 0]]) ∧
    Disagrees (payingTx true [[1], [2], [0x6a, 1]]) := by
  have hrest : payEnv.decipher (payingTx false [[2], [0x6a, 0]]).outputs =
      some (.runestone ⟨[], none, none, none⟩) := by decide
  have horder : payEnv.decipher (payingTx true [[1], [2], [0x6a, 1]]).outputs =
      some (.runestone ⟨[⟨uncommonGoods.id, 1, 0⟩], none, none, some 1⟩) := by decide
  constructor
  · exact disagrees_of_check hrest ⟨rfl, rfl, fun e he => absurd he List.not_mem_nil⟩
      (by decide +kernel)
  · refine disagrees_of_check horder ⟨rfl, rfl, fun e he => ?_⟩ (by decide +kernel)
    rw [List.mem_singleton.mp he]
    exact ⟨by decide, rfl⟩

end Mempool

end Runehook
