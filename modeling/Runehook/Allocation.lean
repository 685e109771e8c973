import Runehook.Mempool
import Runehook.OutputLookup

/-! # What the moves of a rune write

Which output gets how much of a rune is known before any balance is taken: the moves of the edicts
(`runeMoves`) depend on the total alone. `movesRows` are the rows that they write off a deque, and
`Artifact.rows` those of an artifact. What the moves write depends also on the order in which the
balances come in, unless the first move takes them all (`Orderless`, `movesRows_perm`,
`runeMoves_rows_perm`). -/

namespace Runehook

open Lib

/-! ## Rows -/

/-- What `ledger` and `mempool_ledger` both say of an operation. -/
structure LedgerRow where
  /-- The rune. -/
  runeId : RuneId
  /-- What was done. -/
  operation : DbLedgerOperation
  /-- How much of the rune. -/
  amount : Option Nat
  /-- The output that gets it, or that it is sent to. -/
  output : Option Nat
  /-- The owner that the operation is about. -/
  address : Option Address
  /-- The owner of the output. -/
  receiverAddress : Option Address
  deriving DecidableEq, Repr

/-- The row of a ledger entry. -/
def DbLedgerEntry.row (e : DbLedgerEntry) : LedgerRow :=
  ⟨e.runeId, e.operation, e.amount, e.output, e.address, e.receiverAddress⟩

section

variable (receiver : Option Nat → Option Address) (id : RuneId)

/-- The rows of a move to an output, with what was taken for it. -/
def moveRows (output : Option Nat) (taking : Taking) : List LedgerRow :=
  (if (receiver output).isSome ∧ 0 < taking.totalSent then
    [⟨id, .receive, some taking.totalSent, output, receiver output, none⟩] else []) ++
  taking.senders.map fun (balanceTaken, senderAddress) =>
    ⟨id, if (receiver output).isSome then .send else .burn, some balanceTaken, output,
      some senderAddress, receiver output⟩

/-- The rows of some moves. -/
def movesRows : List (Option Nat × Nat) → List InputRuneBalance → List LedgerRow
  | [], _ => []
  | (output, amount) :: moves, balances =>
    moveRows receiver id output (takeBalances amount balances 0 []) ++
      movesRows moves (takeBalances amount balances 0 []).balances

end

/-- The balances that some moves leave. -/
def movesRest : List (Option Nat × Nat) → List InputRuneBalance → List InputRuneBalance
  | [], balances => balances
  | (_, amount) :: moves, balances => movesRest moves (takeBalances amount balances 0 []).balances

/-! ## Moves -/

/-- What a move leaves of a total. An amount of zero means all of it. -/
def amountLeft (amount total : Nat) : Nat := if amount = 0 then 0 else total - amount

/-- What some moves leave of a total. -/
def movesLeave (moves : List (Option Nat × Nat)) (total : Nat) : Nat :=
  moves.foldl (fun left move => amountLeft move.2 left) total

section

variable (moves : Edict → Nat → List (Option Nat × Nat)) (id : RuneId)

/-- The moves of a rune that some edicts make of a total, where `moves` says what an edict makes of
what is left. -/
def edictsMoves : List Edict → Nat → List (Option Nat × Nat)
  | [], _ => []
  | e :: edicts, total =>
    if e.id = id then moves e total ++ edictsMoves edicts (movesLeave (moves e total) total)
    else edictsMoves edicts total

/-- The moves of a rune that a runestone makes: those of its edicts, and the rest goes to the
pointer. -/
def runeMoves (edicts : List Edict) (pointer : Option Nat) (total : Nat) :
    List (Option Nat × Nat) :=
  edictsMoves moves id edicts total ++ [(pointer, 0)]

/-- What the edicts of a runestone leave of a rune. -/
def edictsLeave (edicts : List Edict) (total : Nat) : Nat :=
  movesLeave (edictsMoves moves id edicts total) total

end

@[simp] theorem movesLeave_nil (total : Nat) : movesLeave [] total = total := rfl

@[simp] theorem movesLeave_append (moves moves' : List (Option Nat × Nat)) (total : Nat) :
    movesLeave (moves ++ moves') total = movesLeave moves' (movesLeave moves total) :=
  List.foldl_append

theorem amountLeft_le (amount total : Nat) : amountLeft amount total ≤ total := by
  unfold amountLeft
  split <;> omega

/-- Moves leave no more than there is. -/
theorem movesLeave_le (moves : List (Option Nat × Nat)) (total : Nat) :
    movesLeave moves total ≤ total := by
  induction moves generalizing total with
  | nil => exact Nat.le_refl _
  | cons move moves ih => exact (ih _).trans (amountLeft_le move.2 total)

@[simp] theorem movesRest_append (moves moves' : List (Option Nat × Nat))
    (balances : List InputRuneBalance) :
    movesRest (moves ++ moves') balances = movesRest moves' (movesRest moves balances) := by
  induction moves generalizing balances with
  | nil => rfl
  | cons move moves ih => exact ih _

@[simp] theorem movesRows_append (receiver : Option Nat → Option Address) (id : RuneId)
    (moves moves' : List (Option Nat × Nat)) (balances : List InputRuneBalance) :
    movesRows receiver id (moves ++ moves') balances =
      movesRows receiver id moves balances ++
        movesRows receiver id moves' (movesRest moves balances) := by
  induction moves generalizing balances with
  | nil => rfl
  | cons move moves ih =>
    rw [List.cons_append, movesRows, ih, movesRows, movesRest, List.append_assoc]

/-- Without balances there is nothing to write. -/
theorem movesRows_nil_balances (receiver : Option Nat → Option Address) (id : RuneId)
    (moves : List (Option Nat × Nat)) :
    movesRows receiver id moves [] = [] ∧ movesRest moves [] = [] := by
  induction moves with
  | nil => exact ⟨rfl, rfl⟩
  | cons move moves ih =>
    have hnone : moveRows receiver id move.1 ⟨[], 0, []⟩ = [] := by simp [moveRows]
    refine ⟨?_, ih.2⟩
    rw [movesRows, takeBalances, hnone, List.nil_append]
    exact ih.1

/-! ## Taking from held balances -/

/-- A balance that an output holds: it has an owner and is not empty. -/
structure InputRuneBalance.Held (b : InputRuneBalance) : Prop where
  /-- It has an owner. -/
  address : b.address.isSome
  /-- It is not empty. -/
  pos : 0 < b.amount

/-- The balances with their owners. -/
def owners (balances : List InputRuneBalance) : List (Nat × Address) :=
  balances.filterMap fun b => b.address.map fun a => (b.amount, a)

@[simp] theorem owners_nil : owners [] = [] := rfl

theorem owners_cons (bal : InputRuneBalance) (balances : List InputRuneBalance) :
    owners (bal :: balances) =
      (bal.address.map fun senderAddress => (bal.amount, senderAddress)).toList ++
        owners balances := by
  rw [owners, List.filterMap_cons]
  cases bal.address <;> rfl

/-- What is left of balances has what they have, if it does not depend on how much there is. -/
theorem takeBalances_keeps {P : InputRuneBalance → Prop}
    (hkeeps : ∀ b n, 0 < n → P b → P { b with amount := n }) (amount : Nat)
    {balances : List InputRuneBalance} {totalSent : Nat} {senders : List (Nat × Address)}
    (hbalances : ∀ b ∈ balances, P b) :
    ∀ b ∈ (takeBalances amount balances totalSent senders).balances, P b := by
  induction balances generalizing totalSent senders with
  | nil => exact hbalances
  | cons bal rest ih =>
    obtain ⟨hbal, hrest⟩ := List.forall_mem_cons.mp hbalances
    rw [takeBalances]
    generalize (if amount = 0 then bal.amount else min bal.amount (amount - totalSent)) = taken
    split
    · exact List.forall_mem_cons.mpr ⟨hkeeps bal _ (by omega) hbal, hrest⟩
    · split
      · exact hrest
      · exact ih hrest

/-- What is left of positive balances is positive. -/
theorem takeBalances_pos (amount : Nat) {balances : List InputRuneBalance} {totalSent : Nat}
    {senders : List (Nat × Address)} (hpos : ∀ b ∈ balances, 0 < b.amount) :
    ∀ b ∈ (takeBalances amount balances totalSent senders).balances, 0 < b.amount :=
  takeBalances_keeps (fun _ _ hn _ => hn) amount hpos

/-- What is left of held balances is held. -/
theorem takeBalances_held (amount : Nat) {balances : List InputRuneBalance} {totalSent : Nat}
    {senders : List (Nat × Address)} (hheld : ∀ b ∈ balances, b.Held) :
    ∀ b ∈ (takeBalances amount balances totalSent senders).balances, b.Held :=
  takeBalances_keeps (fun _ _ hn hb => ⟨hb.address, hn⟩) amount hheld

/-- A move of as much as there is takes every positive balance whole. -/
theorem takeBalances_whole {amount : Nat} {balances : List InputRuneBalance} {totalSent : Nat}
    {senders : List (Nat × Address)} (hpos : ∀ b ∈ balances, 0 < b.amount)
    (hfits : totalSent + totalAmount balances < 2 ^ 128)
    (hall : amount = 0 ∨ totalSent + totalAmount balances ≤ amount) :
    takeBalances amount balances totalSent senders =
      ⟨[], totalSent + totalAmount balances, senders ++ owners balances⟩ := by
  induction balances generalizing totalSent senders with
  | nil => rw [takeBalances, owners_nil, List.append_nil, totalAmount_nil, Nat.add_zero]
  | cons bal rest ih =>
    obtain ⟨hbal, hrest⟩ := List.forall_mem_cons.mp hpos
    rw [totalAmount_cons] at hfits hall ⊢
    have htaken : (if amount = 0 then bal.amount else min bal.amount (amount - totalSent)) =
        bal.amount := by
      split <;> omega
    have htotal : u128Add totalSent bal.amount = totalSent + bal.amount := u128Add_eq (by omega)
    rw [takeBalances]
    simp only [htaken, htotal, Nat.lt_irrefl, if_false, owners_cons]
    split
    · -- the amount is reached: nothing can come after a positive balance
      have hnil : rest = [] := by
        cases rest with
        | nil => rfl
        | cons bal' rest =>
          have hpos' := hrest bal' List.mem_cons_self
          rw [totalAmount_cons] at hall
          omega
      rw [hnil]
      simp [owners]
    · rw [ih hrest (by omega) (by omega), ← Nat.add_assoc, List.append_assoc]

/-- What is left of the total of positive balances. -/
theorem takeBalances_left {amount : Nat} {balances : List InputRuneBalance} {totalSent : Nat}
    {senders : List (Nat × Address)} (hpos : ∀ b ∈ balances, 0 < b.amount)
    (hfits : totalSent + totalAmount balances < 2 ^ 128) (hlt : amount ≠ 0 → totalSent < amount) :
    totalAmount (takeBalances amount balances totalSent senders).balances =
      amountLeft amount (totalSent + totalAmount balances) := by
  by_cases hall : amount = 0 ∨ totalSent + totalAmount balances ≤ amount
  · rw [takeBalances_whole hpos hfits hall, amountLeft, totalAmount_nil]
    split <;> omega
  · rw [not_or, Nat.not_le] at hall
    -- the loop stops where the amount is made up
    have hsent : (takeBalances amount balances totalSent senders).totalSent = amount := by
      obtain ⟨hne, hmore⟩ := hall
      have hlt := hlt hne
      clear hpos
      induction balances generalizing totalSent senders with
      | nil =>
        rw [totalAmount_nil] at hmore
        omega
      | cons bal rest ih =>
        rw [totalAmount_cons] at hfits hmore
        have htotal : u128Add totalSent (min bal.amount (amount - totalSent)) =
            totalSent + min bal.amount (amount - totalSent) := u128Add_eq (by omega)
        rw [takeBalances]
        simp only [hne, if_false, htotal]
        split
        · dsimp only
          omega
        · split
          · assumption
          · exact ih (by omega) (fun _ => by omega) (by omega) (by omega)
    have hexact := @takeBalances_exact amount balances totalSent senders hfits
    rw [amountLeft, if_neg hall.1]
    omega

/-- The senders of held balances send what is sent. -/
theorem takeBalances_senders {amount : Nat} {balances : List InputRuneBalance} {totalSent : Nat}
    {senders : List (Nat × Address)} (hheld : ∀ b ∈ balances, b.Held)
    (hfits : totalSent + totalAmount balances < 2 ^ 128)
    (hsenders : (senders.map Prod.fst).sum = totalSent) :
    ((takeBalances amount balances totalSent senders).senders.map Prod.fst).sum =
      (takeBalances amount balances totalSent senders).totalSent := by
  induction balances generalizing totalSent senders with
  | nil => exact hsenders
  | cons bal rest ih =>
    obtain ⟨hbal, hrest⟩ := List.forall_mem_cons.mp hheld
    obtain ⟨a, ha⟩ := Option.isSome_iff_exists.mp hbal.address
    rw [totalAmount_cons] at hfits
    rw [takeBalances]
    have htaken := balanceTaken_le amount totalSent bal
    generalize (if amount = 0 then bal.amount else min bal.amount (amount - totalSent)) =
      taken at htaken
    have hsum :
        ((senders ++ (bal.address.map fun senderAddress => (taken, senderAddress)).toList).map
          Prod.fst).sum = u128Add totalSent taken := by
      rw [u128Add_eq (by omega), ha, List.map_append, List.sum_append, hsenders]
      rfl
    split
    · exact hsum
    · split
      · exact hsum
      · refine ih hrest ?_ hsum
        rw [u128Add_eq (by omega)]
        omega

/-- **The moves of positive balances** leave what they leave of the total, in positive balances. -/
theorem movesRest_left {moves : List (Option Nat × Nat)} {balances : List InputRuneBalance}
    (hpos : ∀ b ∈ balances, 0 < b.amount) (hfits : totalAmount balances < 2 ^ 128) :
    (∀ b ∈ movesRest moves balances, 0 < b.amount) ∧
      totalAmount (movesRest moves balances) = movesLeave moves (totalAmount balances) := by
  induction moves generalizing balances with
  | nil => exact ⟨hpos, rfl⟩
  | cons move moves ih =>
    have hexact := @takeBalances_exact move.2 balances 0 [] (by omega)
    have hleft := @takeBalances_left move.2 balances 0 [] hpos (by omega) Nat.pos_of_ne_zero
    rw [Nat.zero_add] at hleft
    obtain ⟨hrest, htotal⟩ :=
      @ih (takeBalances move.2 balances 0 []).balances (takeBalances_pos _ hpos) (by omega)
    refine ⟨hrest, ?_⟩
    rw [movesRest, htotal, hleft]
    rfl

/-- The moves of held balances leave held balances. -/
theorem movesRest_held {moves : List (Option Nat × Nat)} {balances : List InputRuneBalance}
    (hheld : ∀ b ∈ balances, b.Held) : ∀ b ∈ movesRest moves balances, b.Held := by
  induction moves generalizing balances with
  | nil => exact hheld
  | cons move moves ih => exact ih (takeBalances_held _ hheld)

/-- Positive balances that add up to nothing are none. -/
theorem eq_nil_of_pos {balances : List InputRuneBalance} (hpos : ∀ b ∈ balances, 0 < b.amount)
    (hzero : totalAmount balances = 0) : balances = [] := by
  cases balances with
  | nil => rfl
  | cons bal rest =>
    have hbal := hpos bal List.mem_cons_self
    rw [totalAmount_cons] at hzero
    omega

/-! ## The order of the balances -/

theorem owners_perm {balances balances' : List InputRuneBalance} (h : balances.Perm balances') :
    (owners balances).Perm (owners balances') := h.filterMap _

/-- The first move takes everything: it asks for all there is, or for no amount. -/
def FirstTakesAll (moves : List (Option Nat × Nat)) (total : Nat) : Prop :=
  ∀ move ∈ moves.head?, move.2 = 0 ∨ total ≤ move.2

instance (moves : List (Option Nat × Nat)) (total : Nat) : Decidable (FirstTakesAll moves total) :=
  inferInstanceAs (Decidable (∀ move ∈ moves.head?, _))

/-- The balances are all the same. -/
def AllSame (balances : List InputRuneBalance) : Prop := ∀ b ∈ balances, ∀ b' ∈ balances, b = b'

instance (balances : List InputRuneBalance) : Decidable (AllSame balances) :=
  inferInstanceAs (Decidable (∀ b ∈ balances, _))

/-- Balances that are all the same have one order. -/
theorem AllSame.eq_of_perm {balances balances' : List InputRuneBalance} (h : AllSame balances)
    (hperm : balances.Perm balances') : balances = balances' := by
  cases balances with
  | nil => exact hperm.nil_eq
  | cons bal rest =>
    have hreplicate : bal :: rest = List.replicate (bal :: rest).length bal :=
      List.eq_replicate_of_mem fun b hb => h b hb bal List.mem_cons_self
    rw [hreplicate] at hperm ⊢
    exact (List.perm_replicate.mp hperm.symm).symm

/-- The order of the balances makes no difference: they are all the same, or the first move takes
them all. -/
def Orderless (moves : List (Option Nat × Nat)) (balances : List InputRuneBalance) : Prop :=
  AllSame balances ∨ FirstTakesAll moves (totalAmount balances)

instance (moves : List (Option Nat × Nat)) (balances : List InputRuneBalance) :
    Decidable (Orderless moves balances) :=
  inferInstanceAs (Decidable (_ ∨ _))

theorem Orderless.perm {moves : List (Option Nat × Nat)}
    {balances balances' : List InputRuneBalance} (h : Orderless moves balances)
    (hperm : balances.Perm balances') : Orderless moves balances' := by
  rcases h with hsame | hfirst
  · exact .inl (hsame.eq_of_perm hperm ▸ hsame)
  · exact .inr (totalAmount_perm hperm ▸ hfirst)

/-- **Moves of balances in another order** write the same rows, where the order makes no
difference. -/
theorem movesRows_perm (receiver : Option Nat → Option Address) (id : RuneId)
    {moves : List (Option Nat × Nat)} {balances balances' : List InputRuneBalance}
    (hperm : balances.Perm balances') (hpos : ∀ b ∈ balances, 0 < b.amount)
    (hfits : totalAmount balances < 2 ^ 128) (horder : Orderless moves balances) :
    (movesRows receiver id moves balances).Perm (movesRows receiver id moves balances') := by
  rcases horder with hsame | hfirst
  · rw [hsame.eq_of_perm hperm]
  · cases moves with
    | nil => exact .refl _
    | cons move moves =>
      have hall : move.2 = 0 ∨ totalAmount balances ≤ move.2 := hfirst move rfl
      have htotal : totalAmount balances' = totalAmount balances := (totalAmount_perm hperm).symm
      have htake := @takeBalances_whole move.2 balances 0 [] hpos (by omega) (by omega)
      have htake' :=
        @takeBalances_whole move.2 balances' 0 [] (fun b hb => hpos b (hperm.mem_iff.mpr hb))
          (by omega) (by omega)
      rw [movesRows, movesRows, htake, htake', htotal]
      -- both deques are empty now, and their owners are the same in some order
      refine List.Perm.append (List.Perm.append_left _ (List.Perm.map _ ?_)) (.refl _)
      exact (owners_perm hperm).append_left _

/-! ## What goes to no output -/

/-- The amount in rows that name no output. -/
def voided (rows : List LedgerRow) : Nat :=
  tally (fun r => r.output = none) (fun r => r.amount.getD 0) rows

/-- What some moves of a total send to no output. -/
def movesVoid : List (Option Nat × Nat) → Nat → Nat
  | [], _ => 0
  | (output, amount) :: moves, total =>
    (if output = none then total - amountLeft amount total else 0) +
      movesVoid moves (amountLeft amount total)

theorem movesVoid_append (moves moves' : List (Option Nat × Nat)) (total : Nat) :
    movesVoid (moves ++ moves') total = movesVoid moves total +
      movesVoid moves' (movesLeave moves total) := by
  induction moves generalizing total with
  | nil => exact (Nat.zero_add _).symm
  | cons move moves ih =>
    rw [List.cons_append, movesVoid, ih, movesVoid, Nat.add_assoc]
    rfl

/-- **The rows of a move, counted**: a test that the row of a receiver does not pass, and that the
rows of all senders pass or none does, counts what they send or nothing. -/
theorem tally_moveRows (receiver : Option Nat → Option Address) (id : RuneId) (output : Option Nat)
    (taking : Taking) {p : LedgerRow → Bool} {b : Bool}
    (hreceive : (receiver output).isSome →
      p ⟨id, .receive, some taking.totalSent, output, receiver output, none⟩ = false)
    (hsend : ∀ amount address,
      p ⟨id, if (receiver output).isSome then .send else .burn, some amount, output,
        some address, receiver output⟩ = b) :
    tally p (fun r => r.amount.getD 0) (moveRows receiver id output taking) =
      if b then (taking.senders.map Prod.fst).sum else 0 := by
  rw [moveRows, tally_append, tally_eq_zero, Nat.zero_add]
  -- every sender has one row, which counts or does not
  · induction taking.senders with
    | nil => simp
    | cons sender senders ih =>
      rw [List.map_cons, tally_cons, ih]
      dsimp only
      rw [hsend]
      cases b <;> simp
  · intro r hr
    split at hr
    · next hsent =>
      rw [List.mem_singleton.mp hr]
      exact hreceive hsent.1
    · exact absurd hr List.not_mem_nil

theorem voided_moveRows {receiver : Option Nat → Option Address}
    (hnone : receiver none = none) (id : RuneId) (output : Option Nat) (taking : Taking) :
    voided (moveRows receiver id output taking) =
      if output = none then (taking.senders.map Prod.fst).sum else 0 := by
  rw [voided, tally_moveRows receiver id output taking (b := decide (output = none)) ?_
    fun _ _ => rfl]
  · simp only [decide_eq_true_eq]
  · intro hsome
    refine decide_eq_false fun hvoid => ?_
    rw [show output = none from hvoid, hnone] at hsome
    cases hsome

/-- What goes to no output depends on the total alone. -/
theorem voided_movesRows {receiver : Option Nat → Option Address}
    (hnone : receiver none = none) (id : RuneId) (moves : List (Option Nat × Nat))
    {balances : List InputRuneBalance} (hheld : ∀ b ∈ balances, b.Held)
    (hfits : totalAmount balances < 2 ^ 128) :
    voided (movesRows receiver id moves balances) = movesVoid moves (totalAmount balances) := by
  induction moves generalizing balances with
  | nil => rfl
  | cons move moves ih =>
    obtain ⟨output, amount⟩ := move
    have hexact := @takeBalances_exact amount balances 0 [] (by omega)
    have hleft :=
      @takeBalances_left amount balances 0 [] (fun b hb => (hheld b hb).pos)
        (by omega) Nat.pos_of_ne_zero
    have hsent := @takeBalances_senders amount balances 0 [] hheld (by omega) rfl
    rw [Nat.zero_add] at hexact hleft
    have ih :=
      @ih (takeBalances amount balances 0 []).balances (takeBalances_held _ hheld) (by omega)
    rw [movesRows, voided, tally_append]
    show voided _ + voided _ = _
    rw [voided_moveRows hnone, ih, hsent, hleft, movesVoid, ← hleft, ← hexact, Nat.add_sub_cancel]

/-! ## Artifacts -/

/-- An artifact that only moves or burns balances: it neither etches nor mints, and its edicts name
runes that are known. -/
def Artifact.OnlyMoves (known : RuneId → Prop) : Artifact → Prop
  | .runestone r =>
    r.etching = none ∧ r.mint = none ∧ ∀ e ∈ r.edicts, e.id ≠ .placeholder ∧ known e.id
  | .cenotaph c => c.etching = none ∧ c.mint = none

theorem Artifact.OnlyMoves.mono {known known' : RuneId → Prop} {artifact : Artifact}
    (h : artifact.OnlyMoves known) (hknown : ∀ id, known id → known' id) :
    artifact.OnlyMoves known' := by
  cases artifact with
  | runestone r => exact ⟨h.1, h.2.1, fun e he => ⟨(h.2.2 e he).1, hknown _ (h.2.2 e he).2⟩⟩
  | cenotaph c => exact h

/-- The moves that an edict makes in a transaction with some outputs. -/
def movesIn (env : Environment) (outputs : List ScriptBuf) (e : Edict) (unallocated : Nat) :
    List (Option Nat × Nat) :=
  Mempool.edictMoves e (scanOutputs env outputs).eligibleOutputs outputs.length unallocated

/-- Who receives what is moved to an output of a transaction. -/
def receiverIn (env : Environment) (network : Network) (outputs : List ScriptBuf)
    (output : Option Nat) :
    Option Address :=
  output.bind fun output => ((scanOutputs env outputs).eligibleOutputs.lookup output).bind
    fun script =>
    env.addressFromScript script network

/-- The balances of a rune that the ledger credits to some outputs. -/
def spentBalances (id : RuneId) (spent : List (String × Nat)) (ledger : List DbLedgerEntry) :
    List InputRuneBalance := spent.flatMap fun k => credits k id ledger

theorem spentBalances_held {id : RuneId} {spent : List (String × Nat)} {ledger : List DbLedgerEntry}
    (h : CreditsOk ledger) : ∀ b ∈ spentBalances id spent ledger, b.Held := by
  intro b hb
  obtain ⟨k, -, hb⟩ := List.mem_flatMap.mp hb
  obtain ⟨e, he, rfl⟩ := List.mem_map.mp hb
  obtain ⟨he, hcredit⟩ := List.mem_filter.mp he
  have hfields := h e he (of_decide_eq_true hcredit).1
  exact ⟨hfields.address, hfields.pos⟩

/-- The row of a balance that is burned with all others. -/
def burnRow (id : RuneId) (b : InputRuneBalance) : LedgerRow :=
  ⟨id, .burn, some b.amount, none, b.address, none⟩

/-- The rows that an artifact without etching and mint makes of the balances of a rune. What the
edicts leave goes to the pointer; a cenotaph burns everything. -/
def Artifact.rows (receiver : Option Nat → Option Address)
    (moves : Edict → Nat → List (Option Nat × Nat)) (id : RuneId) (pointer : Option Nat)
    (balances : List InputRuneBalance) : Artifact → List LedgerRow
  | .runestone r =>
    movesRows receiver id (runeMoves moves id r.edicts pointer (totalAmount balances)) balances
  | .cenotaph _ => balances.map (burnRow id)

section

variable {receiver : Option Nat → Option Address} {moves : Edict → Nat → List (Option Nat × Nat)}
  {id : RuneId} {balances balances' : List InputRuneBalance}

/-- Without anything left it makes no difference where the rest goes. -/
theorem runeMoves_rows_of_left {edicts : List Edict} (hpos : ∀ b ∈ balances, 0 < b.amount)
    (hfits : totalAmount balances < 2 ^ 128)
    (hleft : edictsLeave moves id edicts (totalAmount balances) = 0) (pointer : Option Nat) :
    movesRows receiver id (runeMoves moves id edicts pointer (totalAmount balances)) balances =
      movesRows receiver id (edictsMoves moves id edicts (totalAmount balances)) balances := by
  obtain ⟨hrest, htotal⟩ :=
    @movesRest_left (edictsMoves moves id edicts (totalAmount balances)) _ hpos hfits
  rw [runeMoves, movesRows_append, eq_nil_of_pos hrest (htotal.trans hleft),
    (movesRows_nil_balances receiver id _).1, List.append_nil]

/-- **Two orders of the balances, two pointers.** The rows are the same, up to order, if the
pointers are or if nothing is left for them, and if the order of the balances makes no
difference. -/
theorem runeMoves_rows_perm {edicts : List Edict} {pointer pointer' : Option Nat}
    (hperm : balances.Perm balances') (hpos : ∀ b ∈ balances, 0 < b.amount)
    (hfits : totalAmount balances < 2 ^ 128)
    (horder : Orderless (runeMoves moves id edicts pointer' (totalAmount balances)) balances)
    (hpointer : pointer = pointer' ∨ edictsLeave moves id edicts (totalAmount balances) = 0) :
    (movesRows receiver id (runeMoves moves id edicts pointer (totalAmount balances)) balances).Perm
      (movesRows receiver id (runeMoves moves id edicts pointer' (totalAmount balances))
        balances') := by
  have hsame := movesRows_perm receiver id hperm hpos hfits horder
  rcases hpointer with rfl | hleft
  · exact hsame
  · rwa [runeMoves_rows_of_left hpos hfits hleft,
      ← runeMoves_rows_of_left hpos hfits hleft pointer']

/-- If the rows are the same with a pointer and without, then nothing was left for the pointer. -/
theorem edictsLeave_of_rows_perm {edicts : List Edict} {k : Nat} (hnone : receiver none = none)
    (hperm : balances.Perm balances') (hheld : ∀ b ∈ balances, b.Held)
    (hfits : totalAmount balances < 2 ^ 128)
    (hrows : (movesRows receiver id (runeMoves moves id edicts (some k) (totalAmount balances))
      balances).Perm
      (movesRows receiver id (runeMoves moves id edicts none (totalAmount balances)) balances')) :
    edictsLeave moves id edicts (totalAmount balances) = 0 := by
  have htotal : totalAmount balances' = totalAmount balances := (totalAmount_perm hperm).symm
  have hvoid : voided _ = voided _ := tally_perm hrows
  rw [voided_movesRows hnone id _ hheld hfits,
    voided_movesRows hnone id _ (fun b hb => hheld b (hperm.mem_iff.mpr hb)) (htotal ▸ hfits),
    htotal, runeMoves, runeMoves, movesVoid_append, movesVoid_append] at hvoid
  simp only [movesVoid, reduceCtorEq, if_false, if_true, amountLeft] at hvoid
  rw [edictsLeave]
  omega

end

end Runehook
