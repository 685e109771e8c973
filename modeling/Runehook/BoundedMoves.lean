import Runehook.Issuance
import Runehook.Losses
import Runehook.MinedRows

/-! # Bounded moves

A move of a positive amount takes that much off the front of the deque, or all there is
(`OffFront`): whole balances first, and then part of one more. The loop is also run with a
subtraction and an addition that can fail (`takeBalancesChecked`), and neither does
(`takeBalances_offFront`). The result on a whole move is `moveRuneBalanceToOutput_offFront`. -/

namespace Runehook

open Lib

/-! ## The front of a deque -/

/-- **`taken` is off the front of `balances` and `left` is the rest**: the cut is between two
balances, or it goes through one, which leaves its owner a part on either side. -/
inductive OffFront : List InputRuneBalance → List InputRuneBalance → List InputRuneBalance → Prop
  /-- The cut is between two balances. -/
  | between (taken left : List InputRuneBalance) : OffFront (taken ++ left) taken left
  /-- The cut goes through a balance, `part` of which is taken. -/
  | through (before : List InputRuneBalance) (bal : InputRuneBalance)
      (after : List InputRuneBalance) (part : Nat) (hpos : 0 < part) (hlt : part < bal.amount) :
      OffFront (before ++ bal :: after) (before ++ [{ bal with amount := part }])
        ({ bal with amount := bal.amount - part } :: after)

namespace OffFront

variable {balances taken left : List InputRuneBalance}

/-- A balance in front of what is taken is taken too. -/
theorem cons (bal : InputRuneBalance) (h : OffFront balances taken left) :
    OffFront (bal :: balances) (bal :: taken) left := by
  cases h with
  | between => exact between (bal :: taken) left
  | through before bal' after part hpos hlt =>
    exact through (bal :: before) bal' after part hpos hlt

end OffFront

/-! ## Checked arithmetic -/

/-- `u128::checked_sub`. -/
def u128CheckedSub (a b : Nat) : Option Nat := if b ≤ a then some (a - b) else none

/-- **The loop of `move_rune_balance_to_output` with arithmetic that fails**: `None` where
`amount - total_sent` is below zero or `total_sent += balance_taken` is no `u128`. -/
def takeBalancesChecked (amount : Nat) :
    List InputRuneBalance → Nat → List (Nat × Address) → Option Taking
  | [], totalSent, senders => some ⟨[], totalSent, senders⟩
  | bal :: rest, totalSent, senders => do
    let balanceTaken ←
      if amount = 0 then some bal.amount else (u128CheckedSub amount totalSent).map (min bal.amount)
    let totalSent' ← u128CheckedAdd totalSent balanceTaken
    let senders' :=
      senders ++ (bal.address.map fun senderAddress => (balanceTaken, senderAddress)).toList
    if balanceTaken < bal.amount then
      some ⟨{ bal with amount := bal.amount - balanceTaken } :: rest, totalSent', senders'⟩
    else if totalSent' = amount then some ⟨rest, totalSent', senders'⟩
    else takeBalancesChecked amount rest totalSent' senders'

/-! ## The loop -/

section

variable {amount : Nat} {bal : InputRuneBalance} {rest : List InputRuneBalance} {totalSent : Nat}
  {senders : List (Nat × Address)}

/-- A balance with more than is missing is cut. -/
theorem takeBalances_through (hsent : totalSent < amount) (hcut : amount - totalSent < bal.amount)
    (hfits : amount < 2 ^ 128) :
    takeBalances amount (bal :: rest) totalSent senders =
      ⟨{ bal with amount := bal.amount - (amount - totalSent) } :: rest, amount,
        senders ++ owners [{ bal with amount := amount - totalSent }]⟩ := by
  have htaken : (if amount = 0 then bal.amount else min bal.amount (amount - totalSent)) =
      amount - totalSent := by
    rw [if_neg (by omega), Nat.min_eq_right (by omega)]
  have htotal : u128Add totalSent (amount - totalSent) = amount := by
    rw [u128Add_eq (by omega)]
    omega
  rw [takeBalances, owners_cons, owners_nil, List.append_nil]
  simp only [htaken, htotal, hcut, if_true]

/-- A balance with no more than is missing is taken whole. -/
theorem takeBalances_between (hsent : totalSent < amount) (hwhole : bal.amount ≤ amount - totalSent)
    (hfits : totalSent + bal.amount < 2 ^ 128) :
    takeBalances amount (bal :: rest) totalSent senders =
      if totalSent + bal.amount = amount then ⟨rest, amount, senders ++ owners [bal]⟩
      else takeBalances amount rest (totalSent + bal.amount) (senders ++ owners [bal]) := by
  have htaken : (if amount = 0 then bal.amount else min bal.amount (amount - totalSent)) =
      bal.amount := by
    rw [if_neg (by omega), Nat.min_eq_left hwhole]
  rw [takeBalances, owners_cons, owners_nil, List.append_nil]
  simp only [htaken, u128Add_eq hfits, Nat.lt_irrefl, if_false]
  split
  · next heq => rw [heq]
  · rfl

/-- While less than the amount is sent, the next step of the loop fails nowhere. -/
theorem takeBalancesChecked_cons (hsent : totalSent < amount)
    (hfits : totalSent + bal.amount < 2 ^ 128)
    (hrest : takeBalancesChecked amount rest (totalSent + bal.amount) (senders ++ owners [bal]) =
        some (takeBalances amount rest (totalSent + bal.amount) (senders ++ owners [bal])) ∨
        amount ≤ totalSent + bal.amount) :
    takeBalancesChecked amount (bal :: rest) totalSent senders =
      some (takeBalances amount (bal :: rest) totalSent senders) := by
  have hsub : u128CheckedSub amount totalSent = some (amount - totalSent) := if_pos (by omega)
  have hmin := Nat.min_le_left bal.amount (amount - totalSent)
  have hadd : u128CheckedAdd totalSent (min bal.amount (amount - totalSent)) =
      some (totalSent + min bal.amount (amount - totalSent)) := if_pos (by omega)
  have hne : amount ≠ 0 := by omega
  simp only [takeBalancesChecked, takeBalances, hne, if_false, hsub, Option.map_some,
    Option.bind_eq_bind,
    Option.bind_some, hadd,
      u128Add_eq (show totalSent + min bal.amount (amount - totalSent) < 2 ^ 128 by omega)]
  split
  · rfl
  · next hwhole =>
    have hmin : min bal.amount (amount - totalSent) = bal.amount := by omega
    rw [hmin]
    split
    · rfl
    · next hmore =>
      rw [owners_cons, owners_nil, List.append_nil] at hrest
      exact hrest.resolve_right fun hle => by omega

end

/-- **What the loop takes while it has less than the amount**: balances off the front that make up
what is missing, or all there are, each of them added to the total and its owner to the senders. -/
theorem takeBalances_offFront {amount : Nat} {balances : List InputRuneBalance} {totalSent : Nat}
    {senders : List (Nat × Address)} (hsent : totalSent < amount)
    (hfits : totalSent + totalAmount balances < 2 ^ 128) :
    takeBalancesChecked amount balances totalSent senders =
      some (takeBalances amount balances totalSent senders) ∧
      ∃ taken, OffFront balances taken (takeBalances amount balances totalSent senders).balances ∧
        totalAmount taken = min (amount - totalSent) (totalAmount balances) ∧
        (takeBalances amount balances totalSent senders).totalSent = totalSent + totalAmount taken ∧
        (takeBalances amount balances totalSent senders).senders = senders ++ owners taken := by
  induction balances generalizing totalSent senders with
  | nil =>
    refine ⟨rfl, [], OffFront.between [] [], ?_, rfl, ?_⟩
    · rw [totalAmount_nil, Nat.min_zero]
    · rw [takeBalances, owners_nil, List.append_nil]
  | cons bal rest ih =>
    rw [totalAmount_cons] at hfits
    by_cases hcut : amount - totalSent < bal.amount
    · -- the cut goes through the balance
      refine ⟨takeBalancesChecked_cons hsent (by omega) (Or.inr (by omega)),
        [{ bal with amount := amount - totalSent }], ?_⟩
      rw [takeBalances_through hsent hcut (by omega)]
      refine ⟨OffFront.through [] bal rest _ (by omega) hcut, ?_, ?_, rfl⟩
      · simp only [totalAmount_cons, totalAmount_nil]
        omega
      · simp only [totalAmount_cons, totalAmount_nil]
        omega
    · have hwhole := Nat.not_lt.mp hcut
      by_cases hmade : totalSent + bal.amount = amount
      · -- the balance makes up the amount: the cut is behind it, even where empty balances follow
        refine ⟨takeBalancesChecked_cons hsent (by omega) (Or.inr (by omega)), [bal], ?_⟩
        rw [takeBalances_between hsent hwhole (by omega), if_pos hmade]
        refine ⟨OffFront.between [bal] rest, ?_, ?_, rfl⟩
        · simp only [totalAmount_cons, totalAmount_nil]
          omega
        · simp only [totalAmount_cons, totalAmount_nil]
          omega
      -- the balance is taken whole and the loop goes on behind it
      · obtain ⟨hchecked, taken, hoff, htotal, hsum, hsenders⟩ :=
          @ih (totalSent + bal.amount) (senders ++ owners [bal]) (by omega) (by omega)
        refine ⟨takeBalancesChecked_cons hsent (by omega) (Or.inl hchecked), bal :: taken, ?_⟩
        rw [takeBalances_between hsent hwhole (by omega), if_neg hmade]
        refine ⟨hoff.cons bal, ?_, ?_, ?_⟩
        · simp only [totalAmount_cons]
          omega
        · simp only [totalAmount_cons]
          omega
        · rw [hsenders, List.append_assoc, owners_cons bal taken, owners_cons bal [], owners_nil,
            List.append_nil]

/-! ## Moves -/

/-- **A move of a positive amount** `m` from balances with the sum `S`, a `u128`: `min m S` is taken
off the front of the deque, which keeps what is behind it, without an operation of the loop that
fails; the receiver of an address gets one entry for all of it, if it is anything, and every owner
of a part that was taken has one for that part, in the order of the deque. -/
theorem moveRuneBalanceToOutput_offFront (env : Environment) (location : TransactionLocation)
    (output : Option Nat) (id : RuneId) (balances : List InputRuneBalance)
    (outputs : HashMap Nat ScriptBuf) (amount n : Nat) (hamount : 0 < amount)
    (hfits : totalAmount balances < 2 ^ 128) :
    let movement := moveRuneBalanceToOutput env location output id balances outputs amount n
    let receiver := receiverAddress env location outputs output
    takeBalancesChecked amount balances 0 [] = some (takeBalances amount balances 0 []) ∧
      ∃ taken, OffFront balances taken movement.balances ∧
        totalAmount taken = min amount (totalAmount balances) ∧
        movement.entries.map DbLedgerEntry.row =
          (if receiver.isSome ∧ 0 < min amount (totalAmount balances) then
            [⟨id, .receive, some (min amount (totalAmount balances)), output, receiver, none⟩]
              else []) ++
          (owners taken).map fun (balanceTaken, senderAddress) =>
            ⟨id, if receiver.isSome then .send else .burn, some balanceTaken, output,
              some senderAddress, receiver⟩ := by
  dsimp only
  obtain ⟨hchecked, taken, hoff, htotal, hsum, hsenders⟩ :=
    @takeBalances_offFront amount balances 0 [] hamount (by rwa [Nat.zero_add])
  rw [Nat.sub_zero] at htotal
  rw [Nat.zero_add, htotal] at hsum
  refine ⟨hchecked, taken, hoff, htotal, ?_⟩
  rw [TransactionCache.moveRuneBalanceToOutput_rows, moveRows, hsum, hsenders, List.nil_append]

/-- Six of a rune go to bob off a deque of five that alice has, nothing that nobody has and seven
that bob has. -/
theorem moveRuneBalanceToOutput_offFront_six :
    takeBalancesChecked 6 [⟨some "alice", 5⟩, ⟨none, 0⟩, ⟨some "bob", 7⟩] 0 [] =
        some (takeBalances 6 [⟨some "alice", 5⟩, ⟨none, 0⟩, ⟨some "bob", 7⟩] 0 []) ∧
      ∃ taken, OffFront [⟨some "alice", 5⟩, ⟨none, 0⟩, ⟨some "bob", 7⟩] taken
          (moveRuneBalanceToOutput premineEnv (premineTx.location premineBlock .bitcoin)
            (some 0) ⟨840001, 1⟩
            [⟨some "alice", 5⟩, ⟨none, 0⟩, ⟨some "bob", 7⟩]
            ((∅ : HashMap Nat ScriptBuf).insert 0 [2]) 6 0).balances ∧ totalAmount taken = 6 ∧
        (moveRuneBalanceToOutput premineEnv (premineTx.location premineBlock .bitcoin)
            (some 0) ⟨840001, 1⟩
            [⟨some "alice", 5⟩, ⟨none, 0⟩, ⟨some "bob", 7⟩]
            ((∅ : HashMap Nat ScriptBuf).insert 0 [2]) 6 0).entries.map DbLedgerEntry.row =
          ⟨⟨840001, 1⟩, .receive, some 6, some 0, some "bob", none⟩ ::
            (owners taken).map fun (balanceTaken, senderAddress) =>
              ⟨⟨840001, 1⟩, .send, some balanceTaken, some 0, some senderAddress, some "bob"⟩ :=
  moveRuneBalanceToOutput_offFront premineEnv (premineTx.location premineBlock .bitcoin)
    (some 0) ⟨840001, 1⟩
    [⟨some "alice", 5⟩, ⟨none, 0⟩, ⟨some "bob", 7⟩] ((∅ : HashMap Nat ScriptBuf).insert 0 [2])
    6 0 (by decide) (by decide)

end Runehook
