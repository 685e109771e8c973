import Mathlib.Algebra.BigOperators.Finsupp.Basic
import Mathlib.Data.Finsupp.Weight
import Runehook.Lib.Sharing

/-! # Amounts in unspent outputs

What each output holds of one token, where all but finitely many outputs hold nothing. A transaction
spends outputs, which empties them (`spend`), and pays shares of what it has to new ones (`pay`). A
share for which there is no output is lost. What is held and what was ever lost therefore grow by
what the transaction adds, and by nothing else (`degree_spend_add_pay`). -/

namespace Runehook.Lib

variable {Output Place : Type}

/-! ## Paying -/

/-- What shares pay to outputs, where `place` says which output a share is for. -/
noncomputable def pay (place : Place → Option Output) (shares : List (Place × ℕ)) : Output →₀ ℕ :=
  (shares.map fun s => (place s.1).elim 0 fun output => Finsupp.single output s.2).sum

/-- What shares pay to no output. -/
def lost (place : Place → Option Output) (shares : List (Place × ℕ)) : ℕ :=
  tally (fun s => (place s.1).isNone) Prod.snd shares

theorem pay_cons (place : Place → Option Output) (s : Place × ℕ) (shares : List (Place × ℕ)) :
    pay place (s :: shares) =
      ((place s.1).elim 0 fun output => Finsupp.single output s.2) + pay place shares := by
  rw [pay, List.map_cons, List.sum_cons]
  rfl

/-- **Shares are paid or lost.** -/
theorem degree_pay (place : Place → Option Output) (shares : List (Place × ℕ)) :
    (pay place shares).degree + lost place shares = given shares := by
  induction shares with
  | nil => rfl
  | cons s shares ih =>
    rw [pay_cons, map_add, given_cons, ← ih, lost, lost, tally_cons]
    cases hplace : place s.1 with
    | none =>
      simp only [Option.elim_none, map_zero, Option.isNone_none, if_true]
      omega
    | some o =>
      simp only [Option.elim_some, Finsupp.degree_single, Option.isNone_some,
        Bool.false_eq_true, if_false]
      omega

variable [DecidableEq Output]

/-- What an output is paid: the shares for it. -/
theorem pay_apply (place : Place → Option Output) (shares : List (Place × ℕ)) (output : Output) :
    pay place shares output = tally (fun s => place s.1 = some output) Prod.snd shares := by
  induction shares with
  | nil => rfl
  | cons s shares ih =>
    rw [pay_cons, Finsupp.add_apply, ih, tally_cons]
    cases hplace : place s.1 with
    | none => simp
    | some o => simp [Finsupp.single_apply]

/-! ## Spending -/

/-- What is held after some outputs are spent. -/
def spend (outputs : Finset Output) (held : Output →₀ ℕ) : Output →₀ ℕ := held.filter (· ∉ outputs)

/-- What some outputs hold together. -/
def heldBy (outputs : Finset Output) (held : Output →₀ ℕ) : ℕ := ∑ output ∈ outputs, held output

theorem spend_apply (outputs : Finset Output) (held : Output →₀ ℕ) (output : Output) :
    spend outputs held output = if output ∈ outputs then 0 else held output := by
  rw [spend, Finsupp.filter_apply]
  exact ite_not (output ∈ outputs) (held output) 0

/-- Spending takes away what the spent outputs held. -/
theorem degree_spend (outputs : Finset Output) (held : Output →₀ ℕ) :
    (spend outputs held).degree + heldBy outputs held = held.degree := by
  have hspent : (held.filter (· ∈ outputs)).degree = heldBy outputs held := by
    rw [heldBy, Finsupp.degree_apply]
    calc ∑ output ∈ (held.filter (· ∈ outputs)).support, held.filter (· ∈ outputs) output
        = ∑ output ∈ outputs, held.filter (· ∈ outputs) output := by
          refine Finset.sum_subset (fun output houtput => ?_) fun output _ hnot =>
            Finsupp.notMem_support_iff.mp hnot
          rw [Finsupp.support_filter] at houtput
          exact (Finset.mem_filter.mp houtput).2
      _ = ∑ output ∈ outputs, held output :=
          Finset.sum_congr rfl fun output houtput => Finsupp.filter_apply_pos _ held houtput
  rw [← hspent, spend, ← map_add, add_comm, Finsupp.filter_add_filter_not]

/-- **What a transaction changes.** Outputs are spent and shares of what they held, with something
added, are paid: what is held and what is lost grow by what is added. -/
theorem degree_spend_add_pay {place : Place → Option Output} {shares : List (Place × ℕ)}
    {outputs : Finset Output} {held : Output →₀ ℕ} {added : ℕ}
    (hgiven : given shares = heldBy outputs held + added) :
    (spend outputs held + pay place shares).degree + lost place shares = held.degree + added := by
  have hspend := degree_spend outputs held
  have hpay := degree_pay place shares
  rw [map_add]
  omega

end Runehook.Lib
