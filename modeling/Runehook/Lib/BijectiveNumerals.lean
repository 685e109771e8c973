import Mathlib.Data.List.Induction

/-! # Bijective numerals

Numerals without a zero: the digits of base `b` weigh `1` to `b`, so that every number has exactly
one numeral (`bijectiveDigits`, `bijectiveValue_digits`, `bijectiveDigits_value`), and the numerals
are in the order of their numbers when shorter ones come first (`le_length_bijectiveDigits_iff`). A
digit `d` below `b` stands for the weight `d + 1` here, and the most significant digit comes
first. -/

namespace Runehook.Lib

/-! ## Values and digits -/

/-- The number of a numeral. -/
def bijectiveValue (b : Nat) (ds : List Nat) : Nat := ds.foldl (fun x d => x * b + (d + 1)) 0

/-- The numeral of a number, in front of other digits. -/
def bijectiveDigits (b : Nat) (n : Nat) : List Nat :=
  if 0 < n then bijectiveDigits b ((n - 1) / b) ++ [(n - 1) % b] else []
termination_by n
decreasing_by
  have := Nat.div_le_self (n - 1) b
  omega

section

variable {b : Nat}

@[simp] theorem bijectiveValue_nil : bijectiveValue b [] = 0 := rfl

@[simp] theorem bijectiveValue_concat (ds : List Nat) (d : Nat) :
    bijectiveValue b (ds ++ [d]) = bijectiveValue b ds * b + (d + 1) := by
  rw [bijectiveValue, List.foldl_append]
  rfl

@[simp] theorem bijectiveDigits_zero : bijectiveDigits b 0 = [] := by
  rw [bijectiveDigits, if_neg (by omega)]

theorem bijectiveDigits_succ (n : Nat) :
    bijectiveDigits b (n + 1) = bijectiveDigits b (n / b) ++ [n % b] := by
  rw [bijectiveDigits, if_pos (by omega), Nat.add_sub_cancel]

/-- **A number is read back** from its numeral. -/
theorem bijectiveValue_digits (n : Nat) : bijectiveValue b (bijectiveDigits b n) = n := by
  induction n using Nat.strongRecOn with
  | ind n ih =>
    cases n with
    | zero => simp
    | succ n =>
      have hlt : n / b < n + 1 := Nat.lt_succ_of_le (Nat.div_le_self n b)
      rw [bijectiveDigits_succ, bijectiveValue_concat, ih _ hlt, Nat.mul_comm, ← Nat.add_assoc,
        Nat.div_add_mod]

/-- **A numeral is read back** from its number. -/
theorem bijectiveDigits_value {ds : List Nat} (h : ∀ d ∈ ds, d < b) :
    bijectiveDigits b (bijectiveValue b ds) = ds := by
  induction ds using List.reverseRecOn with
  | nil => simp
  | append_singleton ds d ih =>
    obtain ⟨hds, hd⟩ := List.forall_mem_append.mp h
    have hlt : d < b := hd d List.mem_cons_self
    have hpos : 0 < b := by omega
    rw [bijectiveValue_concat, ← Nat.add_assoc, bijectiveDigits_succ, Nat.mul_comm,
      Nat.mul_add_div hpos,
      Nat.div_eq_of_lt hlt, Nat.add_zero, Nat.mul_add_mod, Nat.mod_eq_of_lt hlt, ih hds]

theorem lt_of_mem_bijectiveDigits (hb : 0 < b) {n d : Nat}
    (h : d ∈ bijectiveDigits b n) : d < b := by
  induction n using Nat.strongRecOn with
  | ind n ih =>
    cases n with
    | zero => simp at h
    | succ n =>
      rw [bijectiveDigits_succ, List.mem_append, List.mem_singleton] at h
      rcases h with h | rfl
      · exact ih _ (Nat.lt_succ_of_le (Nat.div_le_self n b)) h
      · exact Nat.mod_lt n hb

/-! ## Lengths -/

/-- The first number with `k` digits. -/
def bijectiveFirst (b : Nat) : Nat → Nat
  | 0 => 0
  | k + 1 => bijectiveFirst b k * b + 1

/-- **The length of a numeral**: it has `k` digits from the first such number on. -/
theorem le_length_bijectiveDigits_iff (hb : 0 < b) {n k : Nat} :
    k ≤ (bijectiveDigits b n).length ↔ bijectiveFirst b k ≤ n := by
  induction k generalizing n with
  | zero => simp [bijectiveFirst]
  | succ k ih =>
    cases n with
    | zero => simp [bijectiveFirst]
    | succ n =>
      have hstep : bijectiveFirst b k ≤ n / b ↔ bijectiveFirst b k * b ≤ n :=
        Nat.le_div_iff_mul_le hb
      rw [bijectiveDigits_succ, List.length_append, List.length_singleton,
        Nat.succ_le_succ_iff, ih, hstep, bijectiveFirst]
      omega

end

end Runehook.Lib
