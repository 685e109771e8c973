import Mathlib.Data.List.Basic
import Mathlib.Tactic.Ring

/-! # Numbers as septets

A number in base 128, the least significant digit first, with one digit in each byte: the high bit
of a byte says that another one follows (`Terminated`). Sequences of this form are a prefix code
(`Terminated.prefix_unique`), and the shortest sequence of a number is the one without leading zeros
(`septets`, `Terminated.length_septets_le`). -/

namespace Runehook.Lib

/-! ## Terminated sequences -/

/-- Every byte has its high bit set but the last one. -/
inductive Terminated : List UInt8 → Prop where
  /-- The last byte. -/
  | last {byte : UInt8} (h : byte.toNat < 128) : Terminated [byte]
  /-- A byte with more to come. -/
  | more {byte : UInt8} {bytes : List UInt8} (h : 128 ≤ byte.toNat) (hrest : Terminated bytes) :
      Terminated (byte :: bytes)

/-- The number that a sequence of bytes stands for. -/
def septetsValue : List UInt8 → Nat
  | [] => 0
  | byte :: bytes => byte.toNat % 128 + 128 * septetsValue bytes

@[simp] theorem septetsValue_nil : septetsValue [] = 0 := rfl

@[simp] theorem septetsValue_cons (byte : UInt8) (bytes : List UInt8) :
    septetsValue (byte :: bytes) = byte.toNat % 128 + 128 * septetsValue bytes := rfl

theorem Terminated.length_pos {bytes : List UInt8} (h : Terminated bytes) : 0 < bytes.length := by
  cases h <;> simp

/-- **A prefix code**: the first byte without the high bit ends the sequence. -/
theorem Terminated.prefix_unique {bytes bytes' rest rest' : List UInt8} (h : Terminated bytes)
    (h' : Terminated bytes') (heq : bytes ++ rest = bytes' ++ rest') :
    bytes = bytes' ∧ rest = rest' := by
  induction h generalizing bytes' with
  | @last byte hbyte =>
    cases h' with
    | last hbyte' => simpa using heq
    | more hbyte' hrest' =>
      -- a byte cannot both end the sequence and go on
      have : byte = _ := (List.cons.inj heq).1
      subst this
      omega
  | @more byte bytes hbyte hrest ih =>
    cases h' with
    | last hbyte' =>
      have : byte = _ := (List.cons.inj heq).1
      subst this
      omega
    | more hbyte' hrest' =>
      obtain ⟨hhead, htail⟩ := List.cons.inj heq
      obtain ⟨hbytes, hrests⟩ := ih hrest' htail
      exact ⟨by rw [hhead, hbytes], hrests⟩

/-! ## The shortest sequence -/

/-- The shortest sequence of a number. -/
def septets (n : Nat) : List UInt8 :=
  if n < 128 then [n.toUInt8] else (n % 128 + 128).toUInt8 :: septets (n / 128)
termination_by n
decreasing_by omega

theorem toNat_toUInt8 {n : Nat} (h : n < 256) : n.toUInt8.toNat = n := by
  simp [Nat.mod_eq_of_lt h]

theorem septets_of_lt {n : Nat} (h : n < 128) : septets n = [n.toUInt8] := by
  rw [septets, if_pos h]

theorem septets_of_le {n : Nat} (h : 128 ≤ n) :
    septets n = (n % 128 + 128).toUInt8 :: septets (n / 128) := by
  rw [septets, if_neg (Nat.not_lt.mpr h)]

theorem terminated_septets (n : Nat) : Terminated (septets n) := by
  induction n using Nat.strongRecOn with
  | ind n ih =>
    rcases Nat.lt_or_ge n 128 with h | h
    · rw [septets_of_lt h]
      exact .last (by rw [toNat_toUInt8 (by omega)]; exact h)
    · rw [septets_of_le h]
      exact .more (by rw [toNat_toUInt8 (by omega)]; omega) (ih _ (by omega))

/-- **A number is read back** from its shortest sequence. -/
@[simp] theorem septetsValue_septets (n : Nat) : septetsValue (septets n) = n := by
  induction n using Nat.strongRecOn with
  | ind n ih =>
    rcases Nat.lt_or_ge n 128 with h | h
    · rw [septets_of_lt h, septetsValue_cons, toNat_toUInt8 (by omega), septetsValue_nil]
      omega
    · rw [septets_of_le h, septetsValue_cons, toNat_toUInt8 (by omega), ih _ (by omega)]
      omega

/-- **Shortest**: no terminated sequence of the same value has fewer bytes. -/
theorem Terminated.length_septets_le {bytes : List UInt8} (h : Terminated bytes) :
    (septets (septetsValue bytes)).length ≤ bytes.length := by
  induction h with
  | @last byte hbyte =>
    have hvalue : septetsValue [byte] < 128 := by simpa using Nat.mod_lt _ (by omega)
    rw [septets_of_lt hvalue]
    simp
  | @more byte bytes hbyte hrest ih =>
    rcases Nat.lt_or_ge (septetsValue (byte :: bytes)) 128 with hlt | hge
    · rw [septets_of_lt hlt]
      simp
    · have hdiv : septetsValue (byte :: bytes) / 128 = septetsValue bytes := by
        rw [septetsValue_cons]
        omega
      rw [septets_of_le hge, hdiv, List.length_cons, List.length_cons]
      omega

/-- The length of the shortest sequence, from the size of the number. -/
theorem length_septets_le {n k : Nat} (h : n < 128 ^ (k + 1)) : (septets n).length ≤ k + 1 := by
  induction k generalizing n with
  | zero =>
    rw [septets_of_lt (by simpa using h)]
    simp
  | succ k ih =>
    rcases Nat.lt_or_ge n 128 with hlt | hge
    · rw [septets_of_lt hlt]
      simp
    · have hdiv : n / 128 < 128 ^ (k + 1) := by
        rw [Nat.div_lt_iff_lt_mul (by omega), ← Nat.pow_succ]
        exact h
      rw [septets_of_le hge, List.length_cons]
      exact Nat.succ_le_succ (ih hdiv)

end Runehook.Lib
