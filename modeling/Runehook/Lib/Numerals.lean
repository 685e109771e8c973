import Mathlib.Algebra.BigOperators.Intervals
import Mathlib.Algebra.Order.BigOperators.Group.Finset
import Mathlib.Data.List.DropRight
import Mathlib.Data.List.GetD
import Mathlib.Data.Nat.Digits.Lemmas

/-! # Numerals with the most significant digit first

`partialValue` is what the first digits of a numeral amount to when the first of them weighs `b ^ w`
and a missing digit is zero. A numeral of `w + 1` digits comes to `Nat.ofDigits` of its reverse
(`partialValue_eq_ofDigits`, `partialValue_all`), and zeros at its end may be left out
(`getD_rdropWhile_zero`). The second part writes and reads 16-bit words, the high byte first
(`toBytes`, `readWords_flatMap_toBytes`). -/

namespace Runehook.Lib

/-! ## Digits -/

section Digits

variable {b w : Nat} {ds : List Nat}

/-- The value of the first `k` digits of `ds`, where digit `i` weighs `b ^ (w - i)`. -/
def partialValue (b w : Nat) (ds : List Nat) (k : Nat) : Nat :=
  ∑ i ∈ Finset.range k, ds.getD i 0 * b ^ (w - i)

@[simp] theorem partialValue_zero : partialValue b w ds 0 = 0 := rfl

theorem partialValue_succ (k : Nat) :
    partialValue b w ds (k + 1) = partialValue b w ds k + ds.getD k 0 * b ^ (w - k) :=
  Finset.sum_range_succ _ k

/-- More digits have a larger value. -/
theorem partialValue_mono {k l : Nat} (h : k ≤ l) : partialValue b w ds k ≤ partialValue b w ds l :=
  Finset.sum_le_sum_of_subset (Finset.range_mono h)

/-- A digit adds no more than the whole numeral is worth. -/
theorem digit_mul_le_partialValue {i k : Nat} (h : i < k) :
    ds.getD i 0 * b ^ (w - i) ≤ partialValue b w ds k := by
  have hle : partialValue b w ds (i + 1) ≤ partialValue b w ds k := partialValue_mono h
  rw [partialValue_succ] at hle
  omega

/-- Only the digits count, not how many of them are written down. -/
theorem partialValue_congr {ds' : List Nat} (h : ∀ i, ds.getD i 0 = ds'.getD i 0) (k : Nat) :
    partialValue b w ds k = partialValue b w ds' k := by
  unfold partialValue
  exact Finset.sum_congr rfl fun i _ => by rw [h i]

/-- **The first `k` of `w + 1` digits** are a numeral of their own, followed by zeros. -/
theorem partialValue_eq_ofDigits (hlen : ds.length = w + 1) {k : Nat} (hk : k ≤ w + 1) :
    partialValue b w ds k = b ^ (w + 1 - k) * Nat.ofDigits b (ds.take k).reverse := by
  induction k with
  | zero => simp
  | succ k ih =>
    have hlt : k < ds.length := by omega
    have htake : (ds.take (k + 1)).reverse = ds[k] :: (ds.take k).reverse := by
      rw [List.take_add_one, List.getElem?_eq_getElem hlt]
      simp
    have hget : ds.getD k 0 = ds[k] := by simp [hlt]
    rw [partialValue_succ, ih (by omega), htake, hget, Nat.ofDigits_cons,
      show w + 1 - k = w - k + 1 by omega, show w + 1 - (k + 1) = w - k by omega, pow_succ]
    ring

/-- **All `w + 1` digits** are the number that they denote. -/
theorem partialValue_all (hlen : ds.length = w + 1) :
    partialValue b w ds (w + 1) = Nat.ofDigits b ds.reverse := by
  rw [partialValue_eq_ofDigits hlen le_rfl, Nat.sub_self, pow_zero, one_mul, ← hlen,
    List.take_length]

/-- **Zeros at the end may be left out.** -/
theorem getD_rdropWhile_zero (ds : List Nat) (i : Nat) :
    (ds.rdropWhile (· == 0)).getD i 0 = ds.getD i 0 := by
  induction ds using List.reverseRecOn with
  | nil => simp
  | append_singleton ds d ih =>
    rw [List.rdropWhile_concat]
    split
    · next hd =>
      have hd : d = 0 := by simpa using hd
      rw [ih, hd]
      rcases Nat.lt_or_ge i ds.length with hi | hi
      · rw [List.getD_append _ _ _ _ hi]
      · rw [List.getD_append_right _ _ _ _ hi, List.getD_eq_default _ _ hi]
        rcases i - ds.length with _ | j <;> simp
    · rfl

/-- What is left out at the end is left out before a `map` as well. -/
theorem rdropWhile_map {α β : Type} (f : α → β) (p : β → Bool) (l : List α) :
    (l.map f).rdropWhile p = (l.rdropWhile (p ∘ f)).map f := by
  rw [List.rdropWhile, ← List.map_reverse, List.dropWhile_map, ← List.map_reverse]
  rfl

end Digits

/-! ## Words -/

section Words

/-- The two bytes of a word, the high byte first. -/
def toBytes (word : UInt16) : List UInt8 := [UInt8.ofNat (word.toNat / 256), UInt8.ofNat word.toNat]

/-- The word with the given high and low bytes. -/
def ofBytes (high low : UInt8) : UInt16 := UInt16.ofNat (high.toNat * 256 + low.toNat)

/-- The first word of a stream and what follows it, if there are two bytes to read. -/
def readWord : List UInt8 → Option (UInt16 × List UInt8)
  | high :: low :: rest => some (ofBytes high low, rest)
  | _ => none

/-- The first `n` words of a stream and what follows them. -/
def readWords : Nat → List UInt8 → Option (List UInt16 × List UInt8)
  | 0, bytes => some ([], bytes)
  | n + 1, bytes => (readWord bytes).bind fun first =>
    (readWords n first.2).map fun others => (first.1 :: others.1, others.2)

/-- **A word reads back.** -/
@[simp] theorem readWord_toBytes (word : UInt16) (rest : List UInt8) :
    readWord (toBytes word ++ rest) = some (word, rest) := by
  have h : ofBytes (UInt8.ofNat (word.toNat / 256)) (UInt8.ofNat word.toNat) = word := by
    apply UInt16.toNat_inj.mp
    have := word.toNat_lt
    simp only [ofBytes, UInt16.toNat_ofNat', UInt8.toNat_ofNat']
    omega
  simp only [toBytes, readWord, List.cons_append, List.nil_append, h]

/-- **A list of words reads back**, given its length. -/
@[simp] theorem readWords_flatMap_toBytes (words : List UInt16) (rest : List UInt8) :
    readWords words.length (words.flatMap toBytes ++ rest) = some (words, rest) := by
  induction words with
  | nil => rfl
  | cons word words ih =>
    rw [List.length_cons, List.flatMap_cons, List.append_assoc, readWords, readWord_toBytes]
    simp [ih]

end Words

end Runehook.Lib
