import Runehook.Lib.Numerals

/-! # The wire format of `numeric`

`u128_into_pg_numeric_bytes` and `pg_numeric_bytes_to_u128` of `db/types/pg_numeric_u128.rs`
(`u128IntoPgNumericBytes`, `pgNumericBytesToU128`): a number is sent as its digits in base 10000,
after a header with their count and the weight of the first of them. Every number is read back, as
it was sent and in the canonical form of the server: `pgNumeric_roundTrip`. -/

namespace Runehook

open Lib

/-! ## Arithmetic of the build -/

/-- What a build of the program does when arithmetic leaves its type: one with overflow checks
stops, one without them wraps around. -/
inductive OverflowChecks where
  | on
  | off
  deriving DecidableEq, Repr

/-- A `u128` result. -/
def OverflowChecks.u128 : OverflowChecks → Nat → Option Nat
  | .on, n => if n < 2 ^ 128 then some n else none
  | .off, n => some (n % 2 ^ 128)

/-- An `i16` result that is at least `-2 ^ 15`. -/
def OverflowChecks.i16 : OverflowChecks → Int → Option Int
  | .on, n => if n < 2 ^ 15 then some n else none
  | .off, n => some (Int.bmod n (2 ^ 16))

/-- A `u128` that fits is the same in every build. -/
theorem OverflowChecks.u128_of_lt (checks : OverflowChecks) {n : Nat} (h : n < 2 ^ 128) :
    checks.u128 n = some n := by
  cases checks with
  | on => rw [u128, if_pos h]
  | off => rw [u128, Nat.mod_eq_of_lt h]

/-- A small `i16` is the same in every build. -/
theorem OverflowChecks.i16_of_lt (checks : OverflowChecks) {n : Nat} (h : n < 2 ^ 15) :
    checks.i16 n = some (n : Int) := by
  cases checks with
  | on => rw [i16, if_pos (by omega)]
  | off =>
    rw [i16, Int.bmod_eq_of_le (by omega) (by omega)]

/-! ## Sending -/

/-- `to_i16` of a remainder. -/
def toI16 (n : Nat) : Option Int16 := if n < 2 ^ 15 then some (Int16.ofNat n) else none

/-- `try_into` of a `usize` into a `u16`. -/
def tryIntoU16 (n : Nat) : Option UInt16 := if n < 2 ^ 16 then some (UInt16.ofNat n) else none

/-- The loop of `u128_into_pg_numeric_bytes`, which pushes the last digit first. -/
def numericDigits (num : Nat) : Option (List Int16) :=
  if num = 0 then some []
  else (toI16 (num % 10000)).bind fun remainder =>
    (numericDigits (num / 10000)).map fun digits => remainder :: digits

/-- `put_u16` and `put_i16`: the bytes of a word, the high byte first. -/
def putI16 (word : Int16) : List UInt8 := toBytes word.toUInt16

/-- `u128_into_pg_numeric_bytes`. It is `none` where an `unwrap` fails. -/
def u128IntoPgNumericBytes (number : Nat) (out : List UInt8) : Option (List UInt8) := do
  let digits ← numericDigits number
  let digits := digits.reverse
  let numDigits := digits.length
  let weight := if numDigits = 0 then 0 else numDigits - 1
  let count ← tryIntoU16 numDigits
  -- The two zeros are the sign, which is always positive, and the number of decimals.
  return out ++ toBytes count ++ putI16 (Int16.ofNat weight) ++ toBytes 0 ++ toBytes 0 ++
    digits.flatMap putI16

/-! ## Receiving -/

/-- The loop of `pg_numeric_bytes_to_u128` over the groups, from the most significant one. -/
def sumGroups (checks : OverflowChecks) (weight : Int) (groups : List UInt16) (upper : Nat) :
    Option Nat :=
  (List.range upper).foldlM (fun result i => do
    let val := groups.getD i 0
    let pow ← checks.u128 (10000 ^ (weight - i).toNat)
    let next ← checks.u128 (val.toNat * pow)
    checks.u128 (result + next)) 0

/-- `pg_numeric_bytes_to_u128`. It is `none` where an `unwrap` or an overflow check fails. -/
def pgNumericBytesToU128 (checks : OverflowChecks) (raw : List UInt8) : Option Nat := do
  let numGroups ← readWord raw
  let weight ← readWord numGroups.2
  let sign ← readWord weight.2
  let scale ← readWord sign.2
  let groups ← readWords numGroups.1.toNat scale.2
  let weight := weight.1.toInt16.toInt
  let upper ← checks.i16 (weight + 1)
  sumGroups checks weight groups.1 upper.toNat

/-! ## What is on the wire -/

/-- The bytes of a `numeric` that is neither negative nor has decimals. -/
def numericWire (weight : Int16) (groups : List UInt16) : List UInt8 :=
  toBytes (UInt16.ofNat groups.length) ++ putI16 weight ++ toBytes 0 ++ toBytes 0 ++
    groups.flatMap toBytes

/-- The form in which Postgres returns a number that it was sent: without the zeros at the end. -/
def canonicalWire (weight : Int16) (groups : List UInt16) : List UInt8 :=
  numericWire weight (groups.rdropWhile (· == 0))

/-- The groups that `u128_into_pg_numeric_bytes` sends. -/
def sentGroups (number : Nat) : List UInt16 := (Nat.digits 10000 number).reverse.map UInt16.ofNat

/-- The weight that `u128_into_pg_numeric_bytes` sends. -/
def sentWeight (number : Nat) : Int16 := Int16.ofNat ((sentGroups number).length - 1)

/-- **The loop pushes the digits in base 10000**, the last one first; no `to_i16` fails. -/
theorem numericDigits_eq (num : Nat) :
    numericDigits num = some ((Nat.digits 10000 num).map Int16.ofNat) := by
  induction num using Nat.strong_induction_on with
  | _ num ih =>
    rw [numericDigits]
    split
    · next h => simp [h]
    · next h =>
      have hlt : num % 10000 < 10000 := Nat.mod_lt _ (by omega)
      have hr : toI16 (num % 10000) = some (Int16.ofNat (num % 10000)) := if_pos (by omega)
      rw [hr, ih (num / 10000) (by omega), Nat.digits_eq_cons_digits_div (by omega) h]
      simp

/-- A `u128` has at most ten groups. -/
theorem length_sentGroups_le {n : Nat} (h : n < 2 ^ 128) : (sentGroups n).length ≤ 10 := by
  have h10 : n < 10000 ^ 10 := lt_of_lt_of_le h (by norm_num)
  simpa [sentGroups] using (Nat.digits_length_le_iff (by omega) n).mpr h10

/-- **What is sent** is the count, the weight and the groups of the number. -/
theorem u128IntoPgNumericBytes_eq {n : Nat} (h : n < 2 ^ 128) (out : List UInt8) :
    u128IntoPgNumericBytes n out = some (out ++ numericWire (sentWeight n) (sentGroups n)) := by
  have hlen := length_sentGroups_le h
  have hsent : (sentGroups n).length = (Nat.digits 10000 n).length := by simp [sentGroups]
  have hcount : tryIntoU16 (Nat.digits 10000 n).length =
      some (UInt16.ofNat (sentGroups n).length) := by
    rw [tryIntoU16, if_pos (by omega), hsent]
  have hweight : (if (Nat.digits 10000 n).length = 0 then 0 else (Nat.digits 10000 n).length - 1)
      = (sentGroups n).length - 1 := by
    split <;> omega
  have hbytes : ((Nat.digits 10000 n).map Int16.ofNat).reverse.flatMap putI16
      = (sentGroups n).flatMap toBytes := by
    rw [sentGroups, ← List.map_reverse, List.flatMap_map, List.flatMap_map]
    rfl
  simp only [u128IntoPgNumericBytes, numericDigits_eq, Option.bind_eq_bind, Option.bind_some,
    List.length_reverse, List.length_map, hcount, hweight, hbytes, numericWire, sentWeight,
    List.append_assoc, Option.pure_def]

/-- **What is received** is the sum over the groups, whatever the header says. -/
theorem pgNumericBytesToU128_wire (checks : OverflowChecks) (weight : Int16) {groups : List UInt16}
    (h : groups.length < 2 ^ 16) :
    pgNumericBytesToU128 checks (numericWire weight groups)
      = (checks.i16 (weight.toInt + 1)).bind fun upper =>
          sumGroups checks weight.toInt groups upper.toNat := by
  have hcount : (UInt16.ofNat groups.length).toNat = groups.length := by
    rw [UInt16.toNat_ofNat']
    exact Nat.mod_eq_of_lt h
  have hwords := readWords_flatMap_toBytes groups []
  rw [List.append_nil] at hwords
  simp only [pgNumericBytesToU128, numericWire, putI16, List.append_assoc, readWord_toBytes,
    Option.bind_eq_bind, Option.bind_some, hcount, hwords]
  rfl

/-- **The sum over the groups** is the value of the numeral if that is a `u128`: no power, product
or sum on the way overflows. -/
theorem sumGroups_eq (checks : OverflowChecks) {w : Nat} {groups : List UInt16}
    (hpow : 10000 ^ w < 2 ^ 128)
    (hvalue : partialValue 10000 w (groups.map UInt16.toNat) (w + 1) < 2 ^ 128) {upper : Nat}
    (hupper : upper ≤ w + 1) :
    sumGroups checks w groups upper
      = some (partialValue 10000 w (groups.map UInt16.toNat) upper) := by
  induction upper with
  | zero => rfl
  | succ k ih =>
    have hget : (groups.getD k 0).toNat = (groups.map UInt16.toNat).getD k 0 := by
      simpa using (List.getD_map groups 0 UInt16.toNat (n := k)).symm
    have hw : ((w : Int) - (k : Int)).toNat = w - k := by omega
    -- no partial sum is above the last one, which fits
    have hfits : partialValue 10000 w (groups.map UInt16.toNat) (k + 1) ≤
        partialValue 10000 w (groups.map UInt16.toNat) (w + 1) := partialValue_mono hupper
    have hdigit : (groups.map UInt16.toNat).getD k 0 * 10000 ^ (w - k) ≤
        partialValue 10000 w (groups.map UInt16.toNat) (k + 1) :=
      digit_mul_le_partialValue (Nat.lt_succ_self k)
    have hsucc : partialValue 10000 w (groups.map UInt16.toNat) (k + 1) =
        partialValue 10000 w (groups.map UInt16.toNat) k +
          (groups.map UInt16.toNat).getD k 0 * 10000 ^ (w - k) :=
      partialValue_succ k
    -- one more turn of the loop multiplies, then adds
    have hstep : sumGroups checks w groups (k + 1) =
        (sumGroups checks w groups k).bind fun result =>
        (checks.u128 (10000 ^ (w - k))).bind fun pow =>
          (checks.u128 ((groups.map UInt16.toNat).getD k 0 * pow)).bind fun next =>
            checks.u128 (result + next) := by
      simp only [sumGroups, List.range_succ, List.foldlM_append, List.foldlM_cons, List.foldlM_nil,
        Option.bind_eq_bind, hget, hw, bind_pure]
    rw [hstep, ih (by omega), Option.bind_some,
      checks.u128_of_lt (lt_of_le_of_lt (Nat.pow_le_pow_right (by omega) (Nat.sub_le w k)) hpow),
      Option.bind_some, checks.u128_of_lt (by omega), Option.bind_some,
      checks.u128_of_lt (by omega), hsucc]

/-- The groups sent are the digits. -/
theorem sentGroups_map_toNat (n : Nat) :
    (sentGroups n).map UInt16.toNat = (Nat.digits 10000 n).reverse := by
  rw [sentGroups, List.map_map]
  refine (List.map_congr_left fun d hd => ?_).trans (List.map_id _)
  have hlt : d < 10000 := Nat.digits_lt_base (by omega) (List.mem_reverse.mp hd)
  show (UInt16.ofNat d).toNat = d
  rw [UInt16.toNat_ofNat']
  exact Nat.mod_eq_of_lt (by omega)

/-- **What is sent has the value of the number**, read up to the weight of its header. -/
theorem partialValue_sentGroups (n : Nat) :
    partialValue 10000 ((sentGroups n).length - 1) ((sentGroups n).map UInt16.toNat)
      ((sentGroups n).length - 1 + 1) = n := by
  have hlen : (sentGroups n).length = ((sentGroups n).map UInt16.toNat).length :=
    (List.length_map _).symm
  rcases Nat.eq_zero_or_pos (sentGroups n).length with h | h
  · have hnil : Nat.digits 10000 n = [] := by simpa [sentGroups] using h
    rw [List.length_eq_zero_iff.mp h, Nat.digits_eq_nil_iff_eq_zero.mp hnil]
    rfl
  · rw [partialValue_all (by omega), sentGroups_map_toNat, List.reverse_reverse,
      Nat.ofDigits_digits]

/-- The weight sent fits in its `i16`. -/
theorem sentWeight_toInt {n : Nat} (h : n < 2 ^ 128) :
    (sentWeight n).toInt = ((sentGroups n).length - 1 : Nat) := by
  have := length_sentGroups_le h
  exact Int16.toInt_ofNat_of_lt (by omega)

/-- **Groups with the digits of `n` are received as `n`**, zeros at the end sent or not. -/
theorem pgNumericBytesToU128_of_getD (checks : OverflowChecks) {n : Nat} (h : n < 2 ^ 128)
    {groups : List UInt16} (hlen : groups.length ≤ (sentGroups n).length)
    (hget : ∀ i, (groups.map UInt16.toNat).getD i 0 = ((sentGroups n).map UInt16.toNat).getD i 0) :
    pgNumericBytesToU128 checks (numericWire (sentWeight n) groups) = some n := by
  have h10 := length_sentGroups_le h
  have hvalue := (partialValue_congr (b := 10000) (w := (sentGroups n).length - 1) hget
    ((sentGroups n).length - 1 + 1)).trans (partialValue_sentGroups n)
  have hpow : 10000 ^ ((sentGroups n).length - 1) < 2 ^ 128 :=
    lt_of_le_of_lt (Nat.pow_le_pow_right (by omega) (show _ ≤ 9 by omega)) (by norm_num)
  have hupper : checks.i16 ((sentWeight n).toInt + 1)
      = some (((sentGroups n).length - 1 + 1 : Nat) : Int) := by
    rw [sentWeight_toInt h, ← Nat.cast_add_one]
    exact checks.i16_of_lt (by omega)
  rw [pgNumericBytesToU128_wire checks _ (by omega), hupper, Option.bind_some, sentWeight_toInt h,
    Int.toNat_natCast, sumGroups_eq checks hpow (hvalue.trans_lt h) le_rfl, hvalue]

/-- **The codec of `numeric`.** A number is sent in groups of four decimals without a zero in front,
with the weight of the first group, and every build receives it again, in the form in which it was
sent and in the form in which Postgres returns it: in a build with overflow checks none of them
fails. -/
theorem pgNumeric_roundTrip {n : Nat} (h : n < 2 ^ 128) (out : List UInt8) :
    ∃ (weight : Int16) (groups : List UInt16),
      u128IntoPgNumericBytes n out = some (out ++ numericWire weight groups) ∧
      (∀ group ∈ groups, group ≤ 9999) ∧ groups.head? ≠ some 0 ∧
      (n = 0 → groups = [] ∧ weight.toInt = 0) ∧ (n ≠ 0 → weight.toInt + 1 = groups.length) ∧
      ∀ checks, pgNumericBytesToU128 checks (numericWire weight groups) = some n ∧
        pgNumericBytesToU128 checks (canonicalWire weight groups) = some n := by
  have hmap := sentGroups_map_toNat n
  refine ⟨sentWeight n, sentGroups n, u128IntoPgNumericBytes_eq h out, ?_, ?_, ?_, ?_, ?_⟩
  · intro group hgroup
    -- a sent group is a digit to base ten thousand
    have hmem : group.toNat ∈ (sentGroups n).map UInt16.toNat := List.mem_map_of_mem hgroup
    rw [hmap, List.mem_reverse] at hmem
    have := Nat.digits_lt_base (by omega) hmem
    exact UInt16.le_iff_toNat_le.mpr (by show group.toNat ≤ 9999; omega)
  · intro hhead
    have hzero : ((sentGroups n).map UInt16.toNat).head? = some 0 := by
      rw [List.head?_map, hhead]
      rfl
    rw [hmap, List.head?_reverse] at hzero
    -- the first sent group is the highest digit, which is not zero
    have hne : Nat.digits 10000 n ≠ [] := by
      rintro hnil
      simp [hnil] at hzero
    have hlast := Nat.getLast_digit_ne_zero 10000 (Nat.digits_ne_nil_iff_ne_zero.mp hne)
    rw [List.getLast?_eq_some_getLast hne] at hzero
    exact hlast (Option.some.inj hzero)
  · rintro rfl
    have hnil : sentGroups 0 = [] := by simp [sentGroups]
    exact ⟨hnil, by rw [sentWeight_toInt h, hnil]; rfl⟩
  · intro hn
    have hpos : 0 < (sentGroups n).length := by
      rw [List.length_pos_iff]
      simpa [sentGroups] using Nat.digits_ne_nil_iff_ne_zero.mpr hn
    rw [sentWeight_toInt h]
    omega
  · intro checks
    refine ⟨pgNumericBytesToU128_of_getD checks h le_rfl fun _ => rfl, ?_⟩
    -- dropping zero groups at the end drops zero digits
    have htest : (· == 0) ∘ UInt16.toNat = fun group : UInt16 => group == 0 := by
      funext group
      show (group.toNat == 0) = (group == 0)
      rw [Bool.beq_eq_decide_eq, Bool.beq_eq_decide_eq]
      exact decide_eq_decide.mpr (UInt16.toNat_inj (b := 0))
    refine pgNumericBytesToU128_of_getD checks h
      (List.rdropWhile_prefix (· == 0) _).length_le fun i => ?_
    rw [← htest, ← rdropWhile_map, getD_rdropWhile_zero]

/-- `pgNumeric_roundTrip` for a number that ends in zeros. -/
theorem pgNumeric_roundTrip_trailingZeros :
    80000000000000000 < 2 ^ 128 ∧ ∃ (weight : Int16) (groups : List UInt16),
      u128IntoPgNumericBytes 80000000000000000 [] = some ([] ++ numericWire weight groups) ∧
      (∀ group ∈ groups, group ≤ 9999) ∧ groups.head? ≠ some 0 ∧
      (80000000000000000 = 0 → groups = [] ∧ weight.toInt = 0) ∧
      (80000000000000000 ≠ 0 → weight.toInt + 1 = groups.length) ∧
      ∀ checks, pgNumericBytesToU128 checks (numericWire weight groups) = some 80000000000000000 ∧
        pgNumericBytesToU128 checks (canonicalWire weight groups) = some 80000000000000000 :=
  ⟨by norm_num, pgNumeric_roundTrip (by norm_num) []⟩

/-- One group of weight 4, as Postgres returns it. -/
example :
    pgNumericBytesToU128 .on [0, 1, 0, 4, 0, 0, 0, 0, 0, 8] = some 80000000000000000 := by decide

end Runehook
