import Mathlib.Data.Nat.Bitwise
import Runehook.Decipher
import Runehook.Lib.Septets

/-! # Varints

`varint::encode` writes the shortest sequence of septets of an integer, and `varint::decode` takes
the first terminated sequence of a buffer, if it has no more than nineteen bytes and its number fits
in a `u128` (`varintDecode_eq_ok_iff`). So the integers of a payload that was written one after the
other are read back (`Runestone.integers_flatMap`), and no integer that is read is out of range
(`Runestone.integers_shortest`). -/

namespace Runehook

open Lib

/-! ## Encoding -/

/-- The loop of `varint::encode_to_vec`: what is pushed. A `u128` takes eighteen rounds at most,
which is the fuel it is run with. -/
def varintEncodeFrom : Nat → Nat → List UInt8
  | 0, n => [n.toUInt8]
  | fuel + 1, n =>
    if 0 < n >>> 7 then (n.toUInt8 ||| 0x80) :: varintEncodeFrom fuel (n >>> 7) else [n.toUInt8]

/-- `varint::encode_to_vec` and `varint::encode`: the bytes that are pushed. -/
def varintEncode (n : Nat) : List UInt8 := varintEncodeFrom 18 n

/-- The low byte with its high bit set keeps the septet. -/
theorem toUInt8_or_high (n : Nat) : n.toUInt8 ||| 0x80 = (n % 128 + 128).toUInt8 := by
  apply UInt8.toNat_inj.mp
  have hlow : n.toUInt8.toNat = n % 256 := by simp
  have hsum : n % 128 + 128 = 2 ^ 7 ||| n % 128 := by
    rw [← Nat.mul_one (2 ^ 7), ← Nat.two_pow_add_eq_or_of_lt (i := 7) (by omega) 1]
    omega
  rw [UInt8.toNat_or, hlow, toNat_toUInt8 (by omega), hsum]
  apply Nat.eq_of_testBit_eq
  intro i
  rw [Nat.testBit_or, Nat.testBit_or, show 256 = 2 ^ 8 from rfl, show 128 = 2 ^ 7 from rfl,
    show (0x80 : UInt8).toNat = 2 ^ 7 from rfl, Nat.testBit_mod_two_pow, Nat.testBit_mod_two_pow,
    Nat.testBit_two_pow]
  by_cases h : i = 7
  · simp [h]
  · have hlt : i < 8 ↔ i < 7 := by omega
    simp [hlt, Ne.symm h]

/-- What is written is the shortest sequence, if the fuel is enough. -/
theorem varintEncodeFrom_eq {fuel n : Nat} (h : n < 128 ^ (fuel + 1)) :
    varintEncodeFrom fuel n = septets n := by
  induction fuel generalizing n with
  | zero => rw [varintEncodeFrom, septets_of_lt (by simpa using h)]
  | succ fuel ih =>
    have hshift : n >>> 7 = n / 128 := Nat.shiftRight_eq_div_pow n 7
    rw [varintEncodeFrom, hshift]
    rcases Nat.lt_or_ge n 128 with hlt | hge
    · rw [if_neg (by omega), septets_of_lt hlt]
    · have hdiv : n / 128 < 128 ^ (fuel + 1) := by
        rw [Nat.div_lt_iff_lt_mul (by omega), ← Nat.pow_succ]
        exact h
      rw [if_pos (by omega), septets_of_le hge, toUInt8_or_high, ih hdiv]

theorem varintEncode_eq {n : Nat} (h : n < 2 ^ 128) : varintEncode n = septets n :=
  varintEncodeFrom_eq (Nat.lt_of_lt_of_le h (by decide))

theorem length_varintEncode_pos (n : Nat) : 0 < (varintEncode n).length := by
  rw [varintEncode, varintEncodeFrom]
  split <;> simp

/-! ## Decoding -/

theorem and_septet (byte : UInt8) : byte.toNat &&& 0x7f = byte.toNat % 128 :=
  Nat.and_two_pow_sub_one_eq_mod byte.toNat 7

/-- The high bit is clear. -/
theorem and_high_eq_zero_iff (byte : UInt8) : byte.toNat &&& 0x80 = 0 ↔ byte.toNat < 128 := by
  have hlt : byte.toNat < 2 ^ 8 := byte.toNat_lt
  have hbit : byte.toNat &&& 2 ^ 7 = 0 ↔ byte.toNat.testBit 7 = false := by
    rw [Nat.and_two_pow]
    cases byte.toNat.testBit 7 <;> simp
  rw [show 0x80 = 2 ^ 7 from rfl, hbit, ← Nat.not_le]
  constructor
  · intro h hle
    rw [Nat.testBit_eq_decide_div_mod_eq] at h
    simp at h
    omega
  · intro h
    exact Nat.testBit_lt_two_pow (by omega)

/-- The bits that do not fit in the last two of a `u128`. -/
theorem and_overflow_eq_zero_iff {value : Nat} (h : value < 128) :
    value &&& 0x7c = 0 ↔ value < 4 := by
  have hdigits : ∀ value : Fin 128, value.val &&& 0x7c = 0 ↔ value.val < 4 := by decide
  exact hdigits ⟨value, h⟩

/-- The septets that were read before are below the bits of the next. -/
theorem or_shiftLeft_septet {n value k : Nat} (h : n < 2 ^ k) :
    n ||| value <<< k = n + 2 ^ k * value := by
  rw [Nat.shiftLeft_eq, Nat.mul_comm value,
    Nat.or_comm, ← Nat.two_pow_add_eq_or_of_lt h, Nat.add_comm]

/-- One round of the decoder, on numbers. -/
theorem varintDecodeFrom_cons {byte : UInt8} {buffer : List UInt8} {i n : Nat}
    (h : n < 2 ^ (7 * i)) :
    varintDecodeFrom (byte :: buffer) i n =
      if 18 < i then .error .overlong
      else if i = 18 ∧ 4 ≤ byte.toNat % 128 then .error .overflow
      else if byte.toNat < 128 then .ok (n + 2 ^ (7 * i) * (byte.toNat % 128), i + 1)
      else varintDecodeFrom buffer (i + 1) (n + 2 ^ (7 * i) * (byte.toNat % 128)) := by
  have hoverflow : byte.toNat % 128 &&& 0x7c ≠ 0 ↔ 4 ≤ byte.toNat % 128 := by
    rw [Ne, and_overflow_eq_zero_iff (Nat.mod_lt _ (by omega)), Nat.not_lt]
  rw [varintDecodeFrom]
  simp only [and_septet, or_shiftLeft_septet h, and_high_eq_zero_iff, hoverflow]

theorem add_septet_lt {n i value : Nat} (h : n < 2 ^ (7 * i)) (hvalue : value < 128) :
    n + 2 ^ (7 * i) * value < 2 ^ (7 * (i + 1)) := by
  have hpow : 2 ^ (7 * (i + 1)) = 2 ^ (7 * i) * 128 := by
    rw [Nat.mul_succ, Nat.pow_add]
  have hle : 2 ^ (7 * i) * (value + 1) ≤ 2 ^ (7 * i) * 128 := Nat.mul_le_mul_left _ (by omega)
  rw [Nat.mul_succ] at hle
  omega

/-- **What the decoder accepts**, from any round on: a terminated sequence of septets, that ends
within nineteen bytes and whose number fits in a `u128`. -/
theorem varintDecodeFrom_eq_ok_iff {buffer : List UInt8} {i n m k : Nat} (h : n < 2 ^ (7 * i)) :
    varintDecodeFrom buffer i n = .ok (m, k) ↔
      ∃ bytes rest, buffer = bytes ++ rest ∧ Terminated bytes ∧ i + bytes.length = k ∧ k ≤ 19 ∧
        n + 2 ^ (7 * i) * septetsValue bytes = m ∧ m < 2 ^ 128 := by
  induction buffer generalizing i n with
  | nil =>
    constructor
    · intro herror
      cases herror
    · rintro ⟨bytes, rest, hbuffer, hterminated, -⟩
      have := hterminated.length_pos
      rw [(List.append_eq_nil_iff.mp hbuffer.symm).1] at this
      cases this
  | cons byte buffer ih =>
    have hseptet : byte.toNat % 128 < 128 := Nat.mod_lt _ (by omega)
    have hnext : n + 2 ^ (7 * i) * (byte.toNat % 128) < 2 ^ (7 * (i + 1)) := add_septet_lt h hseptet
    rw [varintDecodeFrom_cons h]
    split_ifs with hlong hover hlast
    · -- a sequence would end after the nineteenth byte
      constructor
      · intro herror
        cases herror
      · rintro ⟨bytes, rest, -, hterminated, hk, hle, -⟩
        have := hterminated.length_pos
        omega
    · -- the nineteenth byte would have to be the last
      constructor
      · intro herror
        cases herror
      · rintro ⟨bytes, rest, hbuffer, hterminated, hk, hle, hvalue, hlt⟩
        exfalso
        cases hterminated with
        | @last byte' hbyte' =>
          cases (List.cons.inj hbuffer).1
          rw [septetsValue_cons, septetsValue_nil, hover.1] at hvalue
          omega
        | more hbyte' hrest' =>
          have := hrest'.length_pos
          rw [List.length_cons] at hk
          omega
    -- the last byte of the sequence
    · have hfits : n + 2 ^ (7 * i) * (byte.toNat % 128) < 2 ^ 128 := by
        rcases Nat.lt_or_ge i 18 with hi | hi
        · exact Nat.lt_of_lt_of_le hnext (Nat.pow_le_pow_right (by omega) (by omega))
        · obtain rfl : i = 18 := by omega
          omega
      constructor
      · intro hok
        cases hok
        exact ⟨[byte], buffer, rfl, .last hlast, rfl, by omega, by simp, hfits⟩
      · rintro ⟨bytes, rest, hbuffer, hterminated, hk, hle, hvalue, hlt⟩
        obtain ⟨rfl, rfl⟩ := Terminated.prefix_unique hterminated (.last hlast) hbuffer.symm
        rw [← hk, ← hvalue]
        simp
    -- one more byte, read after a factor of 128
    · have hpow : 2 ^ (7 * (i + 1)) = 2 ^ (7 * i) * 128 := by
        rw [Nat.mul_succ, Nat.pow_add]
      have hvalue_cons (bytes : List UInt8) : n + 2 ^ (7 * i) * (byte.toNat % 128) +
          2 ^ (7 * (i + 1)) * septetsValue bytes =
            n + 2 ^ (7 * i) * septetsValue (byte :: bytes) := by
        rw [hpow, septetsValue_cons]
        ring
      rw [ih hnext]
      constructor
      · rintro ⟨bytes, rest, rfl, hterminated, hk, hle, hvalue, hlt⟩
        refine ⟨byte :: bytes, rest, rfl, .more (by omega) hterminated, ?_, hle, ?_, hlt⟩
        · rw [List.length_cons]
          omega
        · rw [← hvalue_cons, hvalue]
      · rintro ⟨bytes, rest, hbuffer, hterminated, hk, hle, hvalue, hlt⟩
        cases hterminated with
        | last hbyte' =>
          cases (List.cons.inj hbuffer).1
          exact absurd hbyte' hlast
        | @more byte' bytes' hbyte' hrest' =>
          obtain ⟨rfl, htail⟩ := List.cons.inj hbuffer
          refine ⟨bytes', rest, htail, hrest', ?_, hle, ?_, hlt⟩
          · rw [List.length_cons] at hk
            omega
          · rw [hvalue_cons, hvalue]

/-- **What the decoder accepts** is the first terminated sequence of the buffer. -/
theorem varintDecode_eq_ok_iff {buffer : List UInt8} {m k : Nat} :
    varintDecode buffer = .ok (m, k) ↔
      ∃ bytes rest, buffer = bytes ++ rest ∧ Terminated bytes ∧ bytes.length = k ∧ k ≤ 19 ∧
        septetsValue bytes = m ∧ m < 2 ^ 128 := by
  rw [varintDecode, varintDecodeFrom_eq_ok_iff (by simp)]
  simp

/-- **A varint is read back**, whatever follows it. -/
theorem varintDecode_encode {n : Nat} (h : n < 2 ^ 128) (rest : List UInt8) :
    varintDecode (varintEncode n ++ rest) = .ok (n, (varintEncode n).length) := by
  rw [varintEncode_eq h]
  exact varintDecode_eq_ok_iff.mpr ⟨septets n, rest, rfl, terminated_septets n, rfl,
    length_septets_le (Nat.lt_of_lt_of_le h (by decide)), septetsValue_septets n, h⟩

/-- An integer that is read fits in a `u128`, and it was written in no fewer bytes than it takes. -/
theorem varintDecode_spec {buffer : List UInt8} {n k : Nat} (h : varintDecode buffer = .ok (n, k)) :
    n < 2 ^ 128 ∧ (varintEncode n).length ≤ k := by
  obtain ⟨bytes, rest, -, hterminated, hk, -, rfl, hlt⟩ := varintDecode_eq_ok_iff.mp h
  rw [varintEncode_eq hlt, ← hk]
  exact ⟨hlt, hterminated.length_septets_le⟩

/-! ## Payloads -/

/-- **The integers of a payload are read back**, one after the other. -/
theorem Runestone.integers_flatMap {integers : List Nat} (h : ∀ n ∈ integers, n < 2 ^ 128) :
    Runestone.integers (integers.flatMap varintEncode) = .ok integers := by
  rw [Runestone.integers]
  induction integers with
  | nil => rfl
  | cons n integers ih =>
    obtain ⟨hn, hintegers⟩ := List.forall_mem_cons.mp h
    have hpos : 0 < (varintEncode n).length := length_varintEncode_pos n
    obtain ⟨byte, bytes, hbytes⟩ := List.exists_cons_of_length_pos hpos
    -- the first integer is decoded and the rest is left
    have hdecode := varintDecode_encode hn (integers.flatMap varintEncode)
    rw [hbytes, List.cons_append, List.length_cons] at hdecode
    rw [List.flatMap_cons, hbytes, List.cons_append, List.length_cons, integersFrom,
      hdecode, ok_bind]
    dsimp only
    rw [List.drop_succ_cons, List.drop_left' rfl,
      @integersFrom_congr _ (integers.flatMap varintEncode).length _ (by simp) (Nat.le_refl _),
      ih hintegers, ok_bind]
    rfl

/-- One round of the loop over the payload. -/
theorem integersFrom_succ_eq_ok {fuel : Nat} {byte : UInt8} {buffer : List UInt8}
    {integers : List Nat} (h : integersFrom (fuel + 1) (byte :: buffer) = .ok integers) :
    ∃ integer length integers', varintDecode (byte :: buffer) = .ok (integer, length) ∧
      integersFrom fuel ((byte :: buffer).drop length) = .ok integers' ∧
      integers = integer :: integers' := by
  rw [integersFrom] at h
  cases hdecode : varintDecode (byte :: buffer) with
  | error e =>
    rw [hdecode] at h
    cases h
  | ok decoded =>
    obtain ⟨integer, length⟩ := decoded
    rw [hdecode, ok_bind] at h
    dsimp only at h
    cases hrest : integersFrom fuel ((byte :: buffer).drop length) with
    | error e =>
      rw [hrest] at h
      cases h
    | ok integers' =>
      rw [hrest] at h
      cases h
      exact ⟨integer, length, integers', rfl, hrest, rfl⟩

/-- Every integer of a payload fits in a `u128`. -/
theorem lt_of_mem_integersFrom {fuel : Nat} {payload : List UInt8} {integers : List Nat}
    (h : integersFrom fuel payload = .ok integers) : ∀ n ∈ integers, n < 2 ^ 128 := by
  induction fuel generalizing payload integers with
  | zero => cases payload <;> cases h <;> simp
  | succ fuel ih =>
    cases payload with
    | nil =>
      cases h
      simp
    | cons byte buffer =>
      obtain ⟨integer, length, integers', hdecode, hrest, rfl⟩ := integersFrom_succ_eq_ok h
      exact List.forall_mem_cons.mpr ⟨(varintDecode_spec hdecode).1, ih hrest⟩

/-- The integers take no more bytes than the payload has. -/
theorem length_flatMap_le_of_integersFrom {fuel : Nat} {payload : List UInt8} {integers : List Nat}
    (h : integersFrom fuel payload = .ok integers) :
    (integers.flatMap varintEncode).length ≤ payload.length := by
  induction fuel generalizing payload integers with
  | zero => cases payload <;> cases h <;> simp
  | succ fuel ih =>
    cases payload with
    | nil =>
      cases h
      simp
    | cons byte buffer =>
      obtain ⟨integer, length, integers', hdecode, hrest, rfl⟩ := integersFrom_succ_eq_ok h
      -- each integer takes at least as many bytes as its shortest encoding
      have hle : (varintEncode integer).length ≤ length := (varintDecode_spec hdecode).2
      have hlength : length ≤ (byte :: buffer).length := by
        simpa using (lt_of_varintDecodeFrom hdecode).2
      have hih := ih hrest
      rw [List.length_drop] at hih
      rw [List.flatMap_cons, List.length_append]
      omega

theorem Runestone.lt_of_mem_integers {payload : List UInt8} {integers : List Nat}
    (h : Runestone.integers payload = .ok integers) : ∀ n ∈ integers, n < 2 ^ 128 :=
  lt_of_mem_integersFrom h

/-- **The shortest payload**: writing the integers of a payload again takes no more bytes, and the
integers are the same. -/
theorem Runestone.integers_shortest {payload : List UInt8} {integers : List Nat}
    (h : Runestone.integers payload = .ok integers) :
    (∀ n ∈ integers, n < 2 ^ 128) ∧ (integers.flatMap varintEncode).length ≤ payload.length ∧
      Runestone.integers (integers.flatMap varintEncode) = .ok integers :=
  ⟨lt_of_mem_integers h, length_flatMap_le_of_integersFrom h,
    integers_flatMap (lt_of_mem_integers h)⟩

/-- The theorem on a payload whose zero takes two bytes. -/
theorem Runestone.integers_shortest_paddedZero :
    (∀ n ∈ [0, 5], n < 2 ^ 128) ∧ (List.flatMap varintEncode [0, 5]).length ≤
      [0x80, 0x00, 0x05].length ∧
      Runestone.integers (List.flatMap varintEncode [0, 5]) = .ok [0, 5] :=
  @integers_shortest [0x80, 0x00, 0x05] _ (by decide)

end Runehook
