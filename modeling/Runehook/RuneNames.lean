import Mathlib.Data.Nat.Bitwise
import Mathlib.Data.Nat.Size
import Runehook.Issuance
import Runehook.Lib.BijectiveNumerals
import Runehook.Lib.Partial

/-! # Names of runes

`Display` and `FromStr` of `Rune` and of `SpacedRune`. A name is the numeral of a rune in bijective
base 26 (`Rune.toList_toName`), and the parser accepts what is displayed and nothing else, but for
the empty name, which it reads as the first rune (`Rune.fromStr_eq_ok_iff`). A spaced name is
accepted if it is the displayed form of a rune with spacers between its letters, where a dot may
stand for a bullet (`bulleted`, `SpacedRune.fromStr_eq_ok_iff_bulleted`). -/

namespace Runehook

open Lib

/-! ## Letters -/

/-- A letter of a name. -/
def IsLetter (c : Char) : Prop := 'A' ≤ c ∧ c ≤ 'Z'

instance (c : Char) : Decidable (IsLetter c) := inferInstanceAs (Decidable (_ ∧ _))

/-- Letter `i` of the alphabet, as `Display for Rune` takes it. -/
def letterOf (i : Nat) : Char := "ABCDEFGHIJKLMNOPQRSTUVWXYZ".toList.getD i 'A'

/-- The place of a letter in the alphabet, as `FromStr for Rune` takes it. -/
def placeOf (c : Char) : Nat := c.toNat - 'A'.toNat

theorem isLetter_letterOf {i : Nat} (h : i < 26) :
    IsLetter (letterOf i) ∧ placeOf (letterOf i) = i := by
  have hall : ∀ i : Fin 26, IsLetter (letterOf i) ∧ placeOf (letterOf i) = i := by decide +kernel
  exact hall ⟨i, h⟩

theorem isLetter_iff (c : Char) : IsLetter c ↔ 65 ≤ c.toNat ∧ c.toNat ≤ 90 := Iff.rfl

theorem placeOf_lt {c : Char} (h : IsLetter c) : placeOf c < 26 := by
  rw [isLetter_iff] at h
  rw [placeOf, show 'A'.toNat = 65 from rfl]
  omega

theorem eq_of_placeOf_eq {c c' : Char} (hc : IsLetter c) (hc' : IsLetter c')
    (h : placeOf c = placeOf c') : c = c' := by
  rw [isLetter_iff] at hc hc'
  rw [placeOf, placeOf, show 'A'.toNat = 65 from rfl] at h
  exact Char.toNat_inj.mp (by omega)

theorem letterOf_placeOf {c : Char} (h : IsLetter c) : letterOf (placeOf c) = c := by
  obtain ⟨hletter, hplace⟩ := isLetter_letterOf (placeOf_lt h)
  exact eq_of_placeOf_eq hletter h hplace

/-! ## Displayed names -/

/-- The letters of a number are its numeral, if the fuel is enough. -/
theorem Rune.letters_eq {fuel n : Nat} {acc : List Char} (h : n < bijectiveFirst 26 (fuel + 1)) :
    Rune.letters fuel n acc = (bijectiveDigits 26 n).map letterOf ++ acc := by
  induction fuel generalizing n acc with
  | zero =>
    obtain rfl : n = 0 := by
      rw [bijectiveFirst, bijectiveFirst] at h
      omega
    rw [Rune.letters, bijectiveDigits_zero, List.map_nil, List.nil_append]
  | succ fuel ih =>
    cases n with
    | zero =>
      rw [Rune.letters, if_neg (by omega), bijectiveDigits_zero, List.map_nil, List.nil_append]
    | succ n =>
      -- one digit less remains below the bound of one letter less
      have hdiv : n / 26 < bijectiveFirst 26 (fuel + 1) := by
        rw [Nat.div_lt_iff_lt_mul (by omega)]
        rw [bijectiveFirst] at h
        omega
      rw [Rune.letters, if_pos (by omega), Nat.add_sub_cancel, ih hdiv, bijectiveDigits_succ,
        List.map_append, List.append_assoc]
      rfl

/-- **The name of a rune** is a numeral: the greatest `u128` is no exception, although it is
displayed as a constant. -/
theorem Rune.toList_toName {rune : Rune} (h : rune < 2 ^ 128) :
    (Rune.toName rune).toList = (bijectiveDigits 26 (rune + 1)).map letterOf := by
  have hfuel : rune + 1 < bijectiveFirst 26 29 := Nat.lt_of_le_of_lt h (by decide)
  have hletters := @Rune.letters_eq 28 (rune + 1) [] hfuel
  rw [List.append_nil] at hletters
  rw [Rune.toName, ← hletters]
  split
  · next hmax =>
    rw [hmax]
    decide +kernel
  · rw [String.toList_ofList]

/-! ## Parsing names -/

/-- `rune::Error`. -/
inductive RuneError where
  | character (c : Char)
  | range
  deriving DecidableEq, Repr

/-- The loop of `FromStr for Rune`, from letter `i` on. -/
def Rune.fromStrFrom : List Char → Nat → Nat → Except RuneError Rune
  | [], _, x => .ok x
  | c :: s, i, x => do
    let x ← unwrap .range (if 0 < i then u128CheckedAdd x 1 else some x)
    let x ← unwrap .range (u128CheckedMul x 26)
    if IsLetter c then do
      let x ← unwrap .range (u128CheckedAdd x (placeOf c))
      Rune.fromStrFrom s (i + 1) x
    else .error (.character c)

/-- `FromStr for Rune`. -/
def Rune.fromStr (s : String) : Except RuneError Rune := Rune.fromStrFrom s.toList 0 0

/-- The number of a numeral whose digits follow those of another. -/
def valueFrom (n : Nat) (s : List Char) : Nat := s.foldl (fun n c => n * 26 + (placeOf c + 1)) n

theorem le_valueFrom (n : Nat) (s : List Char) : n ≤ valueFrom n s := by
  induction s generalizing n with
  | nil => exact Nat.le_refl n
  | cons c s ih =>
    have hrest := ih (n * 26 + (placeOf c + 1))
    rw [valueFrom] at hrest ⊢
    rw [List.foldl_cons]
    omega

theorem u128CheckedAdd_eq_some_iff {a b c : Nat} :
    u128CheckedAdd a b = some c ↔ a + b < 2 ^ 128 ∧ a + b = c := by
  rw [u128CheckedAdd, Option.ite_none_right_eq_some, Option.some.injEq]

theorem u128CheckedMul_eq_some_iff {a b c : Nat} :
    u128CheckedMul a b = some c ↔ a * b < 2 ^ 128 ∧ a * b = c := by
  rw [u128CheckedMul, Option.ite_none_right_eq_some, Option.some.injEq]

/-- One round of the parser that ends well. -/
theorem Rune.fromStrFrom_cons_eq_ok_iff {c : Char} {s : List Char} {i x rune : Nat} :
    Rune.fromStrFrom (c :: s) i x = .ok rune ↔
      IsLetter c ∧ (if 0 < i then x + 1 else x) * 26 + placeOf c < 2 ^ 128 ∧
      Rune.fromStrFrom s (i + 1) ((if 0 < i then x + 1 else x) * 26 + placeOf c) = .ok rune := by
  -- the first step adds one, for every letter but the first
  have hfirst {y : Nat} : (if 0 < i then u128CheckedAdd x 1 else some x) = some y ↔
      (if 0 < i then x + 1 else x) = y ∧ (0 < i → x + 1 < 2 ^ 128) := by
    split_ifs with hi
    · rw [u128CheckedAdd_eq_some_iff]
      tauto
    · simp [hi]
  rw [Rune.fromStrFrom, unwrap_bind_eq_ok_iff]
  constructor
  · rintro ⟨y, hy, hrest⟩
    obtain ⟨rfl, -⟩ := hfirst.mp hy
    obtain ⟨z, hz, hletters⟩ := unwrap_bind_eq_ok_iff.mp hrest
    obtain ⟨-, rfl⟩ := u128CheckedMul_eq_some_iff.mp hz
    split at hletters
    · next hletter =>
      obtain ⟨w, hw, hlast⟩ := unwrap_bind_eq_ok_iff.mp hletters
      obtain ⟨hsum, rfl⟩ := u128CheckedAdd_eq_some_iff.mp hw
      exact ⟨hletter, hsum, hlast⟩
    · cases hletters
  · rintro ⟨hletter, hsum, h⟩
    have hmul : (if 0 < i then x + 1 else x) * 26 < 2 ^ 128 := by omega
    refine ⟨_, hfirst.mpr ⟨rfl, fun hi => ?_⟩, unwrap_bind_eq_ok_iff.mpr ⟨_, if_pos hmul, ?_⟩⟩
    · rw [if_pos hi] at hmul
      omega
    · rw [if_pos hletter]
      exact unwrap_bind_eq_ok_iff.mpr ⟨_, if_pos hsum, h⟩

/-- **What the parser accepts** after the first letter: letters, whose number fits in a `u128`. -/
theorem Rune.fromStrFrom_eq_ok_iff {s : List Char} {i x rune : Nat} (hi : 0 < i)
    (hx : x < 2 ^ 128) :
    Rune.fromStrFrom s i x = .ok rune ↔
      (∀ c ∈ s, IsLetter c) ∧ valueFrom (x + 1) s = rune + 1 ∧ rune < 2 ^ 128 := by
  induction s generalizing i x with
  | nil =>
    rw [Rune.fromStrFrom]
    constructor
    · intro h
      cases h
      exact ⟨by simp, rfl, hx⟩
    · rintro ⟨-, hvalue, -⟩
      obtain rfl : x = rune := Nat.succ.inj hvalue
      rfl
  | cons c s ih =>
    have hvalue : valueFrom (x + 1) (c :: s) = valueFrom ((x + 1) * 26 + placeOf c + 1) s := rfl
    rw [Rune.fromStrFrom_cons_eq_ok_iff, if_pos hi, List.forall_mem_cons, hvalue]
    constructor
    · rintro ⟨hletter, hlt, h⟩
      obtain ⟨hletters, hrune, hfits⟩ := (ih (Nat.succ_pos i) hlt).mp h
      exact ⟨⟨hletter, hletters⟩, hrune, hfits⟩
    · rintro ⟨⟨hletter, hletters⟩, hrune, hfits⟩
      -- the numbers on the way are not greater than the last one
      have hle := le_valueFrom ((x + 1) * 26 + placeOf c + 1) s
      have hlt : (x + 1) * 26 + placeOf c < 2 ^ 128 := by omega
      exact ⟨hletter, hlt, (ih (Nat.succ_pos i) hlt).mpr ⟨hletters, hrune, hfits⟩⟩

theorem valueFrom_zero (s : List Char) : valueFrom 0 s = bijectiveValue 26 (s.map placeOf) := by
  rw [valueFrom, bijectiveValue, List.foldl_map]

/-- The letters of a displayed name, and their number. -/
theorem Rune.toName_eq_iff {s : List Char} {rune : Rune} (h : rune < 2 ^ 128) :
    (Rune.toName rune).toList = s ↔ (∀ c ∈ s, IsLetter c) ∧ valueFrom 0 s = rune + 1 := by
  rw [Rune.toList_toName h, valueFrom_zero]
  constructor
  · rintro rfl
    refine ⟨fun c hc => ?_, ?_⟩
    · obtain ⟨d, hd, rfl⟩ := List.mem_map.mp hc
      exact (isLetter_letterOf (lt_of_mem_bijectiveDigits (by omega) hd)).1
    -- the place of a letter is the digit that it stands for
    · have hplaces : ((bijectiveDigits 26 (rune + 1)).map letterOf).map placeOf =
          bijectiveDigits 26 (rune + 1) := by
        rw [List.map_map]
        refine (List.map_congr_left fun d hd => ?_).trans (List.map_id _)
        exact (isLetter_letterOf (lt_of_mem_bijectiveDigits (by omega) hd)).2
      rw [hplaces, bijectiveValue_digits]
  · rintro ⟨hletters, hvalue⟩
    have hdigits : ∀ d ∈ s.map placeOf, d < 26 := by
      intro d hd
      obtain ⟨c, hc, rfl⟩ := List.mem_map.mp hd
      exact placeOf_lt (hletters c hc)
    rw [← hvalue, bijectiveDigits_value hdigits, List.map_map]
    exact (List.map_congr_left fun c hc => letterOf_placeOf (hletters c hc)).trans (List.map_id _)

/-- A text that is parsed is letters, and the numeral of what is one more than its rune. -/
theorem Rune.fromStr_eq_ok_iff_valueFrom {s : String} (hs : s.toList ≠ []) {rune : Rune} :
    Rune.fromStr s = .ok rune ↔
      (∀ c ∈ s.toList, IsLetter c) ∧ valueFrom 0 s.toList = rune + 1 ∧ rune < 2 ^ 128 := by
  rw [Rune.fromStr]
  cases hlist : s.toList with
  | nil => exact absurd hlist hs
  | cons c s =>
    -- the first letter is read without the one that is added later
    have hvalue : valueFrom 0 (c :: s) = valueFrom (placeOf c + 1) s := by
      rw [valueFrom, List.foldl_cons, Nat.zero_mul, Nat.zero_add]
      rfl
    rw [Rune.fromStrFrom_cons_eq_ok_iff, if_neg (by omega), Nat.zero_mul, Nat.zero_add,
      List.forall_mem_cons, hvalue]
    constructor
    · rintro ⟨hletter, hlt, h⟩
      obtain ⟨hletters, hrune, hfits⟩ := (Rune.fromStrFrom_eq_ok_iff (by omega) hlt).mp h
      exact ⟨⟨hletter, hletters⟩, hrune, hfits⟩
    · rintro ⟨⟨hletter, hletters⟩, hrune, hfits⟩
      have hlt : placeOf c < 2 ^ 128 := Nat.lt_trans (placeOf_lt hletter) (by decide)
      exact ⟨hletter, hlt, (Rune.fromStrFrom_eq_ok_iff (by omega) hlt).mpr ⟨hletters, hrune, hfits⟩⟩

/-- What is parsed is a name. -/
theorem Rune.toName_of_fromStr {s : String} {rune : Rune} (h : Rune.fromStr s = .ok rune)
    (hs : s ≠ "") :
    rune < 2 ^ 128 ∧ Rune.toName rune = s := by
  have hlist : s.toList ≠ [] := fun hnil => hs (String.toList_eq_nil_iff.mp hnil)
  obtain ⟨hletters, hvalue, hlt⟩ := (Rune.fromStr_eq_ok_iff_valueFrom hlist).mp h
  exact ⟨hlt, String.toList_inj.mp ((Rune.toName_eq_iff hlt).mpr ⟨hletters, hvalue⟩)⟩

/-- A name is parsed. -/
theorem Rune.fromStr_toName {rune : Rune} (h : rune < 2 ^ 128) :
    Rune.fromStr (Rune.toName rune) = .ok rune := by
  obtain ⟨hletters, hvalue⟩ := (Rune.toName_eq_iff h).mp rfl
  refine (Rune.fromStr_eq_ok_iff_valueFrom fun hnil => ?_).mpr ⟨hletters, hvalue, h⟩
  rw [hnil] at hvalue
  exact Nat.succ_ne_zero rune hvalue.symm

/-- **The parser of names** accepts the empty name, as the first rune, and the displayed names. -/
theorem Rune.fromStr_eq_ok_iff {s : String} {rune : Rune} :
    Rune.fromStr s = .ok rune ↔ s = "" ∧ rune = 0 ∨ rune < 2 ^ 128 ∧ Rune.toName rune = s := by
  constructor
  · intro h
    by_cases hs : s = ""
    · subst hs
      cases h
      exact .inl ⟨rfl, rfl⟩
    · exact .inr (Rune.toName_of_fromStr h hs)
  · rintro (⟨rfl, rfl⟩ | ⟨hlt, rfl⟩)
    · rfl
    · exact Rune.fromStr_toName hlt

/-- **Different runes have different names.** -/
theorem Rune.toName_injective {a b : Rune} (ha : a < 2 ^ 128) (hb : b < 2 ^ 128)
    (h : Rune.toName a = Rune.toName b) :
    a = b := by
  obtain ⟨-, hvalue⟩ := (Rune.toName_eq_iff ha).mp rfl
  obtain ⟨-, hvalue'⟩ := (Rune.toName_eq_iff hb).mp (congrArg String.toList h.symm)
  exact Nat.succ.inj (hvalue.symm.trans hvalue')

/-! ## Spaced names -/

/-- The letters of a name, the first of which is letter `k`, each followed by a bullet if its bit is
set. -/
def spacedFrom (spacers : Nat) : Nat → List Char → List Char
  | _, [] => []
  | k, c :: name => (if spacers.testBit k then [c, '•'] else [c]) ++ spacedFrom spacers (k + 1) name

/-- What is displayed, if no spacer comes after the last letter. -/
theorem SpacedRune.toList_toName (rune : Rune) (spacers : Nat) :
    (SpacedRune.toName rune spacers).toList =
      spacedFrom (spacers % 2 ^ ((Rune.toName rune).toList.length - 1)) 0
      (Rune.toName rune).toList := by
  have hzip : ∀ (name : List Char) (k m : Nat), ((name.zipIdx k).flatMap fun p =>
      if p.2 < m ∧ spacers.testBit p.2 then [p.1, '•'] else [p.1]) =
        spacedFrom (spacers % 2 ^ m) k name := by
    intro name
    induction name with
    | nil => exact fun _ _ => rfl
    | cons c name ih =>
      intro k m
      rw [List.zipIdx_cons, List.flatMap_cons, ih, spacedFrom, Nat.testBit_mod_two_pow]
      simp
  rw [SpacedRune.toName, String.toList_ofList]
  exact hzip _ 0 _

/-! ## Parsing spaced names -/

/-- `spaced_rune::Error`. -/
inductive SpacedRuneError where
  | leadingSpacer
  | trailingSpacer
  | doubleSpacer
  | character (c : Char)
  | rune (error : RuneError)
  deriving DecidableEq, Repr

/-- The loop of `FromStr for SpacedRune`: the letters and the spacers that were read. The release
build shifts a `u32` by the last five bits. -/
def SpacedRune.scan : List Char → List Char → Nat → Except SpacedRuneError (List Char × Nat)
  | [], rune, spacers => .ok (rune, spacers)
  | c :: s, rune, spacers =>
    if IsLetter c then SpacedRune.scan s (rune ++ [c]) spacers
    else if c = '.' ∨ c = '•' then
      if rune.length = 0 then .error .leadingSpacer
      else
        let flag := 1 <<< ((rune.length - 1) % 32)
        if spacers &&& flag ≠ 0 then .error .doubleSpacer
          else SpacedRune.scan s rune (spacers ||| flag)
    else .error (.character c)

/-- `FromStr for SpacedRune`. -/
def SpacedRune.fromStr (s : String) : Except SpacedRuneError (Rune × Nat) := do
  let (rune, spacers) ← SpacedRune.scan s.toList [] 0
  if rune.length ≤ spacers.size then .error .trailingSpacer
  else
    match Rune.fromStr (String.ofList rune) with
    | .ok rune => .ok (rune, spacers)
    | .error error => .error (.rune error)

/-- A dot is read as a bullet. -/
def bulleted (s : List Char) : List Char := s.map fun c => if c = '.' then '•' else c

theorem spacedFrom_concat (spacers k : Nat) (name : List Char) (c : Char) :
    spacedFrom spacers k (name ++ [c]) =
      spacedFrom spacers k name ++ if spacers.testBit (k + name.length) then [c, '•'] else [c] := by
  induction name generalizing k with
  | nil => simp [spacedFrom]
  | cons d name ih =>
    rw [List.cons_append, spacedFrom, ih, spacedFrom, List.length_cons, List.append_assoc,
      Nat.add_right_comm, Nat.add_assoc k]

/-- Bits after the last letter are not displayed. -/
theorem spacedFrom_congr {spacers spacers' k : Nat} {name : List Char}
    (h : ∀ i, k ≤ i → i < k + name.length → spacers.testBit i = spacers'.testBit i) :
    spacedFrom spacers k name = spacedFrom spacers' k name := by
  induction name generalizing k with
  | nil => rfl
  | cons c name ih =>
    rw [List.length_cons] at h
    rw [spacedFrom, spacedFrom, h k (by omega) (by omega),
      ih fun i hi hi' => h i (by omega) (by omega)]

theorem and_shiftLeft_one_eq_zero {spacers k : Nat} (h : spacers < 2 ^ k) :
    spacers &&& 1 <<< k = 0 := by
  rw [Nat.shiftLeft_eq, Nat.one_mul, Nat.and_two_pow, Nat.testBit_lt_two_pow h]
  simp

/-- Setting the bit of the last letter displays a bullet after it. -/
theorem spacedFrom_or {spacers k : Nat} {name : List Char} (hlength : name.length = k + 1)
    (hbit : spacers.testBit k = false) :
    spacedFrom (spacers ||| 1 <<< k) 0 name = spacedFrom spacers 0 name ++ ['•'] := by
  obtain ⟨front, c, rfl⟩ : ∃ front c, name = front ++ [c] :=
    ⟨name.dropLast, name.getLast (List.ne_nil_of_length_pos (by omega)),
      (List.dropLast_concat_getLast _).symm⟩
  have hfront : front.length = k := by simpa using hlength
  have hset (i : Nat) : (spacers ||| 1 <<< k).testBit i =
      (spacers.testBit i || decide (k = i)) := by
    rw [Nat.testBit_or, Nat.shiftLeft_eq, Nat.one_mul, Nat.testBit_two_pow]
  have hsame : spacedFrom (spacers ||| 1 <<< k) 0 front = spacedFrom spacers 0 front := by
    refine spacedFrom_congr fun i _ hi => ?_
    have hne : ¬k = i := by omega
    simp [hset, hne]
  rw [spacedFrom_concat, spacedFrom_concat, hsame, Nat.zero_add, hfront, hset, hbit]
  simp

namespace SpacedRune

theorem not_isLetter_bullet : ¬IsLetter '•' := by decide

theorem not_isLetter_dot : ¬IsLetter '.' := by decide

/-- Dots and bullets are the same to the parser. -/
theorem scan_bulleted (s rune : List Char) (spacers : Nat) :
    scan (bulleted s) rune spacers = scan s rune spacers := by
  induction s generalizing rune spacers with
  | nil => rfl
  | cons c s ih =>
    rw [bulleted] at ih ⊢
    rw [List.map_cons]
    by_cases hdot : c = '.'
    · subst hdot
      simp only [scan, if_true, not_isLetter_bullet, not_isLetter_dot, if_false,
        true_or, or_true, ih]
    · rw [if_neg hdot]
      simp only [scan, ih]

/-- The letters that were read stay. -/
theorem length_le_of_scan {s rune rune' : List Char} {spacers spacers' : Nat}
    (h : scan s rune spacers = .ok (rune', spacers')) : rune.length ≤ rune'.length := by
  induction s generalizing rune spacers with
  | nil =>
    cases h
    exact Nat.le_refl _
  | cons c s ih =>
    rw [scan] at h
    dsimp only at h
    split_ifs at h
    · have := ih h
      rw [List.length_append, List.length_singleton] at this
      omega
    · exact ih h

/-- **What was read** is displayed as the text, with bullets for dots. -/
theorem scan_spec {s rune rune' : List Char} {spacers spacers' : Nat}
    (h : scan s rune spacers = .ok (rune', spacers')) (hlength : rune'.length ≤ 32)
    (hspacers : spacers < 2 ^ rune.length) (hletters : ∀ c ∈ rune, IsLetter c) :
    spacedFrom spacers 0 rune ++ bulleted s = spacedFrom spacers' 0 rune' ∧
      spacers' < 2 ^ rune'.length ∧ ∀ c ∈ rune', IsLetter c := by
  induction s generalizing rune spacers with
  | nil =>
    cases h
    exact ⟨List.append_nil _, hspacers, hletters⟩
  | cons c s ih =>
    have hcons : bulleted (c :: s) = (if c = '.' then '•' else c) :: bulleted s := rfl
    rw [scan] at h
    dsimp only at h
    split_ifs at h with hletter hspacer hnone hdouble
    -- a letter adds no bit: the bits so far are all before it
    · have hdot : c ≠ '.' := fun hdot => not_isLetter_dot (hdot ▸ hletter)
      have hbit : spacers.testBit rune.length = false := Nat.testBit_lt_two_pow hspacers
      have hlt : spacers < 2 ^ (rune ++ [c]).length := by
        rw [List.length_append, List.length_singleton, Nat.pow_succ]
        omega
      have hletters' : ∀ d ∈ rune ++ [c], IsLetter d :=
        List.forall_mem_append.mpr ⟨hletters, by simpa using hletter⟩
      obtain ⟨hrest, hfits, hall⟩ := ih h hlt hletters'
      refine ⟨?_, hfits, hall⟩
      rw [← hrest, spacedFrom_concat, Nat.zero_add, hbit, hcons, if_neg hdot]
      simp
    · -- the spacer is the bit of the last letter
      have hle := length_le_of_scan h
      obtain ⟨k, hk⟩ : ∃ k, rune.length = k + 1 := ⟨rune.length - 1, by omega⟩
      have hmod : (rune.length - 1) % 32 = k := by omega
      rw [hmod] at h hdouble
      have hbit : spacers.testBit k = false := by
        rw [Nat.shiftLeft_eq, Nat.one_mul, Nat.and_two_pow] at hdouble
        cases hbit : spacers.testBit k with
        | false => rfl
        | true =>
          rw [hbit] at hdouble
          simp at hdouble
      have hlt : spacers ||| 1 <<< k < 2 ^ rune.length := by
        refine Nat.or_lt_two_pow hspacers ?_
        rw [Nat.shiftLeft_eq, Nat.one_mul, hk]
        exact Nat.pow_lt_pow_right (by omega) (Nat.lt_succ_self k)
      obtain ⟨hrest, hfits, hall⟩ := ih h hlt hletters
      refine ⟨?_, hfits, hall⟩
      have hbullet : (if c = '.' then '•' else c) = '•' := by
        rcases hspacer with rfl | rfl <;> rfl
      rw [← hrest, spacedFrom_or hk hbit, hcons, hbullet, List.append_assoc, List.singleton_append]

/-- **What is displayed is read back**, letter by letter. -/
theorem scan_spacedFrom {name rune : List Char} {spacers : Nat}
    (hlength : rune.length + name.length ≤ 32) (hletters : ∀ c ∈ name, IsLetter c) :
    scan (spacedFrom spacers rune.length name) rune (spacers % 2 ^ rune.length) =
      .ok (rune ++ name, spacers % 2 ^ (rune.length + name.length)) := by
  induction name generalizing rune with
  | nil => simp [spacedFrom, scan]
  | cons c name ih =>
    obtain ⟨hletter, hletters⟩ := List.forall_mem_cons.mp hletters
    rw [List.length_cons] at hlength
    -- the rest is scanned with this letter read
    have hnext :=
      @ih (rune ++ [c]) (by rw [List.length_append, List.length_singleton]; omega) hletters
    rw [List.length_append, List.length_singleton] at hnext
    have hsum : rune.length + (c :: name).length = rune.length + 1 + name.length := by
      rw [List.length_cons]
      omega
    have hlist : rune ++ c :: name = rune ++ [c] ++ name := by simp
    rw [spacedFrom, hsum, hlist, ← hnext]
    by_cases hbit : spacers.testBit rune.length
    · -- the bit of the letter is set on top of the bits before it
      have hlt : spacers % 2 ^ rune.length < 2 ^ rune.length := Nat.mod_lt _ (Nat.two_pow_pos _)
      have hor : spacers % 2 ^ rune.length ||| 1 <<< rune.length =
          spacers % 2 ^ (rune.length + 1) := by
        refine Nat.eq_of_testBit_eq fun i => ?_
        rw [Nat.testBit_or, Nat.shiftLeft_eq, Nat.one_mul, Nat.testBit_two_pow,
          Nat.testBit_mod_two_pow, Nat.testBit_mod_two_pow]
        rcases Nat.lt_trichotomy i rune.length with hi | rfl | hi
        · have hsucc : i < rune.length + 1 := by omega
          have hne : ¬rune.length = i := by omega
          simp [hi, hsucc, hne]
        · simp [hbit]
        · have hle : ¬i < rune.length := by omega
          have hsucc : ¬i < rune.length + 1 := by omega
          have hne : ¬rune.length = i := by omega
          simp [hle, hsucc, hne]
      have hmod : ((rune ++ [c]).length - 1) % 32 = rune.length := by
        rw [List.length_append, List.length_singleton, Nat.add_sub_cancel]
        exact Nat.mod_eq_of_lt (by omega)
      have hlength : ¬(rune ++ [c]).length = 0 := by simp
      rw [if_pos hbit, List.cons_append, List.cons_append, List.nil_append, scan,
        if_pos hletter, scan, if_neg not_isLetter_bullet, if_pos (.inr rfl), if_neg hlength]
      dsimp only
      rw [hmod, and_shiftLeft_one_eq_zero hlt, if_neg (by simp), hor]
    · have hmod : spacers % 2 ^ (rune.length + 1) = spacers % 2 ^ rune.length := by
        refine Nat.eq_of_testBit_eq fun i => ?_
        rw [Nat.testBit_mod_two_pow, Nat.testBit_mod_two_pow]
        rcases Nat.lt_trichotomy i rune.length with hi | rfl | hi
        · have hsucc : i < rune.length + 1 := by omega
          simp [hi, hsucc]
        · simp [hbit]
        · have hle : ¬i < rune.length := by omega
          have hsucc : ¬i < rune.length + 1 := by omega
          simp [hle, hsucc]
      rw [if_neg hbit, List.cons_append, List.nil_append, scan, if_pos hletter, hmod]

/-- The letters of a displayed name. -/
theorem isLetter_of_mem_toName {rune : Rune} (h : rune < 2 ^ 128) :
    ∀ c ∈ (Rune.toName rune).toList, IsLetter c :=
  ((Rune.toName_eq_iff h).mp rfl).1

/-- A displayed name has no more letters than fit in the numeral of a `u128`. -/
theorem length_toName {rune : Rune} (h : rune < 2 ^ 128) :
    0 < (Rune.toName rune).toList.length ∧ (Rune.toName rune).toList.length ≤ 28 := by
  rw [Rune.toList_toName h, List.length_map]
  constructor
  · rw [← Nat.succ_le_iff, le_length_bijectiveDigits_iff (by omega)]
    simp [bijectiveFirst]
  · by_contra hlt
    have hle : 29 ≤ (bijectiveDigits 26 (rune + 1)).length := by omega
    rw [le_length_bijectiveDigits_iff (by omega)] at hle
    have hfirst : 2 ^ 128 < bijectiveFirst 26 29 := by decide
    exact Nat.not_lt.mpr hle (Nat.lt_of_le_of_lt h hfirst)

/-- **The parser of spaced names** accepts the displayed forms of the runes with spacers between
their letters, where a dot may stand for a bullet. -/
theorem fromStr_eq_ok_iff_bulleted {s : String} {rune : Rune} {spacers : Nat} :
    fromStr s = .ok (rune, spacers) ↔ rune < 2 ^ 128 ∧
      spacers < 2 ^ ((Rune.toName rune).toList.length - 1) ∧
      bulleted s.toList = (toName rune spacers).toList := by
  constructor
  · intro h
    rw [fromStr] at h
    cases hscan : scan s.toList [] 0 with
    | error e =>
      rw [hscan] at h
      cases h
    | ok read =>
      obtain ⟨name, spacers'⟩ := read
      rw [hscan, ok_bind] at h
      dsimp only at h
      split at h
      · cases h
      · next hsize =>
        cases hparse : Rune.fromStr (String.ofList name) with
        | error e =>
          rw [hparse] at h
          cases h
        | ok rune' =>
          rw [hparse] at h
          cases h
          have hne : String.ofList name ≠ "" := by
            intro hempty
            have hnil : name = [] := by
              rw [← @String.toList_ofList name, hempty, String.toList_empty]
            rw [hnil] at hsize
            simp at hsize
          -- the letters read are the name, and the count of spacers fits between them
          obtain ⟨hlt, hname⟩ := Rune.toName_of_fromStr hparse hne
          have hlist : (Rune.toName rune).toList = name := by rw [hname, String.toList_ofList]
          obtain ⟨hpos, hle⟩ := length_toName hlt
          have hsize' : spacers.size ≤ name.length - 1 := by omega
          rw [Nat.size_le] at hsize'
          obtain ⟨hrest, -, -⟩ := scan_spec hscan (by rw [← hlist]; omega) (by simp) (by simp)
          rw [toList_toName, hlist, Nat.mod_eq_of_lt hsize', ← hrest]
          exact ⟨hlt, hsize', rfl⟩
  · rintro ⟨hlt, hspacers, hs⟩
    obtain ⟨hpos, hle⟩ := length_toName hlt
    -- the scan reads the letters and the spacers back from the bulleted name
    have hscan : scan s.toList [] 0 = .ok ((Rune.toName rune).toList, spacers) := by
      have hname :=
        @scan_spacedFrom (Rune.toName rune).toList [] spacers (by rw [List.length_nil]; omega)
          (isLetter_of_mem_toName hlt)
      have hfits : spacers < 2 ^ (Rune.toName rune).toList.length :=
        Nat.lt_of_lt_of_le hspacers (Nat.pow_le_pow_right (by omega) (by omega))
      rw [toList_toName, Nat.mod_eq_of_lt hspacers] at hs
      rw [List.length_nil, Nat.pow_zero, Nat.mod_one, Nat.zero_add, Nat.mod_eq_of_lt hfits,
        List.nil_append, ← hs, scan_bulleted] at hname
      exact hname
    have hsize : spacers.size ≤ (Rune.toName rune).toList.length - 1 := Nat.size_le.mpr hspacers
    have hparse : Rune.fromStr (String.ofList (Rune.toName rune).toList) = .ok rune := by
      rw [String.ofList_toList]
      exact Rune.fromStr_toName hlt
    rw [fromStr, hscan, ok_bind]
    dsimp only
    rw [if_neg (by omega), hparse]

end SpacedRune

end Runehook
