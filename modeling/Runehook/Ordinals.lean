import Mathlib.Algebra.Ring.Nat
import Mathlib.Data.Nat.Bits

/-! # Runes: ids, names, edicts, etchings, artifacts

The data types of `crates/ordinals` that the indexer works on (`RuneId`, `Edict`, `Etching`,
`Runestone`, `Cenotaph`). Machine integers are natural numbers; the amounts of the indexer are
`u128`, and its additions on them wrap around at `2 ^ 128` (`u128Add`), as they do in the release
build that `docker/` ships. -/

namespace Runehook

/-! ## Machine arithmetic -/

/-- `u128` addition of the release build: it wraps around. -/
def u128Add (a b : Nat) : Nat := (a + b) % 2 ^ 128

/-- `u64` addition of the release build: it wraps around. -/
def u64Add (a b : Nat) : Nat := (a + b) % 2 ^ 64

/-- Without overflow, `u128` addition is addition. -/
theorem u128Add_eq {a b : Nat} (h : a + b < 2 ^ 128) : u128Add a b = a + b := Nat.mod_eq_of_lt h

/-- Wrapping around only loses. -/
theorem u128Add_le (a b : Nat) : u128Add a b ≤ a + b := Nat.mod_le _ _

/-! ## Rune ids and names -/

/-- `RuneId`: the block and the transaction index of the etching. -/
@[ext]
structure RuneId where
  /-- The block. -/
  block : Nat
  /-- The index of the transaction in the block. -/
  tx : Nat
  deriving DecidableEq, Repr

/-- The id `0:0`, which stands for "the rune being etched in this transaction". -/
def RuneId.placeholder : RuneId := ⟨0, 0⟩

/-- `Rune`: a rune name as a number. -/
abbrev Rune : Type := Nat

/-- `Rune::RESERVED`: the first name that is only given out implicitly. -/
def Rune.RESERVED : Nat := 6402364363415443603228541259936211926

/-- `Rune::reserved`: the name of an etching that does not choose one. -/
def Rune.reserved (block tx : Nat) : Rune := Rune.RESERVED + (block * 2 ^ 32 + tx)

/-- The loop of `Display for Rune`: the letters of `n` in bijective base 26, most significant first.
A `u128` has at most 28 letters, which is the fuel it is run with. -/
def Rune.letters : Nat → Nat → List Char → List Char
  | 0, _, acc => acc
  | fuel + 1, n, acc =>
    if 0 < n then
      letters fuel ((n - 1) / 26)
        ("ABCDEFGHIJKLMNOPQRSTUVWXYZ".toList.getD ((n - 1) % 26) 'A' :: acc)
    else acc

/-- `Display for Rune`. -/
def Rune.toName (rune : Rune) : String :=
  if rune = 2 ^ 128 - 1 then "BCGDENLQRQWDSLRUGSNLBTMFIJAV"
  else String.ofList (letters 28 (rune + 1) [])

/-- `Display for SpacedRune`: a bullet follows letter `i` when bit `i` of `spacers` is set. -/
def SpacedRune.toName (rune : Rune) (spacers : Nat) : String :=
  let name := (Rune.toName rune).toList
  String.ofList (name.zipIdx.flatMap fun (c, i) =>
    if i < name.length - 1 ∧ spacers.testBit i then [c, '•'] else [c])

/-! ## Artifacts -/

/-- `Edict`. -/
structure Edict where
  /-- The rune. -/
  id : RuneId
  /-- How much of it; zero stands for everything. -/
  amount : Nat
  /-- The output that gets it. -/
  output : Nat
  deriving DecidableEq, Repr

/-- `Terms` of an open mint. -/
structure Terms where
  /-- What a mint issues. -/
  amount : Option Nat
  /-- How many mints there can be. -/
  cap : Option Nat
  /-- The first height and the last one. -/
  height : Option Nat × Option Nat
  /-- The first height and the last one, counted from the etching. -/
  offset : Option Nat × Option Nat
  deriving DecidableEq, Repr

/-- `Etching`. -/
structure Etching where
  /-- The number of decimals. -/
  divisibility : Option Nat
  /-- What the etching itself issues. -/
  premine : Option Nat
  /-- The name, if it is not a reserved one. -/
  rune : Option Rune
  /-- Where the bullets are, bit by bit. -/
  spacers : Option Nat
  /-- The currency symbol. -/
  symbol : Option Char
  /-- The terms of an open mint. -/
  terms : Option Terms
  /-- Whether the rune opts in to later protocol changes. -/
  turbo : Bool
  deriving DecidableEq, Repr

/-- `Flaw`: why a runestone is a cenotaph. -/
inductive Flaw where
  | edictOutput
  | edictRuneId
  | invalidScript
  | opcode
  | supplyOverflow
  | trailingIntegers
  | truncatedField
  | unrecognizedEvenTag
  | unrecognizedFlag
  | varint
  deriving DecidableEq, Repr

/-- `Cenotaph`. -/
structure Cenotaph where
  /-- The rune that it etches. -/
  etching : Option Rune
  /-- What is wrong with the runestone. -/
  flaw : Option Flaw
  /-- The rune that it mints. -/
  mint : Option RuneId
  deriving DecidableEq, Repr

/-- `Runestone`. -/
structure Runestone where
  /-- The edicts, in order. -/
  edicts : List Edict
  /-- The rune that it etches. -/
  etching : Option Etching
  /-- The rune that it mints. -/
  mint : Option RuneId
  /-- The output where all unallocated runes go. -/
  pointer : Option Nat
  deriving DecidableEq, Repr

/-- `Artifact`: what `Runestone::decipher` reads in a transaction's outputs. -/
inductive Artifact where
  /-- A runestone that is flawed. -/
  | cenotaph (cenotaph : Cenotaph)
  /-- A runestone that is not. -/
  | runestone (runestone : Runestone)
  deriving DecidableEq, Repr

end Runehook
