import Runehook.Database
import Runehook.MoveBalance

/-! # What the API reports about a rune

`parseEtchingResponse` of the API (`api/util/helpers.ts`), which has a mint rule of its own: the
numbers of a row come as text and are compared without bounds, where `is_rune_mintable` adds heights
as `u64`. `isRuneMintableChecked` is that rule in a build with overflow checks, and
`mintable_agrees_iff` says when all three agree. -/

namespace Runehook

/-! ## The response -/

/-- `DbRuneWithChainTip`: a row of `runes` with the counters of the latest row of
`supply_changes`. -/
structure DbRuneWithChainTip where
  /-- The row of `runes`. -/
  rune : DbRune
  /-- The amount minted so far. -/
  minted : Option Nat
  /-- The number of mints so far. -/
  totalMints : Option Nat
  /-- The amount burned so far. -/
  burned : Option Nat
  /-- The number of burns so far. -/
  totalBurns : Option Nat
  /-- The greatest height in the ledger. -/
  chainTip : Nat
  deriving DecidableEq, Repr

/-- The row that `getEtchings` selects for a rune; one without changes of its supply is not
joined. -/
def Db.etching (db : Db) (rune : DbRune) : Option DbRuneWithChainTip :=
  (db.latestSupply rune.id).map fun s =>
    ⟨rune, some s.minted, some s.totalMints, some s.burned, some s.totalBurns,
      ((db.ledger.map DbLedgerEntry.blockHeight).max?).getD 0⟩

/-- `toFixed` of `n / 10 ^ decimals`. -/
def toFixed (n decimals : Nat) : String :=
  if decimals = 0 then toString n
  else
    let fraction := toString (n % 10 ^ decimals)
    toString (n / 10 ^ decimals) ++ "." ++
      String.ofList (List.replicate (decimals - fraction.length) '0') ++ fraction

/-- `divisibility`: an amount in the decimals of its rune. -/
def divisibility (num decimals : Nat) : String := toFixed num decimals

/-- A quotient, rounded half up. -/
def roundHalfUp (n d : Nat) : Nat := (2 * n + d) / (2 * d)

/-- `BigNumber(total_mints).div(cap).times(100).toFixed(4)`; a quotient keeps twenty decimals. -/
def mintPercentage (totalMints cap : Nat) : String :=
  toFixed (roundHalfUp (roundHalfUp (totalMints * 10 ^ 20) cap) (10 ^ 14)) 4

/-- The `supply` of an `EtchingResponse`. -/
structure SupplyResponse where
  /-- The premine, with decimals. -/
  premine : String
  /-- The supply that the API calls current, with decimals. -/
  current : String
  /-- The minted amount, with decimals. -/
  minted : String
  /-- The number of mints. -/
  totalMints : Nat
  /-- The burned amount, with decimals. -/
  burned : String
  /-- The number of burns. -/
  totalBurns : Nat
  /-- How much of the cap is used up. -/
  mintPercentage : String
  /-- Whether a mint would be accepted. -/
  mintable : Bool
  deriving DecidableEq, Repr

/-- The `mintable` of `parseEtchingResponse`. -/
def DbRuneWithChainTip.mintable (row : DbRuneWithChainTip) : Bool :=
  !(row.rune.termsAmount.isNone ||
    row.rune.cenotaph ||
    row.rune.termsCap.any (fun cap => row.totalMints.getD 0 ≥ cap) ||
    row.rune.termsHeightStart.any (fun start => row.chainTip < start) ||
    row.rune.termsHeightEnd.any (fun last => row.chainTip > last) ||
    row.rune.termsOffsetStart.any (fun start => row.chainTip < row.rune.blockHeight + start) ||
    row.rune.termsOffsetEnd.any (fun last => row.chainTip > row.rune.blockHeight + last))

/-- The `current` supply of `parseEtchingResponse`, before the decimal shift. -/
def DbRuneWithChainTip.current (row : DbRuneWithChainTip) : Nat :=
  row.minted.getD 0 + row.burned.getD 0 + row.rune.premine

/-- `parseEtchingResponse`, what it says about the supply. -/
def parseEtchingResponse (row : DbRuneWithChainTip) : SupplyResponse where
  premine := divisibility row.rune.premine row.rune.divisibility
  current := divisibility row.current row.rune.divisibility
  minted := divisibility (row.minted.getD 0) row.rune.divisibility
  totalMints := row.totalMints.getD 0
  burned := divisibility (row.burned.getD 0) row.rune.divisibility
  totalBurns := row.totalBurns.getD 0
  mintPercentage := match row.rune.termsCap with
    | some cap => if cap ≠ 0 then Runehook.mintPercentage (row.totalMints.getD 0) cap else "0.0000"
    | none => "0.0000"
  mintable := row.mintable

/-! ## Addition that panics -/

/-- `u64` addition of a build with overflow checks: it panics. -/
def u64CheckedAdd (a b : Nat) : Option Nat := if a + b < 2 ^ 64 then some (a + b) else none

theorem u64CheckedAdd_eq_some {a b c : Nat} :
    u64CheckedAdd a b = some c ↔ a + b < 2 ^ 64 ∧ a + b = c := by
  unfold u64CheckedAdd
  split <;> simp_all

/-- The checks of `is_rune_mintable` before those of the offsets. -/
def DbRune.closed (rune : DbRune) (totalMints height : Nat) : Bool :=
  rune.cenotaph ||
    rune.termsAmount.isNone ||
    rune.termsCap.any (fun cap => totalMints ≥ cap) ||
    rune.termsHeightStart.any (fun start => height < start) ||
    rune.termsHeightEnd.any (fun last => height > last)

/-- The check of the offset at which minting opens; the addition may panic. -/
def DbRune.beforeOffsetStart (rune : DbRune) (height : Nat) : Option Bool :=
  match rune.termsOffsetStart with
  | some start => (u64CheckedAdd rune.blockHeight start).map fun opens => height < opens
  | none => some false

/-- The check of the offset at which minting closes; the addition may panic. -/
def DbRune.afterOffsetEnd (rune : DbRune) (height : Nat) : Option Bool :=
  match rune.termsOffsetEnd with
  | some last => (u64CheckedAdd rune.blockHeight last).map fun closes => height > closes
  | none => some false

/-- `is_rune_mintable` in a build with overflow checks. -/
def isRuneMintableChecked (rune : DbRune) (totalMints : Nat) (location : TransactionLocation) :
    Option Bool := do
  if rune.closed totalMints location.blockHeight then return false
  let early ← rune.beforeOffsetStart location.blockHeight
  if early then return false
  let late ← rune.afterOffsetEnd location.blockHeight
  return !late

/-- The additions that `is_rune_mintable` comes to stay within `u64`: it returns before them, or the
sum with the first offset fits, and so does the sum with the second one unless the first has closed
the mint. -/
def DbRune.OffsetsFit (rune : DbRune) (totalMints height : Nat) : Prop :=
  rune.closed totalMints height ∨
    (∀ start, rune.termsOffsetStart = some start → rune.blockHeight + start < 2 ^ 64) ∧
      ((∃ start, rune.termsOffsetStart = some start ∧ height < rune.blockHeight + start) ∨
        ∀ last, rune.termsOffsetEnd = some last → rune.blockHeight + last < 2 ^ 64)

/-! ## The two rules -/

/-- The rule of the API, after the checks that come before those of the offsets. -/
theorem DbRuneWithChainTip.mintable_eq (row : DbRuneWithChainTip) :
    row.mintable = (!row.rune.closed (row.totalMints.getD 0) row.chainTip &&
      !row.rune.termsOffsetStart.any (fun start => row.chainTip < row.rune.blockHeight + start) &&
      !row.rune.termsOffsetEnd.any fun last => row.chainTip > row.rune.blockHeight + last) := by
  unfold DbRuneWithChainTip.mintable DbRune.closed
  rw [Bool.or_comm row.rune.termsAmount.isNone]
  simp only [Bool.not_or]

/-- The rule of the release build, after the checks that come before those of the offsets. -/
theorem isRuneMintable_eq (rune : DbRune) (totalMints : Nat) (location : TransactionLocation) :
    isRuneMintable rune totalMints location = (!rune.closed totalMints location.blockHeight &&
      !rune.termsOffsetStart.any (fun start => location.blockHeight <
        u64Add rune.blockHeight start) &&
      !rune.termsOffsetEnd.any fun last => location.blockHeight >
        u64Add rune.blockHeight last) := by
  unfold isRuneMintable DbRune.closed
  cases rune.cenotaph <;> cases rune.termsAmount.isNone <;>
    cases rune.termsCap.any (fun cap => totalMints ≥ cap) <;>
    cases rune.termsHeightStart.any (fun start => location.blockHeight < start) <;>
    cases rune.termsHeightEnd.any (fun last => location.blockHeight > last) <;>
    cases rune.termsOffsetStart.any (fun start => location.blockHeight <
      u64Add rune.blockHeight start) <;>
    cases rune.termsOffsetEnd.any (fun last => location.blockHeight >
      u64Add rune.blockHeight last) <;> rfl

/-- A sum with an optional offset that fits is the one of the release build. -/
theorem any_u64Add_eq {offset : Option Nat} {height : Nat} (p : Nat → Bool)
    (hfits : ∀ n, offset = some n → height + n < 2 ^ 64) :
    offset.any (fun n => p (u64Add height n)) = offset.any fun n => p (height + n) := by
  cases offset with
  | none => rfl
  | some n =>
    show p (u64Add height n) = p (height + n)
    rw [u64Add, Nat.mod_eq_of_lt (hfits n rfl)]

theorem DbRune.beforeOffsetStart_eq_some {rune : DbRune} {height : Nat} {b : Bool} :
    rune.beforeOffsetStart height = some b ↔
      (∀ start, rune.termsOffsetStart = some start → rune.blockHeight + start < 2 ^ 64) ∧
        rune.termsOffsetStart.any (fun start => height < rune.blockHeight + start) = b := by
  unfold DbRune.beforeOffsetStart
  cases rune.termsOffsetStart with
  | none => simp
  | some start => simp [Option.map_eq_some_iff, u64CheckedAdd_eq_some, and_assoc]

theorem DbRune.afterOffsetEnd_eq_some {rune : DbRune} {height : Nat} {b : Bool} :
    rune.afterOffsetEnd height = some b ↔
      (∀ last, rune.termsOffsetEnd = some last → rune.blockHeight + last < 2 ^ 64) ∧
        rune.termsOffsetEnd.any (fun last => height > rune.blockHeight + last) = b := by
  unfold DbRune.afterOffsetEnd
  cases rune.termsOffsetEnd with
  | none => simp
  | some last => simp [Option.map_eq_some_iff, u64CheckedAdd_eq_some, and_assoc]

/-- The build with overflow checks returns exactly when the sums that it comes to fit, and then what
it returns is the rule on unbounded numbers. -/
theorem isRuneMintableChecked_eq_some {rune : DbRune} {totalMints : Nat}
    {location : TransactionLocation} {b : Bool} :
      isRuneMintableChecked rune totalMints location = some b ↔
      rune.OffsetsFit totalMints location.blockHeight ∧
        (!rune.closed totalMints location.blockHeight &&
          !rune.termsOffsetStart.any (fun start => location.blockHeight <
            rune.blockHeight + start) &&
          !rune.termsOffsetEnd.any fun last => location.blockHeight >
            rune.blockHeight + last) = b := by
  unfold isRuneMintableChecked DbRune.OffsetsFit
  cases hclosed : rune.closed totalMints location.blockHeight with
  | true => simp
  | false =>
    have hearly :
        rune.termsOffsetStart.any (fun start => location.blockHeight < rune.blockHeight + start) ↔
        ∃ start, rune.termsOffsetStart = some start ∧
        location.blockHeight < rune.blockHeight + start := by
      rw [Option.any_eq_true]
      simp
    simp only [Bool.false_eq_true, if_false, false_or, Bool.not_false, Bool.true_and, ← hearly]
    cases hstart : rune.beforeOffsetStart location.blockHeight with
    | none =>
      -- the first addition panics
      have hnone : ¬ ∀ start, rune.termsOffsetStart = some start →
          rune.blockHeight + start < 2 ^ 64 := by
        intro hfits
        have hsome : rune.beforeOffsetStart location.blockHeight = some _ :=
          DbRune.beforeOffsetStart_eq_some.mpr ⟨hfits, rfl⟩
        rw [hstart] at hsome
        cases hsome
      constructor
      · rintro ⟨⟩
      · exact fun h => absurd h.1.1 hnone
    | some early =>
      obtain ⟨hfits, hany⟩ := DbRune.beforeOffsetStart_eq_some.mp hstart
      rw [hany]
      cases early with
      | true => exact ⟨fun h => ⟨⟨hfits, .inl rfl⟩, Option.some.inj h⟩, fun h => congrArg some h.2⟩
      | false =>
        show ((rune.afterOffsetEnd location.blockHeight).bind fun late => some !late) = some b ↔ _
        rw [Option.bind_eq_some_iff]
        simp only [Bool.false_eq_true, false_or, Bool.not_false, Bool.true_and]
        constructor
        · rintro ⟨late, hlate, hb⟩
          obtain ⟨hlast, rfl⟩ := DbRune.afterOffsetEnd_eq_some.mp hlate
          exact ⟨⟨hfits, hlast⟩, Option.some.inj hb⟩
        · rintro ⟨⟨-, hlast⟩, rfl⟩
          exact ⟨_, DbRune.afterOffsetEnd_eq_some.mpr ⟨hlast, rfl⟩, rfl⟩

/-- What the build with overflow checks returns is what the release build returns. -/
theorem isRuneMintable_of_checked {rune : DbRune} {totalMints : Nat}
    {location : TransactionLocation} {b : Bool}
    (h : isRuneMintableChecked rune totalMints location = some b) :
    isRuneMintable rune totalMints location = b := by
  obtain ⟨hfits, rfl⟩ := isRuneMintableChecked_eq_some.mp h
  rw [isRuneMintable_eq]
  rcases hfits with hclosed | ⟨hstart, hlast⟩
  · simp [hclosed]
  · rw [any_u64Add_eq (fun n => location.blockHeight < n) hstart]
    rcases hlast with ⟨start, hsome, hlt⟩ | hlast
    · simp [hsome, hlt]
    · rw [any_u64Add_eq (fun n => location.blockHeight > n) hlast]

/-- **The indexer and the API agree on a mint, without overflow, exactly when the sums of heights
and offsets that the indexer comes to fit in `u64`.** -/
theorem mintable_agrees_iff (rune : DbRune) (minted totalMints burned totalBurns : Option Nat)
    (location : TransactionLocation) :
    (∃ b, isRuneMintableChecked rune (totalMints.getD 0) location = some b ∧
        isRuneMintable rune (totalMints.getD 0) location = b ∧
        (parseEtchingResponse ⟨rune, minted, totalMints, burned, totalBurns,
          location.blockHeight⟩).mintable = b) ↔
      rune.OffsetsFit (totalMints.getD 0) location.blockHeight := by
  show (∃ b, _ ∧ _ ∧ DbRuneWithChainTip.mintable _ = b) ↔ _
  rw [DbRuneWithChainTip.mintable_eq]
  constructor
  · rintro ⟨b, hchecked, -, -⟩
    exact (isRuneMintableChecked_eq_some.mp hchecked).1
  · intro hfits
    have hchecked := isRuneMintableChecked_eq_some.mpr ⟨hfits, rfl⟩
    exact ⟨_, hchecked, isRuneMintable_of_checked hchecked, rfl⟩

/-! ## An offset near `2 ^ 64` -/

/-- An etching whose mint never closes: the offset at which it does is the last `u64`. -/
def neverClosing : Etching :=
  ⟨none, none, some 100000000000000, none, none,
    some ⟨some 1, none, (none, none), (none, some (2 ^ 64 - 1))⟩, false⟩

/-- The transaction that etches it, and one in the next block. -/
def etchedAt : TransactionLocation := ⟨.bitcoin, "0xb1", 840001, 1700000000, 1, "0xetch"⟩

def mintedAt : TransactionLocation := ⟨.bitcoin, "0xb2", 840002, 1700000000, 1, "0xmint"⟩

/-- The sum with the offset wraps around, and the indexer refuses a mint that the API announces. -/
theorem exists_mintable_disagrees : ∃ rune totalMints location,
    ¬ ∃ b, isRuneMintableChecked rune (totalMints.getD 0) location = some b ∧
      isRuneMintable rune (totalMints.getD 0) location = b ∧
      (parseEtchingResponse ⟨rune, none, totalMints, none, none, location.blockHeight⟩).mintable =
        b := by
  refine ⟨.fromEtching neverClosing 1 etchedAt, none, mintedAt, ?_⟩
  rintro ⟨b, -, hindexer, hapi⟩
  have hne : isRuneMintable (.fromEtching neverClosing 1 etchedAt) 0 mintedAt ≠
      (parseEtchingResponse ⟨.fromEtching neverClosing 1 etchedAt, none, none, none, none,
        mintedAt.blockHeight⟩).mintable := by
    decide +kernel
  exact hne (hindexer.trans hapi.symm)

end Runehook
