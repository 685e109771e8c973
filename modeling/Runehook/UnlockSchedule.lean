import Mathlib.Order.Monotone.Basic
import Runehook.RuneNames

/-! # When names unlock

`Rune::minimum_at_height` (`Rune.minimumAtHeight`): at first only the names of thirteen letters or
more may be etched, then shorter ones unlock, in twelve intervals of equal length and from the last
name of a length to its first. `Rune.minimumAfter` says so without the table of steps, and
`Rune.minimumAtHeight_unlocks` when each length unlocks. -/

namespace Runehook

open Lib

/-! ## The schedule -/

/-- `SUBSIDY_HALVING_INTERVAL`. -/
def SUBSIDY_HALVING_INTERVAL : Nat := 210000

/-- `Rune::STEPS`. -/
def Rune.STEPS : List Nat := [
  0,
  26,
  702,
  18278,
  475254,
  12356630,
  321272406,
  8353082582,
  217180147158,
  5646683826134,
  146813779479510,
  3817158266467286,
  99246114928149462,
  2580398988131886038,
  67090373691429037014,
  1744349715977154962390,
  45353092615406029022166,
  1179180408000556754576342,
  30658690608014475618984918,
  797125955808376366093607894,
  20725274851017785518433805270,
  538857146126462423479278937046,
  14010285799288023010461252363222,
  364267430781488598271992561443798,
  9470953200318703555071806597538774,
  246244783208286292431866971536008150,
  6402364363415443603228541259936211926,
  166461473448801533683942072758341510102]

/-- `Rune::first_rune_height`. -/
def Rune.firstRuneHeight (network : Network) : Nat :=
  SUBSIDY_HALVING_INTERVAL *
    match network with
    | .bitcoin => 4
    | .regtest => 0
    | .signet => 0
    | .testnetV3 | .testnetV4 => 12

/-- `INTERVAL`: the time in which the names of one length unlock. -/
def Rune.INTERVAL : Nat := SUBSIDY_HALVING_INTERVAL / 12

/-- `Rune::minimum_at_height`. An index that is not in the table is a panic. -/
def Rune.minimumAtHeight (chain : Network) (height : Nat) : Option Rune :=
  let offset := min (height + 1) (2 ^ 32 - 1)
  let start := firstRuneHeight chain
  if offset < start then STEPS[12]?
  else if start + SUBSIDY_HALVING_INTERVAL ≤ offset then some 0
  else do
    let progress := offset - start
    let length := 12 - progress / INTERVAL
    let last ← if 0 < length then STEPS[length - 1]? else none
    let first ← STEPS[length]?
    let remainder := progress % INTERVAL
    return first - (first - last) * remainder / INTERVAL

/-! ## Steps -/

/-- The first name that is longer than `k` letters. -/
def Rune.firstLonger (k : Nat) : Nat := bijectiveFirst 26 (k + 1) - 1

theorem Rune.STEPS_eq {k : Nat} (h : k < 28) : Rune.STEPS[k]? = some (Rune.firstLonger k) := by
  have hall : ∀ k < 28, Rune.STEPS[k]? = some (Rune.firstLonger k) := by decide
  exact hall k h

theorem Rune.firstLonger_mono : Monotone Rune.firstLonger := by
  refine monotone_nat_of_le_succ fun k => ?_
  have hfirst : bijectiveFirst 26 (k + 1 + 1) = bijectiveFirst 26 (k + 1) * 26 + 1 := rfl
  rw [Rune.firstLonger, Rune.firstLonger]
  omega

/-- **The length of a name** tells between which steps its rune is. -/
theorem Rune.length_toName_le_iff {rune : Nat} (h : rune < 2 ^ 128) (k : Nat) :
    (Rune.toName rune).toList.length ≤ k ↔ rune < Rune.firstLonger k := by
  have hlength := @le_length_bijectiveDigits_iff 26 (by omega) (rune + 1) (k + 1)
  have hfirst : bijectiveFirst 26 (k + 1) = bijectiveFirst 26 k * 26 + 1 := rfl
  rw [Rune.toList_toName h, List.length_map, Rune.firstLonger]
  omega

/-! ## Between two steps -/

/-- What is left of a step after some blocks of its interval. -/
def interpolate (last first interval remainder : Nat) : Nat :=
  first - (first - last) * remainder / interval

section

variable {last first interval remainder : Nat}

theorem interpolate_zero : interpolate last first interval 0 = first := by
  rw [interpolate, Nat.mul_zero, Nat.zero_div, Nat.sub_zero]

theorem interpolate_le : interpolate last first interval remainder ≤ first := Nat.sub_le _ _

/-- The next step is not reached within the interval. -/
theorem le_interpolate (hle : last ≤ first) (hlt : remainder < interval) :
    last ≤ interpolate last first interval remainder := by
  have hdiv : (first - last) * remainder / interval ≤ first - last := by
    refine Nat.div_le_of_le_mul ?_
    rw [Nat.mul_comm interval]
    exact Nat.mul_le_mul_left _ hlt.le
  rw [interpolate]
  omega

theorem interpolate_anti {remainder' : Nat} (hle : remainder ≤ remainder') :
    interpolate last first interval remainder' ≤ interpolate last first interval remainder :=
  Nat.sub_le_sub_left (Nat.div_le_div_right (Nat.mul_le_mul_left _ hle)) _

end

/-- The minimum, some blocks after the schedule has started. -/
def Rune.minimumAfter (progress : Nat) : Nat :=
  interpolate (firstLonger (11 - progress / INTERVAL))
    (firstLonger (12 - progress / INTERVAL)) INTERVAL (progress % INTERVAL)

namespace Rune

theorem interval_pos : 0 < INTERVAL := by decide

/-- **The minimum at a height** depends on the time since the schedule has started. -/
theorem minimumAtHeight_eq (chain : Network) (height : Nat) :
    minimumAtHeight chain height = some (minimumAfter (height + 1 - firstRuneHeight chain)) := by
  have hstart : firstRuneHeight chain ≤ 2520000 := by cases chain <;> decide
  have hinterval : INTERVAL = 17500 := rfl
  have htwelve : 12 * 17500 = SUBSIDY_HALVING_INTERVAL := rfl
  rw [minimumAtHeight, minimumAfter]
  dsimp only
  split
  · -- the schedule has not started
    have hzero : height + 1 - firstRuneHeight chain = 0 := by omega
    rw [hzero, Nat.zero_div, Nat.zero_mod, interpolate_zero]
    exact STEPS_eq (by omega)
  split
  · -- it has ended
    have hlong : 12 ≤ (height + 1 - firstRuneHeight chain) / INTERVAL := by
      rw [Nat.le_div_iff_mul_le interval_pos]
      omega
    have hnone : 12 - (height + 1 - firstRuneHeight chain) / INTERVAL = 0 := by omega
    rw [hnone, Nat.le_zero.mp
        (interpolate_le.trans (Nat.le_of_eq rfl) : interpolate _ (firstLonger 0) _ _ ≤ 0)]
  -- the schedule is running
  · have hprogress : min (height + 1) (2 ^ 32 - 1) - firstRuneHeight chain =
        height + 1 - firstRuneHeight chain := by
      omega
    have hlength : (height + 1 - firstRuneHeight chain) / INTERVAL < 12 := by
      rw [Nat.div_lt_iff_lt_mul interval_pos]
      omega
    rw [hprogress]
    generalize (height + 1 - firstRuneHeight chain) / INTERVAL = intervals at hlength ⊢
    rw [if_pos (by omega), show 12 - intervals - 1 = 11 - intervals by omega, STEPS_eq (by omega),
      STEPS_eq (by omega)]
    rfl

/-- **The minimum never rises.** -/
theorem minimumAfter_anti : Antitone minimumAfter := by
  refine antitone_nat_of_succ_le fun progress => ?_
  have hlt := Nat.mod_lt progress interval_pos
  have hsteps : firstLonger (11 - progress / INTERVAL) ≤ firstLonger (12 - progress / INTERVAL) :=
    firstLonger_mono (Nat.sub_le_sub_right (by omega) _)
  by_cases hnext : progress % INTERVAL + 1 < INTERVAL
  · -- the next block is in the same interval
    have hdiv : (progress + 1) / INTERVAL = progress / INTERVAL := by
      rw [Nat.succ_div, if_neg, Nat.add_zero]
      intro hdvd
      rw [Nat.dvd_iff_mod_eq_zero, Nat.add_mod, Nat.mod_eq_of_lt (show 1 < INTERVAL by decide),
        Nat.mod_eq_of_lt hnext] at hdvd
      omega
    have hmod : (progress + 1) % INTERVAL = progress % INTERVAL + 1 := by
      rw [Nat.add_mod, Nat.mod_eq_of_lt (show 1 < INTERVAL by decide), Nat.mod_eq_of_lt hnext]
    rw [minimumAfter, minimumAfter, hdiv, hmod]
    exact interpolate_anti (Nat.le_succ _)
  · -- it starts the interval of the next step
    -- the intervals are full so far
    have hfull : progress + 1 = INTERVAL * (progress / INTERVAL + 1) := by
      have hprogress := Nat.div_add_mod progress INTERVAL
      rw [Nat.mul_add, Nat.mul_one]
      omega
    have hdiv : (progress + 1) / INTERVAL = progress / INTERVAL + 1 := by
      rw [hfull, Nat.mul_div_cancel_left _ interval_pos]
    have hmod : (progress + 1) % INTERVAL = 0 := by rw [hfull, Nat.mul_mod_right]
    have hfirst : 12 - (progress / INTERVAL + 1) = 11 - progress / INTERVAL :=
      Nat.add_sub_add_right 11 1 _
    rw [minimumAfter, hdiv, hmod, interpolate_zero, hfirst]
    exact le_interpolate hsteps hlt

/-- The names longer than `k` letters are open once `12 - k` intervals are over. -/
theorem minimumAfter_le {progress k : Nat} (h : (12 - k) * INTERVAL ≤ progress) :
    minimumAfter progress ≤ firstLonger k := by
  have hdiv : 12 - k ≤ progress / INTERVAL := (Nat.le_div_iff_mul_le interval_pos).mpr h
  refine interpolate_le.trans (firstLonger_mono ?_)
  omega

/-- Until then, no name of at most `k` letters is. -/
theorem le_minimumAfter {progress k : Nat} (hk : k ≤ 12) (h : progress ≤ (12 - k) * INTERVAL) :
    firstLonger k ≤ minimumAfter progress := by
  have hlast : minimumAfter ((12 - k) * INTERVAL) = firstLonger k := by
    have hstep : 12 - (12 - k) = k := by omega
    rw [minimumAfter, Nat.mul_div_cancel _ interval_pos, Nat.mul_mod_left, interpolate_zero, hstep]
  rw [← hlast]
  exact minimumAfter_anti h

/-- **When names unlock.** The minimum is defined at every height and never rises. The names of `n`
letters, at most twelve, are locked until `12 - n` intervals are over, and open one interval later;
longer names are always open. -/
theorem minimumAtHeight_unlocks (chain : Network) :
    ∃ minimum :
      Nat → Rune, (∀ height, minimumAtHeight chain height = some (minimum height)) ∧
      Antitone minimum ∧ ∀ height, ∀ rune < 2 ^ 128,
        ((toName rune).toList.length ≤ 12 →
          height + 1 ≤ firstRuneHeight chain + (12 - (toName rune).toList.length) * INTERVAL →
            rune < minimum height) ∧
        (12 < (toName rune).toList.length ∨
          firstRuneHeight chain + (13 - (toName rune).toList.length) * INTERVAL ≤ height + 1 →
            minimum height ≤ rune) := by
  refine ⟨fun height => minimumAfter (height + 1 - firstRuneHeight chain), minimumAtHeight_eq chain,
    fun height height' hle => minimumAfter_anti (by omega),
      fun height rune hlt => ⟨fun hshort hlocked => ?_, fun hopen => ?_⟩⟩
  · have hrune := (length_toName_le_iff hlt (toName rune).toList.length).mp le_rfl
    exact Nat.lt_of_lt_of_le hrune (le_minimumAfter hshort (Nat.sub_le_iff_le_add'.mpr hlocked))
  · obtain ⟨hpos, -⟩ := SpacedRune.length_toName hlt
    have hrune : firstLonger ((toName rune).toList.length - 1) ≤ rune := by
      refine Nat.le_of_not_lt fun hless => ?_
      have hle := (length_toName_le_iff hlt _).mpr hless
      omega
    refine Nat.le_trans (minimumAfter_le ?_) hrune
    generalize (toName rune).toList.length = n at hopen hpos
    have hintervals : 12 - (n - 1) = 13 - n := by omega
    rw [hintervals]
    rcases hopen with hlong | hopen
    · rw [Nat.sub_eq_zero_of_le hlong, Nat.zero_mul]
      exact Nat.zero_le _
    · exact Nat.le_sub_of_add_le' hopen

/-- The schedule starts on the first name of thirteen letters. -/
example : (minimumAtHeight .bitcoin 839999).map toName = some "AAAAAAAAAAAAA" ∧
    (minimumAtHeight .bitcoin 840000).map toName = some "ZZYZXBRKWXVA" := by
  decide +kernel

end Rune

end Runehook
