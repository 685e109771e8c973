import Runehook.Lib.Cumulative
import Runehook.Lib.HashMap

/-! # Reading running totals

What a table of running totals says about a quantity in a commutative monoid: the reading of a group
below a height (`reading`) is the quantity in the group's latest row there, or zero. A batch adds
its changes to the readings above its height (`reading_batch`), and a rollback restores the readings
below the deleted height (`reading_delete`). The keys of a table, the pairs of a group and a height
that it has a row for (`HasRow`), obey the same two rules. -/

namespace Runehook.Lib

universe u v w

variable {ρ : Type u} {χ : Type v} {γ : Type w} [DecidableEq γ] {M : Type} [AddCommMonoid M]
  {group : ρ → γ} {height : ρ → Nat} {of : χ → γ} {merge : Option ρ → χ → ρ}

/-- The quantity `value` in the latest row of group `g` below height `k`. -/
def reading (group : ρ → γ) (height : ρ → Nat) (value : ρ → M) (g : γ) (k : Nat)
    (rows : List ρ) : M :=
  ((latestBefore group height g k rows).map value).getD 0

/-- The table has a row of group `g` at height `h`. -/
def HasRow (group : ρ → γ) (height : ρ → Nat) (rows : List ρ) (g : γ) (h : Nat) : Prop :=
  ∃ r ∈ rows, group r = g ∧ height r = h

/-- The table has at most one row for each group and height. -/
def UniqueRows (group : ρ → γ) (height : ρ → Nat) (rows : List ρ) : Prop :=
  rows.Pairwise fun r r' => ¬(group r = group r' ∧ height r = height r')

/-! ## Batches -/

section

variable {h : Nat} (hmerge : ∀ p c, group (merge p c) = of c) {changes : List χ}
  (hheight : ∀ c ∈ changes, ∀ p, height (merge p c) = h) {rows : List ρ}

include hmerge hheight

/-- **A batch adds to the readings above its height.** -/
theorem reading_batch {value : ρ → M} {amount : χ → M}
    (hvalue : ∀ p c, value (merge p c) = (p.map value).getD 0 + amount c)
    (hnodup : (changes.map of).Nodup) (hle : ∀ r ∈ rows, height r ≤ h) (g : γ) (k : Nat) :
    reading group height value g k (changes.foldl (mergeOne group height of merge) rows) =
      reading group height value g k rows +
        if h < k then ((changes.find? fun c => of c = g).map amount).getD 0 else 0 := by
  rw [reading, latestBefore_foldl_mergeOne hmerge hheight hnodup hle, reading]
  cases changes.find? fun c => decide (of c = g) with
  | none => simp
  | some c =>
    by_cases hk : h < k
    · have hlatest : latestBefore group height g k rows = latest group height g rows :=
        latestBefore_eq_latest (fun r hr => Nat.lt_of_le_of_lt (hle r hr) hk) g
      simp only [if_pos hk, Option.map_some, Option.getD_some, hvalue, hlatest]
    · simp only [if_neg hk, add_zero]

/-- The keys after a batch. -/
theorem hasRow_batch (g : γ) (k : Nat) :
    HasRow group height (changes.foldl (mergeOne group height of merge) rows) g k ↔
      HasRow group height rows g k ∨ (k = h ∧ ∃ c ∈ changes, of c = g) := by
  induction changes generalizing rows with
  | nil => simp
  | cons c cs ih =>
    rw [List.foldl_cons, ih fun d hd => hheight d (List.mem_cons_of_mem _ hd)]
    have hc := hheight c List.mem_cons_self
    have hone : HasRow group height (mergeOne group height of merge rows c) g k ↔
        HasRow group height rows g k ∨ (k = h ∧ of c = g) := by
      constructor
      · rintro ⟨r, hr, hg, hk⟩
        rcases mem_upsert hr with rfl | hr
        · exact Or.inr ⟨hk.symm.trans (hc _), (hmerge _ c).symm.trans hg⟩
        · exact Or.inl ⟨r, hr, hg, hk⟩
      · rintro (⟨r, hr, hg, hk⟩ | ⟨rfl, hg⟩)
        · by_cases hsame : group r = group (merge (latest group height (of c) rows) c) ∧
              height r = height (merge (latest group height (of c) rows) c)
          · refine ⟨_, List.mem_append_right _ (List.mem_singleton.mpr rfl), ?_, ?_⟩
            · exact hsame.1.symm.trans hg
            · exact hsame.2.symm.trans hk
          · exact ⟨r,
              List.mem_append_left _ (List.mem_filter.mpr ⟨hr, decide_eq_true hsame⟩), hg, hk⟩
        · exact ⟨_, List.mem_append_right _ (List.mem_singleton.mpr rfl),
            (hmerge _ c).trans hg, hc _⟩
    rw [hone, or_assoc, ← and_or_left]
    simp

omit hmerge hheight in
theorem UniqueRows.upsert (hunique : UniqueRows group height rows) (row : ρ) :
    UniqueRows group height (upsert group height rows row) := by
  refine List.pairwise_append.mpr ⟨hunique.filter _, List.pairwise_singleton _ _, ?_⟩
  intro r hr r' hr'
  rw [List.mem_singleton.mp hr']
  exact of_decide_eq_true (List.mem_filter.mp hr).2

end

/-- A batch keeps rows unique. -/
theorem UniqueRows.batch {changes : List χ} {rows : List ρ}
    (hunique : UniqueRows group height rows) :
    UniqueRows group height (changes.foldl (mergeOne group height of merge) rows) := by
  induction changes generalizing rows with
  | nil => exact hunique
  | cons c cs ih => exact ih (hunique.upsert _)

/-! ## Rollbacks -/

/-- **A rollback restores the readings below the deleted height.** -/
theorem reading_delete {value : ρ → M} {h : Nat} {rows : List ρ}
    (hle : ∀ r ∈ rows, height r ≤ h) (g : γ) (k : Nat) :
    reading group height value g k (rows.filter fun r => height r ≠ h) =
      reading group height value g (min k h) rows := by
  rw [reading, latestBefore_delete hle, reading]

omit [DecidableEq γ] in
theorem hasRow_delete {h : Nat} {rows : List ρ} (g : γ) (k : Nat) :
    HasRow group height (rows.filter fun r => height r ≠ h) g k ↔
    HasRow group height rows g k ∧ k ≠ h := by
  constructor
  · rintro ⟨r, hr, hg, rfl⟩
    rw [List.mem_filter, decide_eq_true_iff] at hr
    exact ⟨⟨r, hr.1, hg, rfl⟩, hr.2⟩
  · rintro ⟨⟨r, hr, hg, rfl⟩, hne⟩
    exact ⟨r, List.mem_filter.mpr ⟨hr, decide_eq_true hne⟩, hg, rfl⟩

omit [DecidableEq γ] in
theorem UniqueRows.delete {h : Nat} {rows : List ρ} (hunique : UniqueRows group height rows) :
    UniqueRows group height (rows.filter fun r => height r ≠ h) := hunique.filter _

/-! ## Rows and readings -/

/-- In a table with unique rows, a row is the latest one up to its own height. -/
theorem latestBefore_of_mem {rows : List ρ} (hunique : UniqueRows group height rows) {r : ρ}
    (hr : r ∈ rows) :
    latestBefore group height (group r) (height r + 1) rows = some r := by
  cases hlatest : latestBefore group height (group r) (height r + 1) rows with
  | none =>
    rw [latestBefore, latest, List.argmax_eq_none, ofGroup, List.filter_filter,
      List.filter_eq_nil_iff] at hlatest
    exact absurd (by simp) (hlatest r hr)
  | some r' =>
    obtain ⟨hmem, hg, hlt⟩ := mem_of_latestBefore hlatest
    -- the latest row is at least as high as the row itself
    have hle : height r ≤ height r' := by
      have hin :
          r ∈ ofGroup group (group r) (rows.filter fun r'' => height r'' < height r + 1) := by
        simp [ofGroup, hr]
      exact List.le_of_mem_argmax hin hlatest
    -- and no higher, so that it is the row
    have heq : height r' = height r := by omega
    by_contra hne
    have hne : r' ≠ r := fun h => hne (congrArg some h)
    have hsymm : Std.Symm fun a b : ρ => ¬(group a = group b ∧ height a = height b) :=
      ⟨fun a b h h' => h ⟨h'.1.symm, h'.2.symm⟩⟩
    exact hunique.forall hmem hr hne ⟨hg, heq⟩

/-- In a table with unique rows, the value of a row is read above it. -/
theorem reading_of_mem (value : ρ → M) {rows : List ρ}
    (hunique : UniqueRows group height rows) {r : ρ} (hr : r ∈ rows) :
    reading group height value (group r) (height r + 1) rows = value r := by
  rw [reading, latestBefore_of_mem hunique hr, Option.map_some, Option.getD_some]

omit [DecidableEq γ] in
theorem UniqueRows.nodup {rows : List ρ} (hunique : UniqueRows group height rows) : rows.Nodup :=
  hunique.imp fun hne heq => hne ⟨congrArg group heq, congrArg height heq⟩

omit [DecidableEq γ] in
/-- Two tables with unique rows have the same rows, if they have rows of the same groups at the same
heights and a row is determined by its group and height. -/
theorem UniqueRows.perm {rows rows' : List ρ} (hunique : UniqueRows group height rows)
    (hunique' : UniqueRows group height rows')
    (hrows : ∀ g h, HasRow group height rows g h ↔ HasRow group height rows' g h)
    (heq : ∀ r ∈ rows, ∀ r' ∈ rows', group r = group r' → height r = height r' → r = r') :
    rows.Perm rows' := by
  refine (List.perm_ext_iff_of_nodup hunique.nodup hunique'.nodup).mpr fun r => ?_
  constructor
  · intro hr
    obtain ⟨r', hr', hg, hh⟩ := (hrows (group r) (height r)).mp ⟨r, hr, rfl, rfl⟩
    rwa [heq r hr r' hr' hg.symm hh.symm]
  · intro hr'
    obtain ⟨r', hr, hg, hh⟩ := (hrows (group r) (height r)).mpr ⟨r, hr', rfl, rfl⟩
    rwa [← heq r' hr r hr' hg hh]

/-- A group has a latest row below a height iff it has a row there. -/
theorem latestBefore_isSome_iff {rows : List ρ} (g : γ) (k : Nat) :
    (latestBefore group height g k rows).isSome ↔ ∃ h < k, HasRow group height rows g h := by
  constructor
  · intro hsome
    obtain ⟨r, hr⟩ := Option.isSome_iff_exists.mp hsome
    obtain ⟨hmem, hg, hlt⟩ := mem_of_latestBefore hr
    exact ⟨height r, hlt, r, hmem, hg, rfl⟩
  · rintro ⟨h, hlt, r, hr, hg, rfl⟩
    by_contra hnone
    rw [Option.not_isSome_iff_eq_none, latestBefore, latest, List.argmax_eq_none, ofGroup,
      List.filter_filter, List.filter_eq_nil_iff] at hnone
    exact hnone r hr (by simp [hg, hlt])

/-! ## The values of a map as a batch -/

/-- The change of a group in the values of a map from groups to changes. -/
theorem HashMap.find?_values {K V : Type} [DecidableEq K] {m : HashMap K V} {of : V → K}
    (hkey : ∀ k v, m.lookup k = some v → of v = k) (k : K) :
    (m.values.find? fun v => of v = k) = m.lookup k := by
  cases hm : m.lookup k with
  | none =>
    rw [List.find?_eq_none]
    -- no value has the key, or the map would have found it
    intro v hv hof
    obtain ⟨e, he, rfl⟩ := List.mem_map.mp hv
    have hlookup : m.lookup e.1 = some e.2 := AList.mem_lookup_iff.mpr he
    rw [← hkey _ _ hlookup, of_decide_eq_true hof, hm] at hlookup
    cases hlookup
  | some v =>
    cases hfind : m.values.find? fun v => decide (of v = k) with
    | none =>
      rw [List.find?_eq_none] at hfind
      exact absurd (decide_eq_true (hkey k v hm)) (hfind v (HashMap.mem_values_of_lookup hm))
    | some w =>
      obtain ⟨e, he, rfl⟩ := List.mem_map.mp (List.mem_of_find?_eq_some hfind)
      have hlookup : m.lookup e.1 = some e.2 := AList.mem_lookup_iff.mpr he
      have hof : of e.2 = k := by
        have hsome := List.find?_some hfind
        exact of_decide_eq_true hsome
      rw [← hkey _ _ hlookup, hof, hm] at hlookup
      exact hlookup.symm

theorem HashMap.nodup_values {K V : Type} [DecidableEq K] {m : HashMap K V} {of : V → K}
    (hkey : ∀ k v, m.lookup k = some v → of v = k) : (m.values.map of).Nodup := by
  have hkeys : m.values.map of = m.keys := by
    rw [HashMap.values, List.map_map]
    refine List.map_congr_left fun e he => ?_
    exact hkey e.1 e.2 (AList.mem_lookup_iff.mpr he)
  rw [hkeys]
  exact m.nodupKeys

theorem HashMap.mem_values_iff {K V : Type} [DecidableEq K] {m : HashMap K V} {v : V} :
    v ∈ m.values ↔ ∃ k, m.lookup k = some v := by
  constructor
  · intro hv
    obtain ⟨e, he, rfl⟩ := List.mem_map.mp hv
    exact ⟨e.1, AList.mem_lookup_iff.mpr he⟩
  · rintro ⟨k, hk⟩
    exact HashMap.mem_values_of_lookup hk

end Runehook.Lib
