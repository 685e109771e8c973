import Runehook.Lib.Lists
import Mathlib.Data.List.MinMax

/-! # Tables of running totals

A table whose rows carry a group and a height, with at most one row for each pair: the row of a
group with the greatest height is the group's running total (`latest`). A batch statement merges
each change of the batch into the latest row of its group as the table stood before the statement,
and upserts the results (`mergeStatement`); rolling back deletes the rows of one height.

The reading `latestBefore g k`, the latest row of group `g` below height `k`, describes the table
completely, so each operation comes with what it does to that reading (`latestBefore_upsert`,
`latestBefore_foldl_mergeOne`). -/

namespace Runehook.Lib

universe u v w

variable {ρ : Type u} {χ : Type v} {γ : Type w} [DecidableEq γ]

/-- The rows of group `g`. -/
def ofGroup (group : ρ → γ) (g : γ) (rows : List ρ) : List ρ := rows.filter fun r => group r = g

/-- The row of group `g` with the greatest height. -/
def latest (group : ρ → γ) (height : ρ → Nat) (g : γ) (rows : List ρ) : Option ρ :=
  (ofGroup group g rows).argmax height

/-- The row of group `g` with the greatest height below `k`. -/
def latestBefore (group : ρ → γ) (height : ρ → Nat) (g : γ) (k : Nat) (rows : List ρ) : Option ρ :=
  latest group height g (rows.filter fun r => height r < k)

/-- `INSERT ... ON CONFLICT (group, height) DO UPDATE` of one row. -/
def upsert (group : ρ → γ) (height : ρ → Nat) (rows : List ρ) (row : ρ) : List ρ :=
  rows.filter (fun r => ¬(group r = group row ∧ height r = height row)) ++ [row]

/-- A batch statement: every change is merged into the latest row its group had before the
statement, and the results are upserted. -/
def mergeStatement (group : ρ → γ) (height : ρ → Nat) (of : χ → γ) (merge : Option ρ → χ → ρ)
    (rows : List ρ) (changes : List χ) : List ρ :=
  (changes.map fun c => merge (latest group height (of c) rows) c).foldl (upsert group height) rows

section

variable {group : ρ → γ} {height : ρ → Nat} {rows : List ρ}

/-- Above every height, `latestBefore` is `latest`. -/
theorem latestBefore_eq_latest {k : Nat} (h : ∀ r ∈ rows, height r < k) (g : γ) :
    latestBefore group height g k rows = latest group height g rows := by
  rw [latestBefore, List.filter_eq_self.mpr]
  intro r hr
  exact decide_eq_true (h r hr)

/-- The latest row of a group is a row of the table, of that group. -/
theorem mem_of_latest {g : γ} {r : ρ} (h : latest group height g rows = some r) :
    r ∈ rows ∧ group r = g := by
  have hmem : r ∈ ofGroup group g rows := List.argmax_mem h
  rw [ofGroup, List.mem_filter, decide_eq_true_iff] at hmem
  exact hmem

theorem mem_of_latestBefore {g : γ} {k : Nat} {r : ρ}
    (h : latestBefore group height g k rows = some r) :
    r ∈ rows ∧ group r = g ∧ height r < k := by
  obtain ⟨hmem, hg⟩ := mem_of_latest h
  rw [List.mem_filter, decide_eq_true_iff] at hmem
  exact ⟨hmem.1, hg, hmem.2⟩

/-- A row appended above every row of its group is the group's latest row. -/
theorem latest_append_self {row : ρ} (h : ∀ r ∈ rows, group r = group row → height r < height row) :
    latest group height (group row) (rows ++ [row]) = some row := by
  rw [latest, ofGroup, List.filter_append, List.filter_cons_of_pos (by simp), List.filter_nil,
    List.argmax_concat]
  cases hm : ((rows.filter fun r => group r = group row).argmax height) with
  | none => rfl
  | some m =>
    have hmem := List.argmax_mem hm
    rw [List.mem_filter, decide_eq_true_iff] at hmem
    exact if_pos (h m hmem.1 hmem.2)

/-- A row of another group does not matter. -/
theorem latest_append_ne {row : ρ} {g : γ} (h : group row ≠ g) :
    latest group height g (rows ++ [row]) = latest group height g rows := by
  rw [latest, latest, ofGroup, ofGroup, List.filter_append,
    List.filter_cons_of_neg (by simpa using h), List.filter_nil, List.append_nil]

/-- **Upsert.** Upserting a row at a height no row of its group exceeds makes it the latest row of
its group from that height on, and changes no other reading. -/
theorem latestBefore_upsert {row : ρ} (h : ∀ r ∈ rows, group r = group row → height r ≤ height row)
    (g : γ) (k : Nat) :
    latestBefore group height g k (upsert group height rows row) =
      if group row = g ∧ height row < k then some row else latestBefore group height g k rows := by
  rw [latestBefore, upsert, List.filter_append, List.filter_filter]
  by_cases hk : height row < k
  · rw [List.filter_cons_of_pos (by simpa using hk), List.filter_nil]
    by_cases hg : group row = g
    · rw [if_pos ⟨hg, hk⟩, ← hg]
      refine latest_append_self ?_
      intro r hr hgr
      simp only [List.mem_filter, Bool.and_eq_true, decide_eq_true_eq] at hr
      -- a row of the group at the same height is replaced, so the others are below
      have hle := h r hr.1 hgr
      have hne : height r ≠ height row := fun he => hr.2.2 ⟨hgr, he⟩
      omega
    · rw [if_neg fun hc => hg hc.1, latest_append_ne hg, latestBefore, latest, latest,
        ofGroup, ofGroup, List.filter_filter, List.filter_filter]
      congr 1
      refine List.filter_congr ?_
      intro r _
      by_cases hgr : group r = g
      · simp [hgr, Ne.symm hg]
      · simp [hgr]
  · rw [List.filter_cons_of_neg (by simpa using hk), List.filter_nil, List.append_nil,
      if_neg fun hc => hk hc.2, latestBefore]
    congr 1
    refine List.filter_congr ?_
    intro r _
    by_cases hr : height r < k
    · have : height r ≠ height row := by omega
      simp [this]
    · simp [hr]

/-- Deleting the rows of the greatest height leaves the readings below it. -/
theorem latestBefore_delete {h : Nat} (hle : ∀ r ∈ rows, height r ≤ h) (g : γ) (k : Nat) :
    latestBefore group height g k (rows.filter fun r => height r ≠ h) =
      latestBefore group height g (min k h) rows := by
  rw [latestBefore, latestBefore, List.filter_filter]
  congr 1
  refine List.filter_congr ?_
  intro r hr
  have := hle r hr
  by_cases hk : height r < k <;> by_cases hh : height r = h <;> simp [hk, hh]
  omega

theorem mem_upsert {row r : ρ} (h : r ∈ upsert group height rows row) : r = row ∨ r ∈ rows := by
  rw [upsert, List.mem_append, List.mem_filter, List.mem_singleton] at h
  exact h.elim (fun hr => Or.inr hr.1) Or.inl

/-! ## Batch statements -/

variable {of : χ → γ} {merge : Option ρ → χ → ρ}

/-- Merging one change into the latest row of its group and upserting the result. -/
def mergeOne (group : ρ → γ) (height : ρ → Nat) (of : χ → γ) (merge : Option ρ → χ → ρ)
    (rows : List ρ) (c : χ) : List ρ :=
  upsert group height rows (merge (latest group height (of c) rows) c)

/-- Upserting a row of another group keeps a group's latest row. -/
theorem latest_upsert_ne {row : ρ} {g : γ} (hg : group row ≠ g) :
    latest group height g (upsert group height rows row) = latest group height g rows := by
  rw [upsert, latest_append_ne hg, latest, latest, ofGroup, ofGroup, List.filter_filter]
  congr 1
  refine List.filter_congr ?_
  intro r _
  by_cases hgr : group r = g
  · simp [hgr, Ne.symm hg]
  · simp [hgr]

/-- In a batch with one change a group, the snapshot a statement reads does not matter: merging the
changes one after the other gives the same table. -/
theorem mergeStatement_eq_foldl (hmerge : ∀ p c, group (merge p c) = of c) {changes : List χ}
    (hnodup : (changes.map of).Nodup) (rows : List ρ) :
    mergeStatement group height of merge rows changes =
      changes.foldl (mergeOne group height of merge) rows := by
  -- the statement reads the table as it was, which a new group cannot tell apart
  suffices h : ∀ (changes : List χ) (now : List ρ), (changes.map of).Nodup →
      (∀ c ∈ changes, latest group height (of c) now = latest group height (of c) rows) →
      (changes.map fun c => merge (latest group height (of c) rows) c).foldl
        (upsert group height) now = changes.foldl (mergeOne group height of merge) now from
    h changes rows hnodup fun _ _ => rfl
  intro changes
  induction changes with
  | nil => exact fun _ _ _ => rfl
  | cons c cs ih =>
    intro now hnd hsame
    rw [List.map_cons, List.nodup_cons] at hnd
    rw [List.map_cons, List.foldl_cons, List.foldl_cons, mergeOne, hsame c List.mem_cons_self]
    refine ih _ hnd.2 ?_
    intro d hd
    rw [latest_upsert_ne, hsame d (List.mem_cons_of_mem _ hd)]
    rw [hmerge]
    exact fun he => hnd.1 (he ▸ List.mem_map_of_mem hd)

/-- Merging batch statements over chunks of a batch, one change a group, is merging the changes one
after the other. -/
theorem foldl_mergeStatement_chunks (hmerge : ∀ p c, group (merge p c) = of c) (n : Nat)
    {changes : List χ} (hnodup : (changes.map of).Nodup) (rows : List ρ) :
    (chunks n changes).foldl (mergeStatement group height of merge) rows =
      changes.foldl (mergeOne group height of merge) rows := by
  rw [← foldl_chunks (mergeOne group height of merge) n]
  -- a part of the changes has distinct groups too
  have hchunk : ∀ chunk ∈ chunks n changes, (chunk.map of).Nodup := by
    intro chunk hc
    have hsub : chunk.Sublist changes := by
      conv_rhs => rw [← flatten_chunks n changes]
      exact List.sublist_flatten_of_mem hc
    exact hnodup.sublist (hsub.map of)
  generalize chunks n changes = cs at hchunk
  induction cs generalizing rows with
  | nil => rfl
  | cons c cs ih =>
    rw [List.foldl_cons, List.foldl_cons,
      mergeStatement_eq_foldl hmerge (hchunk c List.mem_cons_self),
      ih _ fun chunk hc => hchunk chunk (List.mem_cons_of_mem _ hc)]

/-- **Batches.** A batch with one change a group, all at a height no row of the table exceeds, makes
the merged change the latest row of each group it names from that height on, and changes no other
reading. -/
theorem latestBefore_foldl_mergeOne {h : Nat} (hmerge : ∀ p c, group (merge p c) = of c)
    {changes : List χ} (hheight : ∀ c ∈ changes, ∀ p, height (merge p c) = h)
    (hnodup : (changes.map of).Nodup) {rows : List ρ} (hle : ∀ r ∈ rows, height r ≤ h)
    (g : γ) (k : Nat) :
    latestBefore group height g k (changes.foldl (mergeOne group height of merge) rows) =
      match changes.find? (fun c => of c = g) with
      | some c => if h < k then some (merge (latest group height g rows) c)
          else latestBefore group height g k rows
      | none => latestBefore group height g k rows := by
  induction changes generalizing rows with
  | nil => rfl
  | cons c cs ih =>
    rw [List.map_cons, List.nodup_cons] at hnodup
    have hc := hheight c List.mem_cons_self
    -- no row is above the height that the changes have
    have hle' : ∀ r ∈ mergeOne group height of merge rows c, height r ≤ h := by
      intro r hr
      rcases mem_upsert hr with rfl | hr
      · exact Nat.le_of_eq (hc _)
      · exact hle r hr
    rw [List.foldl_cons,
      ih (fun d hd => hheight d (List.mem_cons_of_mem _ hd)) hnodup.2 hle', mergeOne,
      latestBefore_upsert (fun r hr _ => (hle r hr).trans (Nat.le_of_eq (hc _).symm)), hmerge, hc]
    by_cases hg : of c = g
    · -- the head names the group, so no later change does
      have hnone : cs.find? (fun d => decide (of d = g)) = none := by
        rw [List.find?_eq_none]
        intro d hd he
        exact hnodup.1 (List.mem_map.mpr ⟨d, hd, (of_decide_eq_true he).trans hg.symm⟩)
      rw [List.find?_cons_of_pos (by simpa using hg), hnone, hg]
      simp
    · rw [List.find?_cons_of_neg (by simpa using hg)]
      cases cs.find? (fun d => decide (of d = g)) with
      | none => simp [hg]
      | some d =>
        simp only [hg, false_and, if_false]
        rw [latest_upsert_ne (by rw [hmerge]; exact hg)]

/-- A row after some batch statements was there before, or is merged from a change. -/
theorem mem_foldl_mergeStatement {batches : List (List χ)} {r : ρ}
    (hr : r ∈ batches.foldl (mergeStatement group height of merge) rows) :
    r ∈ rows ∨ ∃ batch ∈ batches, ∃ c ∈ batch, ∃ p, r = merge p c := by
  -- a row of the table was there or was put there
  have hupserts : ∀ (new now : List ρ), r ∈ new.foldl (upsert group height) now →
      r ∈ now ∨ r ∈ new := by
    intro new
    induction new with
    | nil => exact fun now hr => Or.inl hr
    | cons row new ih =>
      intro now hr
      rcases ih _ hr with hr | hr
      · rcases mem_upsert hr with rfl | hr
        · exact Or.inr List.mem_cons_self
        · exact Or.inl hr
      · exact Or.inr (List.mem_cons_of_mem _ hr)
  induction batches generalizing rows with
  | nil => exact Or.inl hr
  | cons batch batches ih =>
    rcases ih hr with hr | ⟨batch', hbatch', hc⟩
    · rcases hupserts _ _ hr with hr | hr
      · exact Or.inl hr
      · obtain ⟨c, hc, rfl⟩ := List.mem_map.mp hr
        exact Or.inr ⟨batch, List.mem_cons_self, c, hc, _, rfl⟩
    · exact Or.inr ⟨batch', List.mem_cons_of_mem _ hbatch', hc⟩

/-- Upserting a row leaves the rows at the heights of a set that its own height is not in. -/
theorem filter_upsert {row : ρ} {p : Nat → Bool} (h : p (height row) = false) :
    (upsert group height rows row).filter (fun r => p (height r)) =
      rows.filter fun r => p (height r) := by
  rw [upsert, List.filter_append, List.filter_cons_of_neg (by simpa using h), List.filter_nil,
    List.append_nil, List.filter_filter]
  refine List.filter_congr ?_
  intro r _
  cases hr : p (height r) with
  | false => rfl
  | true =>
    have hne : height r ≠ height row := by
      intro he
      rw [he, h] at hr
      cases hr
    simp [hne]

/-- Batch statements whose changes are all off a set of heights leave the rows at the heights of the
set. -/
theorem filter_foldl_mergeStatement {p : Nat → Bool} {batches : List (List χ)}
    (h : ∀ batch ∈ batches, ∀ c ∈ batch, ∀ prev, p (height (merge prev c)) = false) :
    (batches.foldl (mergeStatement group height of merge) rows).filter (fun r => p (height r)) =
      rows.filter fun r => p (height r) := by
  -- a row outside the predicate neither comes nor goes
  have hupserts : ∀ (new now : List ρ), (∀ row ∈ new, p (height row) = false) →
      (new.foldl (upsert group height) now).filter (fun r => p (height r)) =
        now.filter fun r => p (height r) := by
    intro new
    induction new with
    | nil => exact fun _ _ => rfl
    | cons row new ih =>
      intro now hnew
      rw [List.foldl_cons, ih _ fun r hr => hnew r (List.mem_cons_of_mem _ hr),
        filter_upsert (hnew row List.mem_cons_self)]
  induction batches generalizing rows with
  | nil => rfl
  | cons batch batches ih =>
    rw [List.foldl_cons, ih fun b hb => h b (List.mem_cons_of_mem _ hb), mergeStatement]
    refine hupserts _ _ ?_
    intro row hrow
    obtain ⟨c, hc, rfl⟩ := List.mem_map.mp hrow
    exact h batch List.mem_cons_self c hc _

end

end Runehook.Lib
