import Mathlib.Data.List.AList

/-! # Hash maps as association lists

A hash map is an `AList`: unique keys are a field of the structure, and iterating over the map reads
its entry list. Only the `entry(k).and_modify(f).or_insert(d)` pattern is added here, as `alter`;
`get` is `AList.lookup` and `insert` is `AList.insert`. -/

namespace Runehook.Lib

/-- A hash map from `K` to `V`, with unique keys by construction. -/
abbrev HashMap (K V : Type) : Type := AList (fun _ : K => V)

namespace HashMap

variable {K V W : Type} [DecidableEq K]

/-- Replace the value at `k` by `f` of the value that is there:
`entry(k).and_modify(g).or_insert(d)` is `alter` at `fun | some v => g v | none => d`. -/
def alter (m : HashMap K V) (k : K) (f : Option V → V) : HashMap K V := m.insert k (f (m.lookup k))

/-- The values of a map, in iteration order. -/
def values (m : HashMap K V) : List V := m.entries.map fun e => e.2

/-- The value at `k`, or `d` when the map has no entry there. -/
def getD (m : HashMap K V) (k : K) (d : V) : V := (m.lookup k).getD d

@[simp] theorem lookup_alter_self (m : HashMap K V) (k : K) (f : Option V → V) :
    (m.alter k f).lookup k = some (f (m.lookup k)) :=
  AList.lookup_insert m

theorem lookup_alter_ne (m : HashMap K V) {k k' : K} (h : k' ≠ k) (f : Option V → V) :
    (m.alter k f).lookup k' = m.lookup k' :=
  AList.lookup_insert_ne h

theorem lookup_alter (m : HashMap K V) (k k' : K) (f : Option V → V) :
    (m.alter k f).lookup k' = if k' = k then some (f (m.lookup k)) else m.lookup k' := by
  by_cases h : k' = k
  · rw [if_pos h, h, lookup_alter_self]
  · rw [if_neg h, lookup_alter_ne m h]

theorem lookup_insert (m : HashMap K V) (k k' : K) (v : V) :
    AList.lookup k' (m.insert k v) = if k' = k then some v else m.lookup k' := by
  by_cases h : k' = k
  · rw [if_pos h, h, AList.lookup_insert]
  · rw [if_neg h, AList.lookup_insert_ne h]

@[simp] theorem lookup_empty (k : K) : (∅ : HashMap K V).lookup k = none :=
  AList.lookup_empty k

theorem getD_alter (m : HashMap K V) (k k' : K) (f : Option V → V) (d : V) :
    (m.alter k f).getD k' d = if k' = k then f (m.lookup k) else m.getD k' d := by
  rw [getD, lookup_alter]
  by_cases h : k' = k
  · rw [if_pos h, if_pos h, Option.getD_some]
  · rw [if_neg h, if_neg h, getD]

/-- The value that is found is the value at the key. -/
theorem getD_of_lookup {m : HashMap K V} {k : K} {v : V} (h : m.lookup k = some v) (d : V) :
    m.getD k d = v := by
  rw [getD, h, Option.getD_some]

@[simp] theorem getD_empty (k : K) (d : V) : (∅ : HashMap K V).getD k d = d := by
  rw [getD, lookup_empty, Option.getD_none]

/-- Altering at `k` adds at most the key `k`. -/
theorem mem_keys_alter (m : HashMap K V) (k k' : K) (f : Option V → V) :
    k' ∈ (m.alter k f).keys ↔ k' = k ∨ k' ∈ m.keys := by
  rw [← AList.mem_keys, ← AList.mem_keys, alter, AList.mem_insert]

theorem lookup_eq_none_iff (m : HashMap K V) (k : K) : m.lookup k = none ↔ k ∉ m.keys := by
  rw [AList.lookup_eq_none, AList.mem_keys]

/-- A key of the map has a value. -/
theorem exists_lookup_of_mem_keys {m : HashMap K V} {k : K} (h : k ∈ m.keys) :
    ∃ v, m.lookup k = some v := by
  rw [← Option.isSome_iff_exists, AList.lookup_isSome, AList.mem_keys]
  exact h

/-- A value that is found is one the iteration visits. -/
theorem mem_values_of_lookup {m : HashMap K V} {k : K} {v : V} (h : m.lookup k = some v) :
    v ∈ m.values :=
  List.mem_map.mpr ⟨⟨k, v⟩, AList.mem_lookup_iff.mp h, rfl⟩

end HashMap

end Runehook.Lib
