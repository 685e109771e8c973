import Runehook.Lib.HashMap

/-! # LRU caches and coherence

A least-recently-used cache of bounded, positive capacity: the entries are an association list kept
most recent first, and both bounds are fields of the structure. What a client of a cache needs is
**coherence**: whatever the cache still holds is true of the store behind it (`LruCache.Coherent`).
Each operation comes with the rule that says which facts it asks for to keep a cache coherent;
evictions never ask for any. -/

namespace Runehook.Lib

/-- An LRU cache. `items` is ordered from the most to the least recently used entry. -/
structure LruCache (K V : Type) where
  /-- The capacity. -/
  cap : Nat
  /-- The cached entries. -/
  items : HashMap K V
  /-- There is room for an entry. -/
  cap_pos : 0 < cap
  /-- There are no more entries than there is room for. -/
  length_le : items.entries.length ≤ cap

namespace LruCache

variable {K V : Type} [DecidableEq K]

/-- The empty cache of capacity `cap`. -/
def new (cap : Nat) (h : 0 < cap) : LruCache K V := ⟨cap, ∅, h, Nat.zero_le _⟩

/-- Look at the value of `k` without touching the recency order. -/
def peek (c : LruCache K V) (k : K) : Option V := c.items.lookup k

/-- Make `k ↦ v` the most recent entry and drop the least recent one beyond the capacity. -/
def put (c : LruCache K V) (k : K) (v : V) : LruCache K V where
  cap := c.cap
  items := ⟨(c.items.insert k v).entries.take c.cap,
    (c.items.insert k v).nodupKeys.sublist (List.take_sublist _ _)⟩
  cap_pos := c.cap_pos
  length_le := by
    rw [List.length_take]
    exact Nat.min_le_left _ _

/-- Replace the value of a cached `k` by `f` of it and make it the most recent entry; a key that is
not cached leaves the cache as it is. This is `get_mut` followed by an assignment. -/
def modify (c : LruCache K V) (k : K) (f : V → V) : LruCache K V :=
  match c.peek k with
  | some v => c.put k (f v)
  | none => c

/-- `get`: the value of `k`, which becomes the most recent entry. -/
def get (c : LruCache K V) (k : K) : Option V × LruCache K V := (c.peek k, c.modify k id)

/-! ## What an operation leaves in the cache -/

@[simp] theorem peek_new (cap : Nat) (h : 0 < cap) (k : K) :
    (new cap h : LruCache K V).peek k = none :=
  HashMap.lookup_empty k

/-- The entry just put is found: a positive capacity keeps at least one entry. -/
theorem peek_put_self (c : LruCache K V) (k : K) (v : V) : (c.put k v).peek k = some v := by
  have hmem : (⟨k, v⟩ : Sigma fun _ : K => V) ∈ (c.items.insert k v).entries.take c.cap := by
    rw [AList.entries_insert]
    obtain ⟨n, hn⟩ := Nat.exists_eq_succ_of_ne_zero (Nat.ne_of_gt c.cap_pos)
    rw [hn, List.take_succ_cons]
    exact List.mem_cons_self
  exact AList.mem_lookup_iff.mpr hmem

/-- Whatever is found after a `put` was put or was there before: an eviction only forgets. -/
theorem peek_put {c : LruCache K V} {k k' : K} {v w : V} (h : (c.put k v).peek k' = some w) :
    (k' = k ∧ w = v) ∨ (k' ≠ k ∧ c.peek k' = some w) := by
  have hfull : AList.lookup k' (c.items.insert k v) = some w :=
    AList.mem_lookup_iff.mpr (List.mem_of_mem_take (AList.mem_lookup_iff.mp h))
  rw [HashMap.lookup_insert] at hfull
  by_cases hk : k' = k
  · rw [if_pos hk] at hfull
    exact Or.inl ⟨hk, (Option.some.inj hfull).symm⟩
  · rw [if_neg hk] at hfull
    exact Or.inr ⟨hk, hfull⟩

/-- Putting a key that is cached already evicts nothing. -/
theorem peek_put_of_mem {c : LruCache K V} {k : K} {u : V} (hk : c.peek k = some u)
    (k' : K) (v : V) :
    (c.put k v).peek k' = if k' = k then some v else c.peek k' := by
  have hlen : (c.items.insert k v).entries.length ≤ c.cap := by
    have hmem : k ∈ c.items.entries.keys :=
      List.mem_keys_of_mem (s := ⟨k, u⟩) (AList.mem_lookup_iff.mp hk)
    obtain ⟨w, l₁, l₂, -, hl, herase⟩ := List.exists_of_kerase hmem
    have hle := c.length_le
    rw [hl, List.length_append, List.length_cons] at hle
    rw [AList.entries_insert, herase, List.length_cons, List.length_append]
    omega
  have hitems : (c.put k v).items.entries = (c.items.insert k v).entries :=
    List.take_of_length_le hlen
  have hlookup : (c.put k v).peek k' = AList.lookup k' (c.items.insert k v) :=
    AList.perm_lookup (List.Perm.of_eq hitems)
  rw [hlookup, HashMap.lookup_insert]
  rfl

theorem peek_modify (c : LruCache K V) (k k' : K) (f : V → V) :
    (c.modify k f).peek k' = if k' = k then (c.peek k).map f else c.peek k' := by
  rw [modify]
  cases hk : c.peek k with
  | none =>
    by_cases h : k' = k
    · rw [if_pos h, h, hk, Option.map_none]
    · rw [if_neg h]
  | some v =>
    simp only
    rw [peek_put_of_mem hk, Option.map_some]

/-- A `get` changes the recency order only. -/
@[simp] theorem peek_get (c : LruCache K V) (k k' : K) : (c.get k).2.peek k' = c.peek k' := by
  rw [get, peek_modify]
  by_cases h : k' = k
  · rw [if_pos h, h, Option.map_id_fun, id_eq]
  · rw [if_neg h]

/-! ## Coherence -/

/-- A cache is **coherent** with a store when every entry it holds is a fact of the store. -/
def Coherent (c : LruCache K V) (Holds : K → V → Prop) : Prop :=
  ∀ k v, c.peek k = some v → Holds k v

variable {c : LruCache K V} {Holds Holds' : K → V → Prop}

/-- Coherence may change stores as long as the facts about cached keys stay facts. -/
theorem Coherent.mono (hc : c.Coherent Holds)
    (h : ∀ k v, c.peek k = some v → Holds k v → Holds' k v) :
    c.Coherent Holds' :=
  fun k v hv => h k v hv (hc k v hv)

theorem Coherent.put (hc : c.Coherent Holds) {k : K} {v : V} (h : Holds k v) :
    (c.put k v).Coherent Holds := by
  intro k' w hw
  rcases peek_put hw with ⟨rfl, rfl⟩ | ⟨-, hold⟩
  · exact h
  · exact hc k' w hold

/-- A `put` that goes with a change of the store at `k` only. -/
theorem Coherent.put_of_ne (hc : c.Coherent Holds) {k : K} {v : V} (h : Holds' k v)
    (hne : ∀ k' w, k' ≠ k → Holds k' w → Holds' k' w) : (c.put k v).Coherent Holds' := by
  intro k' w hw
  rcases peek_put hw with ⟨rfl, rfl⟩ | ⟨hk, hold⟩
  · exact h
  · exact hne k' w hk (hc k' w hold)

theorem Coherent.modify (hc : c.Coherent Holds) {k : K} {f : V → V}
    (h : ∀ v, Holds k v → Holds' k (f v)) (hne : ∀ k' w, k' ≠ k → Holds k' w → Holds' k' w) :
    (c.modify k f).Coherent Holds' := by
  intro k' w hw
  rw [peek_modify] at hw
  by_cases hk : k' = k
  · rw [if_pos hk, Option.map_eq_some_iff] at hw
    obtain ⟨v, hv, rfl⟩ := hw
    exact hk ▸ h v (hc k v hv)
  · rw [if_neg hk] at hw
    exact hne k' w hk (hc k' w hw)

end LruCache

end Runehook.Lib
