import Mathlib.Data.List.Nodup
import Mathlib.Data.List.Pairwise

/-! # Lists numbered by a counter

A counter that is threaded through a computation and goes up by one with each element that the
computation emits numbers the elements without gaps (`Consecutive`). A list that is sorted by such
numbers is the list that was emitted (`eq_reverse_of_sorted`). -/

namespace Runehook.Lib

universe u

variable {α : Type u} {number : α → Nat}

/-- **The elements of a list are numbered from `n` on without gaps**, and `m` is the number that
comes next. -/
structure Consecutive (number : α → Nat) (n : Nat) (l : List α) (m : Nat) : Prop where
  /-- The numbers, in order. -/
  numbers : l.map number = List.range' n l.length
  /-- The number after them. -/
  next : m = n + l.length

theorem Consecutive.nil (n : Nat) : Consecutive number n [] n := ⟨rfl, rfl⟩

theorem Consecutive.cons {n m : Nat} {x : α} {l : List α} (hx : number x = n)
    (h : Consecutive number (n + 1) l m) :
    Consecutive number n (x :: l) m := by
  refine ⟨?_, ?_⟩
  · rw [List.map_cons, List.length_cons, List.range'_succ, hx, h.numbers]
  · rw [h.next, List.length_cons]
    omega

theorem Consecutive.singleton {n : Nat} {x : α} (hx : number x = n) :
    Consecutive number n [x] (n + 1) :=
  Consecutive.cons hx (Consecutive.nil (n + 1))

/-- The counter goes on from one list to the next. -/
theorem Consecutive.append {n m k : Nat} {l l' : List α} (h : Consecutive number n l m)
    (h' : Consecutive number m l' k) :
    Consecutive number n (l ++ l') k := by
  refine ⟨?_, ?_⟩
  · rw [List.map_append, h.numbers, h'.numbers, h.next, List.range'_append_1, List.length_append]
  · rw [h'.next, h.next, List.length_append, Nat.add_assoc]

/-- The numbers go up. -/
theorem Consecutive.pairwise {n m : Nat} {l : List α} (h : Consecutive number n l m) :
    l.Pairwise fun a b => number a < number b := by
  have hrange : (l.map number).Pairwise (· < ·) := by
    rw [h.numbers]
    exact List.pairwise_lt_range'
  exact List.pairwise_map.mp hrange

/-- **A sorted permutation of a numbered list is the list**, backwards if it is sorted downwards. -/
theorem eq_reverse_of_sorted {l l' : List α} (hl : l.Pairwise fun a b => number a < number b)
    (hl' : l'.Pairwise fun a b => ¬ number a < number b) (hperm : l'.Perm l) : l' = l.reverse := by
  have hdown : l.reverse.Pairwise fun a b => ¬ number a < number b :=
    List.pairwise_reverse.mpr (hl.imp fun hlt => Nat.lt_asymm hlt)
  refine (hperm.trans l.reverse_perm.symm).eq_of_pairwise ?_ hl' hdown
  intro a b ha hb hab hba
  -- two elements with one number are one element
  have hnodup : (l.map number).Nodup := List.pairwise_map.mpr (hl.imp fun hlt => Nat.ne_of_lt hlt)
  exact List.inj_on_of_nodup_map hnodup (hperm.mem_iff.mp ha) (List.mem_reverse.mp hb) (by omega)

end Runehook.Lib
