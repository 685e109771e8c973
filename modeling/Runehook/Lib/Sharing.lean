import Mathlib.Data.Nat.Basic
import Runehook.Lib.Lists

/-! # Sharing out a total

Requests on a total are served in order (`serve`). Each gets what it asks for while that is left,
and a request of zero asks for everything that is left (`grant`). Asking for equal parts gives equal
parts (`serve_parts`), and asking for the same amount each gives that amount until nothing is left
(`serve_same`). -/

namespace Runehook.Lib

variable {α : Type}

/-! ## Serving requests -/

/-- What a request gets of what is left. A request of zero asks for everything. -/
def grant (request left : Nat) : Nat := if request = 0 then left else min request left

/-- What is given away. -/
def given (shares : List (α × Nat)) : Nat := (shares.map Prod.snd).sum

/-- What somebody gets. -/
def shareOf [DecidableEq α] (a : α) (shares : List (α × Nat)) : Nat :=
  tally (fun s => s.1 = a) Prod.snd shares

/-- The requests, served in order. -/
def serve : List (α × Nat) → Nat → List (α × Nat)
  | [], _ => []
  | (a, request) :: requests, left =>
    (a, grant request left) :: serve requests (left - grant request left)

@[simp] theorem grant_zero (left : Nat) : grant 0 left = left := rfl

/-- Asking for what is left gets it. -/
@[simp] theorem grant_self (left : Nat) : grant left left = left := by
  unfold grant
  split <;> omega

theorem grant_le (request left : Nat) : grant request left ≤ left := by
  unfold grant
  split <;> omega

/-- Asking for no more than is left gets it, unless it is a request of zero while something is
left. -/
theorem grant_eq_self {request left : Nat} (hle : request ≤ left) (hzero : request = 0 → left = 0) :
    grant request left = request := by
  unfold grant
  split <;> omega

@[simp] theorem given_nil : given ([] : List (α × Nat)) = 0 := rfl

@[simp] theorem given_cons (s : α × Nat) (shares : List (α × Nat)) :
    given (s :: shares) = s.2 + given shares := by
  simp [given]

@[simp] theorem given_append (shares shares' : List (α × Nat)) :
    given (shares ++ shares') = given shares + given shares' := by
  simp [given]

@[simp] theorem shareOf_nil [DecidableEq α] (a : α) : shareOf a [] = 0 := rfl

theorem shareOf_cons [DecidableEq α] (a : α) (s : α × Nat) (shares : List (α × Nat)) :
    shareOf a (s :: shares) = (if s.1 = a then s.2 else 0) + shareOf a shares := by
  rw [shareOf, tally_cons]
  by_cases h : s.1 = a <;> simp [h, shareOf]

/-- Requests after others are served from what those leave. -/
theorem serve_append (requests requests' : List (α × Nat)) (left : Nat) :
    serve (requests ++ requests') left =
      serve requests left ++ serve requests' (left - given (serve requests left)) := by
  induction requests generalizing left with
  | nil => simp [serve]
  | cons r requests ih =>
    rw [List.cons_append, serve, ih, serve, given_cons, Nat.sub_sub, List.cons_append]

/-- No more is given away than there is. -/
theorem given_serve_le (requests : List (α × Nat)) (left : Nat) :
    given (serve requests left) ≤ left := by
  induction requests generalizing left with
  | nil => exact Nat.zero_le left
  | cons r requests ih =>
    have hgrant := grant_le r.2 left
    have hrest := ih (left - grant r.2 left)
    rw [serve, given_cons]
    omega

/-! ## Equal parts -/

/-- Equal parts of a total. If they do not come out even, then the first ones get one more. -/
def divide (total : Nat) (l : List α) : List (α × Nat) :=
  l.zipIdx.map fun (a, i) => (a, total / l.length + if i < total % l.length then 1 else 0)

/-- A part for each, and one more while a remainder is left. -/
def parts (part : Nat) : List α → Nat → List (α × Nat)
  | [], _ => []
  | a :: l, remainder => (a, part + if 0 < remainder then 1 else 0) :: parts part l (remainder - 1)

theorem parts_eq_map_zipIdx (part : Nat) (l : List α) (k remainder : Nat) :
    parts part l (remainder - k) =
      (l.zipIdx k).map fun (a, i) => (a, part + if i < remainder then 1 else 0) := by
  induction l generalizing k with
  | nil => rfl
  | cons a l ih =>
    have hfirst : 0 < remainder - k ↔ k < remainder := by omega
    rw [parts, Nat.sub_sub, ih, List.zipIdx_cons, List.map_cons]
    simp only [hfirst]

theorem divide_eq_parts (total : Nat) (l : List α) :
    divide total l = parts (total / l.length) l (total % l.length) :=
  (parts_eq_map_zipIdx _ l 0 _).symm

theorem given_parts (part : Nat) {l : List α} {remainder : Nat} (h : remainder ≤ l.length) :
    given (parts part l remainder) = part * l.length + remainder := by
  induction l generalizing remainder with
  | nil =>
    rw [List.length_nil] at h ⊢
    rw [parts, given_nil]
    omega
  | cons a l ih =>
    rw [List.length_cons] at h ⊢
    rw [parts, given_cons, ih (by omega), Nat.mul_succ]
    split <;> omega

/-- Equal parts give everything away. -/
theorem given_divide (total : Nat) {l : List α} (h : l ≠ []) : given (divide total l) = total := by
  have hpos := List.length_pos_iff.mpr h
  rw [divide_eq_parts, given_parts _ (Nat.mod_lt _ hpos).le, Nat.mul_comm, Nat.div_add_mod]

/-- **Asking for equal parts** gives them: a part of zero is asked for only when nothing is left. -/
theorem serve_parts (part : Nat) {l : List α} {remainder : Nat} (h : remainder ≤ l.length) :
    serve (parts part l remainder) (part * l.length + remainder) = parts part l remainder := by
  induction l generalizing remainder with
  | nil => rfl
  | cons a l ih =>
    rw [List.length_cons] at h
    -- the head leaves the parts of the others
    have hleft : part * (a :: l).length + remainder =
        (part + if 0 < remainder then 1 else 0) + (part * l.length + (remainder - 1)) := by
      rw [List.length_cons, Nat.mul_succ]
      split <;> omega
    have hzero : (part + if 0 < remainder then 1 else 0) = 0 →
        part * l.length + (remainder - 1) = 0 := by
      intro hpart
      obtain ⟨rfl, hremainder⟩ := Nat.add_eq_zero_iff.mp hpart
      split at hremainder <;> omega
    have hgrant := grant_eq_self (Nat.le_add_right (part + if 0 < remainder then 1 else 0)
      (part * l.length + (remainder - 1))) fun hpart => by rw [hpart, hzero hpart]
    rw [parts, serve, hleft, hgrant, Nat.add_sub_cancel_left, ih (by omega)]

theorem serve_divide (total : Nat) {l : List α} (h : l ≠ []) :
    serve (divide total l) total = divide total l := by
  have hpos := List.length_pos_iff.mpr h
  have hserve := serve_parts (total / l.length) (l := l) (Nat.mod_lt total hpos).le
  rwa [Nat.mul_comm, Nat.div_add_mod, ← divide_eq_parts] at hserve

/-! ## The same amount for each -/

/-- The amount for each, until nothing is left. -/
def giveEach (amount : Nat) : List α → Nat → List (α × Nat)
  | [], _ => []
  | a :: l, left => (a, min amount left) :: giveEach amount l (left - min amount left)

/-- **Asking for the same amount each**, or for a total from which something may be gone already. -/
theorem serve_same {amount total : Nat} (hne : amount ≠ 0) (l : List α) {left : Nat}
    (hle : left ≤ total) :
    serve (l.map fun a => (a, min amount total)) left = giveEach amount l left := by
  induction l generalizing left with
  | nil => rfl
  | cons a l ih =>
    have hgrant : grant (min amount total) left = min amount left := by
      unfold grant
      split <;> omega
    rw [List.map_cons, serve, hgrant, ih (by omega), giveEach]

end Runehook.Lib
