import Mathlib.Data.List.Basic

/-! # Partial operations

A program that can stop is one of `Except ε`, where `ε` says why it stopped. `unwrap` takes the
value of an option or stops, and a program of the form `unwrap stop o` stops for no other reason
than `stop`: two rules, for one step after another (`bind_eq_unwrap`) and for a loop with an
invariant (`foldlM_eq_unwrap`), show of a program that it has this form. `Ensures` is for programs
with a state that never stop. The other sections are about partial operations on texts: slices and
numbers. -/

namespace Runehook.Lib

universe u v w

/-! ## Stops -/

section Stops

variable {ε : Type u} {α β σ : Type v} {stop e : ε}

/-- The value of an option, or a stop. -/
def unwrap (stop : ε) : Option α → Except ε α
  | some a => .ok a
  | none => .error stop

@[simp] theorem unwrap_some (a : α) : unwrap stop (some a) = .ok a := rfl

@[simp] theorem unwrap_none : unwrap stop (none : Option α) = .error stop := rfl

@[simp] theorem ok_bind (a : α) (f : α → Except ε β) : (Except.ok a >>= f) = f a := rfl

@[simp] theorem ok_map (f : α → β) (a : α) : f <$> (Except.ok a : Except ε α) = .ok (f a) := rfl

/-- A step that goes on after an unwrapped option has its value. -/
theorem unwrap_bind_eq_ok_iff {o : Option α} {f : α → Except ε β} {b : β} :
    (unwrap stop o >>= f) = .ok b ↔ ∃ a, o = some a ∧ f a = .ok b := by
  cases o with
  | some a => simp
  | none =>
    constructor
    · intro h
      cases h
    · rintro ⟨a, ha, -⟩
      cases ha

/-- An unwrapped option stops for one reason. -/
theorem eq_of_unwrap_eq_error {o : Option α} (h : unwrap stop o = .error e) : e = stop := by
  cases o with
  | some a => cases h
  | none => exact (Except.error.inj h).symm

/-- **One step after another**: each stops for the same reason only. -/
theorem bind_eq_unwrap {x : Except ε α} {o : Option α} {f : α → Except ε β} {g : α → Option β}
    (hx : x = unwrap stop o) (hf : ∀ a, o = some a → f a = unwrap stop (g a)) :
    (x >>= f) = unwrap stop (o.bind g) := by
  subst hx
  cases o with
  | some a => exact hf a rfl
  | none => rfl

/-- **A loop with an invariant**: each round stops for the same reason only. -/
theorem foldlM_eq_unwrap {γ : Type w} {P : σ → Prop} {f : σ → γ → Except ε σ} {g : σ → γ → Option σ}
    {l : List γ} (step : ∀ s, ∀ c ∈ l, P s → f s c = unwrap stop (g s c) ∧ ∀ s',
      g s c = some s' → P s') {s : σ} (hs : P s) : l.foldlM f s = unwrap stop (l.foldlM g s) := by
  induction l generalizing s with
  | nil => rfl
  | cons c l ih =>
    obtain ⟨hstep, hkeep⟩ := step s c List.mem_cons_self hs
    rw [List.foldlM_cons, List.foldlM_cons]
    exact bind_eq_unwrap hstep fun s' hs' =>
      ih (fun s c hc => step s c (List.mem_cons_of_mem _ hc)) (hkeep s' hs')

/-- **A loop that never stops.** -/
theorem foldlM_eq_ok {γ : Type w} {f : σ → γ → Except ε σ} {g : σ → γ → σ} {l : List γ}
    (step : ∀ s, ∀ c ∈ l, f s c = .ok (g s c)) (s : σ) : l.foldlM f s = .ok (l.foldl g s) := by
  induction l generalizing s with
  | nil => rfl
  | cons c l ih =>
    rw [List.foldlM_cons, step s c List.mem_cons_self, ok_bind, List.foldl_cons]
    exact ih (fun s c hc => step s c (List.mem_cons_of_mem _ hc)) _

end Stops

/-! ## Programs with a state -/

section Stateful

variable {ε : Type u} {σ α β : Type v} {m : StateT σ (Except ε) α} {k : α → StateT σ (Except ε) β}
  {Q : α → Prop} {R : β → Prop}

/-- The program never stops, and its result has a property. -/
def Ensures (m : StateT σ (Except ε) α) (Q : α → Prop) : Prop :=
  ∀ s, ∃ a s', m s = .ok (a, s') ∧ Q a

theorem Ensures.pure {a : α} (h : Q a) : Ensures (Pure.pure a : StateT σ (Except ε) α) Q :=
  fun s => ⟨a, s, rfl, h⟩

/-- **One step after another**: the second may rely on what the first ensures. -/
theorem Ensures.bind (hm : Ensures m Q) (hk : ∀ a, Q a → Ensures (k a) R) :
    Ensures (m >>= k) R := by
  intro s
  obtain ⟨a, t, ha, hq⟩ := hm s
  obtain ⟨b, u, hb, hr⟩ := hk a hq t
  refine ⟨b, u, ?_, hr⟩
  show (m s >>= fun p => k p.1 p.2) = _
  rw [ha]
  exact hb

theorem Ensures.mono {Q' : α → Prop} (h : Ensures m Q) (himp : ∀ a, Q a → Q' a) : Ensures m Q' := by
  intro s
  obtain ⟨a, t, ha, hq⟩ := h s
  exact ⟨a, t, ha, himp a hq⟩

theorem Ensures.get : Ensures (MonadState.get : StateT σ (Except ε) σ) fun _ => True :=
  fun s => ⟨s, s, rfl, trivial⟩

theorem Ensures.modifyState {σ : Type} (f : σ → σ) :
    Ensures (modify f : StateT σ (Except ε) Unit) fun _ => True :=
  fun s => ⟨(), f s, rfl, trivial⟩

end Stateful

/-! ## Slices -/

/-- The slice of a text from its `n`-th byte on, which has to be the first byte of a character or
the end. -/
def sliceFrom : Nat → List Char → Option (List Char)
  | 0, text => some text
  | _ + 1, [] => none
  | n + 1, c :: text => if c.utf8Size ≤ n + 1 then sliceFrom (n + 1 - c.utf8Size) text else none

/-- A slice that cuts off characters of one byte each. -/
theorem sliceFrom_length {front : List Char} (h : ∀ c ∈ front, c.utf8Size = 1) (text : List Char) :
    sliceFrom front.length (front ++ text) = some text := by
  induction front with
  | nil =>
    rw [List.nil_append, List.length_nil, sliceFrom]
  | cons c front ih =>
    obtain ⟨hc, hfront⟩ := List.forall_mem_cons.mp h
    rw [List.length_cons, List.cons_append, sliceFrom, hc, if_pos (by omega), Nat.add_sub_cancel]
    exact ih hfront

/-! ## Numbers -/

/-- The number below `bound` that a text is the decimal notation of. A sign `+` may precede it. -/
def parseUnsigned (bound : Nat) (text : List Char) : Option Nat :=
  let digits := if text.head? = some '+' then text.tail else text
  if digits ≠ [] ∧ digits.all Char.isDigit ∧ Nat.ofDigitChars 10 digits 0 < bound then
    some (Nat.ofDigitChars 10 digits 0)
  else none

theorem isDigit_of_mem_toDigits {n : Nat} {c : Char} (h : c ∈ Nat.toDigits 10 n) : c.isDigit :=
  Nat.isDigit_of_mem_toDigits (by omega) (by omega) h

/-- **A number is read back**, if it is below the bound. -/
theorem parseUnsigned_toDigits {n bound : Nat} (h : n < bound) :
    parseUnsigned bound (Nat.toDigits 10 n) = some n := by
  have hdigits : ∀ c ∈ Nat.toDigits 10 n, c.isDigit := fun c => isDigit_of_mem_toDigits
  have hsign : (Nat.toDigits 10 n).head? ≠ some '+' := by
    intro hhead
    have hplus := hdigits '+' (List.mem_of_mem_head? hhead)
    exact absurd hplus (by decide)
  rw [parseUnsigned, if_neg hsign, Nat.ofDigitChars_ten_toDigits,
    if_pos ⟨Nat.toDigits_ne_nil, List.all_eq_true.mpr hdigits, h⟩]

end Runehook.Lib
