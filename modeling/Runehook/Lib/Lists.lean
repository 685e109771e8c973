import Mathlib.Algebra.BigOperators.Group.List.Basic
import Mathlib.Algebra.Ring.Nat
import Mathlib.Data.List.Induction

/-! # Runs, chunks and tallies

A run of a machine is a `foldlM` of its step function in `Option`; `foldlM_induction` is the
induction over runs that every invariant uses. `chunks` is the slicing of a batch, and `tally` the
sum of a quantity over the rows that satisfy a test. -/

namespace Runehook.Lib

universe u v

/-! ## Runs -/

section Runs

variable {ε : Type u} {σ : Type v} {f : σ → ε → Option σ}

/-- A run over `evs ++ evs'` is a run over `evs` followed by a run over `evs'`. -/
theorem foldlM_append_eq_some {evs evs' : List ε} {s s' : σ} :
    (evs ++ evs').foldlM f s = some s' ↔
      ∃ t, evs.foldlM f s = some t ∧ evs'.foldlM f t = some s' := by
  rw [List.foldlM_append]
  exact Option.bind_eq_some_iff

/-- A run over `e :: evs` is a step followed by a run over `evs`. -/
theorem foldlM_cons_eq_some {e : ε} {evs : List ε} {s s' : σ} :
    (e :: evs).foldlM f s = some s' ↔ ∃ t, f s e = some t ∧ evs.foldlM f t = some s' := by
  rw [List.foldlM_cons]
  exact Option.bind_eq_some_iff

theorem foldlM_singleton_eq_some {e : ε} {s s' : σ} :
    [e].foldlM f s = some s' ↔ f s e = some s' := by
  rw [foldlM_cons_eq_some]
  constructor
  · rintro ⟨t, ht, hs⟩
    rw [List.foldlM_nil] at hs
    rwa [← Option.some.inj hs]
  · intro h
    exact ⟨s', h, rfl⟩

/-- **Induction over runs.** What holds at the start and is kept by every step, the events done so
far in view, holds at the end of every run. -/
theorem foldlM_induction {P : List ε → σ → Prop} {s₀ : σ} (start : P [] s₀)
    (step : ∀ done e s s', P done s → f s e = some s' → P (done ++ [e]) s') :
    ∀ {evs : List ε} {s : σ}, evs.foldlM f s₀ = some s → P evs s := by
  intro evs
  induction evs using List.reverseRecOn with
  | nil =>
    intro s h
    rw [List.foldlM_nil] at h
    rwa [← Option.some.inj h]
  | append_singleton evs e ih =>
    intro s h
    obtain ⟨t, ht, hs⟩ := foldlM_append_eq_some.mp h
    exact step evs e t s (ih ht) (foldlM_singleton_eq_some.mp hs)

/-- Induction over the runs of one list of events: each step knows which event of the list it is. -/
theorem foldlM_induction_split {evs : List ε} {P : List ε → σ → Prop} {s₀ : σ} (start : P [] s₀)
    (step : ∀ done e rest s s', evs = done ++ e :: rest → P done s → f s e = some s' →
      P (done ++ [e]) s') {s : σ} (h : evs.foldlM f s₀ = some s) : P evs s := by
  have hprefix : ∀ done s, done <+: evs → done.foldlM f s₀ = some s → P done s := by
    intro done
    induction done using List.reverseRecOn with
    | nil =>
      intro s _ hs
      rw [List.foldlM_nil] at hs
      rwa [← Option.some.inj hs]
    | append_singleton done e ih =>
      rintro s ⟨rest, hrest⟩ hs
      obtain ⟨t, ht, hs⟩ := foldlM_append_eq_some.mp hs
      rw [List.append_assoc, List.singleton_append] at hrest
      exact step done e rest t s hrest.symm (ih t ⟨e :: rest, hrest⟩ ht)
        (foldlM_singleton_eq_some.mp hs)
  exact hprefix evs s (List.prefix_refl evs) h

/-- Induction over runs for an invariant of the state alone. -/
theorem foldlM_invariant {P : σ → Prop} {s₀ : σ} (start : P s₀)
    (step : ∀ e s s', P s → f s e = some s' → P s') {evs : List ε} {s : σ}
    (h : evs.foldlM f s₀ = some s) : P s :=
  foldlM_induction (P := fun _ s => P s) start (fun _ e s s' => step e s s') h

/-- **Progress**: where every step of a list of events can be taken and keeps what holds, the run
gets to its end. -/
theorem foldlM_progress {evs : List ε} {P : List ε → σ → Prop} {s₀ : σ} (start : P [] s₀)
    (step : ∀ done e rest s, evs = done ++ e :: rest → P done s → ∃ s', f s e = some s' ∧
      P (done ++ [e]) s') :
    ∃ s, evs.foldlM f s₀ = some s ∧ P evs s := by
  have hprefix : ∀ done, done <+: evs → ∃ s, done.foldlM f s₀ = some s ∧ P done s := by
    intro done
    induction done using List.reverseRecOn with
    | nil => exact fun _ => ⟨s₀, rfl, start⟩
    | append_singleton done e ih =>
      rintro ⟨rest, hrest⟩
      rw [List.append_assoc, List.singleton_append] at hrest
      obtain ⟨t, ht, hdone⟩ := ih ⟨e :: rest, hrest⟩
      obtain ⟨s, hs, hP⟩ := step done e rest t hrest.symm hdone
      exact ⟨s, foldlM_append_eq_some.mpr ⟨t, ht, foldlM_singleton_eq_some.mpr hs⟩, hP⟩
  exact hprefix evs (List.prefix_refl evs)

/-- A test of every step of a run, in the state that it starts from. -/
def checkRun (f : σ → ε → Option σ) (p : σ → ε → Bool) : List ε → σ → Bool
  | [], _ => true
  | e :: evs, s => p s e && (f s e).all (checkRun f p evs)

/-- **A run that passes the test** passes it at every step. -/
theorem of_checkRun {p : σ → ε → Bool} {evs : List ε} {s : σ} (h : checkRun f p evs s = true)
    {done rest : List ε} {e : ε} {t : σ} (hsplit : evs = done ++ e :: rest)
    (hdone : done.foldlM f s = some t) : p t e = true := by
  induction evs generalizing s done with
  | nil => cases done <;> cases hsplit
  | cons first evs ih =>
    obtain ⟨hfirst, hrest⟩ := (Bool.and_eq_true _ _).mp h
    cases done with
    | nil =>
      obtain ⟨rfl, rfl⟩ := List.cons.inj hsplit
      cases Option.some.inj hdone
      exact hfirst
    | cons first' done =>
      obtain ⟨rfl, rfl⟩ := List.cons.inj hsplit
      obtain ⟨u, hu, hdone⟩ := foldlM_cons_eq_some.mp hdone
      rw [hu] at hrest
      exact ih hrest rfl hdone

/-- A map that commutes with every step commutes with every run. -/
theorem foldlM_map_comm {g : σ → σ} (h : ∀ e s, f (g s) e = (f s e).map g) (evs : List ε) (s : σ) :
    evs.foldlM f (g s) = (evs.foldlM f s).map g := by
  induction evs generalizing s with
  | nil => rfl
  | cons e evs ih =>
    rw [List.foldlM_cons, List.foldlM_cons, h]
    cases f s e with
    | none => rfl
    | some t => exact ih t

end Runs

/-! ## Chunks -/

section Chunks

variable {α : Type u}

/-- The worker of `chunks`: `cur` is the chunk being filled. -/
def chunksFrom (n : Nat) : List α → List α → List (List α)
  | cur, [] => if cur.isEmpty then [] else [cur]
  | cur, x :: xs =>
    if cur.length + 1 < n then chunksFrom n (cur ++ [x]) xs else (cur ++ [x]) :: chunksFrom n [] xs

/-- `slice::chunks`: cut a list into consecutive pieces of `n` elements, the last one possibly
shorter. -/
def chunks (n : Nat) (l : List α) : List (List α) := chunksFrom n [] l

theorem flatten_chunksFrom (n : Nat) (cur l : List α) :
    (chunksFrom n cur l).flatten = cur ++ l := by
  induction l generalizing cur with
  | nil =>
    rw [chunksFrom, List.append_nil]
    cases cur with
    | nil => rfl
    | cons x xs => exact List.append_nil _
  | cons x xs ih =>
    rw [chunksFrom]
    by_cases h : cur.length + 1 < n
    · rw [if_pos h, ih, List.append_assoc, List.singleton_append]
    · rw [if_neg h, List.flatten_cons, ih, List.nil_append, List.append_assoc,
        List.singleton_append]

/-- Every element is in exactly one chunk, in order. -/
@[simp] theorem flatten_chunks (n : Nat) (l : List α) : (chunks n l).flatten = l :=
  flatten_chunksFrom n [] l

/-- A chunk is not empty, and it is not longer than it may be. -/
theorem length_of_mem_chunks {n : Nat} (hn : 0 < n) {l chunk : List α} (h : chunk ∈ chunks n l) :
    chunk ≠ [] ∧ chunk.length ≤ n := by
  -- from any chunk that is not full
  have hfrom : ∀ (l cur : List α), cur.length < n → ∀ chunk ∈ chunksFrom n cur l, chunk ≠ [] ∧
      chunk.length ≤ n := by
    intro l
    induction l with
    | nil =>
      intro cur hcur chunk hchunk
      cases cur with
      | nil => exact absurd hchunk List.not_mem_nil
      | cons x xs =>
        rw [List.mem_singleton.mp hchunk]
        exact ⟨List.cons_ne_nil x xs, hcur.le⟩
    | cons x xs ih =>
      intro cur hcur chunk hchunk
      rw [chunksFrom] at hchunk
      split at hchunk
      · next hmore => exact ih (cur ++ [x]) (by simpa using hmore) chunk hchunk
      · rcases List.mem_cons.mp hchunk with rfl | hchunk
        · exact ⟨List.append_ne_nil_of_right_ne_nil _ (List.cons_ne_nil x []), by
            rw [List.length_append]; exact hcur⟩
        · exact ih [] hn chunk hchunk
  exact hfrom l [] hn chunk h

/-- Folding chunk by chunk is folding. -/
theorem foldl_chunks {σ : Type v} (f : σ → α → σ) (n : Nat) (l : List α) (s : σ) :
    (chunks n l).foldl (fun s chunk => chunk.foldl f s) s = l.foldl f s := by
  conv_rhs => rw [← flatten_chunks n l, List.foldl_flatten]

/-- Folding a partial step chunk by chunk is folding it. -/
theorem foldlM_chunks {σ : Type v} (f : σ → α → Option σ) (n : Nat) (l : List α) (s : σ) :
    (chunks n l).foldlM (fun s chunk => chunk.foldlM f s) s = l.foldlM f s := by
  conv_rhs => rw [← flatten_chunks n l]
  induction chunks n l generalizing s with
  | nil => rfl
  | cons c cs ih =>
    rw [List.foldlM_cons, List.flatten_cons, List.foldlM_append]
    congr 1
    funext t
    exact ih t

end Chunks

/-! ## Keyed lists -/

section Keyed

variable {α κ : Type} [DecidableEq κ] (key : α → κ)

/-- Lists that agree key by key, up to order, agree up to order. -/
theorem perm_of_forall_filter [DecidableEq α] {l l' : List α}
    (h : ∀ k, (l.filter fun a => key a = k).Perm (l'.filter fun a => key a = k)) : l.Perm l' := by
  rw [List.perm_iff_count]
  intro a
  have hcount : ∀ l : List α, (l.filter fun b => key b = key a).count a = l.count a := fun l =>
    List.count_filter (decide_eq_true rfl)
  rw [← hcount l, ← hcount l']
  exact (h (key a)).count_eq a

/-- A list that is put together from pieces with distinct keys has, at a key, the piece of the
key. -/
theorem filter_flatMap_key {f : κ → List α} (hf : ∀ k, ∀ a ∈ f k, key a = k) {ks : List κ}
    (hnd : ks.Nodup) (k : κ) :
    (ks.flatMap f).filter (fun a => key a = k) = if k ∈ ks then f k else [] := by
  induction ks with
  | nil => rfl
  | cons k' ks ih =>
    rw [List.nodup_cons] at hnd
    rw [List.flatMap_cons, List.filter_append, ih hnd.2]
    by_cases hk : k = k'
    · subst hk
      rw [if_neg hnd.1, if_pos List.mem_cons_self, List.append_nil, List.filter_eq_self]
      exact fun a ha => decide_eq_true (hf k a ha)
    · have hnil : (f k').filter (fun a => decide (key a = k)) = [] := by
        rw [List.filter_eq_nil_iff]
        intro a ha
        simp [hf k' a ha, Ne.symm hk]
      rw [hnil, List.nil_append]
      simp [hk]

end Keyed

/-! ## Tallies -/

section Tally

variable {α : Type u}

/-- The sum of `f` over the elements of `l` that satisfy `p`. -/
def tally (p : α → Bool) (f : α → Nat) (l : List α) : Nat := ((l.filter p).map f).sum

variable (p q : α → Bool) (f : α → Nat)

@[simp] theorem tally_nil : tally p f [] = 0 := rfl

@[simp] theorem tally_append (l l' : List α) :
    tally p f (l ++ l') = tally p f l + tally p f l' := by
  rw [tally, List.filter_append, List.map_append, List.sum_append, tally, tally]

theorem tally_cons (a : α) (l : List α) :
    tally p f (a :: l) = (if p a then f a else 0) + tally p f l := by
  by_cases h : p a
  · rw [tally, List.filter_cons_of_pos h, List.map_cons, List.sum_cons, if_pos h, tally]
  · rw [tally, List.filter_cons_of_neg h, if_neg h, Nat.zero_add, tally]

@[simp] theorem tally_singleton (a : α) : tally p f [a] = if p a then f a else 0 := by
  rw [tally_cons, tally_nil, Nat.add_zero]

/-- A tally over a mapped list. -/
theorem tally_map {β : Type v} (p : β → Bool) (f : β → Nat) (g : α → β) (l : List α) :
    tally p f (l.map g) = tally (p ∘ g) (f ∘ g) l := by
  rw [tally, tally, List.filter_map, List.map_map]

/-- A tally splits along a second test. -/
theorem tally_split (l : List α) :
    tally p f l = tally (fun a => p a && q a) f l + tally (fun a => p a && !q a) f l := by
  induction l with
  | nil => rfl
  | cons a l ih =>
    rw [tally_cons, tally_cons, tally_cons, ih]
    cases p a <;> cases q a <;> simp <;> omega

/-- A test that no element satisfies tallies nothing. -/
theorem tally_eq_zero {l : List α} (h : ∀ a ∈ l, p a = false) : tally p f l = 0 := by
  rw [tally, List.filter_eq_nil_iff.mpr, List.map_nil, List.sum_nil]
  intro a ha
  rw [h a ha]
  exact Bool.false_ne_true

variable {p q f}

/-- A tally is at most the sum over the whole list. -/
theorem tally_le_sum {g : α → Nat} (h : ∀ a, f a ≤ g a) {l : List α} :
    tally p f l ≤ (l.map g).sum := by
  induction l with
  | nil => exact Nat.le_refl _
  | cons a l ih =>
    rw [tally_cons, List.map_cons, List.sum_cons]
    have := h a
    split <;> omega

/-- Tallies agree when their tests agree on the list. -/
theorem tally_congr {l : List α} (h : ∀ a ∈ l, p a = q a) : tally p f l = tally q f l := by
  rw [tally, tally, List.filter_congr h]

/-- A tally is monotone in its test. -/
theorem tally_le_tally {l : List α} (h : ∀ a ∈ l, p a → q a) : tally p f l ≤ tally q f l := by
  induction l with
  | nil => exact Nat.le_refl _
  | cons a l ih =>
    have htail := ih fun b hb => h b (List.mem_cons_of_mem _ hb)
    have hhead := h a List.mem_cons_self
    rw [tally_cons, tally_cons]
    cases hp : p a with
    | false => simp; omega
    | true => rw [hhead hp]; simpa using htail

/-- One element that satisfies the test counts into the tally. -/
theorem le_tally {l : List α} {a : α} (ha : a ∈ l) (hp : p a) : f a ≤ tally p f l := by
  obtain ⟨l₁, l₂, rfl⟩ := List.append_of_mem ha
  rw [tally_append, tally_cons, if_pos hp]
  omega

/-- A tally does not depend on the order. -/
theorem tally_perm {l l' : List α} (h : l.Perm l') : tally p f l = tally p f l' :=
  ((h.filter p).map f).sum_eq

/-- The tally of a part is at most the tally of the whole. -/
theorem tally_sublist {l l' : List α} (h : l.Sublist l') : tally p f l ≤ tally p f l' := by
  induction h with
  | slnil => exact Nat.le_refl _
  | cons a _ ih => rw [tally_cons]; omega
  | cons_cons a _ ih => rw [tally_cons, tally_cons]; omega

/-- A sum over the elements with a key that at most one of them has is the value at that one. -/
theorem sum_ite_eq_find {κ : Type v} [DecidableEq κ] (key : α → κ) (c : κ)
    (g : α → Nat) {l : List α} (hnd : (l.map key).Nodup) :
    (l.map fun a => if key a = c then g a else 0).sum =
      ((l.find? fun a => key a = c).map g).getD 0 := by
  induction l with
  | nil => rfl
  | cons a l ih =>
    rw [List.map_cons, List.nodup_cons] at hnd
    rw [List.map_cons, List.sum_cons]
    by_cases h : key a = c
    · -- the head has the key, so nothing after it counts
      have hrest : (l.map fun b => if key b = c then g b else 0).sum = 0 := by
        refine List.sum_eq_zero ?_
        intro n hn
        obtain ⟨b, hb, rfl⟩ := List.mem_map.mp hn
        exact if_neg fun hbc => hnd.1 (List.mem_map.mpr ⟨b, hb, hbc.trans h.symm⟩)
      rw [if_pos h, hrest, List.find?_cons_of_pos (by simpa using h), Option.map_some,
        Option.getD_some, Nat.add_zero]
    · rw [if_neg h, ih hnd.2, List.find?_cons_of_neg (by simpa using h), Nat.zero_add]

end Tally

end Runehook.Lib
