import Mathlib.Data.List.Basic
import Mathlib.Data.List.Induction

/-! # Statements with numbered parameters

The text of a statement refers to what is bound to it by `$1`, `$2` and so on. `lex` finds these
references and `readTuples` reads a list of tuples of them, as it stands after `VALUES`, where no
comma may be left over. `tuplesText` is a list of tuples that number their parameters on, with a
comma after each; `readTuples_tuplesText` reads it back, and `boundTo_blocks` says what its
parameters are bound to. -/

namespace Runehook.Lib

universe u

/-! ## Tokens -/

/-- A piece of a text: a parameter `$n`, or any other character. -/
inductive Token where
  /-- A parameter. -/
  | parameter (n : Nat)
  /-- A character. -/
  | char (c : Char)
  deriving DecidableEq, Repr

/-- The number of a parameter. -/
def Token.parameter? : Token → Option Nat
  | .parameter n => some n
  | .char _ => none

/-- The worker of `lex`: the first argument is the number that is being read. -/
def lexFrom : Option Nat → List Char → List Token
  | none, [] => []
  | some n, [] => [.parameter n]
  | none, c :: cs => if c = '$' then lexFrom (some 0) cs else .char c :: lexFrom none cs
  | some n, c :: cs =>
    if c.isDigit then lexFrom (some (10 * n + (c.toNat - '0'.toNat))) cs
    else .parameter n :: (if c = '$' then lexFrom (some 0) cs else .char c :: lexFrom none cs)

/-- Cut a text into its tokens. A `$` without a number counts as `$0`, which nothing is bound to. -/
def lex (text : List Char) : List Token := lexFrom none text

/-- The parameters of a text, in order. -/
def parameters (text : List Char) : List Nat := (lex text).filterMap Token.parameter?

/-- The text of a parameter. -/
def parameterText (n : Nat) : List Char := '$' :: Nat.toDigits 10 n

/-- A text that ends a number, because it does not go on with a digit. -/
def EndsNumber (text : List Char) : Prop := ∀ c ∈ text.head?, c.isDigit = false

theorem endsNumber_nil : EndsNumber [] := fun _ hc => absurd hc (Option.not_mem_none _)

theorem endsNumber_cons {c : Char} {cs : List Char} (hc : c.isDigit = false) :
    EndsNumber (c :: cs) := by
  intro c' hc'
  rwa [← Option.some.inj hc']

/-- Whether a number ends in front of a text. -/
instance EndsNumber.decide : ∀ text : List Char, Decidable (EndsNumber text)
  | [] => .isTrue endsNumber_nil
  | c :: _ => decidable_of_iff (c.isDigit = false) ⟨endsNumber_cons, fun h => h c rfl⟩

theorem lexFrom_some {text : List Char} (h : EndsNumber text) (n : Nat) :
    lexFrom (some n) text = .parameter n :: lex text := by
  cases text with
  | nil => rfl
  | cons c cs =>
    have hc : c.isDigit = false := h c rfl
    rw [lexFrom, lex, lexFrom, if_neg (by simp [hc])]

theorem lexFrom_digits {ds : List Char} (hds : ∀ c ∈ ds, c.isDigit) (n : Nat) (rest : List Char) :
    lexFrom (some n) (ds ++ rest) = lexFrom (some (Nat.ofDigitChars 10 ds n)) rest := by
  induction ds generalizing n with
  | nil => simp
  | cons c ds ih =>
    obtain ⟨hc, hds⟩ := List.forall_mem_cons.mp hds
    rw [List.cons_append, lexFrom, if_pos hc, ih hds, Nat.ofDigitChars_cons]

/-- A parameter is read back. -/
theorem lex_parameterText (n : Nat) {rest : List Char} (h : EndsNumber rest) :
    lex (parameterText n ++ rest) = .parameter n :: lex rest := by
  have hdigits : ∀ c ∈ Nat.toDigits 10 n, c.isDigit := fun c hc =>
    Nat.isDigit_of_mem_toDigits (by omega) (by omega) hc
  rw [parameterText, List.cons_append, lex, lexFrom, if_pos rfl, lexFrom_digits hdigits,
    Nat.ofDigitChars_ten_toDigits, lexFrom_some h]

theorem lex_cons {c : Char} (hc : c ≠ '$') (rest : List Char) :
    lex (c :: rest) = .char c :: lex rest := by
  rw [lex, lexFrom, if_neg hc, lex]

/-- A text without `$` has no parameter. -/
theorem lex_plain {text : List Char} (h : '$' ∉ text) : lex text = text.map .char := by
  induction text with
  | nil => rfl
  | cons c cs ih =>
    obtain ⟨hc, hcs⟩ := not_or.mp (List.mem_cons.not.mp h)
    rw [lex_cons (Ne.symm hc), ih hcs, List.map_cons]

/-- Texts can be cut apart where a number ends. -/
theorem lex_append (text : List Char) {rest : List Char} (h : EndsNumber rest) :
    lex (text ++ rest) = lex text ++ lex rest := by
  -- with any number begun, since the rest ends it
  have hfrom : ∀ (text : List Char) (n : Option Nat),
      lexFrom n (text ++ rest) = lexFrom n text ++ lex rest := by
    intro text
    induction text with
    | nil =>
      rintro (_ | n)
      · rfl
      · rw [List.nil_append, lexFrom_some h]
        rfl
    | cons c cs ih =>
      rintro (_ | n) <;> rw [List.cons_append, lexFrom, lexFrom]
      · split <;> simp [ih]
      · split
        · exact ih _
        · split <;> simp [ih]
  exact hfrom text none

@[simp] theorem parameters_plain {text : List Char} (h : '$' ∉ text) : parameters text = [] := by
  rw [parameters, lex_plain h, List.filterMap_map, List.filterMap_eq_nil_iff]
  exact fun _ _ => rfl

theorem parameters_append (text : List Char) {rest : List Char} (h : EndsNumber rest) :
    parameters (text ++ rest) = parameters text ++ parameters rest := by
  rw [parameters, lex_append text h, List.filterMap_append, parameters, parameters]

theorem parameters_plain_append {text : List Char} (h : '$' ∉ text) (rest : List Char) :
    parameters (text ++ rest) = parameters rest := by
  induction text with
  | nil => rfl
  | cons c cs ih =>
    obtain ⟨hc, hcs⟩ := not_or.mp (List.mem_cons.not.mp h)
    rw [List.cons_append, ← ih hcs, parameters, lex_cons (Ne.symm hc)]
    rfl

/-! ## Lists of tuples -/

/-- What a reader of a list of tuples waits for. -/
inductive Awaits where
  /-- The parenthesis that opens a tuple. -/
  | tuple
  /-- A parameter. -/
  | item
  /-- The type that a parameter is cast to, or what ends the item. -/
  | cast
  /-- The comma between two tuples. -/
  | separator
  deriving DecidableEq, Repr

/-- What has been read of a list of tuples. -/
structure Reading where
  /-- The tuples that are complete. -/
  tuples : List (List Nat)
  /-- The items of the tuple that is open. -/
  items : List Nat
  /-- What may come next. -/
  awaits : Awaits
  deriving DecidableEq, Repr

/-- Read a token. -/
def Reading.token : Reading → Token → Option Reading
  | ⟨tuples, items, .item⟩, .parameter n => some ⟨tuples, items ++ [n], .cast⟩
  | ⟨tuples, _, .tuple⟩, .char c => if c = '(' then some ⟨tuples, [], .item⟩ else none
  | ⟨tuples, items, .cast⟩, .char c =>
    if c = ',' then some ⟨tuples, items, .item⟩
    else if c = ')' then some ⟨tuples ++ [items], [], .separator⟩
    else if c = ':' ∨ c.isAlpha then some ⟨tuples, items, .cast⟩
    else none
  | ⟨tuples, _, .separator⟩, .char c => if c = ',' then some ⟨tuples, [], .tuple⟩ else none
  | _, _ => none

/-- Read a text. -/
def Reading.text (r : Reading) (text : List Char) : Option Reading :=
  (lex text).foldlM Reading.token r

/-- The numbers in a list of tuples, if the text is one. -/
def readTuples (text : List Char) : Option (List (List Nat)) :=
  (Reading.text ⟨[], [], .tuple⟩ text).bind fun r =>
    if r.awaits = .separator then some r.tuples else none

/-- The numbers that have been read. -/
def Reading.numbers (r : Reading) : List Nat := r.tuples.flatten ++ r.items

/-- No number is lost. -/
theorem Reading.numbers_token {r r' : Reading} {t : Token} (h : r.token t = some r')
    (hitems : r.awaits = .tuple ∨ r.awaits = .separator → r.items = []) :
    r'.numbers = r.numbers ++ t.parameter?.toList ∧
      (r'.awaits = .tuple ∨ r'.awaits = .separator → r'.items = []) := by
  obtain ⟨tuples, items, awaits⟩ := r
  cases awaits <;> cases t <;> simp only [token] at h
  case item.parameter n =>
    cases Option.some.inj h
    simp [numbers, Token.parameter?]
  case tuple.char c =>
    split at h
    · cases Option.some.inj h
      simp [numbers, Token.parameter?, show items = [] from hitems (.inl rfl)]
    · cases h
  case cast.char c =>
    split at h
    · cases Option.some.inj h
      simp [numbers, Token.parameter?]
    · split at h
      · cases Option.some.inj h
        simp [numbers, Token.parameter?]
      · split at h
        · cases Option.some.inj h
          simp [numbers, Token.parameter?]
        · cases h
  case separator.char c =>
    split at h
    · cases Option.some.inj h
      simp [numbers, Token.parameter?, show items = [] from hitems (.inr rfl)]
    · cases h
  all_goals cases h

/-- **The numbers of the tuples are the parameters of the text.** -/
theorem parameters_of_readTuples {text : List Char} {tuples : List (List Nat)}
    (h : readTuples text = some tuples) :
    parameters text = tuples.flatten := by
  -- from any reading that has no items where it waits for a tuple or a separator
  have hnumbers : ∀ (tokens : List Token) (r r' : Reading),
      tokens.foldlM Reading.token r = some r' →
      (r.awaits = .tuple ∨ r.awaits = .separator → r.items = []) →
      r'.numbers = r.numbers ++ tokens.filterMap Token.parameter? ∧
        (r'.awaits = .tuple ∨ r'.awaits = .separator → r'.items = []) := by
    intro tokens
    induction tokens with
    | nil =>
      intro r r' hr hitems
      cases Option.some.inj hr
      exact ⟨(List.append_nil _).symm, hitems⟩
    | cons t tokens ih =>
      intro r r' hr hitems
      rw [List.foldlM_cons] at hr
      obtain ⟨r₁, ht, hr⟩ := Option.bind_eq_some_iff.mp hr
      obtain ⟨hfirst, hitems⟩ := Reading.numbers_token ht hitems
      obtain ⟨hrest, hend⟩ := ih r₁ r' hr hitems
      refine ⟨?_, hend⟩
      rw [hrest, hfirst, List.append_assoc]
      cases t <;> rfl
  obtain ⟨r, hr, hend⟩ := Option.bind_eq_some_iff.mp h
  obtain ⟨hall, hitems⟩ := hnumbers _ _ _ hr fun _ => rfl
  split at hend
  · next hseparator =>
    cases Option.some.inj hend
    rw [parameters, ← List.nil_append ((lex text).filterMap _)]
    rw [Reading.numbers, hitems (.inr hseparator), List.append_nil] at hall
    exact hall.symm
  · cases hend

/-! ## Reading what is written -/

/-- A type that a parameter is cast to. -/
def IsCast (cast : List Char) : Prop := ∀ c ∈ cast, c = ':' ∨ c.isAlpha

instance (cast : List Char) : Decidable (IsCast cast) := List.decidableBAll _ cast

/-- The items of a tuple from parameter `n` on, with a comma after each. -/
def itemsText (casts : List (List Char)) (n : Nat) : List Char :=
  (casts.zipIdx n).flatMap fun item => parameterText item.2 ++ item.1 ++ [',']

/-- A tuple from parameter `n` on, with a comma after it. -/
def tupleText (casts : List (List Char)) (n : Nat) : List Char :=
  '(' :: (itemsText casts n).dropLast ++ [')', ',']

/-- `k` tuples from parameter `n` on, with a comma after each. -/
def tuplesText (casts : List (List Char)) : Nat → Nat → List Char
  | 0, _ => []
  | k + 1, n => tupleText casts n ++ tuplesText casts k (n + casts.length)

/-- `k` blocks of `width` numbers from `n` on. -/
def blocks (width : Nat) : Nat → Nat → List (List Nat)
  | 0, _ => []
  | k + 1, n => List.range' n width :: blocks width k (n + width)

theorem flatten_blocks (width k n : Nat) :
    (blocks width k n).flatten = List.range' n (k * width) := by
  induction k generalizing n with
  | zero => simp [blocks]
  | succ k ih =>
    rw [blocks, List.flatten_cons, ih, List.range'_append_1, Nat.succ_mul, Nat.add_comm]

theorem itemsText_cons (cast : List Char) (casts : List (List Char)) (n : Nat) :
    itemsText (cast :: casts) n = parameterText n ++ cast ++ [','] ++ itemsText casts (n + 1) := by
  simp [itemsText, List.zipIdx_cons]

theorem itemsText_concat (casts : List (List Char)) (cast : List Char) (n : Nat) :
    itemsText (casts ++ [cast]) n = itemsText casts n ++
      (parameterText (n + casts.length) ++ cast ++ [',']) := by
  simp [itemsText, List.zipIdx_append, List.zipIdx_cons]

theorem tupleText_concat (casts : List (List Char)) (cast : List Char) (n : Nat) :
    tupleText (casts ++ [cast]) n =
      '(' :: itemsText casts n ++ parameterText (n + casts.length) ++ cast ++ [')', ','] := by
  rw [tupleText, itemsText_concat, ← List.append_assoc, List.dropLast_concat]
  simp

theorem tuplesText_succ (casts : List (List Char)) (k n : Nat) :
    tuplesText casts (k + 1) n = tuplesText casts k n ++
      tupleText casts (n + k * casts.length) := by
  induction k generalizing n with
  | zero => simp [tuplesText]
  | succ k ih =>
    rw [tuplesText, ih, tuplesText, List.append_assoc, Nat.succ_mul, Nat.add_assoc n,
      Nat.add_comm casts.length (k * casts.length)]

section

variable {r r' : Reading} {tuples : List (List Nat)} {items : List Nat} {cast : List Char}
  {casts : List (List Char)} {rest : List Char}

theorem Reading.text_cons {c : Char} (hc : c ≠ '$') (h : r.token (.char c) = some r') :
    r.text (c :: rest) = r'.text rest := by
  rw [text, lex_cons hc, List.foldlM_cons, h]
  rfl

theorem IsCast.endsNumber (h : IsCast cast) (hrest : EndsNumber rest) :
    EndsNumber (cast ++ rest) := by
  cases cast with
  | nil => exact hrest
  | cons c cs =>
    refine endsNumber_cons ?_
    rcases h c List.mem_cons_self with rfl | hc
    · rfl
    · rw [← Bool.not_eq_true]
      intro hdigit
      -- the codes of letters and of digits
      have hc :
          (decide (c.val ≥ 65 ∧ c.val ≤ 90) || (decide (c.val ≥ 97) && decide (c.val ≤ 122))) =
            true := hc
      simp [Char.isDigit, UInt32.le_iff_toNat_le] at hc hdigit
      omega

/-- A cast is passed over. -/
theorem Reading.text_cast (h : IsCast cast) :
    Reading.text ⟨tuples, items, .cast⟩ (cast ++ rest) =
      Reading.text ⟨tuples, items, .cast⟩ rest := by
  induction cast with
  | nil => rfl
  | cons c cs ih =>
    obtain ⟨hc, hcs⟩ := List.forall_mem_cons.mp h
    have hother : c ≠ '$' ∧ c ≠ ',' ∧ c ≠ ')' := by
      refine ⟨?_, ?_, ?_⟩ <;> rintro rfl <;> revert hc <;> decide
    rw [List.cons_append, text_cons hother.1 ?_, ih hcs]
    rw [token, if_neg hother.2.1, if_neg hother.2.2, if_pos hc]

/-- An item is read up to its end. -/
theorem Reading.text_item (h : IsCast cast) (hrest : EndsNumber rest) (n : Nat) :
    Reading.text ⟨tuples, items, .item⟩ (parameterText n ++ cast ++ rest) =
      Reading.text ⟨tuples, items ++ [n], .cast⟩ rest := by
  rw [List.append_assoc, text, lex_parameterText n (h.endsNumber hrest), List.foldlM_cons]
  exact text_cast h

/-- Items are read one after the other. -/
theorem Reading.text_items (h : ∀ cast ∈ casts, IsCast cast) (n : Nat) :
    Reading.text ⟨tuples, items, .item⟩ (itemsText casts n ++ rest) =
      Reading.text ⟨tuples, items ++ List.range' n casts.length, .item⟩ rest := by
  induction casts generalizing items n with
  | nil => simp [itemsText]
  | cons cast casts ih =>
    obtain ⟨hcast, hcasts⟩ := List.forall_mem_cons.mp h
    rw [itemsText_cons, List.append_assoc, List.append_assoc, List.singleton_append,
      text_item hcast (endsNumber_cons rfl), text_cons (by decide) rfl, ih hcasts, List.length_cons,
      List.range'_succ, List.append_assoc, List.singleton_append]

/-- Without the last comma the items are read up to the end of the last of them. -/
theorem Reading.text_items_dropLast (h : ∀ cast ∈ casts, IsCast cast) (hne : casts ≠ [])
    (hrest : EndsNumber rest) (n : Nat) :
      Reading.text ⟨tuples, items, .item⟩ ((itemsText casts n).dropLast ++ rest) =
        Reading.text ⟨tuples, items ++ List.range' n casts.length, .cast⟩ rest := by
  obtain ⟨init, last, rfl⟩ := (List.eq_nil_or_concat' casts).resolve_left hne
  have hinit : ∀ cast ∈ init, IsCast cast := fun cast hcast => h cast (List.mem_append_left _ hcast)
  have hlast : IsCast last := h last (List.mem_append_right _ List.mem_cons_self)
  rw [itemsText_concat, ← List.append_assoc, List.dropLast_concat, List.append_assoc,
    text_items hinit,
    text_item hlast hrest, List.append_assoc, List.length_append, List.length_singleton,
    List.range'_concat, Nat.one_mul]

/-- **A tuple is read**, up to the comma after it. -/
theorem Reading.text_tuple (h : ∀ cast ∈ casts, IsCast cast) (hne : casts ≠ []) (n : Nat) :
    Reading.text ⟨tuples, [], .tuple⟩ ('(' :: (itemsText casts n).dropLast ++ ')' :: rest) =
      Reading.text ⟨tuples ++ [List.range' n casts.length], [], .separator⟩ rest := by
  rw [List.cons_append, text_cons (by decide) rfl, text_items_dropLast h hne (endsNumber_cons rfl),
    text_cons (by decide) rfl]
  rfl

theorem tupleText_append (n : Nat) :
    tupleText casts n ++ rest = '(' :: (itemsText casts n).dropLast ++ ')' :: ',' :: rest := by
  simp [tupleText]

/-- Tuples are read one after the other. -/
theorem Reading.text_tuples (h : ∀ cast ∈ casts, IsCast cast) (hne : casts ≠ []) (k n : Nat) :
    Reading.text ⟨tuples, [], .tuple⟩ (tuplesText casts k n ++ rest) =
      Reading.text ⟨tuples ++ blocks casts.length k n, [], .tuple⟩ rest := by
  induction k generalizing tuples n with
  | zero => simp [tuplesText, blocks]
  | succ k ih =>
    rw [tuplesText, List.append_assoc, tupleText_append, text_tuple h hne,
      text_cons (by decide) rfl, ih, blocks, List.append_assoc, List.singleton_append]

/-- **A list of tuples is read back**, once the last comma is taken away. -/
theorem readTuples_tuplesText (h : ∀ cast ∈ casts, IsCast cast) (hne : casts ≠ []) {k : Nat}
    (hk : k ≠ 0) (n : Nat) :
    readTuples (tuplesText casts k n).dropLast = some (blocks casts.length k n) := by
  obtain ⟨k, rfl⟩ := Nat.exists_eq_succ_of_ne_zero hk
  -- the last comma is dropped with the last tuple's
  have hsplit : (tuplesText casts (k + 1) n).dropLast =
      tuplesText casts k n ++
        ('(' :: (itemsText casts (n + k * casts.length)).dropLast ++ [')']) := by
    have hlast : tupleText casts (n + k * casts.length) =
        '(' :: (itemsText casts (n + k * casts.length)).dropLast ++ [')'] ++ [','] := by
      simp [tupleText]
    rw [tuplesText_succ, hlast, ← List.append_assoc, List.dropLast_concat]
  -- one more tuple goes on behind the blocks so far
  have hblocks : ∀ k n, blocks casts.length (k + 1) n =
      blocks casts.length k n ++ [List.range' (n + k * casts.length) casts.length] := by
    intro k
    induction k with
    | zero => simp [blocks]
    | succ k ih =>
      intro n
      rw [blocks, ih, blocks, List.cons_append, Nat.succ_mul, Nat.add_assoc n,
        Nat.add_comm casts.length]
  rw [readTuples, hsplit, Reading.text_tuples h hne, Reading.text_tuple h hne,
    List.nil_append, ← hblocks]
  rfl

/-- **A tuple alone is read back.** -/
theorem readTuples_itemsText (h : ∀ cast ∈ casts, IsCast cast) (hne : casts ≠ []) (n : Nat) :
    readTuples ('(' :: (itemsText casts n).dropLast ++ [')']) =
      some [List.range' n casts.length] := by
  rw [readTuples, Reading.text_tuple h hne]
  rfl

/-- Nothing is no list of tuples. -/
@[simp] theorem readTuples_nil : readTuples [] = none := rfl

end

/-! ## What is bound -/

section

variable {α : Type u}

/-- What is bound to the parameters of a tuple: `$1` is the first. -/
def boundTo (params : List α) (tuple : List Nat) : Option (List α) :=
  tuple.mapM fun n => if n = 0 then none else params[n - 1]?

/-- Consecutive parameters are bound to consecutive values. -/
theorem boundTo_range' (before row after : List α) :
    boundTo (before ++ row ++ after) (List.range' (before.length + 1) row.length) = some row := by
  induction row generalizing before with
  | nil => rfl
  | cons a row ih =>
    have hrest :
        boundTo (before ++ a :: row ++ after) (List.range' (before.length + 1 + 1) row.length) =
          some row := by
      have hih := ih (before ++ [a])
      rwa [List.length_append, List.length_singleton, List.append_assoc before,
        List.singleton_append] at hih
    have hget : (before ++ a :: row ++ after)[before.length]? = some a := by simp
    rw [boundTo] at hrest
    rw [boundTo, List.length_cons, List.range'_succ, List.mapM_cons, hrest,
      if_neg (Nat.succ_ne_zero _), Nat.add_sub_cancel, hget]
    rfl

/-- **The blocks of a list of tuples are bound to the rows.** -/
theorem boundTo_blocks {width : Nat} {rows : List (List α)} (h : ∀ row ∈ rows, row.length = width) :
    (blocks width rows.length 1).mapM (boundTo rows.flatten) = some rows := by
  -- with any parameters before those of the rows
  have hfrom : ∀ (rows : List (List α)) (before : List α), (∀ row ∈ rows, row.length = width) →
      (blocks width rows.length (before.length + 1)).mapM (boundTo (before ++ rows.flatten)) =
        some rows := by
    intro rows
    induction rows with
    | nil => exact fun _ _ => rfl
    | cons row rows ih =>
      intro before h
      obtain ⟨hrow, hrows⟩ := List.forall_mem_cons.mp h
      have hfirst := boundTo_range' before row rows.flatten
      have hrest := ih (before ++ row) hrows
      rw [List.length_append, hrow, Nat.add_right_comm] at hrest
      rw [hrow] at hfirst
      rw [List.length_cons, blocks, List.mapM_cons, List.flatten_cons, ← List.append_assoc,
        hfirst, hrest]
      rfl
  exact hfrom rows [] h

end

end Runehook.Lib
