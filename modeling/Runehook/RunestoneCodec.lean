import Runehook.Encipher

/-! # The codec of runestones

Deciphering undoes enciphering, up to the order of the edicts (`Runestone.decipher_encipher`). A
message is read by taking the values of one tag after the other: `Reads` says what a reader gives
and what it leaves of the values and the flags, and the fields of a valid runestone
(`Runestone.Valid`) leave nothing (`reads_decipher`). -/

namespace Runehook

open Lib

/-! ## Valid runestones -/

/-- The terms fit in their types. -/
structure Terms.Valid (terms : Terms) : Prop where
  /-- The amount is a `u128`. -/
  amount : ∀ n ∈ terms.amount, n < 2 ^ 128
  /-- The cap is a `u128`. -/
  cap : ∀ n ∈ terms.cap, n < 2 ^ 128
  /-- The first height is a `u64`. -/
  heightStart : ∀ n ∈ terms.height.1, n < 2 ^ 64
  /-- The last height is a `u64`. -/
  heightEnd : ∀ n ∈ terms.height.2, n < 2 ^ 64
  /-- The first offset is a `u64`. -/
  offsetStart : ∀ n ∈ terms.offset.1, n < 2 ^ 64
  /-- The last offset is a `u64`. -/
  offsetEnd : ∀ n ∈ terms.offset.2, n < 2 ^ 64

/-- The etching fits in its types, and its supply in a `u128`. -/
structure Etching.Valid (etching : Etching) : Prop where
  /-- The decimals are no more than allowed. -/
  divisibility : ∀ n ∈ etching.divisibility, n ≤ Etching.MAX_DIVISIBILITY
  /-- The premine is a `u128`. -/
  premine : ∀ n ∈ etching.premine, n < 2 ^ 128
  /-- The name is a `u128`. -/
  rune : ∀ n ∈ etching.rune, n < 2 ^ 128
  /-- The spacers are no more than a name has gaps. -/
  spacers : ∀ n ∈ etching.spacers, n ≤ Etching.MAX_SPACERS
  /-- The terms fit. -/
  terms : ∀ t ∈ etching.terms, t.Valid
  /-- The supply does not overflow. -/
  supply : etching.supply.isSome

/-- An edict of a transaction with `count` outputs. -/
structure Edict.Valid (count : Nat) (edict : Edict) : Prop where
  /-- The id can be made. -/
  id : edict.id.Valid
  /-- The amount is a `u128`. -/
  amount : edict.amount < 2 ^ 128
  /-- The output exists, or is the number of outputs, which stands for all. -/
  output : edict.output ≤ count

/-- A runestone of a transaction with `count` outputs. -/
structure Runestone.Valid (count : Nat) (runestone : Runestone) : Prop where
  /-- The edicts are valid. -/
  edicts : ∀ e ∈ runestone.edicts, e.Valid count
  /-- The etching fits. -/
  etching : ∀ e ∈ runestone.etching, e.Valid
  /-- The id of the mint can be made. -/
  mint : ∀ id ∈ runestone.mint, id.Valid
  /-- The pointer points to an output. -/
  pointer : ∀ n ∈ runestone.pointer, n < count

/-! ## Messages -/

section

variable {outputs : List ScriptBuf}

theorem chunks_four_cons (a b c d : Nat) (rest : List Nat) :
    chunks 4 (a :: b :: c :: d :: rest) = [a, b, c, d] :: chunks 4 rest := rfl

theorem Edict.fromIntegers_of_valid (hcount : outputs.length < 2 ^ 32) {e : Edict}
    (h : e.Valid outputs.length) :
    Edict.fromIntegers outputs e.id e.amount e.output = .ok (some e) := by
  have houtput := h.output
  have hlt : e.output < 2 ^ 32 := by omega
  rw [Edict.fromIntegers, tryFrom, if_pos hlt]
  dsimp only
  rw [tryFrom, if_pos hcount, unwrap_some, ok_bind, if_neg (by omega)]
  rfl

/-- **The edicts are read back.** -/
theorem bodyEdicts_edictIntegers (hcount : outputs.length < 2 ^ 32) {edicts : List Edict}
    {previous : RuneId} (hvalid : ∀ e ∈ edicts, e.Valid outputs.length)
    (hsorted : SortedById edicts) (hfirst : ∀ e ∈ edicts, previous.Le e.id) :
    bodyEdicts outputs (chunks 4 (edictIntegers previous edicts)) previous =
      .ok (none, edicts) := by
  induction edicts generalizing previous with
  | nil => rfl
  | cons edict edicts ih =>
    obtain ⟨hle, -⟩ := List.forall_mem_cons.mp hfirst
    obtain ⟨hnext, hrest⟩ := List.pairwise_cons.mp hsorted
    obtain ⟨hedict, hedicts⟩ := List.forall_mem_cons.mp hvalid
    simp only [edictIntegers, List.cons_append, List.nil_append, chunks_four_cons, bodyEdicts,
      RuneId.next_of_le hle hedict.id, Edict.fromIntegers_of_valid hcount hedict, ok_bind,
      ih hedicts hrest hnext]
    rfl

/-- The map of a message after a sequence of fields. -/
def readFields (fields : List (Nat × Nat)) (map : MessageFields) : MessageFields :=
  fields.foldl (fun map field => map.alter field.1 fun values => values.getD [] ++ [field.2]) map

theorem fromIntegersFrom_fieldIntegers {fields : List (Nat × Nat)}
    (h : ∀ field ∈ fields, field.1 ≠ 0) (rest : List Nat) (map : MessageFields) :
    fromIntegersFrom outputs (fieldIntegers fields ++ rest) map =
      fromIntegersFrom outputs rest (readFields fields map) := by
  induction fields generalizing map with
  | nil => rfl
  | cons field fields ih =>
    obtain ⟨hfield, hfields⟩ := List.forall_mem_cons.mp h
    have hcons : fieldIntegers (field :: fields) ++ rest =
        field.1 :: field.2 :: (fieldIntegers fields ++ rest) := rfl
    have hbody : ¬field.1 = Tag.body.toNat := hfield
    rw [hcons, fromIntegersFrom, if_neg hbody]
    exact ih hfields _

/-- **The message is read back.** -/
theorem fromIntegers_eq (hcount : outputs.length < 2 ^ 32) {fields : List (Nat × Nat)}
    {edicts : List Edict} (hfields : ∀ field ∈ fields, field.1 ≠ 0)
    (hvalid : ∀ e ∈ edicts, e.Valid outputs.length) :
    Message.fromIntegers outputs (fieldIntegers fields ++ bodyIntegers edicts) =
      .ok ⟨none, sortById edicts, readFields fields ∅⟩ := by
  rw [Message.fromIntegers, fromIntegersFrom_fieldIntegers hfields, bodyIntegers]
  cases edicts with
  | nil => rfl
  | cons edict edicts =>
    rw [List.isEmpty_cons, if_neg (by simp), fromIntegersFrom.eq_def]
    dsimp only
    rw [if_pos rfl,
        bodyEdicts_edictIntegers hcount (fun e he => hvalid e (mem_sortById.mp he))
        (sortedById_sortById _) fun e _ => e.id.zero_le]
    rfl

end

/-! ## What is left to read -/

/-- The values and the flags that are left to read of a message. -/
structure Remaining where
  /-- The values of each tag. -/
  values : Nat → List Nat
  /-- The flags. -/
  flags : Nat

/-- The entry of a map that has these values: there is none without values. -/
def entryOf : List Nat → Option (List Nat)
  | [] => none
  | value :: values => some (value :: values)

theorem entryOf_of_ne_nil {values : List Nat} (h : values ≠ []) : entryOf values = some values := by
  cases values with
  | nil => exact absurd rfl h
  | cons value values => rfl

/-- The map has these values, and no other entry. -/
def HasValues (map : MessageFields) (values : Nat → List Nat) : Prop :=
  ∀ tag, map.lookup tag = entryOf (values tag)

theorem hasValues_empty : HasValues ∅ fun _ => [] := fun tag => HashMap.lookup_empty tag

theorem HasValues.alter {map : MessageFields} {values : Nat → List Nat} (h : HasValues map values)
    (field : Nat × Nat) :
    HasValues (map.alter field.1 fun values => values.getD [] ++ [field.2]) fun tag =>
      values tag ++ if field.1 = tag then [field.2] else [] := by
  intro tag
  rw [HashMap.lookup_alter, h tag]
  dsimp only
  by_cases htag : tag = field.1
  · subst htag
    rw [if_pos rfl, if_pos rfl, h field.1]
    cases values field.1 with
    | nil => rfl
    | cons value values => rfl
  · rw [if_neg htag, if_neg (Ne.symm htag), List.append_nil]

/-- **The map of a message** has the values of its fields. -/
theorem HasValues.readFields {map : MessageFields} {values : Nat → List Nat}
    (h : HasValues map values) (fields : List (Nat × Nat)) :
    HasValues (Runehook.readFields fields map) fun tag => values tag ++ fieldValues tag fields := by
  induction fields generalizing map values with
  | nil =>
    intro tag
    dsimp only
    rw [fieldValues_nil, List.append_nil]
    exact h tag
  | cons field fields ih =>
    intro tag
    dsimp only
    rw [fieldValues_cons, ← List.append_assoc]
    exact ih (h.alter field) tag

/-- The state of a reader. -/
def Remaining.Of (s : Remaining) (unread : Unread) : Prop :=
  HasValues unread.fields s.values ∧ unread.flags = s.flags

/-- Forget the values of a tag. -/
def Remaining.erase (s : Remaining) (tag : Tag) : Remaining :=
  { s with values := fun t => if t = tag.toNat then [] else s.values t }

/-- A reader gives a value, and takes what is left from one state to another. -/
def Reads {T : Type} (m : MessageM T) (s : Remaining) (value : T) (s' : Remaining) : Prop :=
  ∀ unread, s.Of unread → ∃ unread', m unread = .ok (value, unread') ∧ s'.Of unread'

section

variable {T U : Type} {s s' s'' : Remaining}

theorem Reads.pure (value : T) : Reads (Pure.pure value) s value s :=
  fun unread h => ⟨unread, rfl, h⟩

/-- **One reader after another.** -/
theorem Reads.bind {m : MessageM T} {k : T → MessageM U} {t : T} {u : U} (hm : Reads m s t s')
    (hk : Reads (k t) s' u s'') : Reads (m >>= k) s u s'' := by
  intro unread h
  obtain ⟨unread', hrun, h'⟩ := hm unread h
  obtain ⟨unread'', hrun', h''⟩ := hk unread' h'
  refine ⟨unread'', ?_, h''⟩
  show (m unread >>= fun p => k p.1 p.2) = _
  rw [hrun]
  exact hrun'

theorem Reads.setFlags (flags : Nat) :
    Reads (modify fun unread => { unread with flags := flags }) s () { s with flags := flags } :=
  fun unread h => ⟨{ unread with flags := flags }, rfl, h.1, rfl⟩

/-- What is left to read is looked at. -/
theorem Reads.get {k : Unread → MessageM U} {u : U}
    (h : ∀ unread, s.Of unread → Reads (k unread) s u s') :
    Reads (MonadState.get >>= k) s u s' :=
  fun unread hunread => h unread hunread unread hunread

theorem Remaining.erase_of_empty {tag : Tag} (h : s.values tag.toNat = []) : s.erase tag = s := by
  have hvalues : (fun t => if t = tag.toNat then [] else s.values t) = s.values := by
    funext t
    split
    · next heq => rw [heq, h]
    · rfl
  rw [Remaining.erase, hvalues]

/-- **Taking a field**: nothing if there are no values, or something that is made of all of them. -/
theorem Reads.take {tag : Tag} {count : Nat} {f : List Nat → Option T} {o : Option T}
    {g : T → List Nat} (hvalues : s.values tag.toNat = (o.map g).getD [])
    (hlength : ∀ t, (g t).length = count) (hcount : 0 < count) (hf : ∀ t ∈ o, f (g t) = some t) :
    Reads (tag.take count f) s o (s.erase tag) := by
  rintro ⟨map, flags⟩ ⟨hmap, hflags⟩
  cases o with
  | none =>
    have hlookup : map.lookup tag.toNat = none := by
      rw [hmap, hvalues]
      rfl
    refine ⟨⟨map, flags⟩, ?_, ?_⟩
    · rw [Tag.take]
      dsimp only
      rw [hlookup]
      rfl
    · rw [Remaining.erase_of_empty hvalues]
      exact ⟨hmap, hflags⟩
  | some t =>
    have hsome : s.values tag.toNat = g t := hvalues
    have hpos : g t ≠ [] := List.ne_nil_of_length_pos (by rw [hlength]; exact hcount)
    -- the field is there with exactly the values of the item
    have hlookup : map.lookup tag.toNat = some (g t) := by
      rw [hmap, hsome, entryOf_of_ne_nil hpos]
    have hdrop : (g t).drop count = [] := List.drop_eq_nil_of_le (by rw [hlength])
    refine ⟨⟨AList.erase tag.toNat (map.insert tag.toNat []), flags⟩, ?_, ?_, hflags⟩
    -- the take reads them all and erases the emptied field
    · rw [Tag.take]
      dsimp only
      rw [hlookup]
      dsimp only
      rw [if_neg (by rw [hlength]; omega), List.take_of_length_le (by rw [hlength]), hf t rfl]
      dsimp only
      rw [hdrop, List.isEmpty_nil, if_pos rfl, HashMap.lookup_insert, if_pos rfl]
      rfl
    · intro t'
      show AList.lookup t' (AList.erase tag.toNat (map.insert tag.toNat [])) = _
      rw [Remaining.erase]
      dsimp only
      by_cases h : t' = tag.toNat
      · rw [if_pos h, h, AList.lookup_erase]
        rfl
      · rw [if_neg h, AList.lookup_erase_ne h, HashMap.lookup_insert, if_neg h]
        exact hmap t'

theorem Reads.takeThen_some {flag : Flag} {m : MessageM T} {t : T}
    (hflag : s.flags.testBit flag.toNat)
    (hm : Reads m { s with flags := s.flags - 2 ^ flag.toNat } t s') :
    Reads (flag.takeThen m) s (some t) s' := by
  rintro ⟨map, flags⟩ ⟨hmap, hflags⟩
  obtain ⟨unread', hrun, h'⟩ := hm ⟨map, flags - 2 ^ flag.toNat⟩ ⟨hmap, by rw [← hflags]⟩
  refine ⟨unread', ?_, h'⟩
  dsimp only at hflags
  rw [Flag.takeThen]
  dsimp only
  rw [hflags, if_pos hflag, StateT.run, ← hflags, hrun]
  rfl

theorem Reads.takeThen_none {flag : Flag} {m : MessageM T}
    (hflag : s.flags.testBit flag.toNat = false) :
    Reads (flag.takeThen m) s none s := by
  rintro ⟨map, flags⟩ ⟨hmap, hflags⟩
  refine ⟨⟨map, flags⟩, ?_, hmap, hflags⟩
  dsimp only at hflags
  rw [Flag.takeThen]
  dsimp only
  rw [hflags, hflag]
  rfl

end

/-! ## Reading a runestone -/

@[simp] theorem Remaining.values_erase (s : Remaining) (tag : Tag) (t : Nat) :
    (s.erase tag).values t = if t = tag.toNat then [] else s.values t := rfl

/-- Taking a single value. -/
theorem Reads.takeSingle {T : Type} {s : Remaining} {tag : Tag} {f : Nat → Option T}
    {o : Option T} {g : T → Nat} (hvalues : s.values tag.toNat = (o.map g).toList)
    (hf : ∀ t ∈ o, f (g t) = some t) :
    Reads (tag.take 1 (single f)) s o (s.erase tag) := by
  refine Reads.take (g := fun t => [g t]) ?_ (fun _ => rfl) Nat.one_pos hf
  rw [hvalues]
  cases o <;> rfl

theorem tryFrom_of_lt {bits n : Nat} (h : n < 2 ^ bits) : tryFrom bits n = some n := if_pos h

theorem charFromU32_toNat (c : Char) : charFromU32 c.toNat = some c := by
  have hvalid : c.toNat.isValidChar := c.valid
  rw [charFromU32, if_pos hvalid, Char.ofNat_toNat]

/-- The values of a state are the ones of a sequence of fields, for some tags. -/
def Remaining.HasFields (s : Remaining) (tags : List Tag) (fields : List (Nat × Nat)) : Prop :=
  ∀ tag ∈ tags, s.values tag.toNat = fieldValues tag.toNat fields

/-- The tags of the terms, in the order in which they are taken. -/
def termsTags : List Tag := [.cap, .heightStart, .heightEnd, .amount, .offsetStart, .offsetEnd]

/-- The terms of an etching are read back. -/
theorem reads_takeTerms {terms : Terms} (h : terms.Valid) {s : Remaining}
    (hs : s.HasFields termsTags terms.fields) :
    Reads takeTerms s terms (termsTags.foldl Remaining.erase s) := by
  -- the values of each tag are those of its own field
  have hcap : s.values 8 = terms.cap.toList := by
    simpa [Terms.fields, Tag.toNat] using hs .cap (by simp [termsTags])
  have hheightStart : s.values 12 = terms.height.1.toList := by
    simpa [Terms.fields, Tag.toNat] using hs .heightStart (by simp [termsTags])
  have hheightEnd : s.values 14 = terms.height.2.toList := by
    simpa [Terms.fields, Tag.toNat] using hs .heightEnd (by simp [termsTags])
  have hamount : s.values 10 = terms.amount.toList := by
    simpa [Terms.fields, Tag.toNat] using hs .amount (by simp [termsTags])
  have hoffsetStart : s.values 16 = terms.offset.1.toList := by
    simpa [Terms.fields, Tag.toNat] using hs .offsetStart (by simp [termsTags])
  have hoffsetEnd : s.values 18 = terms.offset.2.toList := by
    simpa [Terms.fields, Tag.toNat] using hs .offsetEnd (by simp [termsTags])
  -- the fields are taken in the order of the source
  refine (Reads.takeSingle (o := terms.cap) (g := id) (by simp [Tag.toNat, hcap])
    fun _ _ => rfl).bind ?_
  refine (Reads.takeSingle (o := terms.height.1) (g := id)
    (by simp [Tag.toNat, hheightStart]) fun n hn =>
    tryFrom_of_lt (h.heightStart n hn)).bind ?_
  refine (Reads.takeSingle (o := terms.height.2) (g := id)
    (by simp [Tag.toNat, hheightEnd]) fun n hn =>
    tryFrom_of_lt (h.heightEnd n hn)).bind ?_
  refine (Reads.takeSingle (o := terms.amount) (g := id) (by simp [Tag.toNat, hamount])
    fun _ _ => rfl).bind ?_
  refine (Reads.takeSingle (o := terms.offset.1) (g := id)
    (by simp [Tag.toNat, hoffsetStart]) fun n hn =>
    tryFrom_of_lt (h.offsetStart n hn)).bind ?_
  refine (Reads.takeSingle (o := terms.offset.2) (g := id)
    (by simp [Tag.toNat, hoffsetEnd]) fun n hn =>
    tryFrom_of_lt (h.offsetEnd n hn)).bind ?_
  exact .pure terms

theorem Remaining.HasFields.erase {tags : List Tag} {s : Remaining}
    {fields : List (Nat × Nat)} {tag : Tag} (h : s.HasFields tags fields)
    (hne : ∀ t ∈ tags, t.toNat ≠ tag.toNat) : (s.erase tag).HasFields tags fields := by
  intro t ht
  rw [Remaining.values_erase, if_neg (hne t ht)]
  exact h t ht

theorem Remaining.values_foldl_erase (tags : List Tag) (s : Remaining) (t : Nat) :
    (tags.foldl Remaining.erase s).values t = if t ∈ tags.map Tag.toNat then []
    else s.values t := by
  induction tags generalizing s with
  | nil => rfl
  | cons tag tags ih =>
    rw [List.foldl_cons, ih, Remaining.values_erase, List.map_cons]
    by_cases h : t = tag.toNat
    · simp [h]
    · simp [h]

/-- A state without values for some tags is not changed when they are erased. -/
theorem Remaining.foldl_erase_of_hasFields_nil {tags : List Tag} {s : Remaining}
    (h : s.HasFields tags []) :
    tags.foldl Remaining.erase s = s := by
  induction tags with
  | nil => rfl
  | cons tag tags ih =>
    obtain ⟨htag, htags⟩ := List.forall_mem_cons.mp h
    rw [List.foldl_cons, Remaining.erase_of_empty htag]
    exact ih htags

/-- The flags that are left after the one for the etching. -/
def termsFlags (terms : Option Terms) (turbo : Bool) : Nat :=
  (if terms.isSome then 2 else 0) + if turbo then 4 else 0

theorem Etching.flags_eq (e : Etching) : e.flags = 1 + termsFlags e.terms e.turbo := by
  rw [Etching.flags, termsFlags]
  cases e.terms with
  | none => cases e.turbo <;> rfl
  | some terms =>
    simp only [Option.isSome_some, if_true]
    cases e.turbo <;> rfl

theorem termsFlags_some (terms : Terms) (turbo : Bool) :
    termsFlags (some terms) turbo = if turbo then 6 else 2 := by
  cases turbo <;> rfl

/-- The optional terms of an etching are read back. -/
theorem reads_terms {terms : Option Terms} (h : ∀ t ∈ terms, t.Valid) (turbo : Bool) {s : Remaining}
    (hs : s.HasFields termsTags ((terms.map Terms.fields).getD []))
    (hflags : s.flags = termsFlags terms turbo) :
    Reads (Flag.terms.takeThen takeTerms) s terms
      { termsTags.foldl Remaining.erase s with flags := termsFlags none turbo } := by
  cases terms with
  | none =>
    rw [Remaining.foldl_erase_of_hasFields_nil hs, ← hflags]
    refine Reads.takeThen_none ?_
    rw [hflags]
    cases turbo <;> rfl
  | some terms =>
    -- taking the flag of the terms leaves that of turbo
    have hrest : s.flags - 2 ^ Flag.terms.toNat = termsFlags none turbo := by
      rw [hflags, termsFlags_some]
      cases turbo <;> rfl
    refine Reads.takeThen_some ?_ ?_
    · rw [hflags, termsFlags_some]
      cases turbo <;> rfl
    · rw [hrest]
      exact reads_takeTerms (h terms rfl) (s := { s with flags := termsFlags none turbo }) hs

theorem reads_turbo (turbo : Bool) {s : Remaining} (hflags : s.flags = termsFlags none turbo) :
    ∃ o, Reads (Flag.turbo.takeThen (pure ())) s o { s with flags := 0 } ∧ o.isSome = turbo := by
  cases turbo with
  | false =>
    refine ⟨none, ?_, rfl⟩
    have hs : ({ s with flags := 0 } : Remaining) = s := by
      rw [show (0 : Nat) = s.flags from hflags.symm]
    rw [hs]
    refine Reads.takeThen_none ?_
    rw [hflags]
    rfl
  | true =>
    refine ⟨some (), ?_, rfl⟩
    have hs : ({ s with flags := 0 } : Remaining) =
        { s with flags := s.flags - 2 ^ Flag.turbo.toNat } := by
      rw [hflags]
      rfl
    rw [hs]
    refine Reads.takeThen_some ?_ (.pure ())
    rw [hflags]
    rfl

/-- The tags of an etching, in the order in which they are taken. -/
def etchingTags : List Tag := [.divisibility, .premine, .rune, .spacers, .symbol] ++ termsTags

theorem fieldValues_terms {o : Option Terms} {t : Nat} (h : ∀ tag ∈ termsTags, tag.toNat ≠ t) :
    fieldValues t ((o.map Terms.fields).getD []) = [] := by
  simp only [termsTags, List.forall_mem_cons] at h
  cases o with
  | none => rfl
  | some terms => simp [Terms.fields, h]

/-- The etching is read back. -/
theorem reads_takeEtching {e : Etching} (h : e.Valid) {s : Remaining}
    (hs : s.HasFields etchingTags e.fields) (hflags : s.flags = termsFlags e.terms e.turbo) :
    Reads takeEtching s e { etchingTags.foldl Remaining.erase s with flags := 0 } := by
  -- the values of each tag are those of its own field
  have hdivisibility : s.values 1 = e.divisibility.toList := by
    simpa [Etching.fields, Tag.toNat, @fieldValues_terms e.terms 1 (by decide)]
      using hs .divisibility (by simp [etchingTags])
  have hpremine : s.values 6 = e.premine.toList := by
    simpa [Etching.fields, Tag.toNat, @fieldValues_terms e.terms 6 (by decide)]
      using hs .premine (by simp [etchingTags])
  have hrune : s.values 4 = e.rune.toList := by
    simpa [Etching.fields, Tag.toNat, @fieldValues_terms e.terms 4 (by decide)]
      using hs .rune (by simp [etchingTags])
  have hspacers : s.values 3 = e.spacers.toList := by
    simpa [Etching.fields, Tag.toNat, @fieldValues_terms e.terms 3 (by decide)]
      using hs .spacers (by simp [etchingTags])
  have hsymbol : s.values 5 = (e.symbol.map Char.toNat).toList := by
    simpa [Etching.fields, Tag.toNat, @fieldValues_terms e.terms 5 (by decide)]
      using hs .symbol (by simp [etchingTags])
  -- the fields of the terms are left for the terms
  have hterms : s.HasFields termsTags ((e.terms.map Terms.fields).getD []) := by
    intro tag htag
    rw [hs tag (List.mem_append_right _ htag)]
    simp only [termsTags, List.mem_cons, List.not_mem_nil, or_false] at htag
    rcases htag with rfl | rfl | rfl | rfl | rfl | rfl <;> simp [Etching.fields, Tag.toNat]
  -- the fields are taken in the order of the source
  refine (Reads.takeSingle (o := e.divisibility) (g := id) (by simp [Tag.toNat, hdivisibility])
    fun n hn => ?_).bind ?_
  · have hle := h.divisibility n hn
    have hlt : n < 2 ^ 8 := Nat.lt_of_le_of_lt hle (by decide)
    simp [tryFrom_of_lt hlt, hle]
  refine (Reads.takeSingle (o := e.premine) (g := id) (by simp [Tag.toNat, hpremine])
    fun _ _ => rfl).bind ?_
  refine (Reads.takeSingle (o := e.rune) (g := id) (by simp [Tag.toNat, hrune])
    fun _ _ => rfl).bind ?_
  refine (Reads.takeSingle (o := e.spacers) (g := id) (by simp [Tag.toNat, hspacers])
    fun n hn => ?_).bind ?_
  · have hle := h.spacers n hn
    have hlt : n < 2 ^ 32 := Nat.lt_of_le_of_lt hle (by decide)
    simp [tryFrom_of_lt hlt, hle]
  refine (Reads.takeSingle (o := e.symbol) (g := Char.toNat) (by simp [Tag.toNat, hsymbol])
    fun c _ => ?_).bind ?_
  · have hlt : c.toNat < 2 ^ 32 := c.val.toNat_lt
    simp [tryFrom_of_lt hlt, charFromU32_toNat]
  refine (reads_terms (s := (((((s.erase Tag.divisibility).erase Tag.premine).erase Tag.rune).erase
    Tag.spacers).erase Tag.symbol)) h.terms e.turbo ?_ hflags).bind ?_
  -- no earlier take touched a tag of the terms
  · intro tag htag
    rw [← hterms tag htag]
    simp only [termsTags, List.mem_cons, List.not_mem_nil, or_false] at htag
    rcases htag with rfl | rfl | rfl | rfl | rfl | rfl <;> simp [Tag.toNat]
  obtain ⟨o, ho, hturbo⟩ := reads_turbo e.turbo
    (s := { etchingTags.foldl Remaining.erase s with flags := termsFlags none e.turbo }) rfl
  refine ho.bind ?_
  rw [hturbo]
  exact .pure e

/-! ## The round trip -/

/-- The tags of a runestone. -/
def runestoneTags : List Tag := [.flags] ++ etchingTags ++ [.mint, .pointer]

theorem fieldValues_etching {o : Option Etching} {t : Nat}
    (h : ∀ tag ∈ .flags :: etchingTags, tag.toNat ≠ t) :
    fieldValues t ((o.map Etching.fields).getD []) = [] := by
  obtain ⟨hflags, hetching⟩ := List.forall_mem_cons.mp h
  obtain ⟨hown, hterms⟩ := List.forall_mem_append.mp hetching
  simp only [List.forall_mem_cons] at hown
  cases o with
  | none => rfl
  | some e => simp [Etching.fields, fieldValues_terms hterms, hflags, hown]

theorem Runestone.fieldValues_eq_nil {r : Runestone} {t : Nat}
    (h : ∀ tag ∈ runestoneTags, tag.toNat ≠ t) :
    fieldValues t r.fields = [] := by
  obtain ⟨hetching, hrest⟩ := List.forall_mem_append.mp h
  simp only [List.forall_mem_cons] at hrest
  simp [Runestone.fields, fieldValues_etching hetching, hrest]

/-- What is read of the fields of a runestone. -/
def Runestone.remaining (r : Runestone) : Remaining := ⟨fun tag => fieldValues tag r.fields, 0⟩

/-- The optional etching is read back. -/
theorem reads_etching {o : Option Etching} (h : ∀ e ∈ o, e.Valid) {s : Remaining}
    (hs : s.HasFields etchingTags ((o.map Etching.fields).getD []))
    (hflags : s.flags = (o.map Etching.flags).getD 0) :
    Reads (Flag.etching.takeThen takeEtching) s o
    { etchingTags.foldl Remaining.erase s with flags := 0 } := by
  cases o with
  | none =>
    have hzero : ({ s with flags := 0 } : Remaining) = s := by
      rw [show (0 : Nat) = s.flags from hflags.symm]
    rw [Remaining.foldl_erase_of_hasFields_nil hs, hzero]
    refine Reads.takeThen_none ?_
    rw [hflags]
    rfl
  | some e =>
    -- the flag of the etching is the lowest bit
    have hflags' : s.flags = 1 + termsFlags e.terms e.turbo := hflags.trans e.flags_eq
    refine Reads.takeThen_some ?_ ?_
    · rw [hflags']
      unfold termsFlags
      split_ifs <;> rfl
    · refine reads_takeEtching (s := { s with flags := s.flags - 2 ^ Flag.etching.toNat })
        (h e rfl) hs ?_
      rw [hflags']
      exact Nat.add_sub_cancel_left 1 _

/-- The flaws that `decipher` looks for in what is left. -/
theorem keys_eq_nil {map : MessageFields} {values : Nat → List Nat} (h : HasValues map values)
    (hnone : ∀ tag, values tag = []) : map.keys = [] := by
  refine List.eq_nil_iff_forall_not_mem.mpr fun tag htag => ?_
  obtain ⟨found, hfound⟩ := HashMap.exists_lookup_of_mem_keys htag
  rw [h, hnone] at hfound
  cases hfound

/-- **A message is deciphered**: the runestone that its fields and its edicts were written from. -/
theorem reads_decipher {outputs : List ScriptBuf} (hcount : outputs.length < 2 ^ 32) {r : Runestone}
    (h : r.Valid outputs.length) (edicts : List Edict) (map : MessageFields) :
    ∃ s', Reads (Message.decipher outputs ⟨none, edicts, map⟩) r.remaining
    (.runestone { r with edicts := edicts }) s' := by
  have hflags : fieldValues 2 r.fields = ((r.etching.map Etching.flags).map id).toList := by
    rw [Runestone.fields]
    cases r.etching with
    | none => simp [Tag.toNat]
    | some e => simp [Etching.fields, Tag.toNat, @fieldValues_terms e.terms 2 (by decide)]
  have hmint : fieldValues 20 r.fields = (r.mint.map fun id => [id.block, id.tx]).getD [] := by
    simp [Runestone.fields, Tag.toNat, @fieldValues_etching r.etching 20 (by decide)]
  have hpointer : fieldValues 22 r.fields = r.pointer.toList := by
    simp [Runestone.fields, Tag.toNat, @fieldValues_etching r.etching 22 (by decide)]
  have hetching : r.remaining.HasFields etchingTags ((r.etching.map Etching.fields).getD []) := by
    intro tag htag
    show fieldValues tag.toNat r.fields = _
    rw [Runestone.fields, fieldValues_append, fieldValues_append, List.append_assoc]
    have hne : Tag.mint.toNat ≠ tag.toNat ∧ Tag.pointer.toNat ≠ tag.toNat := by
      revert tag
      decide
    simp [hne]
  let s₁ : Remaining :=
    { r.remaining.erase .flags with flags := (r.etching.map Etching.flags).getD 0 }
  let s₂ : Remaining := { etchingTags.foldl Remaining.erase s₁ with flags := 0 }
  have hs₂ (t : Nat) (ht : t ∉ (.flags :: etchingTags).map Tag.toNat) :
      s₂.values t = fieldValues t r.fields := by
    rw [List.map_cons, List.mem_cons, not_or] at ht
    show (etchingTags.foldl Remaining.erase s₁).values t = _
    rw [Remaining.values_foldl_erase, if_neg ht.2]
    exact if_neg ht.1
  have hnone (t : Nat) : ((s₂.erase .mint).erase .pointer).values t = [] := by
    rw [Remaining.values_erase, Remaining.values_erase]
    split_ifs with hpointer' hmint'
    · rfl
    · rfl
    · by_cases ht : t ∈ (.flags :: etchingTags).map Tag.toNat
      · show (etchingTags.foldl Remaining.erase s₁).values t = []
        rw [Remaining.values_foldl_erase]
        split
        · rfl
        · next hnot =>
          -- only the flags are left
          have : t = Tag.flags.toNat := by
            rw [List.map_cons, List.mem_cons] at ht
            exact ht.resolve_right hnot
          exact if_pos this
      · rw [hs₂ t ht]
        refine Runestone.fieldValues_eq_nil
          (List.forall_mem_append.mpr ⟨fun tag htag heq => ?_, ?_⟩)
        · exact ht (List.mem_map.mpr ⟨tag, htag, heq⟩)
        · simp [Ne.symm hmint', Ne.symm hpointer']
  refine ⟨(s₂.erase .mint).erase .pointer, ?_⟩
  refine (Reads.takeSingle (o := r.etching.map Etching.flags) (g := id) hflags
    fun _ _ => rfl).bind ?_
  refine (Reads.setFlags _).bind ?_
  refine (reads_etching (s := s₁) h.etching (hetching.erase (by decide)) rfl).bind ?_
  refine (Reads.take (s := s₂) (o := r.mint) (g := fun id => [id.block, id.tx]) ?_
    (fun _ => rfl) (by omega) fun id hid => ?_).bind ?_
  · exact (hs₂ 20 (by decide)).trans hmint
  · have hid := h.mint id hid
    simp [tryFrom_of_lt hid.fits.block, tryFrom_of_lt hid.fits.tx, RuneId.new_of_valid hid]
  refine (Reads.takeSingle (s := s₂.erase .mint) (o := r.pointer) (g := id) ?_
    fun n hn => ?_).bind ?_
  · rw [Option.map_id_fun, id_eq, ← hpointer]
    exact hs₂ 22 (by decide)
  · have hlt := h.pointer n hn
    have hlt' : n < 2 ^ 32 := by omega
    simp [tryFrom_of_lt hlt', hlt]
  refine Reads.get fun unread hunread => ?_
  have hkeys : unread.fields.keys = [] := keys_eq_nil hunread.1 hnone
  have hzero : unread.flags = 0 := hunread.2
  have hsupply : r.etching.any (fun etching => etching.supply.isNone) = false := by
    cases hetching : r.etching with
    | none => rfl
    | some e =>
      have hsome := (h.etching e hetching).supply
      simpa using hsome
  simp only [hkeys, hzero, hsupply]
  exact .pure _

/-- A field that is neither the body nor out of range. -/
def FieldFits (field : Nat × Nat) : Prop := field.1 ≠ 0 ∧ field.1 < 2 ^ 128 ∧ field.2 < 2 ^ 128

theorem Tag.fields_fit {tag : Tag} (htag : tag ≠ .body) {values : List Nat}
    (h : ∀ n ∈ values, n < 2 ^ 128) :
    ∀ field ∈ tag.fields values, FieldFits field := by
  intro field hfield
  obtain ⟨n, hn, rfl⟩ := List.mem_map.mp hfield
  have hpos : tag.toNat ≠ 0 ∧ tag.toNat < 2 ^ 128 := by
    cases tag <;> first | exact absurd rfl htag | decide
  exact ⟨hpos.1, hpos.2, h n hn⟩

theorem forall_mem_toList {o : Option Nat} {bits : Nat} (hbits : bits ≤ 128)
    (h : ∀ n ∈ o, n < 2 ^ bits) :
    ∀ n ∈ o.toList, n < 2 ^ 128 :=
  fun n hn => Nat.lt_of_lt_of_le (h n (Option.mem_toList.mp hn))
    (Nat.pow_le_pow_right (by omega) hbits)

theorem Terms.fields_fit {terms : Terms} (h : terms.Valid) :
    ∀ field ∈ terms.fields, FieldFits field := by
  simp only [Terms.fields, List.forall_mem_append]
  refine ⟨⟨⟨⟨⟨?_, ?_⟩, ?_⟩, ?_⟩, ?_⟩, ?_⟩
  · exact Tag.fields_fit (by decide) (forall_mem_toList (by omega) h.amount)
  · exact Tag.fields_fit (by decide) (forall_mem_toList (by omega) h.cap)
  · exact Tag.fields_fit (by decide) (forall_mem_toList (by omega) h.heightStart)
  · exact Tag.fields_fit (by decide) (forall_mem_toList (by omega) h.heightEnd)
  · exact Tag.fields_fit (by decide) (forall_mem_toList (by omega) h.offsetStart)
  · exact Tag.fields_fit (by decide) (forall_mem_toList (by omega) h.offsetEnd)

theorem Etching.fields_fit {e : Etching} (h : e.Valid) : ∀ field ∈ e.fields, FieldFits field := by
  have hflags : e.flags < 2 ^ 128 := by
    rw [e.flags_eq, termsFlags]
    split_ifs <;> omega
  have hdivisibility : ∀ n ∈ e.divisibility, n < 2 ^ 8 :=
    fun n hn => Nat.lt_of_le_of_lt (h.divisibility n hn) (by decide)
  have hspacers : ∀ n ∈ e.spacers, n < 2 ^ 32 :=
    fun n hn => Nat.lt_of_le_of_lt (h.spacers n hn) (by decide)
  have hsymbol : ∀ n ∈ e.symbol.map Char.toNat, n < 2 ^ 32 := by
    intro n hn
    obtain ⟨c, -, rfl⟩ := Option.mem_map.mp hn
    exact c.val.toNat_lt
  simp only [Etching.fields, List.forall_mem_append]
  refine ⟨⟨⟨⟨⟨⟨?_, ?_⟩, ?_⟩, ?_⟩, ?_⟩, ?_⟩, ?_⟩
  · exact Tag.fields_fit (by decide) (by simpa using hflags)
  · exact Tag.fields_fit (by decide) (forall_mem_toList (by omega) h.rune)
  · exact Tag.fields_fit (by decide) (forall_mem_toList (by omega) hdivisibility)
  · exact Tag.fields_fit (by decide) (forall_mem_toList (by omega) hspacers)
  · exact Tag.fields_fit (by decide) (forall_mem_toList (by omega) hsymbol)
  · exact Tag.fields_fit (by decide) (forall_mem_toList (by omega) h.premine)
  · cases hterms : e.terms with
    | none => simp
    | some terms => exact Terms.fields_fit (h.terms terms hterms)

theorem Runestone.fields_fit {r : Runestone} {count : Nat} (hcount : count < 2 ^ 32)
    (h : r.Valid count) :
    ∀ field ∈ r.fields, FieldFits field := by
  have hpointer : ∀ n ∈ r.pointer, n < 2 ^ 32 := fun n hn => Nat.lt_trans (h.pointer n hn) hcount
  simp only [Runestone.fields, List.forall_mem_append]
  refine ⟨⟨?_, ?_⟩, ?_⟩
  · cases hetching : r.etching with
    | none => simp
    | some e => exact Etching.fields_fit (h.etching e hetching)
  · refine Tag.fields_fit (by decide) ?_
    cases hmint : r.mint with
    | none => simp
    | some id =>
      have hblock := (h.mint id hmint).fits.block
      have htx := (h.mint id hmint).fits.tx
      simp only [Option.map_some, Option.getD_some, List.forall_mem_cons]
      exact ⟨by omega, by omega, by simp⟩
  · exact Tag.fields_fit (by decide) (forall_mem_toList (by omega) hpointer)

theorem lt_of_mem_edictIntegers {edicts : List Edict} {previous : RuneId} {count : Nat}
    (hcount : count < 2 ^ 32) (h : ∀ e ∈ edicts, e.Valid count) :
    ∀ n ∈ edictIntegers previous edicts, n < 2 ^ 128 := by
  induction edicts generalizing previous with
  | nil => simp [edictIntegers]
  | cons edict edicts ih =>
    obtain ⟨hedict, hedicts⟩ := List.forall_mem_cons.mp h
    have hblock := hedict.id.fits.block
    have htx := hedict.id.fits.tx
    have houtput := hedict.output
    rw [edictIntegers, List.forall_mem_append]
    refine ⟨?_, ih hedicts⟩
    simp only [List.forall_mem_cons]
    refine ⟨by omega, ?_, hedict.amount, by omega, by simp⟩
    split <;> omega

/-- **The integers of a valid runestone fit in a `u128`.** -/
theorem Runestone.integers_fit {r : Runestone} {count : Nat} (hcount : count < 2 ^ 32)
    (h : r.Valid count) :
    ∀ n ∈ fieldIntegers r.fields ++ bodyIntegers r.edicts, n < 2 ^ 128 := by
  refine List.forall_mem_append.mpr ⟨fun n hn => ?_, ?_⟩
  · obtain ⟨field, hfield, hmem⟩ := List.mem_flatMap.mp hn
    obtain ⟨-, htag, hvalue⟩ := Runestone.fields_fit hcount h field hfield
    simp only [List.mem_cons, List.not_mem_nil, or_false] at hmem
    rcases hmem with rfl | rfl
    · exact htag
    · exact hvalue
  · rw [bodyIntegers]
    split
    · simp
    · exact List.forall_mem_cons.mpr
        ⟨by decide, lt_of_mem_edictIntegers hcount fun e he => h.edicts e (mem_sortById.mp he)⟩

/-! ## Scripts -/

theorem collectPushes_pushes (pushes : List (List UInt8)) (payload : List UInt8) :
    collectPushes ((pushes.map Instruction.pushBytes).map some) payload =
      .valid (payload ++ pushes.flatten) := by
  induction pushes generalizing payload with
  | nil => simp [collectPushes]
  | cons push pushes ih =>
    rw [List.map_cons, List.map_cons, collectPushes, ih, List.flatten_cons, List.append_assoc]

/-- The payload is in the first script that has one. -/
theorem Runestone.payload_append {instructions : Instructions} {before : List ScriptBuf}
    (h : Runestone.payload instructions before = none) (outputs : List ScriptBuf) :
    Runestone.payload instructions (before ++ outputs) =
      Runestone.payload instructions outputs := by
  induction before with
  | nil => rfl
  | cons output before ih =>
    rw [List.cons_append]
    rw [Runestone.payload] at h ⊢
    split at h
    · split_ifs at h ⊢ with hmagic
      exact ih h
    · exact ih h

/-- The runestone with its edicts in the order of their ids. -/
def Runestone.sorted (r : Runestone) : Runestone := { r with edicts := sortById r.edicts }

/-- The payload of a script that was built for a runestone. -/
theorem Runestone.payload_encipher {instructions : Instructions} {before : List ScriptBuf}
    {script : ScriptBuf} {r : Runestone} (hbefore : Runestone.payload instructions before = none)
    (hscript : r.encipher.map (List.map some) = some (instructions script))
    (after : List ScriptBuf) :
    Runestone.payload instructions (before ++ script :: after) =
      some (.valid ((fieldIntegers r.fields ++ bodyIntegers r.edicts).flatMap varintEncode)) := by
  rw [Runestone.encipher, r.encodePayload_eq] at hscript
  rw [Runestone.payload_append hbefore, Runestone.payload, ← Option.some.inj hscript]
  rw [List.map_cons, List.map_cons]
  dsimp only
  rw [if_pos ⟨rfl, rfl⟩, collectPushes_pushes, List.nil_append, flatten_chunks]

/-- A valid runestone is read back from its payload. -/
theorem Runestone.decipher_of_payload {instructions : Instructions} {outputs : List ScriptBuf}
    {r : Runestone} (hcount : outputs.length < 2 ^ 32) (hvalid : r.Valid outputs.length)
    (hpayload : Runestone.payload instructions outputs =
      some (.valid ((fieldIntegers r.fields ++ bodyIntegers r.edicts).flatMap varintEncode))) :
    Runestone.decipher instructions outputs = .ok (some (.runestone r.sorted)) := by
  obtain ⟨s', hreads⟩ := reads_decipher hcount hvalid (sortById r.edicts) (readFields r.fields ∅)
  have hof : r.remaining.Of ⟨readFields r.fields ∅, 0⟩ :=
    ⟨by simpa [Runestone.remaining] using hasValues_empty.readFields r.fields, rfl⟩
  obtain ⟨unread, hrun, -⟩ := hreads _ hof
  rw [Runestone.decipher, hpayload]
  dsimp only
  rw [Runestone.integers_flatMap (Runestone.integers_fit hcount hvalid)]
  dsimp only
  rw [fromIntegers_eq hcount
    (fun field hfield => (Runestone.fields_fit hcount hvalid field hfield).1) hvalid.edicts,
    ok_bind, StateT.run, hrun]
  rfl

/-- **Deciphering undoes enciphering**: a valid runestone is read back from the script that was
built for it, with its edicts in the order of their ids. -/
theorem Runestone.decipher_encipher {instructions : Instructions} {before after : List ScriptBuf}
    {script : ScriptBuf} {r : Runestone} (hcount : (before ++ script :: after).length < 2 ^ 32)
    (hbefore : Runestone.payload instructions before = none)
    (hscript : r.encipher.map (List.map some) = some (instructions script))
    (hvalid : r.Valid (before ++ script :: after).length) :
    Runestone.decipher instructions (before ++ script :: after) =
      .ok (some (.runestone r.sorted)) :=
  decipher_of_payload hcount hvalid (payload_encipher hbefore hscript after)

/-- The instructions of a script with pushes of at most 75 bytes, with a round for each byte as
fuel. -/
def directInstructions : Nat → Instructions
  | 0, _ => []
  | _, [] => []
  | fuel + 1, opcode :: script =>
    if 75 < opcode then some (.op opcode) :: directInstructions fuel script
    else if script.length < opcode.toNat then [none]
    else some (.pushBytes (script.take opcode.toNat)) ::
      directInstructions fuel (script.drop opcode.toNat)

/-- A runestone with all of its fields, whose edicts are not in order. -/
def fullRunestone : Runestone where
  edicts := [⟨⟨5, 6⟩, 4, 1⟩, ⟨⟨2, 3⟩, 1, 0⟩]
  etching := some
    { divisibility := some 7, premine := some 8, rune := some 9, spacers := some 10,
      symbol := some '@'
      terms := some
        { amount := some 14, cap := some 11, height := (some 12, some 13)
          offset := (some 15, some 16) }
      turbo := true }
  mint := some ⟨17, 18⟩
  pointer := some 0

/-- The script of `fullRunestone`. -/
def fullScript : ScriptBuf :=
  [0x6a, 0x5d, 39, 2, 7, 4, 9, 1, 7, 3, 10, 5, 64, 6, 8, 10, 14, 8, 11, 12, 12, 14, 13, 16, 15, 18,
    16, 20, 17, 20, 18, 22, 0, 0, 2, 3, 1, 0, 3, 6, 4, 1]

theorem fullRunestone_valid : fullRunestone.Valid 2 where
  edicts := by
    refine List.forall_mem_cons.mpr
      ⟨⟨⟨⟨by decide, by decide⟩, by decide⟩, by decide, by decide⟩, ?_⟩
    exact List.forall_mem_cons.mpr
      ⟨⟨⟨⟨by decide, by decide⟩, by decide⟩, by decide, by decide⟩, by simp⟩
  etching := by
    rintro e ⟨⟩
    refine ⟨by decide, by decide, by decide, by decide, ?_, by decide⟩
    rintro t ⟨⟩
    exact ⟨by decide, by decide, by decide, by decide, by decide, by decide⟩
  mint := by
    rintro id ⟨⟩
    exact ⟨⟨by decide, by decide⟩, by decide⟩
  pointer := by decide

/-- The theorem on `fullRunestone`, in a transaction with another output before the script. -/
theorem decipher_encipher_fullRunestone :
    Runestone.decipher (directInstructions 64) ([[0x51]] ++ fullScript :: []) =
      .ok (some (.runestone fullRunestone.sorted)) :=
  Runestone.decipher_encipher (by decide) (by decide) (by decide +kernel) fullRunestone_valid

end Runehook
