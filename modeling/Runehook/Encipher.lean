import Mathlib.Data.List.Sort
import Runehook.Varint

/-! # Enciphering runestones

`Runestone::encipher` of `crates/ordinals`: the fields and the edicts of a runestone as a sequence
of integers, written as varints and pushed in pieces of 520 bytes (`Runestone.encipher`). The edicts
are sorted by their ids (`sortById`), and every id is written as the difference to the one before
(`RuneId.delta`), which is defined because of the order. `Runestone.encodePayload_eq` says which
integers a payload is made of. The script builder of the `bitcoin` crate is not modelled: the result
is what it is given. -/

namespace Runehook

open Lib

/-! ## Differences of ids -/

/-- `checked_sub` of unsigned integers. -/
def checkedSub (a b : Nat) : Option Nat := if b ≤ a then some (a - b) else none

/-- `RuneId::delta`. -/
def RuneId.delta (id next : RuneId) : Option (Nat × Nat) := do
  let block ← checkedSub next.block id.block
  let tx ← if block = 0 then checkedSub next.tx id.tx else some next.tx
  return (block, tx)

/-- The derived order of `RuneId`: by block, then by transaction. -/
def RuneId.Le (a b : RuneId) : Prop := a.block < b.block ∨ a.block = b.block ∧ a.tx ≤ b.tx

instance (a b : RuneId) : Decidable (a.Le b) := inferInstanceAs (Decidable (_ ∨ _))

instance : Std.Total RuneId.Le where
  total a b := by
    unfold RuneId.Le
    omega

instance : IsTrans RuneId RuneId.Le where
  trans a b c hab hbc := by
    unfold RuneId.Le at *
    omega

/-- The ids that `RuneId::new` makes. -/
structure RuneId.Valid (id : RuneId) : Prop where
  /-- The parts fit in their types. -/
  fits : id.Fits
  /-- Block zero has no transaction that etches. -/
  tx_eq_zero : id.block = 0 → id.tx = 0

theorem RuneId.new_eq_some {block tx : Nat} {id : RuneId} (h : RuneId.new block tx = some id) :
    id = ⟨block, tx⟩ ∧ (block = 0 → tx = 0) := by
  rw [RuneId.new] at h
  split_ifs at h with hnew
  cases h
  exact ⟨rfl, fun hblock => by omega⟩

theorem RuneId.new_of_valid {id : RuneId} (h : id.Valid) : RuneId.new id.block id.tx = some id := by
  have := h.tx_eq_zero
  rw [RuneId.new, if_neg (by omega)]

/-- Between ids in order there is a difference. -/
theorem RuneId.delta_of_le {a b : RuneId} (h : a.Le b) :
    a.delta b = some (b.block - a.block, if a.block = b.block then b.tx - a.tx else b.tx) := by
  unfold RuneId.Le at h
  have hle : a.block ≤ b.block := by omega
  unfold RuneId.delta checkedSub
  rw [if_pos hle]
  rcases h with hlt | ⟨heq, htx⟩
  · have hne : b.block - a.block ≠ 0 := by omega
    have hne' : a.block ≠ b.block := by omega
    simp [hne, hne']
  · simp [heq, htx]

/-- **The next id**: `next` undoes `delta` on valid ids in order. -/
theorem RuneId.next_of_le {a b : RuneId} (h : a.Le b) (hb : b.Valid) :
    a.next (b.block - a.block) (if a.block = b.block then b.tx - a.tx else b.tx) = some b := by
  have hblock := hb.fits.block
  have htx := hb.fits.tx
  unfold RuneId.Le at h
  have hle : a.block ≤ b.block := by omega
  unfold RuneId.next checkedAdd tryFrom
  simp only [Option.bind_eq_bind]
  rw [if_pos (by omega), Option.bind_some, Nat.add_sub_cancel' hle, if_pos hblock, Option.bind_some]
  rcases h with hlt | ⟨heq, htx'⟩
  · have hne : ¬a.block = b.block := by omega
    rw [if_neg hne, if_pos htx, Option.bind_some, if_neg (by omega), Option.bind_some,
      RuneId.new_of_valid hb]
  · rw [if_pos heq, if_pos (by omega), Option.bind_some, if_pos (by omega),
      Nat.add_sub_cancel' htx', if_pos htx, Option.bind_some, RuneId.new_of_valid hb]

/-- What `next` gives is a valid id, not before the one it was made from. -/
theorem RuneId.next_spec {id id' : RuneId} {block tx : Nat} (h : id.next block tx = some id') :
    id'.Valid ∧ id.Le id' := by
  have hfits := RuneId.fits_of_next h
  obtain ⟨nextBlock, hblock, h⟩ := Option.bind_eq_some_iff.mp h
  obtain ⟨nextTx, htx, h⟩ := Option.bind_eq_some_iff.mp h
  obtain ⟨rfl, hzero⟩ := RuneId.new_eq_some h
  refine ⟨⟨hfits, hzero⟩, ?_⟩
  obtain ⟨delta, hdelta, hsum⟩ := Option.bind_eq_some_iff.mp hblock
  obtain ⟨deltaTx, hdeltaTx, hsumTx⟩ := Option.bind_eq_some_iff.mp htx
  unfold checkedAdd tryFrom at *
  unfold RuneId.Le
  dsimp only
  split_ifs at hdelta hsum hdeltaTx hsumTx <;> simp only [Option.some.injEq] at * <;> omega

/-! ## Tags and flags -/

/-- `Tag::encode`: the bytes that it appends. -/
def Tag.encode (tag : Tag) (values : List Nat) : List UInt8 :=
  values.flatMap fun value => varintEncode tag.toNat ++ varintEncode value

/-- `Tag::encode_option`. -/
def Tag.encodeOption (tag : Tag) (value : Option Nat) : List UInt8 :=
  match value with
  | some value => tag.encode [value]
  | none => []

/-- `Flag::set`. -/
def Flag.set (flag : Flag) (flags : Nat) : Nat := flags ||| 1 <<< flag.toNat

/-! ## Edicts -/

/-- The order of two edicts by their ids. -/
def Edict.IdLe (a b : Edict) : Prop := a.id.Le b.id

instance (a b : Edict) : Decidable (a.IdLe b) := inferInstanceAs (Decidable (a.id.Le b.id))

instance : Std.Total Edict.IdLe := ⟨fun a b => Std.Total.total a.id b.id⟩

instance : IsTrans Edict Edict.IdLe := ⟨fun a b c => IsTrans.trans a.id b.id c.id⟩

/-- `edicts.sort_by_key(|edict| edict.id)`, which is stable. -/
def sortById (edicts : List Edict) : List Edict := edicts.insertionSort Edict.IdLe

/-- The loop of `Runestone::encipher` over the sorted edicts. It stops at `delta(..).unwrap()` if an
id is before the previous one. -/
def encodeEdicts : RuneId → List Edict → Option (List UInt8)
  | _, [] => some []
  | previous, edict :: edicts => do
    let (block, tx) ← previous.delta edict.id
    let rest ← encodeEdicts edict.id edicts
    return varintEncode block ++ varintEncode tx ++ varintEncode edict.amount ++
      varintEncode edict.output ++ rest

/-! ## Runestones -/

/-- The flags of an etching. -/
def Etching.flags (etching : Etching) : Nat :=
  let flags := Flag.etching.set 0
  let flags := if etching.terms.isSome then Flag.terms.set flags else flags
  if etching.turbo then Flag.turbo.set flags else flags

/-- The fields of an etching. -/
def Etching.encode (etching : Etching) : List UInt8 :=
  Tag.flags.encode [etching.flags] ++
    Tag.rune.encodeOption etching.rune ++
      Tag.divisibility.encodeOption etching.divisibility ++
    Tag.spacers.encodeOption etching.spacers ++
      Tag.symbol.encodeOption (etching.symbol.map Char.toNat) ++
    Tag.premine.encodeOption etching.premine ++
      match etching.terms with
    | some terms =>
      Tag.amount.encodeOption terms.amount ++
        Tag.cap.encodeOption terms.cap ++
          Tag.heightStart.encodeOption terms.height.1 ++
        Tag.heightEnd.encodeOption terms.height.2 ++
          Tag.offsetStart.encodeOption terms.offset.1 ++
        Tag.offsetEnd.encodeOption terms.offset.2
    | none => []

/-- The mint of a runestone. -/
def encodeMint : Option RuneId → List UInt8
  | some id => Tag.mint.encode [id.block, id.tx]
  | none => []

/-- The body of a message: nothing without edicts. -/
def encodeBody (edicts : List Edict) : Option (List UInt8) :=
  if edicts.isEmpty then some []
  else (encodeEdicts ⟨0, 0⟩ (sortById edicts)).map fun bytes => varintEncode Tag.body.toNat ++ bytes

/-- The payload that `Runestone::encipher` writes. -/
def Runestone.encodePayload (runestone : Runestone) : Option (List UInt8) :=
  (encodeBody runestone.edicts).map fun body =>
    (runestone.etching.map Etching.encode).getD [] ++
      encodeMint runestone.mint ++
        Tag.pointer.encodeOption runestone.pointer ++
      body

/-- `MAX_STACK_ELEMENT_SIZE`. -/
def MAX_STACK_ELEMENT_SIZE : Nat := 520

/-- `Runestone::encipher`: the opcodes and the pushes that the script builder is given. -/
def Runestone.encipher (runestone : Runestone) : Option (List Instruction) :=
  runestone.encodePayload.map fun payload =>
    .op OP_RETURN :: .op Runestone.MAGIC_NUMBER ::
      (chunks MAX_STACK_ELEMENT_SIZE payload).map .pushBytes

/-! ## The integers of the fields -/

/-- The values that a sequence of fields gives to a tag. -/
def fieldValues (tag : Nat) (fields : List (Nat × Nat)) : List Nat :=
  fields.filterMap fun field => if field.1 = tag then some field.2 else none

@[simp] theorem fieldValues_nil (tag : Nat) : fieldValues tag [] = [] := rfl

@[simp] theorem fieldValues_append (tag : Nat) (fields fields' : List (Nat × Nat)) :
    fieldValues tag (fields ++ fields') = fieldValues tag fields ++ fieldValues tag fields' :=
  List.filterMap_append

theorem fieldValues_cons (tag : Nat) (field : Nat × Nat) (fields : List (Nat × Nat)) :
    fieldValues tag (field :: fields) = (if field.1 = tag then [field.2] else []) ++
      fieldValues tag fields := by
  by_cases h : field.1 = tag
  · simp [fieldValues, h]
  · simp [fieldValues, h]

/-- The fields that give values to a tag. -/
def Tag.fields (tag : Tag) (values : List Nat) : List (Nat × Nat) :=
  values.map fun value => (tag.toNat, value)

@[simp] theorem Tag.fieldValues_fields (tag : Tag) (t : Nat) (values : List Nat) :
    fieldValues t (tag.fields values) = if tag.toNat = t then values else [] := by
  rw [fieldValues, Tag.fields, List.filterMap_map]
  by_cases h : tag.toNat = t
  · simp [h]
  · simp [h]

/-- The integers of a sequence of fields. -/
def fieldIntegers (fields : List (Nat × Nat)) : List Nat :=
  fields.flatMap fun field => [field.1, field.2]

@[simp] theorem fieldIntegers_nil : fieldIntegers [] = [] := rfl

@[simp] theorem fieldIntegers_append (fields fields' : List (Nat × Nat)) :
    fieldIntegers (fields ++ fields') = fieldIntegers fields ++ fieldIntegers fields' :=
  List.flatMap_append

theorem Tag.encode_eq (tag : Tag) (values : List Nat) :
    tag.encode values = (fieldIntegers (tag.fields values)).flatMap varintEncode := by
  induction values with
  | nil => rfl
  | cons value values ih =>
    rw [Tag.encode] at ih ⊢
    rw [List.flatMap_cons, ih]
    simp [Tag.fields, fieldIntegers]

theorem Tag.encodeOption_eq (tag : Tag) (value : Option Nat) :
    tag.encodeOption value = (fieldIntegers (tag.fields value.toList)).flatMap varintEncode := by
  cases value with
  | none => rfl
  | some value => exact tag.encode_eq [value]

/-- The fields of the terms of an etching. -/
def Terms.fields (terms : Terms) : List (Nat × Nat) :=
  Tag.amount.fields terms.amount.toList ++
    Tag.cap.fields terms.cap.toList ++
      Tag.heightStart.fields terms.height.1.toList ++
    Tag.heightEnd.fields terms.height.2.toList ++
      Tag.offsetStart.fields terms.offset.1.toList ++
    Tag.offsetEnd.fields terms.offset.2.toList

/-- The fields of an etching. -/
def Etching.fields (etching : Etching) : List (Nat × Nat) :=
  Tag.flags.fields [etching.flags] ++
    Tag.rune.fields etching.rune.toList ++
      Tag.divisibility.fields etching.divisibility.toList ++
    Tag.spacers.fields etching.spacers.toList ++
      Tag.symbol.fields (etching.symbol.map Char.toNat).toList ++
    Tag.premine.fields etching.premine.toList ++
      (etching.terms.map Terms.fields).getD []

/-- The fields of a runestone, in the order in which they are written. -/
def Runestone.fields (runestone : Runestone) : List (Nat × Nat) :=
  (runestone.etching.map Etching.fields).getD [] ++
    Tag.mint.fields ((runestone.mint.map fun id => [id.block, id.tx]).getD []) ++
      Tag.pointer.fields runestone.pointer.toList

theorem Etching.encode_eq (etching : Etching) :
    etching.encode = (fieldIntegers etching.fields).flatMap varintEncode := by
  rw [Etching.encode, Etching.fields]
  simp only [Tag.encode_eq, Tag.encodeOption_eq, fieldIntegers_append, List.flatMap_append]
  cases etching.terms with
  | none => simp
  | some terms => simp [Terms.fields]

/-! ## The integers of the edicts -/

/-- The integers of edicts in order, the first one after an id. -/
def edictIntegers : RuneId → List Edict → List Nat
  | _, [] => []
  | previous, edict :: edicts =>
    [edict.id.block - previous.block,
      if previous.block = edict.id.block then edict.id.tx - previous.tx else edict.id.tx,
      edict.amount, edict.output] ++ edictIntegers edict.id edicts

/-- The integers of the body of a message. -/
def bodyIntegers (edicts : List Edict) : List Nat :=
  if edicts.isEmpty then [] else Tag.body.toNat :: edictIntegers ⟨0, 0⟩ (sortById edicts)

/-- The edicts are in the order of their ids. -/
def SortedById (edicts : List Edict) : Prop := edicts.Pairwise Edict.IdLe

theorem sortedById_sortById (edicts : List Edict) : SortedById (sortById edicts) :=
  List.pairwise_insertionSort _ edicts

theorem mem_sortById {edicts : List Edict} {e : Edict} : e ∈ sortById edicts ↔ e ∈ edicts :=
  List.mem_insertionSort _

/-- Edicts in order stay as they are. -/
theorem sortById_eq_self {edicts : List Edict} (h : SortedById edicts) : sortById edicts = edicts :=
  h.insertionSort_eq

theorem RuneId.zero_le (id : RuneId) : (⟨0, 0⟩ : RuneId).Le id := by
  unfold RuneId.Le
  dsimp only
  omega

/-- **The differences are defined**: edicts in order, none of them before the first id. -/
theorem encodeEdicts_eq {edicts : List Edict} {previous : RuneId} (hsorted : SortedById edicts)
    (hfirst : ∀ e ∈ edicts, previous.Le e.id) :
    encodeEdicts previous edicts = some ((edictIntegers previous edicts).flatMap varintEncode) := by
  induction edicts generalizing previous with
  | nil => rfl
  | cons edict edicts ih =>
    obtain ⟨hle, -⟩ := List.forall_mem_cons.mp hfirst
    obtain ⟨hnext, hrest⟩ := List.pairwise_cons.mp hsorted
    simp only [encodeEdicts, RuneId.delta_of_le hle, Option.bind_eq_bind, Option.bind_some,
      ih hrest hnext]
    simp [edictIntegers]

/-- **Enciphering never panics**, and the payload consists of the fields and the edicts. -/
theorem Runestone.encodePayload_eq (r : Runestone) :
    r.encodePayload =
      some ((fieldIntegers r.fields ++ bodyIntegers r.edicts).flatMap varintEncode) := by
  -- each part is the varints of its integers
  have hetching : (r.etching.map Etching.encode).getD [] =
      (fieldIntegers ((r.etching.map Etching.fields).getD [])).flatMap varintEncode := by
    cases r.etching with
    | none => rfl
    | some etching => exact etching.encode_eq
  have hmint : encodeMint r.mint =
      (fieldIntegers (Tag.mint.fields ((r.mint.map fun id => [id.block, id.tx]).getD []))).flatMap
        varintEncode := by
    cases r.mint with
    | none => rfl
    | some id => exact Tag.encode_eq _ _
  have hbody : encodeBody r.edicts = some ((bodyIntegers r.edicts).flatMap varintEncode) := by
    rw [encodeBody, bodyIntegers]
    split
    · rfl
    · rw [encodeEdicts_eq (sortedById_sortById _) fun e _ => e.id.zero_le]
      rfl
  rw [encodePayload, hetching, hmint, hbody, Tag.encodeOption_eq, Option.map_some, Runestone.fields]
  simp only [fieldIntegers_append, List.flatMap_append]

end Runehook
