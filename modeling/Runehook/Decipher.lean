import Runehook.Issuance
import Runehook.Lib.Partial

/-! # Deciphering runestones

`Runestone::decipher` of `crates/ordinals`: the payload of the first output script that carries one
(`Runestone.payload`) is a sequence of integers (`Runestone.integers`), which are the fields and the
edicts of a message (`Message.fromIntegers`); the message makes a runestone, or a cenotaph if it has
a flaw (`Runestone.decipher`). The instructions of a script are read by the `bitcoin` crate and are
a parameter here. Deciphering never stops, and an artifact names the outputs that there are and ids
that fit in their types (`Runestone.decipher_spec`). -/

namespace Runehook

open Lib

/-! ## Stops -/

/-- The operations reached from the loop over transactions that are not defined on all values. -/
inductive PartialOperation where
  /-- `LockTime::from_time(block.timestamp).unwrap()`. -/
  | lockTime
  /-- The slice `[2..]` of a hash. -/
  | hashSlice
  /-- `RuneId::from_str(..).unwrap()`. -/
  | runeIdFromStr
  /-- `indexed_input_runes.get(key).unwrap()`. -/
  | indexedInputRunes
  /-- `row.get("amount")` of a column that may be `NULL`. -/
  | rowAmount
  /-- `entry.amount.unwrap()`. -/
  | entryAmount
  /-- `entry.output.unwrap()`. -/
  | entryOutput
  /-- `db_rune.terms_amount.unwrap()`. -/
  | termsAmount
  /-- `receiver_address.as_ref().unwrap()`. -/
  | receiverAddress
  /-- The divisions `unallocated / len` and `unallocated % len`. -/
  | division
  /-- The `checked_add` of `Rune::reserved`. -/
  | reservedName
  /-- `"ABC..".chars().nth(..).unwrap()` in `Display for Rune`. -/
  | nameLetter
  /-- `u32::try_from(tx.output.len()).unwrap()`. -/
  | outputCount
  /-- `fields.remove(..).unwrap()` in `Tag::take`. -/
  | removedField
  deriving DecidableEq, Repr

/-- Why indexing a transaction stops. -/
inductive Stop where
  /-- An operation that the source does not guard has no result. -/
  | panic (operation : PartialOperation)
  /-- The branch of `apply_edict` for nonexistent outputs. The source burns the amount there. -/
  | nonexistentOutput
  /-- A statement fails, and the process exits. -/
  | exit
  deriving DecidableEq, Repr

/-! ## Machine integers -/

/-- `try_from` to an unsigned integer of some bits. -/
def tryFrom (bits n : Nat) : Option Nat := if n < 2 ^ bits then some n else none

/-- `checked_add` of unsigned integers of some bits. -/
def checkedAdd (bits a b : Nat) : Option Nat := tryFrom bits (a + b)

/-- What is converted fits. -/
theorem lt_of_tryFrom {bits n m : Nat} (h : tryFrom bits n = some m) : m < 2 ^ bits := by
  rw [tryFrom] at h
  split at h
  · cases Option.some.inj h
    assumption
  · cases h

/-- The parts of the id fit in a `u64` and a `u32`. -/
structure RuneId.Fits (id : RuneId) : Prop where
  /-- The block is a `u64`. -/
  block : id.block < 2 ^ 64
  /-- The index of the transaction is a `u32`. -/
  tx : id.tx < 2 ^ 32

/-- `RuneId::new`. -/
def RuneId.new (block tx : Nat) : Option RuneId :=
  if block = 0 ∧ 0 < tx then none else some ⟨block, tx⟩

/-- `RuneId::next`. -/
def RuneId.next (id : RuneId) (block tx : Nat) : Option RuneId := do
  let nextBlock ← (tryFrom 64 block).bind (checkedAdd 64 id.block)
  let nextTx ← (tryFrom 32 tx).bind fun tx => if block = 0 then checkedAdd 32 id.tx tx else some tx
  RuneId.new nextBlock nextTx

/-! ## The payload -/

/-- `Instruction`, with the byte of its opcode. -/
inductive Instruction where
  /-- An opcode that pushes nothing. -/
  | op (opcode : UInt8)
  /-- A push of data. -/
  | pushBytes (push : List UInt8)
  deriving DecidableEq, Repr

/-- `Script::instructions`: `none` is an error. -/
abbrev Instructions : Type := ScriptBuf → List (Option Instruction)

/-- `OP_RETURN`. -/
def OP_RETURN : UInt8 := 0x6a

/-- `Runestone::MAGIC_NUMBER`, which is `OP_PUSHNUM_13`. -/
def Runestone.MAGIC_NUMBER : UInt8 := 0x5d

/-- `Payload`. -/
inductive Payload where
  /-- The bytes that the script pushes. -/
  | valid (payload : List UInt8)
  /-- The script has something in it that is no push. -/
  | invalid (flaw : Flaw)
  deriving DecidableEq, Repr

/-- The loop of `Runestone::payload` that concatenates the data pushes. -/
def collectPushes : List (Option Instruction) → List UInt8 → Payload
  | [], payload => .valid payload
  | some (.pushBytes push) :: rest, payload => collectPushes rest (payload ++ push)
  | some (.op _) :: _, _ => .invalid .opcode
  | none :: _, _ => .invalid .invalidScript

/-- `Runestone::payload`. -/
def Runestone.payload (instructions : Instructions) : List ScriptBuf → Option Payload
  | [] => none
  | output :: outputs =>
    match instructions output with
    | some (.op first) :: some (.op second) :: rest =>
      if first = OP_RETURN ∧ second = MAGIC_NUMBER then some (collectPushes rest [])
      else payload instructions outputs
    | _ => payload instructions outputs

/-! ## Integers -/

/-- `varint::Error`. -/
inductive VarintError where
  | overlong
  | overflow
  | unterminated
  deriving DecidableEq, Repr

/-- The loop of `varint::decode`: byte `i` of the buffer, and the value of the bytes before it. -/
def varintDecodeFrom : List UInt8 → Nat → Nat → Except VarintError (Nat × Nat)
  | [], _, _ => .error .unterminated
  | byte :: buffer, i, n =>
    if 18 < i then .error .overlong
    else
      let value := byte.toNat &&& 0x7f
      if i = 18 ∧ value &&& 0x7c ≠ 0 then .error .overflow
      else
        let n := n ||| value <<< (7 * i)
        if byte.toNat &&& 0x80 = 0 then .ok (n, i + 1) else varintDecodeFrom buffer (i + 1) n

/-- `varint::decode`: an integer, and the number of bytes that it takes. -/
def varintDecode (buffer : List UInt8) : Except VarintError (Nat × Nat) :=
  varintDecodeFrom buffer 0 0

/-- The loop of `Runestone::integers`, on the rest of the payload. Every round takes a byte at
least, so that the length of the payload is fuel enough. -/
def integersFrom : Nat → List UInt8 → Except VarintError (List Nat)
  | _, [] => .ok []
  | 0, _ :: _ => .ok []
  | fuel + 1, byte :: buffer => do
    let (integer, length) ← varintDecode (byte :: buffer)
    let integers ← integersFrom fuel ((byte :: buffer).drop length)
    return integer :: integers

/-- `Runestone::integers`. -/
def Runestone.integers (payload : List UInt8) : Except VarintError (List Nat) :=
  integersFrom payload.length payload

/-! ## Tags and flags -/

/-- `Tag`, the ones that are read. -/
inductive Tag where
  | body
  | flags
  | rune
  | premine
  | cap
  | amount
  | heightStart
  | heightEnd
  | offsetStart
  | offsetEnd
  | mint
  | pointer
  | divisibility
  | spacers
  | symbol
  deriving DecidableEq, Repr

/-- The number of a tag. -/
def Tag.toNat : Tag → Nat
  | .body => 0
  | .flags => 2
  | .rune => 4
  | .premine => 6
  | .cap => 8
  | .amount => 10
  | .heightStart => 12
  | .heightEnd => 14
  | .offsetStart => 16
  | .offsetEnd => 18
  | .mint => 20
  | .pointer => 22
  | .divisibility => 1
  | .spacers => 3
  | .symbol => 5

/-- The values of each tag of a message. -/
abbrev MessageFields : Type := HashMap Nat (List Nat)

/-- What is left to read of a message. -/
structure Unread where
  /-- The fields that no one has taken. -/
  fields : MessageFields
  /-- The flags that no one has taken. -/
  flags : Nat

/-- What reads a message. -/
abbrev MessageM : Type → Type := StateT Unread (Except Stop)

/-- `Tag::take`: make something of the first `count` values of a tag. The values stay if there are
not as many, or if nothing is made of them. -/
def Tag.take {T : Type} (tag : Tag) (count : Nat) (f : List Nat → Option T) : MessageM (Option T) :=
  fun unread =>
    match unread.fields.lookup tag.toNat with
    | none => return (none, unread)
    | some field =>
      if field.length < count then return (none, unread)
      else
        match f (field.take count) with
        | none => return (none, unread)
        | some value =>
          let fields : MessageFields := unread.fields.insert tag.toNat (field.drop count)
          if (field.drop count).isEmpty then do
            let fields ← unwrap (.panic .removedField)
              ((fields.lookup tag.toNat).map fun _ => AList.erase tag.toNat fields)
            return (some value, { unread with fields := fields })
          else return (some value, { unread with fields := fields })

/-- Make something of a single value. -/
def single {T : Type} (f : Nat → Option T) : List Nat → Option T
  | [value] => f value
  | _ => none

/-- `Flag`, the ones that are read. -/
inductive Flag where
  | etching
  | terms
  | turbo
  deriving DecidableEq, Repr

/-- The bit of a flag. -/
def Flag.toNat : Flag → Nat
  | .etching => 0
  | .terms => 1
  | .turbo => 2

/-- `Flag::take(..).then(..)`: clear a flag, and go on if it was set. -/
def Flag.takeThen {T : Type} (flag : Flag) (m : MessageM T) : MessageM (Option T) := fun unread =>
  if unread.flags.testBit flag.toNat then
    (m.run { unread with flags := unread.flags - 2 ^ flag.toNat }).map fun (value, unread) =>
      (some value, unread)
  else return (none, unread)

/-! ## Messages -/

/-- `Edict::from_integers`. An output equal to the number of outputs means all of them. -/
def Edict.fromIntegers (outputs : List ScriptBuf) (id : RuneId) (amount output : Nat) :
    Except Stop (Option Edict) :=
  match tryFrom 32 output with
  | none => return none
  | some output => do
    let count ← unwrap (.panic .outputCount) (tryFrom 32 outputs.length)
    return if count < output then none else some ⟨id, amount, output⟩

/-- `Message`. -/
structure Message where
  /-- The first flaw, if there is one. -/
  flaw : Option Flaw
  /-- The edicts of the body. -/
  edicts : List Edict
  /-- The values of each tag, in order. -/
  fields : MessageFields

/-- The loop of `Message::from_integers` over the chunks of the body: why it breaks, and the
edicts. -/
def bodyEdicts (outputs : List ScriptBuf) :
    List (List Nat) → RuneId → Except Stop (Option Flaw × List Edict)
  | [], _ => return (none, [])
  | chunk :: chunks, id =>
    match chunk with
    | [block, tx, amount, output] =>
      match id.next block tx with
      | none => return (some .edictRuneId, [])
      | some next => do
        match ← Edict.fromIntegers outputs next amount output with
        | none => return (some .edictOutput, [])
        | some edict =>
          let (flaw, edicts) ← bodyEdicts outputs chunks next
          return (flaw, edict :: edicts)
    | _ => return (some .trailingIntegers, [])

/-- The loop of `Message::from_integers`, two integers a round. -/
def fromIntegersFrom (outputs : List ScriptBuf) : List Nat → MessageFields → Except Stop Message
  | [], fields => return ⟨none, [], fields⟩
  | tag :: payload, fields =>
    if tag = Tag.body.toNat then do
      let (flaw, edicts) ← bodyEdicts outputs (chunks 4 payload) ⟨0, 0⟩
      return ⟨flaw, edicts, fields⟩
    else
      match payload with
      | [] => return ⟨some .truncatedField, [], fields⟩
      | value :: payload =>
        fromIntegersFrom outputs payload (fields.alter tag fun values => values.getD [] ++ [value])

/-- `Message::from_integers`. -/
def Message.fromIntegers (outputs : List ScriptBuf) (payload : List Nat) : Except Stop Message :=
  fromIntegersFrom outputs payload ∅

/-! ## Artifacts -/

/-- `Etching::MAX_DIVISIBILITY`. -/
def Etching.MAX_DIVISIBILITY : Nat := 38

/-- `Etching::MAX_SPACERS`. -/
def Etching.MAX_SPACERS : Nat := 0x7ffffff

/-- `char::from_u32`. -/
def charFromU32 (n : Nat) : Option Char := if n.isValidChar then some (Char.ofNat n) else none

/-- The terms of an etching, in the order in which `decipher` takes them. -/
def takeTerms : MessageM Terms := do
  let cap ← Tag.cap.take 1 (single some)
  let heightStart ← Tag.heightStart.take 1 (single (tryFrom 64))
  let heightEnd ← Tag.heightEnd.take 1 (single (tryFrom 64))
  let amount ← Tag.amount.take 1 (single some)
  let offsetStart ← Tag.offsetStart.take 1 (single (tryFrom 64))
  let offsetEnd ← Tag.offsetEnd.take 1 (single (tryFrom 64))
  return ⟨amount, cap, (heightStart, heightEnd), (offsetStart, offsetEnd)⟩

/-- The etching of a message. -/
def takeEtching : MessageM Etching := do
  let divisibility ← Tag.divisibility.take 1 (single fun divisibility => do
    let divisibility ← tryFrom 8 divisibility
    if divisibility ≤ Etching.MAX_DIVISIBILITY then some divisibility else none)
  let premine ← Tag.premine.take 1 (single some)
  let rune ← Tag.rune.take 1 (single some)
  let spacers ← Tag.spacers.take 1 (single fun spacers => do
    let spacers ← tryFrom 32 spacers
    if spacers ≤ Etching.MAX_SPACERS then some spacers else none)
  let symbol ← Tag.symbol.take 1 (single fun symbol => do charFromU32 (← tryFrom 32 symbol))
  let terms ← Flag.terms.takeThen takeTerms
  let turbo ← Flag.turbo.takeThen (pure ())
  return ⟨divisibility, premine, rune, spacers, symbol, terms, turbo.isSome⟩

/-- The mint of a message. -/
def takeMint : MessageM (Option RuneId) := Tag.mint.take 2 fun
  | [block, tx] => do RuneId.new (← tryFrom 64 block) (← tryFrom 32 tx)
  | _ => none

/-- The pointer of a message. -/
def takePointer (outputs : List ScriptBuf) : MessageM (Option Nat) :=
  Tag.pointer.take 1 (single fun pointer => do
    let pointer ← tryFrom 32 pointer
    if pointer < outputs.length then some pointer else none)

/-- The part of `Runestone::decipher` that reads a message. -/
def Message.decipher (outputs : List ScriptBuf) (message : Message) : MessageM Artifact := do
  let flags ← Tag.flags.take 1 (single some)
  modify fun unread => { unread with flags := flags.getD 0 }
  let etching ← Flag.etching.takeThen takeEtching
  let mint ← takeMint
  let pointer ← takePointer outputs
  let unread ← get
  let flaw := message.flaw
  let flaw :=
    if etching.any fun etching => etching.supply.isNone then flaw.or (some .supplyOverflow)
      else flaw
  let flaw := if unread.flags ≠ 0 then flaw.or (some .unrecognizedFlag) else flaw
  let flaw :=
    if unread.fields.keys.any fun tag => tag % 2 =
      0 then flaw.or (some .unrecognizedEvenTag) else flaw
  match flaw with
  | some flaw => return .cenotaph ⟨etching.bind Etching.rune, some flaw, mint⟩
  | none => return .runestone ⟨message.edicts, etching, mint, pointer⟩

/-- `Runestone::decipher`. -/
def Runestone.decipher (instructions : Instructions) (outputs : List ScriptBuf) :
    Except Stop (Option Artifact) :=
  match Runestone.payload instructions outputs with
  | none => return none
  | some (.invalid flaw) => return some (.cenotaph ⟨none, some flaw, none⟩)
  | some (.valid payload) =>
    match Runestone.integers payload with
    | .error _ => return some (.cenotaph ⟨none, some .varint, none⟩)
    | .ok integers => do
      let message ← Message.fromIntegers outputs integers
      let (artifact, _) ← (message.decipher outputs).run ⟨message.fields, 0⟩
      return some artifact

/-! ## The fuel of the integers -/

/-- An integer takes bytes of the buffer. -/
theorem lt_of_varintDecodeFrom {buffer : List UInt8} {i n m k : Nat}
    (h : varintDecodeFrom buffer i n = .ok (m, k)) : i < k ∧ k ≤ i + buffer.length := by
  induction buffer generalizing i n with
  | nil => cases h
  | cons byte buffer ih =>
    rw [varintDecodeFrom] at h
    rw [List.length_cons]
    dsimp only at h
    split_ifs at h
    · cases h
      omega
    · have := ih h
      omega

/-- **Enough fuel**: from the number of bytes on, it makes no difference. -/
theorem integersFrom_congr {fuel fuel' : Nat} {payload : List UInt8} (h : payload.length ≤ fuel)
    (h' : payload.length ≤ fuel') : integersFrom fuel payload = integersFrom fuel' payload := by
  induction fuel generalizing fuel' payload with
  | zero =>
    rw [List.length_eq_zero_iff.mp (Nat.le_zero.mp h)]
    cases fuel' <;> rfl
  | succ fuel ih =>
    cases payload with
    | nil => cases fuel' <;> rfl
    | cons byte buffer =>
      obtain ⟨fuel', rfl⟩ : ∃ n, fuel' = n + 1 := ⟨fuel' - 1, by simp at h'; omega⟩
      rw [List.length_cons] at h h'
      rw [integersFrom, integersFrom]
      cases hdecode : varintDecode (byte :: buffer) with
      | error e => rfl
      | ok decoded =>
        obtain ⟨integer, length⟩ := decoded
        -- the first integer takes a byte at least
        have hpos : 0 < length := (lt_of_varintDecodeFrom hdecode).1
        have hrest : ((byte :: buffer).drop length).length ≤ buffer.length := by
          rw [List.length_drop, List.length_cons]
          omega
        rw [ok_bind, ok_bind]
        dsimp only
        have hih : integersFrom fuel ((byte :: buffer).drop length) =
            integersFrom fuel' ((byte :: buffer).drop length) := ih (by omega) (by omega)
        rw [hih]

/-! ## What is deciphered -/

/-- The outputs of an artifact are among `count` many, or all of them, and its ids fit in their
types. -/
def Artifact.WellFormed (count : Nat) : Artifact → Prop
  | .runestone r =>
    (∀ e ∈ r.edicts, e.output ≤ count ∧ e.id.Fits) ∧ (∀ id, r.mint = some id → id.Fits) ∧
      ∀ pointer, r.pointer = some pointer → pointer < count
  | .cenotaph c => ∀ id, c.mint = some id → id.Fits

theorem RuneId.eq_of_new {block tx : Nat} {id : RuneId} (h : RuneId.new block tx = some id) :
    id = ⟨block, tx⟩ := by
  rw [RuneId.new] at h
  split at h
  · cases h
  · exact (Option.some.inj h).symm

theorem RuneId.fits_of_next {id id' : RuneId} {block tx : Nat} (h : id.next block tx = some id') :
    id'.Fits := by
  obtain ⟨nextBlock, hblock, h⟩ := Option.bind_eq_some_iff.mp h
  obtain ⟨nextTx, htx, h⟩ := Option.bind_eq_some_iff.mp h
  obtain ⟨delta, -, hsum⟩ := Option.bind_eq_some_iff.mp hblock
  obtain ⟨deltaTx, hdelta, hsumTx⟩ := Option.bind_eq_some_iff.mp htx
  have hlt : nextBlock < 2 ^ 64 := lt_of_tryFrom hsum
  have hltTx : nextTx < 2 ^ 32 := by
    split at hsumTx
    · exact lt_of_tryFrom hsumTx
    · cases Option.some.inj hsumTx
      exact lt_of_tryFrom hdelta
  rw [RuneId.eq_of_new h]
  exact ⟨hlt, hltTx⟩

section

variable {outputs : List ScriptBuf} (hcount : outputs.length < 2 ^ 32)

include hcount

theorem Edict.fromIntegers_spec (id : RuneId) (amount output : Nat) :
    ∃ edict, Edict.fromIntegers outputs id amount output = .ok edict ∧
      ∀ e, edict = some e → e.output ≤ outputs.length ∧ e.id = id := by
  rw [Edict.fromIntegers]
  cases tryFrom 32 output with
  | none => exact ⟨none, rfl, fun e he => by cases he⟩
  | some output =>
    refine ⟨if outputs.length < output then none else some ⟨id, amount, output⟩, ?_, fun e he => ?_⟩
    · rw [tryFrom, if_pos hcount]
      rfl
    · split at he
      · cases he
      · rename_i hle
        cases Option.some.inj he
        exact ⟨Nat.le_of_not_lt hle, rfl⟩

theorem bodyEdicts_spec (chunks : List (List Nat)) (id : RuneId) :
    ∃ flaw edicts, bodyEdicts outputs chunks id = .ok (flaw, edicts) ∧
      ∀ e ∈ edicts, e.output ≤ outputs.length ∧ e.id.Fits := by
  -- a body that ends here has no edicts to check
  have hnil : ∀ flaw : Option Flaw, ∃ flaw' edicts,
      (.ok (flaw, []) : Except Stop (Option Flaw × List Edict)) = .ok (flaw', edicts) ∧
        ∀ e ∈ edicts, e.output ≤ outputs.length ∧ e.id.Fits :=
    fun flaw => ⟨flaw, [], rfl, fun e he => absurd he List.not_mem_nil⟩
  induction chunks generalizing id with
  | nil => exact hnil none
  | cons chunk chunks ih =>
    unfold bodyEdicts
    split
    · rename_i block tx amount output
      cases hnext : id.next block tx with
      | none => exact hnil _
      | some next =>
        obtain ⟨edict, hedict, hfits⟩ := Edict.fromIntegers_spec hcount next amount output
        dsimp only
        rw [hedict, ok_bind]
        cases edict with
        | none => exact hnil _
        | some edict =>
          obtain ⟨flaw, edicts, hrest, hall⟩ := ih next
          obtain ⟨houtput, hid⟩ := hfits edict rfl
          refine ⟨flaw, edict :: edicts, ?_, List.forall_mem_cons.mpr ⟨⟨houtput, ?_⟩, hall⟩⟩
          · dsimp only
            rw [hrest]
            rfl
          · rw [hid]
            exact RuneId.fits_of_next hnext
    · exact hnil _

theorem fromIntegersFrom_spec (payload : List Nat) (fields : MessageFields) :
    ∃ message, fromIntegersFrom outputs payload fields = .ok message ∧
      ∀ e ∈ message.edicts, e.output ≤ outputs.length ∧ e.id.Fits := by
  -- a payload that ends here has no edicts
  have hnil : ∀ flaw : Option Flaw, ∀ fields : MessageFields, ∃ message,
      (.ok ⟨flaw, [], fields⟩ : Except Stop Message) =
        .ok message ∧ ∀ e ∈ message.edicts, e.output ≤ outputs.length ∧ e.id.Fits :=
    fun flaw fields => ⟨_, rfl, fun e he => absurd he List.not_mem_nil⟩
  induction payload using List.twoStepInduction generalizing fields with
  | nil => exact hnil none fields
  | singleton tag =>
    unfold fromIntegersFrom
    split
    · exact hnil none fields
    · exact hnil _ fields
  | cons_cons tag value payload ih _ =>
    unfold fromIntegersFrom
    split
    · obtain ⟨flaw, edicts, hbody, hall⟩ :=
        bodyEdicts_spec hcount (chunks 4 (value :: payload)) ⟨0, 0⟩
      rw [hbody]
      exact ⟨⟨flaw, edicts, fields⟩, rfl, hall⟩
    · exact ih _

end

/-- **Taking a field never stops**: a deque that was drained is in the map. What is taken was made
of values. -/
theorem Tag.take_ensures {T : Type} (tag : Tag) (count : Nat) (f : List Nat → Option T) :
    Ensures (tag.take count f) fun r => ∀ t, r = some t → ∃ values, f values = some t := by
  intro unread
  rw [Tag.take]
  -- a take without a value has nothing to check
  have hnone :
      ∃ r unread', (.ok (none, unread) : Except Stop (Option T × Unread)) = .ok (r, unread') ∧
      ∀ t, r = some t → ∃ values, f values = some t :=
    ⟨none, unread, rfl, fun t ht => by cases ht⟩
  cases unread.fields.lookup tag.toNat with
  | none => exact hnone
  | some field =>
    dsimp only
    split
    · exact hnone
    · cases hvalue : f (field.take count) with
      | none => exact hnone
      | some value =>
        have hmade : ∀ t, some value = some t → ∃ values, f values = some t :=
          fun t ht => ⟨_, hvalue.trans ht⟩
        dsimp only
        split
        · rw [HashMap.lookup_insert, if_pos rfl]
          exact ⟨_, _, rfl, hmade⟩
        · exact ⟨_, _, rfl, hmade⟩

theorem Flag.takeThen_ensures {T : Type} (flag : Flag) {m : MessageM T} {Q : T → Prop}
    (hm : Ensures m Q) :
    Ensures (flag.takeThen m) fun _ => True := by
  intro unread
  rw [Flag.takeThen]
  split
  · obtain ⟨value, unread', hrun, -⟩ := hm { unread with flags := unread.flags - 2 ^ flag.toNat }
    rw [StateT.run, hrun]
    exact ⟨some value, unread', rfl, trivial⟩
  · exact ⟨none, unread, rfl, trivial⟩

theorem takeTerms_ensures : Ensures takeTerms fun _ => True := by
  refine (Tag.take_ensures _ _ _).bind fun cap _ => ?_
  refine (Tag.take_ensures _ _ _).bind fun heightStart _ => ?_
  refine (Tag.take_ensures _ _ _).bind fun heightEnd _ => ?_
  refine (Tag.take_ensures _ _ _).bind fun amount _ => ?_
  refine (Tag.take_ensures _ _ _).bind fun offsetStart _ => ?_
  refine (Tag.take_ensures _ _ _).bind fun offsetEnd _ => ?_
  exact .pure trivial

theorem takeEtching_ensures : Ensures takeEtching fun _ => True := by
  refine (Tag.take_ensures _ _ _).bind fun divisibility _ => ?_
  refine (Tag.take_ensures _ _ _).bind fun premine _ => ?_
  refine (Tag.take_ensures _ _ _).bind fun rune _ => ?_
  refine (Tag.take_ensures _ _ _).bind fun spacers _ => ?_
  refine (Tag.take_ensures _ _ _).bind fun symbol _ => ?_
  refine (Flag.takeThen_ensures _ takeTerms_ensures).bind fun terms _ => ?_
  refine (Flag.takeThen_ensures _ (.pure (Q := fun _ => True) trivial)).bind fun turbo _ => ?_
  exact .pure trivial

theorem takeMint_ensures : Ensures takeMint fun mint => ∀ id, mint = some id → id.Fits := by
  refine (Tag.take_ensures _ _ _).mono fun mint hmint id hid => ?_
  obtain ⟨values, hvalues⟩ := hmint id hid
  split at hvalues
  · obtain ⟨block, hblock, hvalues⟩ := Option.bind_eq_some_iff.mp hvalues
    obtain ⟨tx, htx, hvalues⟩ := Option.bind_eq_some_iff.mp hvalues
    rw [RuneId.eq_of_new hvalues]
    exact ⟨lt_of_tryFrom hblock, lt_of_tryFrom htx⟩
  · cases hvalues

theorem takePointer_ensures (outputs : List ScriptBuf) :
    Ensures (takePointer outputs) fun pointer => ∀ p, pointer = some p → p < outputs.length := by
  refine (Tag.take_ensures _ _ _).mono fun pointer hpointer p hp => ?_
  obtain ⟨values, hvalues⟩ := hpointer p hp
  unfold single at hvalues
  split at hvalues
  · obtain ⟨value, -, hvalues⟩ := Option.bind_eq_some_iff.mp hvalues
    split at hvalues
    · cases Option.some.inj hvalues
      assumption
    · cases hvalues
  · cases hvalues

theorem Message.decipher_ensures {outputs : List ScriptBuf} {message : Message}
    (hedicts : ∀ e ∈ message.edicts, e.output ≤ outputs.length ∧ e.id.Fits) :
    Ensures (message.decipher outputs) (Artifact.WellFormed outputs.length) := by
  refine (Tag.take_ensures _ _ _).bind fun flags _ => ?_
  refine (Ensures.modifyState _).bind fun _ _ => ?_
  refine (Flag.takeThen_ensures _ takeEtching_ensures).bind fun etching _ => ?_
  refine takeMint_ensures.bind fun mint hmint => ?_
  refine (takePointer_ensures outputs).bind fun pointer hpointer => ?_
  refine Ensures.get.bind fun unread _ => ?_
  dsimp only
  split
  · exact .pure hmint
  · exact .pure ⟨hedicts, hmint, hpointer⟩

/-- **Deciphering never stops**, and what it reads is well formed. -/
theorem Runestone.decipher_spec (instructions : Instructions) {outputs : List ScriptBuf}
    (hcount : outputs.length < 2 ^ 32) :
    ∃ artifact, Runestone.decipher instructions outputs = .ok artifact ∧
      ∀ a, artifact = some a → a.WellFormed outputs.length := by
  -- a flawed payload gives a cenotaph without etching and mint
  have hflawed :
      ∀ flaw, ∃ artifact,
      (.ok (some (.cenotaph ⟨none, flaw, none⟩)) : Except Stop (Option Artifact)) =
        .ok artifact ∧ ∀ a, artifact = some a → a.WellFormed outputs.length := by
    refine fun flaw => ⟨_, rfl, fun a ha => ?_⟩
    cases Option.some.inj ha
    exact fun id hid => by cases hid
  rw [Runestone.decipher]
  split
  · exact ⟨none, rfl, fun a ha => by cases ha⟩
  · exact hflawed _
  · split
    · exact hflawed _
    · rename_i integers _
      obtain ⟨message, hmessage, hedicts⟩ := fromIntegersFrom_spec hcount integers ∅
      obtain ⟨artifact, fields, hartifact, hwell⟩ :=
        Message.decipher_ensures hedicts ⟨message.fields, 0⟩
      refine ⟨some artifact, ?_, fun a ha => Option.some.inj ha ▸ hwell⟩
      rw [Message.fromIntegers, hmessage, ok_bind, StateT.run, hartifact]
      rfl

end Runehook
