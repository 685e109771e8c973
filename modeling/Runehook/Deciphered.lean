import Runehook.RunestoneCodec

/-! # What is deciphered

A runestone that `Runestone::decipher` reads in a transaction is valid for its outputs, and its
edicts are in the order of their ids (`Runestone.valid_of_decipher`): so it is read again,
unchanged, from the script that `Runestone::encipher` builds for it
(`Runestone.decipher_encipher_deciphered`). `Yields` says what a reader of a message can give, and
has a rule for each way to make one. -/

namespace Runehook

open Lib

/-! ## Readers -/

/-- Every value of a message fits in a `u128`. -/
def InRange (map : MessageFields) : Prop :=
  ∀ tag values, map.lookup tag = some values → ∀ n ∈ values, n < 2 ^ 128

/-- A reader keeps the values in range, and what it gives has a property. -/
def Yields {T : Type} (m : MessageM T) (Q : T → Prop) : Prop :=
  ∀ unread t unread', InRange unread.fields → m unread = .ok (t, unread') →
    InRange unread'.fields ∧ Q t

section

variable {T U : Type}

theorem Yields.pure {Q : T → Prop} {t : T} (h : Q t) : Yields (Pure.pure t) Q := by
  intro unread t' unread' hrange hrun
  cases hrun
  exact ⟨hrange, h⟩

/-- **One reader after another.** -/
theorem Yields.bind {m : MessageM T} {k : T → MessageM U} {Q : T → Prop} {R : U → Prop}
    (hm : Yields m Q) (hk : ∀ t, Q t → Yields (k t) R) : Yields (m >>= k) R := by
  intro unread u unread'' hrange hrun
  have hbind : (m unread >>= fun p => k p.1 p.2) = .ok (u, unread'') := hrun
  cases hfirst : m unread with
  | error e =>
    rw [hfirst] at hbind
    cases hbind
  | ok p =>
    rw [hfirst] at hbind
    obtain ⟨hrange', hq⟩ := hm unread p.1 p.2 hrange hfirst
    exact hk p.1 hq p.2 u unread'' hrange' hbind

theorem Yields.mono {m : MessageM T} {Q R : T → Prop} (h : Yields m Q)
    (himp : ∀ t, Q t → R t) : Yields m R :=
  fun unread t unread' hrange hrun => (h unread t unread' hrange hrun).imp_right (himp t)

theorem Yields.setFlags (flags : Nat) :
    Yields (modify fun unread => { unread with flags := flags }) fun _ => True := by
  intro unread t unread' hrange hrun
  cases hrun
  exact ⟨hrange, trivial⟩

theorem Yields.get : Yields (MonadState.get : MessageM Unread) fun _ => True := by
  intro unread t unread' hrange hrun
  cases hrun
  exact ⟨hrange, trivial⟩

/-- **What is taken** was made of values in range. -/
theorem Yields.take (tag : Tag) (count : Nat) (f : List Nat → Option T) :
    Yields (tag.take count f) fun o => ∀ t ∈ o, ∃ values, (∀ n ∈ values, n < 2 ^ 128) ∧
    f values = some t := by
  rintro ⟨map, flags⟩ o unread' hrange hrun
  rw [Tag.take] at hrun
  dsimp only at hrun
  cases hlookup : map.lookup tag.toNat with
  | none =>
    rw [hlookup] at hrun
    cases hrun
    exact ⟨hrange, fun t ht => by cases ht⟩
  | some field =>
    have hfield : ∀ n ∈ field, n < 2 ^ 128 := hrange _ _ hlookup
    -- putting the rest of the field back keeps the values in range
    have hinsert : InRange (map.insert tag.toNat (field.drop count)) := by
      intro t values hvalues
      rw [HashMap.lookup_insert] at hvalues
      split at hvalues
      · cases hvalues
        exact fun n hn => hfield n (List.mem_of_mem_drop hn)
      · exact hrange t values hvalues
    rw [hlookup] at hrun
    dsimp only at hrun
    split at hrun
    · cases hrun
      exact ⟨hrange, fun t ht => by cases ht⟩
    · cases hvalue : f (field.take count) with
      | none =>
        rw [hvalue] at hrun
        cases hrun
        exact ⟨hrange, fun t ht => by cases ht⟩
      | some value =>
        have hmade : ∀ t ∈ some value, ∃ values, (∀ n ∈ values, n < 2 ^ 128) ∧ f values = some t :=
          fun t ht => ⟨field.take count, fun n hn => hfield n (List.mem_of_mem_take hn),
            hvalue.trans ht⟩
        rw [hvalue] at hrun
        dsimp only at hrun
        split at hrun
        -- an emptied field is erased
        · rw [HashMap.lookup_insert, if_pos rfl] at hrun
          cases hrun
          refine ⟨fun t values hvalues => ?_, hmade⟩
          by_cases ht : t = tag.toNat
          · rw [ht, AList.lookup_erase] at hvalues
            cases hvalues
          · rw [AList.lookup_erase_ne ht] at hvalues
            exact hinsert t values hvalues
        · cases hrun
          exact ⟨hinsert, hmade⟩

/-- What is taken as a single value was made of one in range. -/
theorem Yields.takeSingle (tag : Tag) (f : Nat → Option T) :
    Yields (tag.take 1 (single f)) fun o => ∀ t ∈ o, ∃ n, n < 2 ^ 128 ∧ f n = some t := by
  refine (Yields.take tag 1 (single f)).mono fun o ho t ht => ?_
  obtain ⟨values, hvalues, hf⟩ := ho t ht
  unfold single at hf
  split at hf
  · exact ⟨_, hvalues _ List.mem_cons_self, hf⟩
  · cases hf

theorem Yields.takeThen {flag : Flag} {m : MessageM T} {Q : T → Prop} (hm : Yields m Q) :
    Yields (flag.takeThen m) fun o => ∀ t ∈ o, Q t := by
  rintro ⟨map, flags⟩ o unread' hrange hrun
  rw [Flag.takeThen] at hrun
  dsimp only at hrun
  split at hrun
  · cases hfirst : m ⟨map, flags - 2 ^ flag.toNat⟩ with
    | error e =>
      rw [StateT.run, hfirst] at hrun
      cases hrun
    | ok p =>
      rw [StateT.run, hfirst] at hrun
      cases hrun
      obtain ⟨hrange', hq⟩ := hm ⟨map, flags - 2 ^ flag.toNat⟩ p.1 p.2 hrange hfirst
      refine ⟨hrange', fun t ht => ?_⟩
      cases ht
      exact hq
  · cases hrun
    exact ⟨hrange, fun t ht => by cases ht⟩

end

theorem eq_of_tryFrom {bits n m : Nat} (h : tryFrom bits n = some m) : m = n := by
  rw [tryFrom] at h
  split_ifs at h
  exact (Option.some.inj h).symm

theorem yields_takeTerms : Yields takeTerms Terms.Valid := by
  refine (Yields.takeSingle _ _).bind fun cap hcap => ?_
  refine (Yields.takeSingle _ _).bind fun heightStart hheightStart => ?_
  refine (Yields.takeSingle _ _).bind fun heightEnd hheightEnd => ?_
  refine (Yields.takeSingle _ _).bind fun amount hamount => ?_
  refine (Yields.takeSingle _ _).bind fun offsetStart hoffsetStart => ?_
  refine (Yields.takeSingle _ _).bind fun offsetEnd hoffsetEnd => ?_
  -- a value that is kept as it is stays below the bound of integers
  have hsome {o : Option Nat} (h : ∀ t ∈ o, ∃ n, n < 2 ^ 128 ∧ some n = some t) :
      ∀ n ∈ o, n < 2 ^ 128 := by
    intro n hn
    obtain ⟨m, hm, hmn⟩ := h n hn
    cases hmn
    exact hm
  -- a value that was converted fits 64 bits
  have htryFrom {o : Option Nat} (h : ∀ t ∈ o, ∃ n, n < 2 ^ 128 ∧ tryFrom 64 n = some t) :
      ∀ n ∈ o, n < 2 ^ 64 := by
    intro n hn
    obtain ⟨m, -, hmn⟩ := h n hn
    exact lt_of_tryFrom hmn
  exact .pure ⟨hsome hamount, hsome hcap, htryFrom hheightStart, htryFrom hheightEnd,
    htryFrom hoffsetStart, htryFrom hoffsetEnd⟩

/-- The etching is valid if its supply is. -/
theorem yields_takeEtching : Yields takeEtching fun e => e.supply.isSome → e.Valid := by
  refine (Yields.takeSingle _ _).bind fun divisibility hdivisibility => ?_
  refine (Yields.takeSingle _ _).bind fun premine hpremine => ?_
  refine (Yields.takeSingle _ _).bind fun rune hrune => ?_
  refine (Yields.takeSingle _ _).bind fun spacers hspacers => ?_
  refine (Yields.takeSingle _ _).bind fun symbol _ => ?_
  refine (Yields.takeThen yields_takeTerms).bind fun terms hterms => ?_
  refine (Yields.takeThen (Yields.pure (Q := fun _ => True) trivial)).bind fun turbo _ => ?_
  refine .pure fun hsupply => ⟨fun n hn => ?_, fun n hn => ?_, fun n hn => ?_, fun n hn => ?_,
    hterms, hsupply⟩
  · obtain ⟨m, -, hm⟩ := hdivisibility n hn
    obtain ⟨k, -, hm⟩ := Option.bind_eq_some_iff.mp hm
    split_ifs at hm with hle
    cases hm
    exact hle
  · obtain ⟨m, hm, hmn⟩ := hpremine n hn
    cases hmn
    exact hm
  · obtain ⟨m, hm, hmn⟩ := hrune n hn
    cases hmn
    exact hm
  · obtain ⟨m, -, hm⟩ := hspacers n hn
    obtain ⟨k, -, hm⟩ := Option.bind_eq_some_iff.mp hm
    split_ifs at hm with hle
    cases hm
    exact hle

theorem yields_takeMint : Yields takeMint fun mint => ∀ id ∈ mint, id.Valid := by
  refine (Yields.take _ _ _).mono fun mint hmint id hid => ?_
  obtain ⟨values, -, hvalues⟩ := hmint id hid
  split at hvalues
  · obtain ⟨block, hblock, hvalues⟩ := Option.bind_eq_some_iff.mp hvalues
    obtain ⟨tx, htx, hvalues⟩ := Option.bind_eq_some_iff.mp hvalues
    obtain ⟨rfl, hzero⟩ := RuneId.new_eq_some hvalues
    exact ⟨⟨lt_of_tryFrom hblock, lt_of_tryFrom htx⟩, hzero⟩
  · cases hvalues

theorem yields_takePointer (outputs : List ScriptBuf) :
    Yields (takePointer outputs) fun pointer => ∀ n ∈ pointer, n < outputs.length := by
  refine (Yields.takeSingle _ _).mono fun pointer hpointer n hn => ?_
  obtain ⟨m, -, hm⟩ := hpointer n hn
  obtain ⟨k, -, hm⟩ := Option.bind_eq_some_iff.mp hm
  split_ifs at hm with hlt
  cases hm
  exact hlt

/-- An edict that is made of integers. -/
theorem Edict.eq_of_fromIntegers {outputs : List ScriptBuf} {id : RuneId}
    {amount output : Nat} {e : Edict}
    (h : Edict.fromIntegers outputs id amount output = .ok (some e)) :
    e = ⟨id, amount, output⟩ ∧ output ≤ outputs.length := by
  rw [Edict.fromIntegers] at h
  cases houtput : tryFrom 32 output with
  | none =>
    rw [houtput] at h
    cases h
  | some output' =>
    obtain rfl := eq_of_tryFrom houtput
    rw [houtput] at h
    dsimp only at h
    cases hcount : tryFrom 32 outputs.length with
    | none =>
      rw [hcount] at h
      cases h
    | some count =>
      obtain rfl := eq_of_tryFrom hcount
      rw [hcount, unwrap_some, ok_bind] at h
      split at h
      · cases h
      · next hle =>
        cases h
        exact ⟨rfl, Nat.le_of_not_lt hle⟩

/-- One round of the loop over the body that ends well for one edict. -/
theorem bodyEdicts_cons_eq_ok {outputs : List ScriptBuf} {block tx amount output : Nat}
    {chunks : List (List Nat)} {id : RuneId} {flaw : Option Flaw} {edicts : List Edict}
    (h : bodyEdicts outputs ([block, tx, amount, output] :: chunks) id = .ok (flaw, edicts)) :
    edicts = [] ∨ ∃ next edicts', id.next block tx = some next ∧ output ≤ outputs.length ∧
      bodyEdicts outputs chunks next = .ok (flaw, edicts') ∧
      edicts = ⟨next, amount, output⟩ :: edicts' := by
  rw [bodyEdicts] at h
  -- the body ends at an id that overflows
  cases hnext : id.next block tx with
  | none =>
    rw [hnext] at h
    cases h
    exact .inl rfl
  | some next =>
    rw [hnext] at h
    dsimp only at h
    -- or at an output that is too large
    cases hedict : Edict.fromIntegers outputs next amount output with
    | error e =>
      rw [hedict] at h
      cases h
    | ok edict =>
      rw [hedict, ok_bind] at h
      cases edict with
      | none =>
        cases h
        exact .inl rfl
      | some edict =>
        obtain ⟨rfl, hle⟩ := Edict.eq_of_fromIntegers hedict
        dsimp only at h
        cases hrest : bodyEdicts outputs chunks next with
        | error e =>
          rw [hrest] at h
          cases h
        | ok rest =>
          rw [hrest, ok_bind] at h
          cases h
          exact .inr ⟨next, rest.2, rfl, hle, hrest, rfl⟩

/-- The edicts of the body of a message are valid and in order. -/
theorem bodyEdicts_valid {outputs : List ScriptBuf} {chunks : List (List Nat)} {id : RuneId}
    {flaw : Option Flaw} {edicts : List Edict} (hrange : ∀ chunk ∈ chunks, ∀ n ∈ chunk, n < 2 ^ 128)
    (h : bodyEdicts outputs chunks id = .ok (flaw, edicts)) :
    (∀ e ∈ edicts, e.Valid outputs.length) ∧ SortedById edicts ∧ ∀ e ∈ edicts, id.Le e.id := by
  have hnil : (∀ e ∈ ([] : List Edict), e.Valid outputs.length) ∧ SortedById [] ∧
      ∀ e ∈ ([] : List Edict), id.Le e.id := by
    simp [SortedById]
  induction chunks generalizing id flaw edicts with
  | nil =>
    cases h
    exact hnil
  | cons chunk chunks ih =>
    obtain ⟨hchunk, hchunks⟩ := List.forall_mem_cons.mp hrange
    by_cases hlength : ∃ block tx amount output, chunk = [block, tx, amount, output]
    · obtain ⟨block, tx, amount, output, rfl⟩ := hlength
      rcases bodyEdicts_cons_eq_ok h with rfl | ⟨next, edicts', hnext, hle, hrest, rfl⟩
      · exact hnil
      · obtain ⟨hvalid, hid⟩ := RuneId.next_spec hnext
        obtain ⟨hedicts, hsorted, hfirst⟩ := ih hchunks hrest (by simp [SortedById])
        refine ⟨List.forall_mem_cons.mpr ⟨⟨hvalid, hchunk amount (by simp), hle⟩, hedicts⟩,
          List.pairwise_cons.mpr ⟨hfirst, hsorted⟩, List.forall_mem_cons.mpr ⟨hid, fun e he => ?_⟩⟩
        exact IsTrans.trans _ _ _ hid (hfirst e he)
    · unfold bodyEdicts at h
      split at h
      · exact absurd ⟨_, _, _, _, rfl⟩ hlength
      · cases h
        exact hnil

/-- A message has its values in range, and its edicts valid and in order. -/
structure Message.Valid (count : Nat) (message : Message) : Prop where
  /-- The values are in the range of a `u128`. -/
  fields : InRange message.fields
  /-- The edicts are valid for `count` outputs. -/
  edicts : ∀ e ∈ message.edicts, e.Valid count
  /-- The ids of the edicts ascend. -/
  sorted : SortedById message.edicts

theorem InRange.alter {map : MessageFields} (h : InRange map) (tag : Nat) {value : Nat}
    (hvalue : value < 2 ^ 128) :
    InRange (map.alter tag fun values => values.getD [] ++ [value]) := by
  intro t values hvalues
  rw [HashMap.lookup_alter] at hvalues
  split at hvalues
  · cases hvalues
    refine List.forall_mem_append.mpr ⟨fun n hn => ?_, by simpa using hvalue⟩
    cases hlookup : map.lookup tag with
    | none =>
      rw [hlookup] at hn
      cases hn
    | some found =>
      rw [hlookup] at hn
      exact h tag found hlookup n hn
  · exact h t values hvalues

theorem fromIntegersFrom_valid {outputs : List ScriptBuf} {payload : List Nat} {map : MessageFields}
    {message : Message} (hpayload : ∀ n ∈ payload, n < 2 ^ 128) (hmap : InRange map)
    (h : fromIntegersFrom outputs payload map = .ok message) : message.Valid outputs.length := by
  induction payload using List.twoStepInduction generalizing map with
  | nil =>
    cases h
    exact ⟨hmap, by simp, by simp [SortedById]⟩
  | singleton tag =>
    unfold fromIntegersFrom at h
    split at h
    · cases h
      exact ⟨hmap, by simp, by simp [SortedById]⟩
    · cases h
      exact ⟨hmap, by simp, by simp [SortedById]⟩
  | cons_cons tag value payload ih _ =>
    obtain ⟨-, hrest⟩ := List.forall_mem_cons.mp hpayload
    obtain ⟨hvalue, hrest'⟩ := List.forall_mem_cons.mp hrest
    unfold fromIntegersFrom at h
    split at h
    · cases hbody : bodyEdicts outputs (chunks 4 (value :: payload)) ⟨0, 0⟩ with
      | error e =>
        rw [hbody] at h
        cases h
      | ok body =>
        rw [hbody, ok_bind] at h
        cases h
        -- every integer of a chunk is one of the payload
        have hchunks : ∀ chunk ∈ chunks 4 (value :: payload), ∀ n ∈ chunk,
            n < 2 ^ 128 := fun chunk hchunk n hn =>
          hrest n
            (by rw [← flatten_chunks 4 (value :: payload)]; exact List.mem_flatten_of_mem hchunk hn)
        obtain ⟨hedicts, hsorted, -⟩ := bodyEdicts_valid hchunks hbody
        exact ⟨hmap, hedicts, hsorted⟩
    · exact ih hrest' (hmap.alter tag hvalue) h

/-- The artifact of a message is a valid runestone, if it is one. -/
theorem Message.yields_decipher {outputs : List ScriptBuf} {message : Message}
    (h : message.Valid outputs.length) :
    Yields (message.decipher outputs) fun artifact => ∀ r, artifact = .runestone r →
      r.Valid outputs.length ∧ SortedById r.edicts := by
  refine (Yields.takeSingle _ _).bind fun flags _ => ?_
  refine (Yields.setFlags _).bind fun _ _ => ?_
  refine (Yields.takeThen yields_takeEtching).bind fun etching hetching => ?_
  refine yields_takeMint.bind fun mint hmint => ?_
  refine (yields_takePointer outputs).bind fun pointer hpointer => ?_
  refine Yields.get.bind fun unread _ => ?_
  dsimp only
  split
  · exact .pure fun r hr => by cases hr
  · next hflaw =>
    refine .pure fun r hr => ?_
    cases hr
    refine ⟨⟨h.edicts, fun e he => hetching e he ?_, hmint, hpointer⟩, h.sorted⟩
    -- without a flaw the supply fits
    by_contra hnone
    have hany : etching.any (fun etching => etching.supply.isNone) = true := by
      cases he
      simpa using hnone
    rw [if_pos hany] at hflaw
    split_ifs at hflaw <;> simp at hflaw

/-- **What is deciphered is valid**, with its edicts in the order of their ids. -/
theorem Runestone.valid_of_decipher {instructions : Instructions} {outputs : List ScriptBuf}
    {r : Runestone} (h : Runestone.decipher instructions outputs = .ok (some (.runestone r))) :
    r.Valid outputs.length ∧ SortedById r.edicts := by
  rw [Runestone.decipher] at h
  split at h
  · cases h
  · cases h
  · next payload _ =>
    split at h
    · cases h
    · next integers hintegers =>
      cases hmessage : Message.fromIntegers outputs integers with
      | error e =>
        rw [hmessage] at h
        cases h
      | ok message =>
        rw [hmessage, ok_bind] at h
        -- the fields start empty, which is in range
        have hvalid : message.Valid outputs.length := by
          refine fromIntegersFrom_valid (Runestone.lt_of_mem_integers hintegers) ?_ hmessage
          intro tag values hvalues
          rw [HashMap.lookup_empty] at hvalues
          cases hvalues
        cases hrun : (message.decipher outputs).run ⟨message.fields, 0⟩ with
        | error e =>
          rw [hrun] at h
          cases h
        | ok result =>
          rw [hrun, ok_bind] at h
          obtain ⟨-, hq⟩ :=
            message.yields_decipher hvalid ⟨message.fields, 0⟩ result.1 result.2 hvalid.fields hrun
          exact hq r (Option.some.inj (Except.ok.inj h))

/-- **Enciphered again**: a runestone that was deciphered is valid, its edicts are in the order of
their ids, and it is read back, unchanged, from the script that is built for it in a transaction
with as many outputs. -/
theorem Runestone.decipher_encipher_deciphered {instructions : Instructions}
    {outputs : List ScriptBuf} {r : Runestone}
    (h : Runestone.decipher instructions outputs = .ok (some (.runestone r))) :
    r.Valid outputs.length ∧ SortedById r.edicts ∧
      ∀ {before after : List ScriptBuf} {script : ScriptBuf}, outputs.length < 2 ^ 32 →
        (before ++ script :: after).length = outputs.length →
        Runestone.payload instructions before = none →
        r.encipher.map (List.map some) = some (instructions script) →
        Runestone.decipher instructions (before ++ script :: after) =
          .ok (some (.runestone r)) := by
  obtain ⟨hvalid, hsorted⟩ := Runestone.valid_of_decipher h
  refine ⟨hvalid, hsorted, fun {before after script} hcount hlength hbefore hscript => ?_⟩
  rw [← hlength] at hvalid hcount
  have hagain :=
    Runestone.decipher_of_payload hcount hvalid (Runestone.payload_encipher hbefore hscript after)
  rw [hagain, Runestone.sorted, sortById_eq_self hsorted]

/-- The script of `fullRunestone`, with the edicts in order, and the same script after another
output. -/
theorem decipher_encipher_deciphered_fullScript :
    fullRunestone.sorted.Valid 2 ∧ SortedById fullRunestone.sorted.edicts ∧
      Runestone.decipher (directInstructions 64) ([[0x51]] ++ fullScript :: []) =
        .ok (some (.runestone fullRunestone.sorted)) := by
  have h : Runestone.decipher (directInstructions 64) [fullScript, []] =
      .ok (some (.runestone fullRunestone.sorted)) := by decide +kernel
  obtain ⟨hvalid, hsorted, hagain⟩ := Runestone.decipher_encipher_deciphered h
  exact ⟨hvalid, hsorted, hagain (by decide) rfl (by decide) (by decide +kernel)⟩

end Runehook
