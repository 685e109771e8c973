import Runehook.MinedRows
import Runehook.PartialOperations

/-! # No partial operation fails

The loop over transactions with its partial operations does what it does without them, and stops
only where a statement of the database makes the process exit: hashes have their prefix, ids fit in
their types, a row that is unwrapped has its fields, and an edict names an output that there is.
Each function with its partial operations comes with an equation to the one without (`runChecked_eq`
for a call, `indexTransactionChecked_eq` for a transaction), `runEvents_confined` is the invariant
of runs, and `indexTransactions_noPanics` the result. -/

namespace Runehook

open Lib

/-! ## Hashes, ids and names -/

/-- A hash with the prefix `0x`. -/
def HexPrefixed (hash : String) : Prop := ∃ digits, hash.toList = '0' :: 'x' :: digits

theorem hashSlice_eq {hash : String} (h : HexPrefixed hash) :
    hashSlice hash = .ok (stripHexPrefix hash) := by
  obtain ⟨digits, hdigits⟩ := h
  have hbytes : ∀ c ∈ ['0', 'x'], c.utf8Size = 1 := by
    intro c hc
    rcases List.mem_pair.mp hc with rfl | rfl <;> rfl
  have hslice : sliceFrom 2 ('0' :: 'x' :: digits) = some digits := sliceFrom_length hbytes digits
  rw [hashSlice, stripHexPrefix, hdigits, hslice]
  rfl

/-- **An id is read back** from its text. -/
theorem RuneId.fromStr_text {id : RuneId} (h : id.Fits) : RuneId.fromStr id.text = some id := by
  have hdigits : ∀ c ∈ Nat.toDigits 10 id.block, decide (c ≠ ':') = true := by
    intro c hc
    rw [decide_eq_true_eq]
    rintro rfl
    exact absurd (isDigit_of_mem_toDigits hc) (by decide)
  have hspan :
      id.text.span (· ≠ ':') = (Nat.toDigits 10 id.block, ':' :: Nat.toDigits 10 id.tx) := by
    rw [RuneId.text, List.span_eq_takeWhile_dropWhile, List.takeWhile_append_of_pos hdigits,
      List.dropWhile_append_of_pos hdigits]
    simp
  rw [RuneId.fromStr, hspan]
  dsimp only
  rw [parseUnsigned_toDigits h.block, parseUnsigned_toDigits h.tx]
  rfl

theorem RuneId.parse_eq {id : RuneId} (h : id.Fits) : id.parse = .ok id := by
  rw [RuneId.parse, RuneId.fromStr_text h]
  rfl

/-- The names that are given out implicitly are far below `2 ^ 128`. -/
theorem Rune.reservedChecked_eq {block tx : Nat} (h : RuneId.Fits ⟨block, tx⟩) :
    Rune.reservedChecked block tx = .ok (Rune.reserved block tx) := by
  obtain ⟨hblock, htx⟩ := h
  dsimp only at hblock htx
  have hlt : Rune.RESERVED + (block * 2 ^ 32 + tx) < 2 ^ 128 := by
    unfold Rune.RESERVED
    omega
  rw [Rune.reservedChecked, u128CheckedAdd, if_pos hlt]
  rfl

theorem Rune.lettersChecked_eq (fuel n : Nat) (acc : List Char) :
    Rune.lettersChecked fuel n acc = .ok (Rune.letters fuel n acc) := by
  induction fuel generalizing n acc with
  | zero => rfl
  | succ fuel ih =>
    rw [Rune.lettersChecked, Rune.letters]
    split
    · -- there are 26 letters
      have hlt : (n - 1) % 26 < "ABCDEFGHIJKLMNOPQRSTUVWXYZ".toList.length :=
        Nat.mod_lt _ (by decide)
      rw [List.getElem?_eq_getElem hlt, unwrap_some, ok_bind, ih, List.getD_eq_getElem?_getD,
        List.getElem?_eq_getElem hlt, Option.getD_some]
    · rfl

theorem Rune.toNameChecked_eq (rune : Rune) : Rune.toNameChecked rune = .ok (Rune.toName rune) := by
  rw [Rune.toNameChecked, Rune.toName]
  split
  · rfl
  · rw [Rune.lettersChecked_eq]
    rfl

theorem SpacedRune.toNameChecked_eq (rune : Rune) (spacers : Nat) :
    SpacedRune.toNameChecked rune spacers = .ok (SpacedRune.toName rune spacers) := by
  rw [SpacedRune.toNameChecked, Rune.toNameChecked_eq]
  rfl

/-! ## Rows -/

/-- A location whose hashes have their prefix and whose id fits. -/
structure TransactionLocation.Sound (location : TransactionLocation) : Prop where
  /-- The hash of the block has its prefix. -/
  blockHash : HexPrefixed location.blockHash
  /-- So has the id of the transaction. -/
  txId : HexPrefixed location.txId
  /-- The id of a rune etched there fits. -/
  runeId : location.runeId.Fits

section

variable {location : TransactionLocation} (h : location.Sound)

include h

theorem newSequentialLedgerEntryChecked_eq (amount : Option Nat) (runeId : RuneId)
    (output : Option Nat) (address receiver : Option Address)
    (operation : DbLedgerOperation) (n : Nat) :
    newSequentialLedgerEntryChecked location amount runeId output address receiver operation n =
      .ok (newSequentialLedgerEntry location amount runeId output address receiver
        operation n) := by
  rw [newSequentialLedgerEntryChecked, DbLedgerEntry.fromValuesChecked, hashSlice_eq h.blockHash,
    hashSlice_eq h.txId]
  rfl

theorem DbRune.fromEtchingChecked_eq (etching : Etching) (number : Nat) :
    DbRune.fromEtchingChecked etching number location =
      .ok (DbRune.fromEtching etching number location) := by
  rw [DbRune.fromEtchingChecked, Rune.reservedChecked_eq h.runeId, hashSlice_eq h.blockHash,
    hashSlice_eq h.txId]
  simp only [Rune.toNameChecked_eq, SpacedRune.toNameChecked_eq, ok_bind, DbRune.fromEtching]
  cases etching.spacers <;> rfl

theorem DbRune.fromCenotaphEtchingChecked_eq (rune : Rune) (number : Nat) :
    DbRune.fromCenotaphEtchingChecked rune number location =
      .ok (DbRune.fromCenotaphEtching rune number location) := by
  rw [DbRune.fromCenotaphEtchingChecked, Rune.toNameChecked_eq, hashSlice_eq h.blockHash,
    hashSlice_eq h.txId]
  rfl

/-! ## Moves -/

theorem senderEntriesChecked_eq (runeId : RuneId) (output : Option Nat) (receiver : Option Address)
    (operation : DbLedgerOperation) (senders : List (Nat × Address)) (n : Nat) :
    senderEntriesChecked location runeId output receiver operation senders n =
      .ok (senderEntries location runeId output receiver operation senders n) := by
  induction senders generalizing n with
  | nil => rfl
  | cons sender senders ih =>
    rw [senderEntriesChecked, newSequentialLedgerEntryChecked_eq h, ok_bind]
    dsimp only
    rw [ih]
    rfl

theorem moveRuneBalanceToOutputChecked_eq (env : Environment) (output : Option Nat)
    (runeId : RuneId) (balances : List InputRuneBalance) (outputs : HashMap Nat ScriptBuf)
    (amount n : Nat) :
    moveRuneBalanceToOutputChecked env location output runeId balances outputs amount n =
      .ok (moveRuneBalanceToOutput env location output runeId balances outputs amount n) := by
  rw [moveRuneBalanceToOutputChecked, moveRuneBalanceToOutput]
  dsimp only
  generalize receiverAddress env location outputs output = receiver
  rw [receiveEntryChecked]
  split
  · rename_i hreceives
    -- the branch of the `receive` entry is the one where there is a receiver
    obtain ⟨receiver, rfl⟩ := Option.isSome_iff_exists.mp hreceives.1
    rw [newSequentialLedgerEntryChecked_eq h, ok_bind]
    dsimp only
    rw [unwrap_some, ok_bind, pure_bind]
    dsimp only
    rw [senderEntriesChecked_eq h]
    rfl
  · rw [pure_bind]
    dsimp only
    rw [senderEntriesChecked_eq h]
    rfl

end

/-! ## The transaction's cache -/

namespace TransactionCache

theorem overRunesChecked_eq {f : RuneId → Nat → Except Stop (List DbLedgerEntry × Nat)}
    {g : RuneId → Nat → List DbLedgerEntry × Nat} (hf : ∀ id n, f id n = .ok (g id n))
    (ids : List RuneId) (n : Nat) : overRunesChecked f ids n = .ok (overRunes g ids n) := by
  induction ids generalizing n with
  | nil => rfl
  | cons id ids ih =>
    rw [overRunesChecked, hf, ok_bind]
    dsimp only
    rw [ih]
    rfl

/-- Where a mint is accepted the rune has a mint amount. -/
theorem unwrap_termsAmount {rune : DbRune} {totalMints : Nat} {location : TransactionLocation}
    (hmint : isRuneMintable rune totalMints location) :
      (unwrap (.panic .termsAmount) rune.termsAmount : Except Stop Nat) =
        .ok (rune.termsAmount.get (termsAmount_isSome_of_mintable hmint)) := by
  obtain ⟨amount, hamount⟩ := Option.isSome_iff_exists.mp (termsAmount_isSome_of_mintable hmint)
  simp only [hamount, unwrap_some, Option.get_some]

variable {env : Environment} {tx : TransactionCache} (h : tx.location.Sound)

include h

theorem burnEntriesChecked_eq (id : RuneId) (balances : List InputRuneBalance) (n : Nat) :
    burnEntriesChecked tx.location id balances n = .ok (burnEntries tx.location id balances n) := by
  induction balances generalizing n with
  | nil => rfl
  | cons bal balances ih =>
    rw [burnEntriesChecked, newSequentialLedgerEntryChecked_eq h, ok_bind]
    dsimp only
    rw [ih]
    rfl

theorem applyCenotaphInputBurnChecked_eq :
    tx.applyCenotaphInputBurnChecked env = .ok (tx.applyCenotaphInputBurn env) := by
  rw [applyCenotaphInputBurnChecked, overRunesChecked_eq fun id n => burnEntriesChecked_eq h id _ n]
  rfl

theorem allocateRemainingBalancesChecked_eq :
    tx.allocateRemainingBalancesChecked env = .ok (tx.allocateRemainingBalances env) := by
  have hmove : ∀ id n, tx.moveToPointerChecked env id n = .ok (tx.moveToPointer env id n) := by
    intro id n
    rw [moveToPointerChecked, moveRuneBalanceToOutputChecked_eq h]
    rfl
  rw [allocateRemainingBalancesChecked, overRunesChecked_eq hmove]
  rfl

theorem applyEtchingChecked_eq (e : Etching) (number : Nat) :
    tx.applyEtchingChecked e number = .ok (tx.applyEtching e number) := by
  rw [applyEtchingChecked, DbRune.fromEtchingChecked_eq h, ok_bind, applyEtching]
  cases e.premine with
  | none =>
    dsimp only
    rw [etchingEntryChecked, newSequentialLedgerEntryChecked_eq h]
    rfl
  | some premine =>
    dsimp only
    rw [etchingEntryChecked, newSequentialLedgerEntryChecked_eq (by exact h)]
    rfl

theorem applyCenotaphEtchingChecked_eq (rune : Rune) (number : Nat) :
    tx.applyCenotaphEtchingChecked rune number = .ok (tx.applyCenotaphEtching rune number) := by
  rw [applyCenotaphEtchingChecked, DbRune.fromCenotaphEtchingChecked_eq h, ok_bind]
  dsimp only
  rw [etchingEntryChecked, newSequentialLedgerEntryChecked_eq h]
  rfl

theorem applyMintChecked_eq (id : RuneId) (totalMints : Nat) (rune : DbRune) :
    tx.applyMintChecked id totalMints rune = .ok (tx.applyMint id totalMints rune) := by
  rw [applyMintChecked, applyMint]
  split
  · rename_i hmint
    rw [unwrap_termsAmount hmint, ok_bind]
    dsimp only
    rw [newSequentialLedgerEntryChecked_eq (by exact h)]
    rfl
  · rfl

theorem applyCenotaphMintChecked_eq (id : RuneId) (totalMints : Nat) (rune : DbRune) :
    tx.applyCenotaphMintChecked id totalMints rune =
      .ok (tx.applyCenotaphMint id totalMints rune) := by
  rw [applyCenotaphMintChecked, applyCenotaphMint]
  split
  · rename_i hmint
    rw [unwrap_termsAmount hmint, ok_bind, newSequentialLedgerEntryChecked_eq h]
    rfl
  · rfl

omit h in
/-- **The moves of an edict are defined**: an equal division is among the eligible outputs, of which
there are some, and an edict that names an output at most as large as their number names one or all
of them. -/
theorem edictMovesChecked_eq {e : Edict} (he : e.output ≤ tx.totalOutputs) (unallocated : Nat) :
    tx.edictMovesChecked e unallocated = .ok (tx.edictMoves e unallocated) := by
  rw [edictMovesChecked, edictMoves]
  split
  · rfl
  · rename_i hlen
    split
    · dsimp only
      split
      · rw [divideEqually, if_neg hlen]
        rfl
      · rfl
    · split
      · rfl
      · omega

theorem applyMovesChecked_eq (id : RuneId) (outputs : HashMap Nat ScriptBuf)
    (moves : List (Option Nat × Nat)) (balances : List InputRuneBalance) (n : Nat) :
    applyMovesChecked env tx.location id outputs moves balances n =
      .ok (applyMoves env tx.location id outputs moves balances n) := by
  induction moves generalizing balances n with
  | nil => rfl
  | cons move moves ih =>
    obtain ⟨output, amount⟩ := move
    rw [applyMovesChecked, moveRuneBalanceToOutputChecked_eq h, ok_bind, ih]
    rfl

theorem applyEdictChecked_eq {e : Edict} (he : e.output ≤ tx.totalOutputs) :
    tx.applyEdictChecked env e = .ok (tx.applyEdict env e) := by
  rw [applyEdictChecked, applyEdict]
  cases tx.edictRuneId e.id with
  | none => rfl
  | some runeId =>
    dsimp only
    cases tx.inputRunes.lookup runeId with
    | none => rfl
    | some availableInputs =>
      dsimp only
      rw [edictMovesChecked_eq he, ok_bind, applyMovesChecked_eq h]
      rfl

omit h in
/-- **The values that are unwrapped of an entry are there.** -/
theorem Step.complete {a : Action} {es : List DbLedgerEntry} {rs : List DbRune}
    {tx' : TransactionCache} (h : tx.Step env a es rs tx') : ∀ e ∈ es, e.Complete := by
  intro e he
  have hamount : e.operation ≠ .etching → e.amount.isSome := fun hne =>
    (h.amount e he).resolve_right fun hetching => hne hetching.1
  have hcredit := h.credit e he
  rw [DbLedgerEntry.Complete]
  cases hop : e.operation with
  | etching => trivial
  | mint | burn => exact hamount (by simp [hop])
  | send => exact fun _ => hamount (by simp [hop])
  | receive => exact fun _ => ⟨(hcredit hop).amount, (hcredit hop).output⟩

end TransactionCache

/-! ## The index cache -/

/-- **Adding an entry** whose fields are there and whose id fits. -/
theorem IndexCache.addLedgerEntryChecked_eq {cache : IndexCache} {e : DbLedgerEntry}
    (he : e.Complete) (hid : e.runeId.Fits) :
    cache.addLedgerEntryChecked e = unwrap .exit (cache.addLedgerEntry e) := by
  obtain ⟨runeId, blockHash, blockHeight, txIndex, eventIndex, txId, output, address,
    receiver, amount, operation, timestamp⟩ := e
  have hparse : runeId.parse = .ok runeId := RuneId.parse_eq hid
  cases operation <;> cases address <;> cases amount <;> cases output <;>
    simp_all [IndexCache.addLedgerEntryChecked, IndexCache.addLedgerEntry,
      DbLedgerEntry.Complete] <;> rfl

namespace Session

theorem addLedgerEntriesToDbCacheChecked_eq {s : Session} {es : List DbLedgerEntry}
    (hes : ∀ e ∈ es, e.Complete) (hids : ∀ e ∈ es, e.runeId.Fits) :
    s.addLedgerEntriesToDbCacheChecked es = unwrap .exit (s.addLedgerEntriesToDbCache es) := by
  refine bind_eq_unwrap (g := fun cache => some { s with cache := cache }) ?_ fun cache _ => rfl
  exact foldlM_eq_unwrap (P := fun _ => True)
    (fun cache e he _ => ⟨IndexCache.addLedgerEntryChecked_eq (hes e he) (hids e he),
      fun _ _ => trivial⟩) trivial

theorem recordEtchingChecked_eq {s : Session}
    {applied : TransactionCache × RuneId × DbRune × DbLedgerEntry} (hentry : applied.2.2.2.Complete)
    (hid : applied.2.2.2.runeId.Fits) :
    s.recordEtchingChecked applied = unwrap .exit (s.recordEtching applied) := by
  obtain ⟨txCache, runeId, dbRune, entry⟩ := applied
  refine bind_eq_unwrap ?_ fun t _ => rfl
  exact addLedgerEntriesToDbCacheChecked_eq (List.forall_mem_singleton.mpr hentry)
    (List.forall_mem_singleton.mpr hid)

section

variable {s : Session} {id : RuneId}
    (hetching : ∀ rune, s.cache.txCache.etching = some rune → rune.id.Fits)

include hetching

theorem realRuneIdChecked_eq : s.realRuneIdChecked id = .ok (s.realRuneId id) := by
  rw [realRuneIdChecked, realRuneId]
  split
  · cases h : s.cache.txCache.etching with
    | none => rfl
    | some etching =>
      dsimp only
      rw [RuneId.parse_eq (hetching etching h)]
      rfl
  · rfl

theorem getCachedRuneTotalMintsChecked_eq :
    s.getCachedRuneTotalMintsChecked id = unwrap .exit (s.getCachedRuneTotalMints id) := by
  rw [getCachedRuneTotalMintsChecked, realRuneIdChecked_eq hetching, ok_bind,
    getCachedRuneTotalMints]
  cases s.realRuneId id with
  | none => rfl
  | some realRuneId =>
    dsimp only
    generalize s.cache.runeTotalMintsCache.get realRuneId = found
    obtain ⟨total, runeTotalMintsCache⟩ := found
    cases total with
    | some total => rfl
    | none =>
      refine bind_eq_unwrap rfl fun t _ => ?_
      cases pgGetRuneTotalMints id t.db <;> rfl

/-- **A mint**, whatever the transaction's cache does for it. -/
theorem applyMintWithChecked_eq
    {apply' : TransactionCache → RuneId → Nat → DbRune →
      Except Stop (TransactionCache × Option DbLedgerEntry)}
    {apply : TransactionCache → RuneId → Nat → DbRune → TransactionCache × Option DbLedgerEntry}
    (happly : ∀ total rune, apply' s.cache.txCache id total rune =
      .ok (apply s.cache.txCache id total rune))
    (hentry : ∀ total rune e, (apply s.cache.txCache id total rune).2 = some e → e.Complete ∧
      e.runeId.Fits) :
    s.applyMintWithChecked apply' id = unwrap .exit (s.applyMintWith apply id) := by
  rw [applyMintWithChecked, applyMintWith]
  refine bind_eq_unwrap rfl fun found hrune => ?_
  obtain ⟨rune, t⟩ := found
  cases rune with
  | none => rfl
  | some dbRune =>
    have ht : t.cache.txCache = s.cache.txCache := (runeLookup_of_eq_some hrune).txCache_eq
    refine bind_eq_unwrap (getCachedRuneTotalMintsChecked_eq (ht ▸ hetching))
      fun counted htotal => ?_
    obtain ⟨total, u⟩ := counted
    have hu : u.cache.txCache = s.cache.txCache :=
      (mintsLookup_of_eq_some htotal).txCache_eq.trans ht
    dsimp only
    rw [hu, happly, ok_bind]
    -- an entry that was made is complete and has an id in range
    have hcomplete := hentry (total.getD 0) dbRune
    generalize apply s.cache.txCache id (total.getD 0) dbRune = applied at hcomplete ⊢
    obtain ⟨txCache, ledgerEntry⟩ := applied
    cases ledgerEntry with
    | none => rfl
    | some entry =>
      obtain ⟨hfields, hid⟩ := hcomplete entry rfl
      refine bind_eq_unwrap ?_ fun v _ => rfl
      exact addLedgerEntriesToDbCacheChecked_eq (List.forall_mem_singleton.mpr hfields)
        (List.forall_mem_singleton.mpr hid)

end

/-- The log lines of an edict whose entries have amounts. -/
theorem logEdict_eq {es : List DbLedgerEntry} (h : ∀ e ∈ es, e.amount.isSome) :
    logEdict es = .ok () := by
  induction es with
  | nil => rfl
  | cons e es ih =>
    obtain ⟨he, hes⟩ := List.forall_mem_cons.mp h
    obtain ⟨amount, hamount⟩ := Option.isSome_iff_exists.mp he
    rw [logEdict, hamount, unwrap_some, ok_bind, ih hes]

end Session

/-! ## The balances input to a transaction -/

theorem searchInputChecked_eq {blockOutputCache : BlockOutputCache} {search : InputSearch}
    {input : TxIn × Nat} (h : HexPrefixed input.1.txid) :
    searchInputChecked blockOutputCache search input =
      .ok (searchInput blockOutputCache search input) := by
  rw [searchInputChecked, hashSlice_eq h, ok_bind, searchInput]
  dsimp only [TxIn.outputKey]
  generalize search.outputCache.get (stripHexPrefix input.1.txid, input.1.vout) = found
  obtain ⟨map, outputCache⟩ := found
  cases blockOutputCache.lookup (stripHexPrefix input.1.txid, input.1.vout) with
  | some map => rfl
  | none => cases map <;> rfl

theorem pushRowChecked_eq {results : HashMap Nat RuneBalances} {row : Nat × DbLedgerEntry}
    (hid : row.2.runeId.Fits) (hamount : row.2.amount.isSome) :
    pushRowChecked results row = .ok (pushRow results row) := by
  obtain ⟨amount, hamount⟩ := Option.isSome_iff_exists.mp hamount
  rw [pushRowChecked, RuneId.parse_eq hid, ok_bind, hamount, unwrap_some, ok_bind, pushRow,
    DbLedgerEntry.balance, hamount]
  rfl

/-- The rows of the query are `receive` rows of the table. -/
theorem mem_inputBalanceRows {env : Environment} {outputs : List (Nat × String × Nat)} {db : Db}
    {row : Nat × DbLedgerEntry} (h : row ∈ inputBalanceRows env outputs db) :
    row.2 ∈ db.ledger ∧ row.2.operation = .receive := by
  obtain ⟨l, hl, hrow⟩ := List.mem_flatMap.mp ((env.rowOrder_perm _).mem_iff.mp h)
  obtain ⟨output, -, hjoin⟩ := List.mem_filterMap.mp hrow
  rw [joinInput] at hjoin
  split at hjoin
  · rename_i hmatch
    cases Option.some.inj hjoin
    exact ⟨hl, hmatch.2.2⟩
  · cases hjoin

theorem joinInputsChecked_eq (indexed : HashMap Nat RuneBalances) :
    joinInputsChecked indexed = .ok (joinInputs indexed) := by
  refine foldlM_eq_ok (fun final key hkey => ?_) ∅
  -- the keys that are walked are those of the map
  obtain ⟨map, hmap⟩ := HashMap.exists_lookup_of_mem_keys ((List.mem_insertionSort _).mp hkey)
  rw [hmap, unwrap_some, ok_bind, HashMap.getD_of_lookup hmap]
  rfl

theorem inputRuneBalancesFromTxInputsChecked_eq {env : Environment} {inputs : List TxIn}
    {blockOutputCache : BlockOutputCache} {outputCache : OutputCache} {db : Db}
    (hinputs : ∀ input ∈ inputs, HexPrefixed input.txid) (hids : ∀ e ∈ db.ledger, e.runeId.Fits)
    (hcredits : CreditsOk db.ledger) :
    inputRuneBalancesFromTxInputsChecked env inputs blockOutputCache outputCache db =
      unwrap .exit (if 3 * (cacheMisses inputs blockOutputCache outputCache).length ≤ bindLimit then
        some (inputRuneBalancesFromTxInputs env inputs blockOutputCache outputCache db)
          else none) := by
  have hsearch := foldlM_eq_ok (l := inputs.zipIdx) (f := searchInputChecked blockOutputCache)
    (g := searchInput blockOutputCache)
    (fun search input hinput => searchInputChecked_eq
      (hinputs _ (List.fst_mem_of_mem_zipIdx hinput)))
  have hrows : ∀ misses, (inputBalanceRows env misses db).foldlM pushRowChecked ∅ =
      .ok (pgGetInputRuneBalances env misses db) := by
    refine fun misses => foldlM_eq_ok (fun results row hrow => ?_) ∅
    obtain ⟨hmem, hreceive⟩ := mem_inputBalanceRows hrow
    exact pushRowChecked_eq (hids _ hmem) (hcredits _ hmem hreceive).amount
  rw [inputRuneBalancesFromTxInputsChecked, hsearch, ok_bind,
    inputRuneBalancesFromTxInputs, cacheMisses]
  generalize inputs.zipIdx.foldl (searchInput blockOutputCache) ⟨∅, [], outputCache⟩ = search
  by_cases hmiss : 0 < search.cacheMisses.length
  · rw [if_pos hmiss, if_pos hmiss, pgGetInputRuneBalancesChecked]
    split
    · rw [hrows, ok_bind, joinInputsChecked_eq]
      rfl
    · rfl
  -- without a miss nothing is asked of the database
  · rw [if_neg hmiss, if_neg hmiss, if_pos (by omega), joinInputsChecked_eq]
    rfl

/-! ## Blocks -/

/-- The numbers of a transaction are in the range of a `u32`. -/
structure Transaction.InRange (tx : Transaction) : Prop where
  /-- Its place in the block. -/
  index : tx.index < 2 ^ 32
  /-- The number of its outputs. -/
  outputs : tx.outputs.length < 2 ^ 32

/-- The numbers of a block and of its transactions are in the range of their types. -/
structure Block.InRange (block : Block) : Prop where
  /-- The height is a `u64`. -/
  height : block.height < 2 ^ 64
  /-- So are the numbers of the transactions, for their types. -/
  transactions : ∀ tx ∈ block.transactions, tx.InRange

/-- The hashes of a transaction, and of those that it spends, have the prefix `0x`. -/
structure Transaction.HexPrefixed (tx : Transaction) : Prop where
  /-- The hash of the transaction. -/
  hash : Runehook.HexPrefixed tx.hash
  /-- The hashes of those that it spends. -/
  inputs : ∀ input ∈ tx.inputs, Runehook.HexPrefixed input.txid

/-- A block whose timestamp is a valid lock time, and whose hashes have the prefix `0x`. -/
structure Block.Valid (block : Block) : Prop extends block.InRange where
  /-- The timestamp is a lock time, and not a height. -/
  timestamp : 500000000 ≤ block.timestamp
  /-- The hash of the block has its prefix. -/
  hash : HexPrefixed block.hash
  /-- So have those of its transactions. -/
  hexPrefixed : ∀ tx ∈ block.transactions, tx.HexPrefixed

/-! ## What the calls rely on -/

/-- The artifact of a transaction makes such calls: ids of mints fit in their types, and edicts name
outputs below `count`, or all of them. -/
def Action.WellFormed (count : Nat) : Action → Prop
  | .mint id | .cenotaphMint id => id.Fits
  | .edict e => e.output ≤ count
  | _ => True

theorem Artifact.actions_wellFormed {count : Nat} {artifact : Artifact}
    (h : artifact.WellFormed count) :
    ∀ a ∈ artifact.actions, a.WellFormed count := by
  cases artifact with
  | runestone r =>
    obtain ⟨hedicts, hmint, -⟩ := h
    intro a ha
    rcases List.mem_append.mp ha with ha | ha
    · rcases List.mem_append.mp ha with ha | ha
      · rcases List.mem_cons.mp ha with rfl | ha
        · trivial
        · obtain ⟨e, -, rfl⟩ := Option.map_eq_some_iff.mp (Option.mem_toList.mp ha)
          trivial
      · obtain ⟨id, hid, rfl⟩ := Option.map_eq_some_iff.mp (Option.mem_toList.mp ha)
        exact hmint id hid
    · obtain ⟨e, he, rfl⟩ := List.mem_map.mp ha
      exact (hedicts e he).1
  | cenotaph c =>
    intro a ha
    rcases List.mem_append.mp ha with ha | ha
    · rcases List.mem_cons.mp ha with rfl | ha
      · trivial
      · obtain ⟨rune, -, rfl⟩ := Option.map_eq_some_iff.mp (Option.mem_toList.mp ha)
        trivial
    · obtain ⟨id, hid, rfl⟩ := Option.map_eq_some_iff.mp (Option.mem_toList.mp ha)
      exact h id hid

/-- What holds between the calls of a transaction with `count` outputs: all ids fit in their types,
and so does the location. -/
structure Session.Fits (count : Nat) (s : Session) : Prop where
  /-- The ids of everything that is held fit. -/
  confined : s.Confined RuneId.Fits
  /-- So does that of a rune etched here. -/
  location : s.cache.txCache.location.runeId.Fits
  /-- And that of the rune that was etched. -/
  etching : ∀ rune, s.cache.txCache.etching = some rune → rune.id.Fits
  /-- The transaction has `count` outputs. -/
  totalOutputs : s.cache.txCache.totalOutputs = count

namespace Session.Fits

variable {env : Environment} {block : Block} {count : Nat} {s s' : Session} {a : Action}

/-- **A call keeps the ids in range.** -/
theorem run (h : s.Fits count) (ha : a.WellFormed count) (hbegin : ∀ tx, a ≠ .beginTransaction tx)
    (hrun : a.run env block s = some s') : s'.Fits count := by
  obtain ⟨es, rs, -, hstep⟩ := Action.run_step hbegin hrun
  have hconfines : (Stage.call block a).Confines RuneId.Fits s := by
    cases a with
    | mint id | cenotaphMint id => exact fun _ => ha
    | etching | cenotaphEtching => exact h.location
    | _ => trivial
  refine ⟨Stage.confined h.confined hconfines hrun, hstep.location_eq ▸ h.location,
    fun rune hrune => ?_, hstep.totalOutputs_eq.trans h.totalOutputs⟩
  cases hetches : a.etches with
  | true =>
    rw [hstep.etching_id hetches rune hrune]
    exact h.location
  | false => exact h.etching rune (hstep.etching_eq hetches ▸ hrune)

/-- The entries of a call are about ids in range. -/
theorem entries_fits {es : List DbLedgerEntry} {rs : List DbRune} {tx' : TransactionCache}
    (h : s.Fits count) (hstep : s.cache.txCache.Step env a es rs tx')
    (hmint : ∀ id, a = .mint id ∨ a = .cenotaphMint id → es ≠ [] → id.Fits) :
    ∀ e ∈ es, e.runeId.Fits :=
  (hstep.confined h.confined.tx (fun _ => h.location) hmint).1

/-- **A call that is not the first of a transaction does what it does without partial
operations.** -/
theorem runChecked_eq (h : s.Fits count) (hsound : s.cache.txCache.location.Sound)
    (ha : a.WellFormed count) (hbegin : ∀ tx, a ≠ .beginTransaction tx) :
    a.runChecked env block s = unwrap .exit (a.run env block s) := by
  cases a with
  | beginTransaction tx => exact absurd rfl (hbegin tx)
  | runestone r => rfl
  | cenotaph =>
    have hstep : s.cache.txCache.Step env .cenotaph _ _ _ := .cenotaph
    rw [Action.runChecked, applyCenotaphChecked,
      TransactionCache.applyCenotaphInputBurnChecked_eq hsound]
    exact addLedgerEntriesToDbCacheChecked_eq hstep.complete
      -- the rune ids of a cenotaph's entries come from its deques, never from a mint
      (h.entries_fits hstep fun id hid => by rcases hid with hid | hid <;> cases hid)
  | etching e =>
    rw [Action.runChecked, applyEtchingChecked,
      TransactionCache.applyEtchingChecked_eq hsound, ok_bind]
    refine recordEtchingChecked_eq ?_ ?_ <;> rw [TransactionCache.applyEtching_eq]
    · trivial
    · exact h.location
  | cenotaphEtching rune =>
    rw [Action.runChecked, applyCenotaphEtchingChecked,
      TransactionCache.applyCenotaphEtchingChecked_eq hsound, ok_bind]
    refine recordEtchingChecked_eq ?_ ?_ <;> rw [TransactionCache.applyCenotaphEtching_eq]
    · trivial
    · exact h.location
  | mint id =>
    refine applyMintWithChecked_eq h.etching
      (fun total rune => TransactionCache.applyMintChecked_eq hsound id total rune)
      fun total rune e he => ?_
    -- an entry is written for an accepted mint only, and has the sum that was checked
    obtain ⟨-, hnone⟩ | ⟨-, amount, -, hsome⟩ := s.cache.txCache.applyMint_cases id total rune
    · rw [hnone] at he
      cases he
    · rw [hsome] at he
      cases Option.some.inj he
      exact ⟨rfl, ha⟩
  | cenotaphMint id =>
    refine applyMintWithChecked_eq h.etching
      (fun total rune => TransactionCache.applyCenotaphMintChecked_eq hsound id total rune)
      fun total rune e he => ?_
    obtain ⟨-, hnone⟩ | ⟨-, amount, -, hsome⟩ :=
      s.cache.txCache.applyCenotaphMint_cases id total rune
    · rw [hnone] at he
      cases he
    · rw [hsome] at he
      cases Option.some.inj he
      exact ⟨rfl, ha⟩
  | edict e =>
    have hstep : s.cache.txCache.Step env (.edict e) _ _ _ := .edict e
    have houtput : e.output ≤ s.cache.txCache.totalOutputs := h.totalOutputs ▸ ha
    -- the entries of an edict have the amount that the log unwraps
    have hamount : ∀ e' ∈ (s.cache.txCache.applyEdict env e).2, e'.amount.isSome := by
      rcases s.cache.txCache.applyEdict_cases env e with he | ⟨id, balances, -, -, he⟩ <;> rw [he]
      · exact fun e' he' => absurd he' List.not_mem_nil
      · intro e' he'
        obtain ⟨output, hmove⟩ := TransactionCache.applyMoves_moveOf _ _ _ e' he'
        exact hmove.amount
    rw [Action.runChecked, applyEdictChecked]
    refine bind_eq_unwrap rfl fun found hrune => ?_
    obtain ⟨rune, t⟩ := found
    cases rune with
    | none => rfl
    | some dbRune =>
      have ht : t.cache.txCache = s.cache.txCache := (runeLookup_of_eq_some hrune).txCache_eq
      dsimp only
      rw [ht, TransactionCache.applyEdictChecked_eq hsound houtput, ok_bind,
        logEdict_eq hamount, ok_bind]
      exact addLedgerEntriesToDbCacheChecked_eq hstep.complete
        (h.entries_fits hstep fun id hid => by rcases hid with hid | hid <;> cases hid)
  | endTransaction =>
    have hstep : s.cache.txCache.Step env .endTransaction _ _ _ := .endTransaction
    rw [Action.runChecked, endTransactionChecked,
      TransactionCache.allocateRemainingBalancesChecked_eq hsound]
    exact addLedgerEntriesToDbCacheChecked_eq hstep.complete
      (h.entries_fits hstep fun id hid => by rcases hid with hid | hid <;> cases hid)

end Session.Fits

/-! ## Transactions -/

section

variable {instructions : Instructions} {env : Environment} {block : Block} {tx : Transaction}
    {s s' : Session}

/-- **The beginning of a transaction puts it in place**, in a session whose ids are in range. -/
theorem Session.Confined.begin (h : s.Confined RuneId.Fits) (hblock : block.InRange)
    (htx : tx.InRange) (hrun : Action.run env block s (.beginTransaction tx) = some s') :
    s'.Fits tx.outputs.length := by
  have hstage : (Stage.call block (.beginTransaction tx)).run env s = some s' := hrun
  have hconfined : s'.Confined RuneId.Fits := Stage.confined h (by trivial) hstage
  obtain ⟨-, rfl⟩ := run_beginTransaction hrun
  exact ⟨hconfined, ⟨hblock.height, htx.index⟩,
    fun rune hrune => (Option.some_ne_none rune hrune.symm).elim, rfl⟩

/-- **The beginning of a transaction** does what it does without partial operations. -/
theorem Session.Confined.beginChecked_eq (h : s.Confined RuneId.Fits)
    (hcredits : CreditsOk s.db.ledger) (htime : 500000000 ≤ block.timestamp)
    (htx : tx.HexPrefixed) :
    Action.runChecked env block s (.beginTransaction tx) =
      unwrap .exit (Action.run env block s (.beginTransaction tx)) := by
  rw [Action.runChecked, Action.run, bitcoinTxFromChainhookTx, if_neg (by omega),
    unwrap_some, ok_bind]
  dsimp only
  rw [Session.beginTransactionChecked,
    inputRuneBalancesFromTxInputsChecked_eq htx.inputs h.rows.stored.ledger hcredits]
  show _ = unwrap _ (Session.beginTransaction _ _ _ _ _ _ s)
  rw [Session.beginTransaction]
  split <;> rfl

/-- What the calls of a transaction ask for is well formed. -/
theorem calls_wellFormed (henv : ∀ outputs, env.decipher outputs =
      (Runestone.decipher instructions outputs).toOption.join) (htx : tx.InRange) :
    ∀ a ∈ tx.calls env, a.WellFormed tx.outputs.length := by
  intro a ha
  obtain ⟨artifact, hartifact, hwell⟩ := Runestone.decipher_spec instructions htx.outputs
  have hread : env.decipher tx.outputs = artifact := by
    rw [henv, hartifact]
    cases artifact <;> rfl
  rcases List.mem_append.mp ha with ha | ha
  · rw [hread] at ha
    cases artifact with
    | none => exact absurd ha List.not_mem_nil
    | some artifact => exact Artifact.actions_wellFormed (hwell artifact rfl) a ha
  · rw [List.mem_singleton.mp ha]
    trivial

/-- **A transaction keeps the ids in range.** -/
theorem indexTransaction_confined
    (henv : ∀ outputs, env.decipher outputs =
      (Runestone.decipher instructions outputs).toOption.join) (h : s.Confined RuneId.Fits)
    (hblock : block.InRange) (htx : tx.InRange) (hrun : indexTransaction env block s tx = some s') :
    s'.Confined RuneId.Fits := by
  obtain ⟨t, hbegin, hcalls⟩ := indexTransaction_eq_some.mp hrun
  have hind :=
    calls_induction (P := fun _ u => u.Fits tx.outputs.length) (h.begin hblock htx hbegin)
      (fun done a u u' es rs ha hu hstep _ _ =>
        hu.run (calls_wellFormed henv htx a ha) (Transaction.ne_beginTransaction ha) hstep) hcalls
  exact hind.confined

/-- **A transaction stops only where the process exits**, and does what it does without partial
operations. -/
theorem indexTransactionChecked_eq
    (henv : ∀ outputs, env.decipher outputs =
      (Runestone.decipher instructions outputs).toOption.join) (h : s.Confined RuneId.Fits)
    (hcredits : CreditsOk s.entries) (hblock : block.Valid) (htx : tx ∈ block.transactions) :
    indexTransactionChecked instructions env block s tx =
      unwrap .exit (indexTransaction env block s tx) := by
  have hrange := hblock.transactions tx htx
  have hhex := hblock.hexPrefixed tx htx
  obtain ⟨artifact, hartifact, -⟩ := Runestone.decipher_spec instructions hrange.outputs
  have hcalls : tx.calls env = (artifact.map Artifact.actions).getD [] ++ [.endTransaction] := by
    rw [Transaction.calls, henv, hartifact]
    cases artifact <;> rfl
  have hledger : CreditsOk s.db.ledger := fun e he => hcredits e (List.mem_append_left _ he)
  rw [indexTransactionChecked, indexTransaction,
    show tx.actions env = .beginTransaction tx :: tx.calls env from rfl,
    List.foldlM_cons]
  -- the transaction starts with its inputs, and the calls go on from there
  refine bind_eq_unwrap (h.beginChecked_eq hledger hblock.timestamp hhex) fun t hbegin => ?_
  rw [hartifact, ok_bind, ← hcalls]
  have hfits := h.begin hblock.toInRange hrange hbegin
  have hlocation : t.cache.txCache.location.Sound := by
    obtain ⟨-, rfl⟩ := run_beginTransaction hbegin
    exact ⟨hblock.hash, hhex.hash, hfits.location⟩
  -- what the unwraps need is kept by every call
  refine foldlM_eq_unwrap
    (P := fun u => u.Fits tx.outputs.length ∧ u.cache.txCache.location = t.cache.txCache.location)
    (fun u a ha hu => ?_) ⟨hfits, rfl⟩
  have hwell := calls_wellFormed henv hrange a ha
  have hbegin' := Transaction.ne_beginTransaction ha
  refine ⟨hu.1.runChecked_eq (hu.2.symm ▸ hlocation) hwell hbegin', fun u' hrun => ?_⟩
  obtain ⟨es, rs, -, hstep⟩ := Action.run_step hbegin' hrun
  exact ⟨hu.1.run hwell hbegin' hrun, hstep.location_eq.trans hu.2⟩

end

/-! ## Runs -/

section

variable {instructions : Instructions} {env : Environment} {s s' : Session}
  (henv : ∀ outputs, env.decipher outputs = (Runestone.decipher instructions outputs).toOption.join)

include henv

theorem indexBlock_confined {block : Block} (h : s.Confined RuneId.Fits) (hblock : block.InRange)
    (hrun : indexBlock env block s = some s') : s'.Confined RuneId.Fits := by
  obtain ⟨t, htxs, hflush⟩ := indexBlock_eq_some.mp hrun
  obtain ⟨u, hreset, htxs⟩ := indexTransactions_eq_some.mp htxs
  have hstage : (Stage.openBlock block).run env s = some u := hreset
  have hopen : u.Confined RuneId.Fits := Stage.confined h (by trivial) hstage
  have hclose : (Stage.closeBlock block).run env t = some s' := hflush
  refine Stage.confined ?_ (by trivial) hclose
  refine foldlM_induction_split (P := fun _ v => v.Confined RuneId.Fits) hopen ?_ htxs
  intro done tx rest v v' hsplit hv hstep
  have htx : tx ∈ block.transactions := hsplit ▸ List.mem_append_right _ List.mem_cons_self
  exact indexTransaction_confined henv hv hblock (hblock.transactions tx htx) hstep

/-- **A run keeps the ids in range**, if the numbers of its blocks are. -/
theorem runEvents_confined {events : List Event} (h : s.Confined RuneId.Fits)
    (hevents : ∀ block ∈ indexedBlocks events, block.InRange)
    (hrun : runEvents env events s = some s') :
    s'.Confined RuneId.Fits := by
  refine foldlM_induction_split (P := fun _ t => t.Confined RuneId.Fits) h ?_ hrun
  intro done e rest t t' hsplit ht hstep
  cases e with
  | index block =>
    have hmem : block ∈ indexedBlocks events :=
      -- every block that is indexed has its values in range
      List.mem_filterMap.mpr
        ⟨.index block, hsplit ▸ List.mem_append_right _ List.mem_cons_self, rfl⟩
    exact indexBlock_confined henv ht (hevents block hmem) hstep
  | rollBack height =>
    have hstage : (Stage.rollBack height).run env t = some t' := hstep
    exact Stage.confined ht (by trivial) hstage
  | restart cap hcap =>
    have hstage : (Stage.restart cap hcap).run env t = some t' := hstep
    exact Stage.confined ht (by trivial) hstage

/-- **The loop over the transactions of a block.** -/
theorem foldlM_indexTransactionChecked_eq {block : Block} (h : s.Confined RuneId.Fits)
    (hcredits : CreditsOk s.entries) (hblock : block.Valid) :
    block.transactions.foldlM (indexTransactionChecked instructions env block) s =
      unwrap .exit (block.transactions.foldlM (indexTransaction env block) s) := by
  refine foldlM_eq_unwrap (P := fun t => t.Confined RuneId.Fits ∧ CreditsOk t.entries)
    (fun t tx htx ht => ?_) ⟨h, hcredits⟩
  refine ⟨indexTransactionChecked_eq henv ht.1 ht.2 hblock htx, fun t' hrun => ⟨?_, ?_⟩⟩
  · exact indexTransaction_confined henv ht.1 hblock.toInRange (hblock.transactions tx htx) hrun
  · obtain ⟨es, rs, hwrites, -, hes, -⟩ := indexTransaction_writes hrun
    rw [hwrites.entries_eq]
    exact ht.2.append hes

end

/-- **No partial operation fails while the transactions of a block are indexed**, and no edict names
a nonexistent output: from any state that a run can reach, the loop of `index_block` with its
partial operations does what it does without them, and stops only where a statement of the database
makes the process exit. -/
theorem indexTransactions_noPanics (instructions : Instructions) (env : Environment)
    {events : List Event} {network : Network} {cap : Nat} {hcap : 0 < cap} {s₀ s t : Session}
    {block : Block} (hevents : ∀ b ∈ indexedBlocks events, b.InRange) (hblock : block.Valid)
    (hstart : freshSession network cap hcap = some s₀)
    (hrun : runEvents (env.deciphering instructions) events s₀ = some s)
    (hreset : s.resetMaxRuneNumber = some t) :
    block.transactions.foldlM (indexTransactionChecked instructions
        (env.deciphering instructions) block) t =
          unwrap .exit
      (block.transactions.foldlM (indexTransaction (env.deciphering instructions) block) t) ∧
      ∀ stop, block.transactions.foldlM
        (indexTransactionChecked instructions (env.deciphering instructions) block) t =
          .error stop → stop = .exit := by
  obtain ⟨hempty, hdb⟩ := freshSession_eq_some hstart
  have hconfined₀ : s₀.Confined RuneId.Fits := .of_empty hempty (hdb ▸ .migrated)
  have hcredits₀ : CreditsOk s₀.entries := by
    rw [Session.entries, hempty.dbCache, hdb]
    exact fun e he => absurd he List.not_mem_nil
  have henv : ∀ outputs, (env.deciphering instructions).decipher outputs =
      (Runestone.decipher instructions outputs).toOption.join := fun _ => rfl
  have hconfined := runEvents_confined henv hconfined₀ hevents hrun
  have hcredits := runEvents_creditsOk hcredits₀ hrun
  have hstage : (Stage.openBlock block).run env s = some t := hreset
  have hopen : t.Confined RuneId.Fits := Stage.confined hconfined (by trivial) hstage
  have hcreditsOpen : CreditsOk t.entries := by
    obtain ⟨number, rfl, -⟩ := resetMaxRuneNumber_eq_some hreset
    exact hcredits
  -- the loop is the plain one with its only stop, the exit
  have hloop := foldlM_indexTransactionChecked_eq henv hopen hcreditsOpen hblock
  exact ⟨hloop, fun stop hstop => eq_of_unwrap_eq_error (hloop.symm.trans hstop)⟩

/-- The instructions of a script that pushes at most 75 bytes at a time, with a round for each byte
as fuel. -/
def shortInstructions : Nat → ScriptBuf → List (Option Instruction)
  | 0, _ => []
  | _, [] => []
  | fuel + 1, opcode :: script =>
    if 75 < opcode then some (.op opcode) :: shortInstructions fuel script
    else if script.length < opcode.toNat then [none]
    else some (.pushBytes (script.take opcode.toNat)) ::
      shortInstructions fuel (script.drop opcode.toNat)

/-- A transaction that mints to alice: the payload of its `OP_RETURN` output has the tag of mints
twice. -/
def mintScriptTx : Transaction := ⟨"0xmint", 1, [], [[1], [0x6a, 0x5d, 4, 20, 1, 20, 0]]⟩

/-- A transaction that divides equally between bob and alice what `mintScriptTx` minted. -/
def divideScriptTx : Transaction :=
  ⟨"0xdivide", 1, [⟨"0xmint", 0⟩], [[2], [1], [0x6a, 0x5d, 5, 0, 1, 0, 0, 3]]⟩

def mintScriptBlock : Block := ⟨"0xb1", 840001, 1700000000, [mintScriptTx]⟩

def divideScriptBlock : Block := ⟨"0xb2", 840002, 1700000000, [divideScriptTx]⟩

/-- The theorem on `divideScriptBlock`, indexed by a process that started again after
`mintScriptBlock`. -/
theorem indexTransactions_noPanics_divideScriptBlock :
    ∃ s₀ s t, freshSession .bitcoin 2 (by decide) = some s₀ ∧
    runEvents ((Environment.plain fun _ => none).deciphering (shortInstructions 32))
      [.index mintScriptBlock, .restart 2 (by decide)] s₀ = some s ∧ s.resetMaxRuneNumber = some t ∧
    ∀ stop, divideScriptBlock.transactions.foldlM (indexTransactionChecked (shortInstructions 32)
      ((Environment.plain fun _ => none).deciphering (shortInstructions 32)) divideScriptBlock) t =
        .error stop → stop = .exit := by
  have hruns : ((freshSession .bitcoin 2 (by decide)).bind fun s₀ =>
      (runEvents ((Environment.plain fun _ => none).deciphering (shortInstructions 32))
        [.index mintScriptBlock, .restart 2 (by decide)] s₀).bind
          Session.resetMaxRuneNumber).isSome := by
    decide +kernel
  obtain ⟨t, ht⟩ := Option.isSome_iff_exists.mp hruns
  obtain ⟨s₀, hstart, ht⟩ := Option.bind_eq_some_iff.mp ht
  obtain ⟨s, hrun, hreset⟩ := Option.bind_eq_some_iff.mp ht
  have hmint : ∀ b ∈ indexedBlocks [.index mintScriptBlock, .restart 2 (by decide)], b.InRange :=
    List.forall_mem_singleton.mpr ⟨by decide, List.forall_mem_singleton.mpr ⟨by decide, by decide⟩⟩
  have hdivide : divideScriptBlock.Valid := by
    refine ⟨⟨by decide, List.forall_mem_singleton.mpr ⟨by decide, by decide⟩⟩, by decide,
      ⟨['b', '2'], rfl⟩, ?_⟩
    exact List.forall_mem_singleton.mpr ⟨⟨_, rfl⟩, List.forall_mem_singleton.mpr ⟨_, rfl⟩⟩
  exact ⟨s₀, s, t, hstart, hrun, hreset, (indexTransactions_noPanics (shortInstructions 32)
    (Environment.plain fun _ => none) hmint hdivide hstart hrun hreset).2⟩

end Runehook
