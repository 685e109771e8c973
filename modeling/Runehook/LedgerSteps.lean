import Runehook.SharedOut

/-! # A transaction as a step of the ledger

A session shows a ledger of runes after some transactions (`Shows`). The calls of one more
transaction take it, one after the other, to a session that shows the ledger after that transaction:
`Shows.begin` finds what is held, `Underway` is what holds between two calls, with a lemma for each
of them, and `Shows.records` is about the whole transaction. -/

namespace Runehook

open Lib

/-! ## What a session shows -/

/-- **A session shows a ledger** after some transactions: the table of runes has its runes, the
entries count its mints, and the credits of each output that was not spent are what it holds. -/
structure Shows (network : Network) (L : RunesLedger) (txs : List Transaction)
    (s : Session) : Prop where
  /-- The network is that of the ledger. -/
  network : s.cache.network = network
  /-- The runes are those of the ledger. -/
  runes : ∀ id, (s.runeById id).map DbRune.face = L.runes id
  /-- No rune has the id that stands for the rune of the same transaction. -/
  placeholder : L.runes .placeholder = none
  /-- The entries count the mints. -/
  mints : ∀ id, counted .totalMints id s.entries = L.mints id
  /-- The credits of an output are what it holds until it is spent. -/
  holdings : ∀ id k, L.holdings id k = if k ∈ laterSpends [] txs then 0
      else totalAmount (credits k id s.entries)

variable {env : Environment} {network : Network} {L : RunesLedger} {block : Block}
  {tx : Transaction} {txs : List Transaction} {s t u v : Session}

/-- Entries of other operations bring nothing to anybody. -/
theorem receives_eq_nil {es : List DbLedgerEntry} (h : ∀ e ∈ es, e.operation ≠ .receive)
    (id : RuneId) :
    receives ((ofRune id es).map DbLedgerEntry.row) = [] := by
  refine List.filter_eq_nil_iff.mpr fun r hr => ?_
  obtain ⟨e, he, rfl⟩ := List.mem_map.mp hr
  exact Bool.eq_false_iff.mp (decide_eq_false (h e (List.mem_of_mem_filter he)))

theorem Session.runeById_of_runes (h : t.runes = s.runes) (id : RuneId) :
    t.runeById id = s.runeById id := by
  unfold Session.runeById
  rw [h]

/-! ## A transaction underway -/

/-- **A transaction underway**: it has `held` of each rune from its inputs, a pointer, the rune that
it has etched and the mint that it has made. -/
structure Underway (env : Environment) (network : Network) (L : RunesLedger) (block : Block)
    (tx : Transaction) (s : Session) (held : RuneId → ℕ) (pointer : Option Nat)
    (etched : Option DbRune) (minted : Option (RuneId × ℕ)) (u : Session) : Prop where
  /-- The entries so far count the mint, and credit nothing. -/
  entries : ∃ es, u.entries = s.entries ++ es ∧ ∀ id,
    counted .totalMints id es = (if minted.map Prod.fst = some id then 1 else 0) ∧
      receives ((ofRune id es).map DbLedgerEntry.row) = []
  /-- The etched rune was added to those of the ledger. -/
  runes : ∀ id, (u.runeById id).map DbRune.face = if etched.map DbRune.id = some id then etched
      else L.runes id
  /-- The cache has the outline of the transaction. -/
  outline : (tx.outline env network block pointer etched).SameOutline u.cache.txCache
  /-- An empty balance has nothing behind it. -/
  zeros : ∀ id, ZerosLast (u.cache.txCache.available id)
  /-- The balances of a rune that came in with the inputs alone are not empty. -/
  positive : ∀ id, etched.map DbRune.id ≠ some id → minted.map Prod.fst ≠ some id →
    ∀ b ∈ u.cache.txCache.available id, 0 < b.amount
  /-- What is in flight came in, was premined or was minted. -/
  total : ∀ id,
      totalAmount (u.cache.txCache.available id) =
        held id + RunesLedger.addition etched minted id

namespace Underway

variable {held : RuneId → ℕ} {pointer : Option Nat} {etched : Option DbRune}
    {minted : Option (RuneId × ℕ)}

/-- A call that writes no receipt, mints nothing and changes no balance, rune or outline. -/
theorem quiet {es : List DbLedgerEntry}
    (h : Underway env network L block tx s held pointer etched minted u)
    (hentries : v.entries = u.entries ++ es) (hmints : ∀ id, counted .totalMints id es = 0)
    (hreceives : ∀ id, receives ((ofRune id es).map DbLedgerEntry.row) = [])
    (hrunes : v.runes = u.runes) (htx : v.cache.txCache = u.cache.txCache) :
    Underway env network L block tx s held pointer etched minted v where
  entries := by
    obtain ⟨es₀, hes₀, hall⟩ := h.entries
    refine ⟨es₀ ++ es, by rw [hentries, hes₀, List.append_assoc], fun id => ?_⟩
    obtain ⟨hcount, hnone⟩ := hall id
    rw [counted_append, hcount, hmints, ofRune_append, List.map_append, receives_append,
      hnone, hreceives]
    exact ⟨rfl, rfl⟩
  runes id := by rw [Session.runeById_of_runes hrunes, h.runes]
  outline := htx ▸ h.outline
  zeros := htx ▸ h.zeros
  positive := htx ▸ h.positive
  total := htx ▸ h.total

end Underway

/-! ## The beginning -/

/-- Before a transaction, only the outputs of transactions that were seen are credited. -/
theorem Before.credits_eq_nil {earlier current : List DbLedgerEntry}
    (h : Before txs tx earlier current s) {k : String × Nat}
    (hk : k.1 ∉ txs.map Transaction.ledgerId) (id : RuneId) : credits k id s.entries = [] := by
  refine Runehook.credits_eq_nil ?_ id
  rintro ⟨e, he, -, hkey⟩
  exact hk (((outputKey_eq_some_iff e k).mp hkey).1 ▸ h.fromTxs e he)

/-- The balances that a transaction begins with are the credits of the outputs that it spends. -/
theorem Before.available_perm {earlier current : List DbLedgerEntry}
    (h : Before txs tx earlier current s)
    (hrun : Action.run env block s (.beginTransaction tx) = some u) (id : RuneId) :
    (u.cache.txCache.available id).Perm
    (spentBalances id (tx.inputs.map TxIn.outputKey) s.entries) := by
  obtain ⟨parts, hparts, hperm⟩ := available_begin id h.layered h.separate hrun
  rw [hparts, spentBalances]
  clear hparts
  generalize tx.inputs.map TxIn.outputKey = ks at hperm
  induction hperm with
  | nil => exact .refl _
  | cons hp _ ih => exact hp.append ih

/-- **What the spent outputs hold** is what is credited to them: each output that was seen is spent
once, and the others hold nothing. -/
theorem Shows.heldBy_spent {earlier current : List DbLedgerEntry} (h : Shows network L txs s)
    (hbefore : Before txs tx earlier current s) (id : RuneId) :
    heldBy tx.spent (L.holdings id) =
      totalAmount (spentBalances id (tx.inputs.map TxIn.outputKey) s.entries) := by
  have hnodup := hbefore.nodup
  rw [laterSpends_concat] at hnodup
  obtain ⟨-, hspends, hdisjoint⟩ := List.nodup_append.mp hnodup
  -- an output that was not seen has no credits
  have hunseen : ∀ k : String × Nat, k.1 ∉ txs.map Transaction.ledgerId →
      totalAmount (credits k id s.entries) = 0 := by
    intro k hk
    rw [hbefore.credits_eq_nil hk]
    rfl
  -- so only the outputs of earlier transactions count
  have hsum : ∀ ks : List (String × Nat), totalAmount (spentBalances id ks s.entries) =
      ((ks.filter fun k => k.1 ∈ txs.map Transaction.ledgerId).map
        fun k => totalAmount (credits k id s.entries)).sum := by
    intro ks
    induction ks with
    | nil => rfl
    | cons k ks ih =>
      rw [spentBalances, List.flatMap_cons, totalAmount_append, ← spentBalances, ih]
      by_cases hk : k.1 ∈ txs.map Transaction.ledgerId
      · rw [List.filter_cons_of_pos (by simpa using hk), List.map_cons, List.sum_cons]
      · rw [List.filter_cons_of_neg (by simpa using hk), hunseen k hk, Nat.zero_add]
  rw [hsum, ← Transaction.spendsOf, ← List.sum_toFinset _ hspends, heldBy]
  -- the holdings of the others are empty in the ledger too
  refine (Finset.sum_subset_zero_on_sdiff (fun k hk => ?_) (fun k hk => ?_) fun k hk => ?_).symm
  · exact List.mem_toFinset.mpr (List.mem_of_mem_filter (List.mem_toFinset.mp hk))
  · obtain ⟨hspent, hnot⟩ := Finset.mem_sdiff.mp hk
    have hnew : k.1 ∉ txs.map Transaction.ledgerId := fun hseen => hnot (List.mem_toFinset.mpr
      (List.mem_filter.mpr ⟨List.mem_toFinset.mp hspent, decide_eq_true hseen⟩))
    rw [h.holdings, hunseen k hnew, ite_self]
  · rw [h.holdings, if_neg fun hlater => hdisjoint k hlater k (List.mem_toFinset.mp hk) rfl]

/-- **The beginning of a transaction** takes what the spent outputs hold. -/
theorem Shows.begin {earlier current : List DbLedgerEntry} (h : Shows network L txs s)
    (hbefore : Before txs tx earlier current s)
    (hrun : Action.run env block s (.beginTransaction tx) = some u) :
    Underway env network L block tx s (fun id => heldBy tx.spent (L.holdings id))
      (scanOutputs env tx.outputs).firstEligibleOutput none none u := by
  have hruns : u.runes = s.runes := Action.runes_eq rfl hrun
  -- an incoming balance was held in an output, so it is not empty
  have hpos : ∀ id, ∀ b ∈ u.cache.txCache.available id, 0 < b.amount := fun id b hb =>
    (spentBalances_held hbefore.creditsOk b ((hbefore.available_perm hrun id).mem_iff.mp hb)).pos
  refine ⟨⟨[], ?_, fun id => ⟨rfl, rfl⟩⟩, fun id => ?_, ?_, fun id => .of_pos (hpos id),
    fun id _ _ => hpos id, fun id => ?_⟩
  · exact (Session.Writes.quiet (beginTransaction_quiet hrun)).entries_eq
  · rw [Session.runeById_of_runes hruns, h.runes]
    rfl
  · obtain ⟨-, rfl⟩ := run_beginTransaction hrun
    rw [h.network]
    exact ⟨rfl, rfl, rfl, rfl, rfl⟩
  · rw [totalAmount_perm (hbefore.available_perm hrun id), h.heldBy_spent hbefore]
    rfl

/-! ## The calls -/

/-- What a call that etches writes and adds, for a runestone and for a cenotaph. -/
theorem TransactionCache.Step.etches {a : Action} {row : DbRune} {es : List DbLedgerEntry}
    {rs : List DbRune} {after : TransactionCache} (h : u.cache.txCache.Step env a es rs after)
    (hrow : a.etchedRune u = some row) :
    ∃ premine row', premine.getD 0 = row.premine ∧ row'.face = row.face ∧
      es = [u.cache.txCache.plainEntry none u.cache.txCache.location.runeId .etching] ∧
      after = u.cache.txCache.withEtching row' premine := by
  cases h with
  | etching e number =>
    cases Option.some.inj hrow
    exact ⟨e.premine, .fromEtching e number _, rfl, rfl, rfl, rfl⟩
  | cenotaphEtching rune number =>
    cases Option.some.inj hrow
    exact ⟨none, .fromCenotaphEtching rune number _, rfl, rfl, rfl, rfl⟩
  | _ => cases hrow

theorem TransactionCache.sameOutline_withEtching (tx : TransactionCache) (row : DbRune)
    (premine : Option Nat) :
    SameOutline { tx with etching := some row } (tx.withEtching row premine) := by
  cases premine <;> exact ⟨rfl, rfl, rfl, rfl, rfl⟩

namespace Underway

variable {held : RuneId → ℕ} {pointer : Option Nat} {etched : Option DbRune}
    {minted : Option (RuneId × ℕ)}

/-- A runestone may point somewhere else. -/
theorem runestone (h : Underway env network L block tx s held pointer none none u) (r : Runestone) :
    Underway env network L block tx s held (r.pointer.or pointer) none none
    (u.applyRunestone r) := by
  unfold Session.applyRunestone
  cases r.pointer with
  | none => exact h
  | some p =>
    exact ⟨h.entries, h.runes,
      ⟨h.outline.location, h.outline.eligibleOutputs, h.outline.totalOutputs, rfl,
        h.outline.etching⟩, h.zeros, h.positive, h.total⟩

/-- A cenotaph burns everything. -/
theorem cenotaph (h : Underway env network L block tx s held pointer none none u)
    (hrun : Action.run env block u .cenotaph = some v) :
    Underway env network L block tx s (fun _ => 0) pointer none none v := by
  obtain ⟨hwrites, htx⟩ : u.Writes (u.cache.txCache.applyCenotaphInputBurn env).2 [] v ∧
    v.cache.txCache = (u.cache.txCache.applyCenotaphInputBurn env).1 := Session.writes_add hrun
  have hempty : ∀ id, v.cache.txCache.available id = [] := fun id => by
    rw [htx]
    exact TransactionCache.available_clear u.cache.txCache _ id
  have hruns : v.runes = u.runes := Action.runes_eq rfl hrun
  obtain ⟨es, hes, hall⟩ := h.entries
  refine ⟨⟨es ++ _, by rw [hwrites.entries_eq, hes, List.append_assoc], fun id => ?_⟩,
    fun id => ?_, ?_, fun id => hempty id ▸ .nil, fun id _ _ b hb => ?_, fun id => ?_⟩
  · obtain ⟨hcount, hnone⟩ := hall id
    have hburns : receives ((u.cache.txCache.available id).map (burnRow id)) = [] := by
      refine List.filter_eq_nil_iff.mpr fun r hr => ?_
      obtain ⟨b, -, rfl⟩ := List.mem_map.mp hr
      exact Bool.false_ne_true
    rw [counted_append, hcount, ofRune_append, List.map_append, receives_append, hnone,
      TransactionCache.applyCenotaphInputBurn_rows, hburns]
    exact ⟨congrArg _ (Action.mints_nothing (fun _ heq => by cases heq) (by simp [Action.step]) hrun
      hwrites.entries_eq id), rfl⟩
  · rw [Session.runeById_of_runes hruns, h.runes]
  · rw [htx]
    exact ⟨h.outline.location, h.outline.eligibleOutputs, h.outline.totalOutputs,
      h.outline.outputPointer, h.outline.etching⟩
  · rw [hempty] at hb
    exact absurd hb List.not_mem_nil
  · rw [hempty]
    rfl

/-- **An etching** makes a row of which only the number and the flag are not the protocol's, and
adds its premine. -/
theorem etching {a : Action} {row : DbRune}
    (h : Underway env network L block tx s held pointer none none u)
    (hrow : a.etchedRune u = some row) (hsound : (Stage.call block a).Sound u)
    (hrun : a.run env block u = some v) :
    Underway env network L block tx s held pointer (some row.face) none v := by
  obtain ⟨es', rs, hwrites, hstep⟩ := Action.run_step (fun tx heq => by subst heq; cases hrow) hrun
  obtain ⟨premine, row', hpremine, hface, rfl, htx⟩ := hstep.etches hrow
  obtain ⟨hnone, -⟩ | ⟨row₀, hrow₀, hetches⟩ := Action.runes hrun
  · cases hnone.symm.trans hrow
  cases Option.some.inj (hrow₀.symm.trans hrow)
  -- the new row is found from now on, and the lookups of the others stay
  have hfound :=
    CachesFaces.runeById_of_etches (hsound.regular.etches row hrow).2.2
      (hsound.newId row hrow) hetches
  have hid : row.id = u.cache.txCache.location.runeId := (Action.etchedRow hrow).id
  have havailable : ∀ id, v.cache.txCache.available id =
      if row.id = id then u.cache.txCache.available id ++
        (premine.map fun p => (⟨none, p⟩ : InputRuneBalance)).toList
      else u.cache.txCache.available id := fun id => by
    rw [htx, TransactionCache.available_withEtching, hid]
  -- no balance that came in before the etching is empty
  have hpos : ∀ id, ∀ b ∈ u.cache.txCache.available id, 0 < b.amount := fun id =>
    h.positive id (by simp) (by simp)
  obtain ⟨es, hes, hall⟩ := h.entries
  refine ⟨⟨es ++ _, by rw [hwrites.entries_eq, hes, List.append_assoc], fun id => ?_⟩,
    fun id => ?_, ?_, fun id => ?_, fun id hother _ => ?_, fun id => ?_⟩
  · obtain ⟨hcount, hnone⟩ := hall id
    rw [counted_append, hcount, ofRune_append, List.map_append, receives_append, hnone,
      receives_eq_nil (List.forall_mem_singleton.mpr fun heq => by cases heq)]
    refine ⟨congrArg _ (counted_totalMints_eq_zero
      (List.forall_mem_singleton.mpr fun heq => by cases heq)), rfl⟩
  · rw [(hfound id).2]
    have hbefore := h.runes id
    by_cases hrowid : row.id = id
    · simp [hrowid]
    · simp [hrowid, hbefore]
  · have hetched : (tx.outline env network block pointer (some row.face)).SameOutline
        { u.cache.txCache with etching := some row' } :=
      ⟨h.outline.location, h.outline.eligibleOutputs, h.outline.totalOutputs,
        h.outline.outputPointer, congrArg some hface⟩
    exact htx ▸ hetched.trans (u.cache.txCache.sameOutline_withEtching row' premine)
  · rw [havailable]
    split
    · cases premine with
      | none =>
        rw [Option.map_none, Option.toList_none, List.append_nil]
        exact .of_pos (hpos id)
      | some p => exact .concat (hpos id) p
    · exact .of_pos (hpos id)
  · rw [havailable, if_neg fun heq : row.id = id => hother (congrArg some heq)]
    exact hpos id
  -- the premine is what the etching adds to the total
  · have hpremined : totalAmount (premine.map fun p => (⟨none, p⟩ : InputRuneBalance)).toList =
        row.premine := by
      rw [← hpremine]
      cases premine <;> rfl
    rw [havailable, RunesLedger.addition, Option.elim_some, Option.elim_none, Nat.add_zero,
      DbRune.face_id, DbRune.face_premine]
    split
    · rw [totalAmount_append, h.total, hpremined]
      rfl
    · exact h.total id

/-- The rune that `0:0` means is the one that the transaction has etched. -/
theorem etched_id (h : Underway env network L block tx s held pointer etched minted u) {r : DbRune}
    (hr : u.cache.txCache.etching = some r) : etched.map DbRune.id = some r.id := by
  have hsame : u.cache.txCache.etching.map DbRune.face = etched.map DbRune.face := h.outline.etching
  rw [hr] at hsame
  obtain ⟨row, rfl, hface⟩ := Option.map_eq_some_iff.mp hsame.symm
  exact congrArg some (congrArg DbRune.id hface :)

/-- **A mint** adds its amount, if it is read as mintable. -/
theorem mint {id : RuneId} (h : Underway env network L block tx s held pointer etched none u)
    (hother : etched.map DbRune.id ≠ some id) (hrun : Action.run env block u (.mint id) = some v) :
    Underway env network L block tx s held pointer etched
    ((u.readMint id).map fun amount => (id, amount)) v := by
  have hruns : v.runes = u.runes := Action.runes_eq rfl hrun
  have hmint : u.applyMint id = some v := hrun
  obtain ⟨hread, hwrites, htx⟩ | ⟨amount, hread, hwrites, htx⟩ := Session.applyMint_read hmint
  · rw [hread]
    exact h.quiet hwrites.entries_eq (fun _ => rfl) (fun _ => rfl) hruns htx
  -- only the deque of the minted rune changes
  have havailable : ∀ i, v.cache.txCache.available i =
      if i = id then u.cache.txCache.available id ++ [⟨none, amount⟩]
      else u.cache.txCache.available i := fun i => by
    rw [htx]
    exact TransactionCache.available_addInputRunes u.cache.txCache id i ⟨none, amount⟩
  have hpos : ∀ b ∈ u.cache.txCache.available id, 0 < b.amount := h.positive id hother (by simp)
  obtain ⟨es, hes, hall⟩ := h.entries
  rw [hread]
  refine ⟨⟨es ++ _, by rw [hwrites.entries_eq, hes, List.append_assoc], fun i => ?_⟩,
    fun i => ?_, ?_, fun i => ?_, fun i hetched hminted => ?_, fun i => ?_⟩
  · obtain ⟨hcount, hnone⟩ := hall i
    rw [counted_totalMints_concat, hcount, ofRune_append, List.map_append, receives_append, hnone,
      receives_eq_nil (List.forall_mem_singleton.mpr fun heq => by cases heq)]
    refine ⟨?_, rfl⟩
    by_cases hi : i = id
    · simp [hi]
    · simp [hi, Ne.symm hi]
  · rw [Session.runeById_of_runes hruns, h.runes]
  · rw [htx]
    exact ⟨h.outline.location, h.outline.eligibleOutputs, h.outline.totalOutputs,
      h.outline.outputPointer, h.outline.etching⟩
  · rw [havailable]
    split
    · exact .concat hpos amount
    · exact h.zeros i
  · rw [havailable, if_neg fun heq : i = id => hminted (congrArg some heq.symm)]
    exact h.positive i hetched (by simp)
  -- the total of the rune grows by the minted amount
  · have hbefore := h.total i
    rw [RunesLedger.addition, Option.elim_none, Nat.add_zero] at hbefore
    rw [havailable, RunesLedger.addition, Option.map_some, Option.elim_some]
    by_cases hi : i = id
    · subst hi
      rw [if_pos rfl, if_pos rfl, totalAmount_append, hbefore, ← Nat.add_assoc]
      rfl
    · rw [if_neg hi, if_neg (Ne.symm hi), hbefore, Nat.add_zero]

/-- A cenotaph's mint is refused. -/
theorem cenotaphMint {id : RuneId}
    (h : Underway env network L block tx s held pointer etched none u)
    (hrefused : u.readMint id = none) (hrun : Action.run env block u (.cenotaphMint id) = some v) :
    Underway env network L block tx s held pointer etched none v := by
  have hmint : u.applyCenotaphMint id = some v := hrun
  obtain ⟨-, hwrites, htx⟩ | ⟨amount, hread, -, -⟩ := Session.applyCenotaphMint_read hmint
  · exact h.quiet hwrites.entries_eq (fun _ => rfl) (fun _ => rfl) (Action.runes_eq rfl hrun) htx
  · cases hrefused.symm.trans hread

/-- **The mint that is read is the one that the ledger makes.** -/
theorem minted_eq {id : RuneId} (h : Underway env network L block tx s held pointer etched none u)
    (hshows : Shows network L txs s)
    (hartifact : (env.decipher tx.outputs).bind Artifact.mint = some id) (hfaces : CachesFaces u)
    (hid : id ≠ .placeholder) (hother : etched.map DbRune.id ≠ some id)
    (htruthful : u.readMint id = u.tableMint id) :
    L.minted env network block tx = (u.readMint id).map fun amount => (id, amount) := by
  have hminted : L.minted env network block tx = (L.runes id).bind fun rune =>
      if isRuneMintable rune (L.mints id) (tx.location block network)
        then rune.termsAmount.map (id, ·) else none := by
    rw [RunesLedger.minted, hartifact]
    rfl
  -- the ledger and the entries count the same mints
  have hcount : counted .totalMints id u.entries = L.mints id := by
    obtain ⟨es, hes, hall⟩ := h.entries
    rw [hes, counted_append, (hall id).1, hshows.mints]
    rfl
  have hrow := h.runes id
  rw [if_neg hother] at hrow
  -- the placeholder aside, the table is asked for the rune of the id
  have htable : u.tableRune id = u.runeById id :=
    if_neg fun heq => hid ((RuneId.eq_placeholder_iff id).mp heq)
  have hlocation : u.cache.txCache.location = tx.location block network := h.outline.location
  rw [hminted, htruthful, Session.tableMint, htable, hcount, ← hrow, hlocation]
  cases hfound : u.runeById id with
  | none => rfl
  | some rune =>
    rw [Option.map_some, Option.bind_some, Option.bind_some,
      DbRune.mintable_face (hfaces.of_row hfound).2, DbRune.face_termsAmount]
    split <;> rfl

/-! ## The phases -/

theorem location_eq (h : Underway env network L block tx s held pointer etched minted u) :
    u.cache.txCache.location = tx.location block network := h.outline.location

/-- The name of a rune that may be etched is not taken. -/
theorem nameTaken_eq_false (h : Underway env network L block tx s held pointer none none u)
    (hfaces : CachesFaces u) {row : DbRune} (hfree : L.Free row) :
    nameTaken u.runes row.name = false := by
  have hrunes : ∀ id, (u.runeById id).map DbRune.face = L.runes id := h.runes
  refine List.any_eq_false.mpr fun r hr hname => ?_
  have hrow : L.runes r.id = some r.face := by
    rw [← hrunes, hfaces.runeById_of_mem hr, Option.map_some]
  exact hfree.2 r.id r.face hrow (of_decide_eq_true hname)

/-- **The balances of a lawful transaction fit**: it has no more of a rune than was ever issued. -/
theorem fits (h : Underway env network L block tx s held pointer etched minted u)
    (hbalanced : L.Balanced) (hlawful : L.Lawful env network block tx)
    (hheld : ∀ id, held id ≤ heldBy tx.spent (L.holdings id))
    (hadded : ∀ id, RunesLedger.addition etched minted id ≤ L.added env network block tx id)
    (id : RuneId) :
    totalAmount (u.cache.txCache.available id) < 2 ^ 128 := by
  have hissued : L.issued id + L.added env network block tx id < 2 ^ 128 := hlawful.issued id
  have hspend := degree_spend tx.spent (L.holdings id)
  have hall := hbalanced id
  have hheld := hheld id
  have hadded := hadded id
  rw [h.total]
  omega

/-- **The etching of a transaction**, if it makes one, is the ledger's. -/
theorem etchings {c : Cursor} (h : Underway env network L block tx s held pointer none none u)
    (hat : OnRegularRun c u) (hlawful : L.Lawful env network block tx) {o : Option Action}
    (hface : (env.decipher tx.outputs).bind (Artifact.etchedFace (tx.location block network)) =
      (o.bind (Action.etchedRune u)).map DbRune.face) (hetches : ∀ a ∈ o, a.etches = true)
    (hfollows : Follows c (o.toList.map (Stage.call block)))
    (hrun : o.toList.foldlM (Action.run env block) u = some v) :
    OnRegularRun ((o.toList.map (Stage.call block)).foldl Cursor.next c) v ∧
      Underway env network L block tx s held pointer (L.etched env network block tx) none v := by
  rw [RunesLedger.etched]
  cases o with
  | none =>
    cases Option.some.inj hrun
    rw [hface]
    exact ⟨hat, h⟩
  | some a =>
    have ha : a.run env block u = some v := foldlM_singleton_eq_some.mp hrun
    obtain ⟨row, hrow⟩ :=
      Option.isSome_iff_exists.mp ((a.etchedRune_isSome u).trans (hetches a rfl))
    rw [Option.bind_some, hrow, Option.map_some] at hface
    obtain ⟨hid, hgoods, hfree⟩ := hlawful.etches row.face hface
    -- an etching mints nothing, and its name is free as the ledger says
    have hregular : (Stage.call block a).Regular u := by
      refine ⟨fun row' hrow' => ?_, fun id hmint => ?_, fun id hmint => ?_⟩
      · cases Option.some.inj (hrow.symm.trans hrow')
        exact ⟨hid, hgoods, h.nameTaken_eq_false hat.faces hfree⟩
      · cases a with
        | mint | cenotaphMint => cases hrow
        | _ => cases hmint
      · cases a with
        | mint | cenotaphMint => cases hrow
        | _ => cases hmint
    obtain ⟨hsound, hnext⟩ := hat.call hfollows.1 hregular ha
    rw [hface, Option.filter_some_pos (by simpa using hfree)]
    exact ⟨hnext, h.etching hrow hsound ha⟩

/-- **The mint of a transaction**, if it makes one, is the ledger's; a cenotaph makes none. -/
theorem mints {c : Cursor}
    (h : Underway env network L block tx s held pointer (L.etched env network block tx) none u)
    (hat : OnRegularRun c u) (hshows : Shows network L txs s)
    (hlawful : L.Lawful env network block tx) {make : RuneId → Action}
    (hmake : make = .mint ∨ make = .cenotaphMint ∧ L.minted env network block tx = none)
    (hfollows : Follows c ((((env.decipher tx.outputs).bind Artifact.mint).map make).toList.map
      (Stage.call block)))
    (hrun : (((env.decipher tx.outputs).bind Artifact.mint).map make).toList.foldlM
      (Action.run env block) u = some v) :
    OnRegularRun
        (((((env.decipher tx.outputs).bind Artifact.mint).map make).toList.map
          (Stage.call block)).foldl Cursor.next c) v ∧
      Underway env network L block tx s held pointer (L.etched env network block tx)
      (L.minted env network block tx)
        v := by
  cases hartifact : (env.decipher tx.outputs).bind Artifact.mint with
  | none =>
    have hnone : L.minted env network block tx = none := by
      rw [RunesLedger.minted, hartifact]
      rfl
    rw [hartifact] at hrun
    cases Option.some.inj hrun
    exact ⟨hat, hnone ▸ h⟩
  | some id =>
    rw [hartifact] at hrun hfollows
    have ha : (make id).run env block u = some v := foldlM_singleton_eq_some.mp hrun
    obtain ⟨hid, hown⟩ := hlawful.mints id hartifact
    -- the minted rune is not the one that this transaction etches
    have hother : (L.etched env network block tx).map DbRune.id ≠ some id := by
      intro heq
      obtain ⟨row, hrow, rfl⟩ := Option.map_eq_some_iff.mp heq
      exact hown (congrArg (Option.map DbRune.id) (Option.mem_filter_iff.mp hrow).1)
    -- the caches answer as the tables do on a regular run
    have hread : u.readMint id = u.tableMint id := by
      rcases hmake with rfl | ⟨rfl, -⟩
      · have hmint : u.applyMintWith TransactionCache.applyMint id = some v := ha
        exact hat.readMint_eq hfollows.1.1 hid hmint
      · have hmint : u.applyMintWith TransactionCache.applyCenotaphMint id = some v := ha
        exact hat.readMint_eq hfollows.1.1 hid hmint
    have hminted := h.minted_eq hshows hartifact hat.faces hid hother hread
    -- the call is regular, as the ledger refuses the mints that the caches would miscount
    have hregular : (Stage.call block (make id)).Regular u := by
      refine ⟨fun row hrow => ?_, fun id' hmint hrefused => ?_, fun id' hmint => ?_⟩
      · rcases hmake with rfl | ⟨rfl, -⟩ <;> cases hrow
      · -- neither the placeholder nor the rune of this transaction is minted
        have heq : id' = id := by
          rcases hmake with rfl | ⟨rfl, -⟩ <;> exact (Option.some.inj hmint).symm
        subst heq
        rcases hrefused with hzero | ⟨r, hr, rfl⟩
        · exact absurd hzero hid
        · exact absurd (h.etched_id hr) hother
      · rcases hmake with rfl | ⟨rfl, hnone⟩
        · cases hmint
        · cases Option.some.inj hmint
          rw [hnone] at hminted
          have hrefused := Option.map_eq_none_iff.mp hminted.symm
          by_contra haccepts
          rw [Session.readMint, if_pos (Bool.not_eq_false _ ▸ haccepts)] at hrefused
          cases hrefused
    have hnext := (hat.call hfollows.1 hregular ha).2
    rcases hmake with rfl | ⟨rfl, hnone⟩
    · rw [hminted]
      exact ⟨hnext, h.mint hother ha⟩
    · rw [hnone] at hminted ⊢
      exact ⟨hnext, h.cenotaphMint (Option.map_eq_none_iff.mp hminted.symm) ha⟩

end Underway

/-! ## The end -/

/-- **What a transaction records**: the rune that the ledger etches, the mint that it makes, and
receipts of the shares that the outputs get. -/
structure Records (env : Environment) (network : Network) (L : RunesLedger) (block : Block)
    (tx : Transaction) (s t : Session) : Prop where
  /-- The runes are those of the ledger afterwards. -/
  runes : ∀ id, (t.runeById id).map DbRune.face = (L.transaction env network block tx).runes id
  /-- None of them has the id of the placeholder. -/
  placeholder : (L.transaction env network block tx).runes .placeholder = none
  /-- The entries count the mint and credit the shares of the outputs. -/
  entries : ∃ es, t.entries = s.entries ++ es ∧ ∀ id,
    counted .totalMints id es =
      (if (L.minted env network block tx).map Prod.fst = some id then 1 else 0) ∧
      receives ((ofRune id es).map DbLedgerEntry.row) =
        receiveRows (receiverIn env network tx.outputs) id (L.shares env network block tx id)

/-- The edicts and the final allocation share out what the transaction has by then. -/
theorem Underway.records {c : Cursor} {held : RuneId → ℕ} {pointer : Option Nat}
    (edicts : List Edict)
    (h : Underway env network L block tx s held pointer (L.etched env network block tx)
      (L.minted env network block tx) u) (hat : OnRegularRun c u) (hshows : Shows network L txs s)
    (hlawful : L.Lawful env network block tx)
    (hfits : ∀ id, totalAmount (u.cache.txCache.available id) < 2 ^ 128)
    (houtputs : ∀ e ∈ edicts, e.output ≤ tx.outputs.length)
    (hshares : ∀ id,
        receiveRows (receiverIn env network tx.outputs) id (L.shares env network block tx id) =
      receiveRows (receiverIn env network tx.outputs) id
        ((tx.outline env network block pointer (L.etched env network block tx)).runeShares id edicts
          (held id + L.added env network block tx id)))
    (hfollows : Follows c ((edicts.map Action.edict ++ [Action.endTransaction]).map
      (Stage.call block)))
    (hrun : (edicts.map Action.edict ++ [Action.endTransaction]).foldlM (Action.run env block) u =
      some t) :
    OnRegularRun
      (((edicts.map Action.edict ++ [Action.endTransaction]).map (Stage.call block)).foldl
        Cursor.next c) t ∧ Records env network L block tx s t := by
  obtain ⟨hlast, es', hes', hruns, hall'⟩ := edicts_share hat hfollows h.zeros hfits
    (h.outline.totalOutputs.symm ▸ houtputs) hrun
  obtain ⟨es, hes, hall⟩ := h.entries
  -- the receivers are those of the outputs, since the outline has them unchanged
  have hreceiver : receiverAddress env u.cache.txCache.location u.cache.txCache.eligibleOutputs =
      receiverIn env network tx.outputs := by
    rw [h.outline.location, h.outline.eligibleOutputs]
    rfl
  refine ⟨hlast, fun id => ?_, ?_, es ++ es', by rw [hes', hes, List.append_assoc],
    fun id => ⟨?_, ?_⟩⟩
  · rw [Session.runeById_of_runes hruns, h.runes]
    rfl
  -- the placeholder is not etched
  · have hother : (L.etched env network block tx).map DbRune.id ≠ some .placeholder := by
      intro heq
      obtain ⟨row, hrow, hid⟩ := Option.map_eq_some_iff.mp heq
      exact (hlawful.etches row (Option.mem_filter_iff.mp hrow).1).1 hid
    exact (if_neg hother).trans hshows.placeholder
  · rw [counted_append, (hall id).1, (hall' id).1, Nat.add_zero]
  · rw [ofRune_append, List.map_append, receives_append, (hall id).2, (hall' id).2, hreceiver,
      h.outline.runeShares_eq, h.total, hshares]
    rfl

/-- A runestone points, etches, mints and moves. -/
theorem Underway.runestone_records {c : Cursor} {r : Runestone}
    (h : Underway env network L block tx s (fun id => heldBy tx.spent (L.holdings id))
      (scanOutputs env tx.outputs).firstEligibleOutput none none u)
    (hat : OnRegularRun c u) (hshows : Shows network L txs s) (hbalanced : L.Balanced)
    (hlawful : L.Lawful env network block tx)
    (hartifact : env.decipher tx.outputs = some (.runestone r))
    (hfollows : Follows c (((Artifact.runestone r).actions ++ [Action.endTransaction]).map
      (Stage.call block)))
    (hrun : ((Artifact.runestone r).actions ++ [Action.endTransaction]).foldlM
      (Action.run env block) u = some t) :
    OnRegularRun
      ((((Artifact.runestone r).actions ++ [Action.endTransaction]).map (Stage.call block)).foldl
        Cursor.next c) t ∧ Records env network L block tx s t := by
  have hactions : (Artifact.runestone r).actions ++ [Action.endTransaction] = .runestone r ::
      ((r.etching.map Action.etching).toList ++ ((r.mint.map Action.mint).toList ++
        (r.edicts.map Action.edict ++ [Action.endTransaction]))) := by
    simp [Artifact.actions]
  have hpoints : Action.run env block u (.runestone r) = some (u.applyRunestone r) := rfl
  rw [hactions] at hfollows hrun ⊢
  rw [List.map_cons, List.map_append, List.map_append] at hfollows
  obtain ⟨hpoints', hfollows⟩ := hfollows
  obtain ⟨hetching', hfollows⟩ := follows_append.mp hfollows
  obtain ⟨hmint', hfollows⟩ := follows_append.mp hfollows
  obtain ⟨u₁, hpointed, hrun⟩ := foldlM_cons_eq_some.mp hrun
  cases Option.some.inj hpointed
  obtain ⟨u₂, hetching, hrun⟩ := foldlM_append_eq_some.mp hrun
  obtain ⟨u₃, hmint, hrun⟩ := foldlM_append_eq_some.mp hrun
  -- the pointer
  have hat := (hat.call hpoints' (.of_moves rfl (by simp [Action.step])) hpoints).2
  have hpointed := h.runestone r
  -- the etching
  have hface : (env.decipher tx.outputs).bind (Artifact.etchedFace (tx.location block network)) =
      ((r.etching.map Action.etching).bind (Action.etchedRune (u.applyRunestone r))).map
      DbRune.face := by
    rw [hartifact, Option.bind_some, Artifact.etchedFace, ← hpointed.location_eq]
    cases r.etching <;> rfl
  have hetches : ∀ a ∈ r.etching.map Action.etching, a.etches = true := by
    intro a ha
    obtain ⟨e, -, rfl⟩ := Option.map_eq_some_iff.mp ha
    rfl
  obtain ⟨hat, hetched⟩ := hpointed.etchings hat hlawful hface hetches hetching' hetching
  -- the mint
  have hmints : (env.decipher tx.outputs).bind Artifact.mint = r.mint := by
    rw [hartifact]
    rfl
  rw [← hmints] at hmint' hmint
  obtain ⟨hat, hminted⟩ := hetched.mints hat hshows hlawful (.inl rfl) hmint' hmint
  -- the edicts
  have hfits := hminted.fits hbalanced hlawful (fun _ => le_rfl) fun _ => le_rfl
  rw [hmints] at hat
  rw [List.map_cons, List.map_append, List.map_append, List.foldl_cons, List.foldl_append,
    List.foldl_append]
  refine hminted.records r.edicts hat hshows hlawful hfits (hlawful.edicts r hartifact)
    (fun id => ?_) hfollows hrun
  rw [RunesLedger.shares, Transaction.pointer, hartifact]
  rfl

/-- A cenotaph burns everything, etches and moves nothing. -/
theorem Underway.cenotaph_records {c : Cursor} {cenotaph : Cenotaph}
    (h : Underway env network L block tx s (fun id => heldBy tx.spent (L.holdings id))
      (scanOutputs env tx.outputs).firstEligibleOutput none none u)
    (hat : OnRegularRun c u) (hshows : Shows network L txs s) (hbalanced : L.Balanced)
    (hlawful : L.Lawful env network block tx)
    (hartifact : env.decipher tx.outputs = some (.cenotaph cenotaph))
    (hfollows : Follows c (((Artifact.cenotaph cenotaph).actions ++ [Action.endTransaction]).map
      (Stage.call block)))
    (hrun : ((Artifact.cenotaph cenotaph).actions ++ [Action.endTransaction]).foldlM
      (Action.run env block) u = some t) :
    OnRegularRun
      ((((Artifact.cenotaph cenotaph).actions ++ [Action.endTransaction]).map
        (Stage.call block)).foldl Cursor.next c) t ∧ Records env network L block tx s t := by
  have hactions : (Artifact.cenotaph cenotaph).actions ++ [Action.endTransaction] = .cenotaph ::
      ((cenotaph.etching.map Action.cenotaphEtching).toList ++
        ((cenotaph.mint.map Action.cenotaphMint).toList ++ [Action.endTransaction])) := by
    simp [Artifact.actions]
  rw [hactions] at hfollows hrun ⊢
  rw [List.map_cons, List.map_append, List.map_append] at hfollows
  obtain ⟨hburn', hfollows⟩ := hfollows
  obtain ⟨hetching', hfollows⟩ := follows_append.mp hfollows
  obtain ⟨hmint', hfollows⟩ := follows_append.mp hfollows
  obtain ⟨u₁, hburn, hrun⟩ := foldlM_cons_eq_some.mp hrun
  obtain ⟨u₂, hetching, hrun⟩ := foldlM_append_eq_some.mp hrun
  obtain ⟨u₃, hmint, hrun⟩ := foldlM_append_eq_some.mp hrun
  -- the burn
  have hat := (hat.call hburn' (.of_moves rfl (by simp [Action.step])) hburn).2
  have hburned := h.cenotaph hburn
  -- the etching
  have hface : (env.decipher tx.outputs).bind (Artifact.etchedFace (tx.location block network)) =
      ((cenotaph.etching.map Action.cenotaphEtching).bind (Action.etchedRune u₁)).map
      DbRune.face := by
    rw [hartifact, Option.bind_some, Artifact.etchedFace, ← hburned.location_eq]
    cases cenotaph.etching <;> rfl
  have hetches : ∀ a ∈ cenotaph.etching.map Action.cenotaphEtching, a.etches = true := by
    intro a ha
    obtain ⟨e, -, rfl⟩ := Option.map_eq_some_iff.mp ha
    rfl
  obtain ⟨hat, hetched⟩ := hburned.etchings hat hlawful hface hetches hetching' hetching
  -- the mint
  have hmints : (env.decipher tx.outputs).bind Artifact.mint = cenotaph.mint := by
    rw [hartifact]
    rfl
  have hnone := hlawful.cenotaph cenotaph hartifact
  rw [← hmints] at hmint' hmint
  obtain ⟨hat, hminted⟩ := hetched.mints hat hshows hlawful (.inr ⟨rfl, hnone⟩) hmint' hmint
  -- nothing is left to allocate
  have hfits := hminted.fits hbalanced hlawful (fun _ => Nat.zero_le _) fun _ => le_rfl
  have hadded : ∀ id, L.added env network block tx id = 0 := by
    intro id
    have hpremine : ∀ row ∈ L.etched env network block tx, row.premine = 0 := by
      intro row hrow
      rw [RunesLedger.etched, hartifact, Option.bind_some, Artifact.etchedFace] at hrow
      obtain ⟨rune, -, rfl⟩ := Option.map_eq_some_iff.mp (Option.mem_filter_iff.mp hrow).1
      rfl
    rw [RunesLedger.added, RunesLedger.addition, hnone, Option.elim_none, Nat.add_zero]
    cases hrow : L.etched env network block tx with
    | none => rfl
    | some row =>
      rw [Option.elim_some, hpremine row hrow]
      exact ite_self 0
  rw [hmints] at hat
  rw [List.map_cons, List.map_append, List.map_append, List.foldl_cons, List.foldl_append,
    List.foldl_append]
  refine hminted.records [] hat hshows hlawful hfits (fun e he => absurd he List.not_mem_nil)
    (fun id => ?_) hfollows hrun
  rw [RunesLedger.shares, hartifact, hadded]
  have hnobody : receiverIn env network tx.outputs none = none := rfl
  simp [TransactionCache.artifactShares, TransactionCache.runeShares, receiveRows, hnobody]

/-- **A lawful transaction records what the ledger does.** -/
theorem Shows.records {c : Cursor} {earlier current : List DbLedgerEntry}
    (h : Shows network L txs s) (hat : OnRegularRun c s) (hbefore : Before txs tx earlier current s)
    (hbalanced : L.Balanced) (hlawful : L.Lawful env network block tx)
    (hfollows : Follows c (tx.stages env block)) (hrun : indexTransaction env block s tx = some t) :
    OnRegularRun ((tx.stages env block).foldl Cursor.next c) t ∧
    Records env network L block tx s t := by
  obtain ⟨u, hbegin, hcalls⟩ := indexTransaction_eq_some.mp hrun
  obtain ⟨hbegin', hfollows⟩ := hfollows
  -- the start of a transaction neither etches nor mints
  have hregular : (Stage.call block (.beginTransaction tx)).Regular s :=
    ⟨fun row hrow => (by cases hrow), fun id hid => (by cases hid), fun id hid => (by cases hid)⟩
  have hat := (hat.call hbegin' hregular hbegin).2
  have hunderway := h.begin hbefore hbegin
  have hfollows :
      Follows (c.call block (.beginTransaction tx)) ((tx.calls env).map (Stage.call block)) :=
    hfollows
  show OnRegularRun (((tx.calls env).map (Stage.call block)).foldl Cursor.next
    (c.call block (.beginTransaction tx))) t ∧ _
  rw [Transaction.calls] at hcalls hfollows ⊢
  cases hartifact : env.decipher tx.outputs with
  | none =>
    rw [hartifact] at hcalls hfollows
    -- without an artifact nothing is etched or minted, and all goes to the first output
    obtain ⟨hetched, hminted⟩ : L.etched env network block tx = none ∧
        L.minted env network block tx = none :=
      RunesLedger.etched_minted_of_none hartifact L
    have hpointer : tx.pointer env = (scanOutputs env tx.outputs).firstEligibleOutput := by
      rw [Transaction.pointer, hartifact]
      rfl
    have hfits := hunderway.fits hbalanced hlawful (fun _ => le_rfl) fun _ => Nat.zero_le _
    refine Underway.records [] (hetched.symm ▸ hminted.symm ▸ hunderway) hat h hlawful hfits
      (fun e he => absurd he List.not_mem_nil) (fun id => ?_) hfollows hcalls
    rw [RunesLedger.shares, hartifact, hpointer]
    rfl
  | some artifact =>
    rw [hartifact] at hcalls hfollows
    cases artifact with
    | runestone r =>
      exact hunderway.runestone_records hat h hbalanced hlawful hartifact hfollows hcalls
    | cenotaph c =>
      exact hunderway.cenotaph_records hat h hbalanced hlawful hartifact hfollows hcalls

end Runehook
