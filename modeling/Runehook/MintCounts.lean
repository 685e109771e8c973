import Runehook.Placeholder

/-! # The count of the mints of a rune

On increasing blocks, and where no mint of the placeholder is accepted, the count of a rune's mints
that a mint consults lies between its `mint` entries and all of its accepted mints (`MintsCounted`).
The two differ by the mints accepted in cenotaphs, which are counted in memory and written as burns.
`MintsRecorded` says where the entries are, and `MintsCounted.bump` what an accepted mint does to
the counts. -/

namespace Runehook

open Lib

/-! ## What a call writes of mints -/

namespace TransactionCache

variable {env : Environment} {tx tx' : TransactionCache} {a : Action} {es : List DbLedgerEntry}
  {rs : List DbRune}

/-- Only a mint writes a `mint` entry. -/
theorem Step.operation_ne_mint (h : tx.Step env a es rs tx') (ha : a.step ≠ 3) :
    ∀ e ∈ es, e.operation ≠ .mint := by
  have hmoves : ∀ {location : TransactionLocation} {id : RuneId} {output : Option Nat}
      {receiver : Option Address} {e : DbLedgerEntry}, e.MoveOf location id output receiver →
      e.operation ≠ .mint := by
    intro location id output receiver e hmove
    rcases hmove.operation with ⟨hop, -⟩ | ⟨hop, -⟩ <;> rw [hop]
    · decide
    · split <;> decide
  cases h with
  | runestone | noEdict => exact fun e he => absurd he List.not_mem_nil
  | mint | cenotaphMint | noMint | noCenotaphMint => exact absurd rfl ha
  | cenotaph =>
    refine forall_mem_overRunes (fun id n e he => ?_) _ _
    rw [(burnEntries_spec _ _ _ n e he).2.2.1]
    decide
  | etching | cenotaphEtching =>
    intro e he
    rw [List.mem_singleton.mp he]
    exact DbLedgerOperation.noConfusion
  | edict e =>
    rcases applyEdict_cases env tx e with he | ⟨id, balances, -, -, he⟩ <;> rw [he]
    · exact fun e he => absurd he List.not_mem_nil
    · intro e' he'
      obtain ⟨output, hmove⟩ := applyMoves_moveOf _ _ _ e' he'
      exact hmoves hmove
  | endTransaction =>
    exact forall_mem_overRunes (fun id n e he => hmoves (moveToPointer_moveOf env tx id n e he)) _ _

/-- A call that does not etch leaves what the transaction has etched. -/
theorem Step.etching_eq (h : tx.Step env a es rs tx') (ha : a.etches = false) :
    tx'.etching = tx.etching := by
  cases h with
  | etching | cenotaphEtching => cases ha
  | edict e => rcases applyEdict_cases env tx e with he | ⟨id, balances, -, -, he⟩ <;> rw [he]
  | _ => rfl

/-- A call that etches puts the rune under the id of the transaction. -/
theorem Step.etching_id (h : tx.Step env a es rs tx') (ha : a.etches = true) :
    ∀ r, tx'.etching = some r → r.id = tx.location.runeId := by
  intro r hr
  cases h with
  | etching e number =>
    have hr : some (DbRune.fromEtching e number tx.location) = some r := by
      rw [← hr]
      cases e.premine <;> rfl
    rw [← Option.some.inj hr]
    rfl
  | cenotaphEtching rune number =>
    have hr : some (DbRune.fromCenotaphEtching rune number tx.location) = some r := hr
    rw [← Option.some.inj hr]
    rfl
  | _ => cases ha

end TransactionCache

theorem counted_totalMints_eq_zero {es : List DbLedgerEntry} {id : RuneId}
    (h : ∀ e ∈ es, e.operation = .mint → e.runeId ≠ id) : counted .totalMints id es = 0 := by
  rw [counted, tally, List.sum_eq_zero]
  intro n hn
  obtain ⟨e, he, rfl⟩ := List.mem_map.mp hn
  obtain ⟨hmem, hid⟩ := List.mem_filter.mp he
  exact if_neg fun hop => h e hmem hop (of_decide_eq_true hid)

/-! ## The entries and the table -/

/-- Where the mint entries of a run are, in the ledger and in `supply_changes`. -/
structure MintsRecorded (c : Cursor) (s : Session) : Prop where
  /-- The table counts the mint entries, with what waits. -/
  tables : SupplyTables (· = .totalMints) c.height s
  /-- Between blocks nothing waits in memory. -/
  closed : c.isOpen = false → s.cache.dbCache = .new
  /-- Only known runes are minted, the rune of the migrations not before its height. -/
  minted : ∀ e ∈ s.entries, e.operation = .mint →
    e.runeId ∈ c.etched ∨ (e.runeId = ⟨1, 0⟩ ∧ 840000 ≤ e.blockHeight)
  /-- Until the mint of a transaction, the rune that it etches has not been minted. -/
  fresh : c.step < 3 → ∀ r, s.cache.txCache.etching = some r →
    ∀ e ∈ s.entries, e.operation = .mint → e.runeId ≠ r.id

theorem SupplyTables.height_entries {C : SupplyCounter → Prop} {h : Nat} {s : Session}
    (hs : SupplyTables C h s) :
    ∀ e ∈ s.entries, e.blockHeight ≤ h := by
  intro e he
  rcases List.mem_append.mp he with he | he
  · exact hs.height_le e he
  · exact (hs.pending_height e he).le

/-- The count in the table, once everything is flushed. -/
theorem SupplyTables.table {height : Nat} {s t : Session}
    (h : SupplyTables (· = .totalMints) height s) (hflush : s.flush = some t) (id : RuneId) :
    (pgGetRuneTotalMints id t.db).getD 0 = counted .totalMints id s.entries := by
  have ht := h.flush hflush
  have hbelow : below (height + 1) t.db.ledger = t.db.ledger :=
    below_of_lt fun e he => Nat.lt_succ_of_le (ht.height_le e he)
  have hentries : t.db.ledger = s.entries := by
    obtain ⟨db, hdb, rfl⟩ := Session.flush_eq_some.mp hflush
    exact DbCache.flush_ledger hdb
  have hreading := ht.supply.reading .totalMints rfl id (height + 1)
  rw [hbelow, hentries, reading, latestBefore_eq_latest] at hreading
  · rw [← hreading, pgGetRuneTotalMints, Db.latestSupply]
    rfl
  · exact fun r hr => Nat.lt_succ_of_le (ht.supply.height_le ht.height_le r hr)

/-- Writing entries that are no mints. -/
theorem MintsRecorded.writes {c c' : Cursor} {s s' : Session} {es : List DbLedgerEntry}
    {rs : List DbRune} (h : MintsRecorded c s) (hwrites : s.Writes es rs s')
    (hheight : c'.height = c.height) (hopen : c'.isOpen = true) (hetched : c.etched ⊆ c'.etched)
    (hes : ∀ e ∈ es, e.blockHeight = c.height) (hnone : ∀ e ∈ es, e.operation ≠ .mint)
    (hfresh : c'.step < 3 → ∀ r, s'.cache.txCache.etching = some r →
      ∀ e ∈ s.entries, e.operation = .mint → e.runeId ≠ r.id) : MintsRecorded c' s' where
  tables := by
    rw [hheight]
    exact h.tables.writes hwrites hes (suppliesFit_totalMints _)
  closed := fun hclosed => absurd (hopen.symm.trans hclosed) (by decide)
  minted := by
    rw [hwrites.entries_eq]
    intro e he hop
    rcases List.mem_append.mp he with he | he
    · exact (h.minted e he hop).imp_left fun hmem => hetched hmem
    · exact absurd hop (hnone e he)
  fresh := by
    rw [hwrites.entries_eq]
    intro hstep r hr e he hop
    rcases List.mem_append.mp he with he | he
    · exact hfresh hstep r hr e he hop
    · exact absurd hop (hnone e he)

/-- A rune is not minted before it is etched. -/
theorem MintsRecorded.not_minted {c : Cursor} {s : Session} (h : MintsRecorded c s)
    (hnew : c.tx ∉ c.etched) (hblock : c.tx.block = c.height) :
    ∀ e ∈ s.entries, e.operation = .mint → e.runeId ≠ c.tx := by
  intro e he hop heq
  rcases h.minted e he hop with hmem | ⟨hid, hge⟩
  · exact hnew (heq ▸ hmem)
  · -- the rune of the migrations is not mintable at height 1
    have hle := h.tables.height_entries e he
    have hone : c.height = 1 := by rw [← hblock, ← heq, hid]
    omega

/-- The mint of a known rune writes an entry of a known rune. -/
theorem RunesKnown.mintable {c : Cursor} {recorded : List DbRune} {s : Session}
    (h : RunesKnown c recorded s) {rune : DbRune} {total : Nat} {location : TransactionLocation}
    (hof : rune.IsOf (uncommonGoods :: recorded)) (hmint : isRuneMintable rune total location) :
    rune.id ∈ c.etched ∨ (rune.id = ⟨1, 0⟩ ∧ 840000 ≤ location.blockHeight) := by
  obtain ⟨r₀, hr₀, heq⟩ := hof
  have hid : rune.id = r₀.id := by rw [heq]
  have hstart : rune.termsHeightStart = r₀.termsHeightStart := by rw [heq]
  rw [hid]
  rcases List.mem_cons.mp hr₀ with rfl | hr₀
  · exact Or.inr ⟨rfl, start_le_of_mintable hmint hstart⟩
  · exact Or.inl (h.ids ▸ List.mem_map_of_mem hr₀)

/-! ## The counts -/

/-- The accepted mints of each rune are its `mint` entries and those of cenotaphs, and a cached
count lies between the former and all of them. -/
structure MintsCounted (accepted cenotaphs : RuneId → Nat) (s : Session) : Prop where
  /-- What was accepted is in `mint` entries or was burned by cenotaphs. -/
  split : ∀ id, accepted id = counted .totalMints id s.entries + cenotaphs id
  /-- A cached count has all `mint` entries and nothing that was not accepted. -/
  cached : ∀ id n, s.cache.runeTotalMintsCache.peek id = some n →
    counted .totalMints id s.entries ≤ n ∧ n ≤ accepted id

section

variable {accepted cenotaphs : RuneId → Nat} {c : Cursor} {s s' : Session} {id : RuneId}

/-- Writing no mint, and caching only what the table has. -/
theorem MintsCounted.writes {es : List DbLedgerEntry} (h : MintsCounted accepted cenotaphs s)
    (hentries : s'.entries = s.entries ++ es) (hnone : ∀ e ∈ es, e.operation ≠ .mint)
    (hpeek : ∀ i n, s'.cache.runeTotalMintsCache.peek i = some n →
      s.cache.runeTotalMintsCache.peek i = some n ∨ n = counted .totalMints i s.entries) :
    MintsCounted accepted cenotaphs s' := by
  have hcounted : ∀ i, counted .totalMints i s'.entries = counted .totalMints i s.entries := by
    intro i
    rw [hentries, counted_append, counted_totalMints_eq_zero fun e he hop =>
      absurd hop (hnone e he), Nat.add_zero]
  refine ⟨fun i => by rw [hcounted, h.split], fun i n hn => ?_⟩
  rw [hcounted]
  rcases hpeek i n hn with hold | rfl
  · exact h.cached i n hold
  · have := h.split i
    omega

/-- A lookup of a rune or of a count writes nothing. -/
theorem MintsRecorded.lookup {t : Session} (h : MintsRecorded c s) (hopen : c.isOpen = true)
    (hwrites : s.Writes [] [] t) (htx : t.cache.txCache = s.cache.txCache) : MintsRecorded c t :=
  h.writes hwrites rfl hopen (fun _ h => h) (fun _ he => absurd he List.not_mem_nil)
    (fun _ he => absurd he List.not_mem_nil) fun hstep r hr => h.fresh hstep r (htx ▸ hr)

theorem entries_of_writes_nil {t : Session} (hwrites : s.Writes [] [] t) :
    t.entries = s.entries := by
  rw [hwrites.entries_eq, List.append_nil]

/-- A lookup of a count keeps the counts. -/
theorem MintsCounted.lookup {total : Option Nat} (h : MintsCounted accepted cenotaphs s)
    (hrec : MintsRecorded c s) (hlook : s.MintsLookup id total s') :
    MintsCounted accepted cenotaphs s' := by
  refine h.writes hlook.writes.entries_eq (fun e he => absurd he List.not_mem_nil) ?_
  intro i n hn
  rcases hlook.peek hn with hold | ⟨rfl, t, hflush, hdb⟩
  · exact Or.inl hold
  · refine Or.inr ?_
    rw [← hrec.tables.table hflush, hdb, Option.getD_some]

/-- A count that is not cached after its lookup is zero. -/
theorem SupplyTables.not_cached {height : Nat} {total : Option Nat}
    (h : SupplyTables (· = .totalMints) height s) (hid : id ≠ .placeholder)
    (hlook : s.MintsLookup id total s') (hpeek : s'.cache.runeTotalMintsCache.peek id = none) :
    counted .totalMints id s.entries = 0 := by
  -- after a hit or a miss the counter is cached, so nothing was found
  have hreal := Session.realRuneId_of_ne hid s
  cases hlook with
  | noEtching hnone =>
    rw [hreal] at hnone
    cases hnone
  | @hit real total hid' hsome =>
    rw [hreal] at hid'
    cases Option.some.inj hid'
    rw [show s.cache.runeTotalMintsCache.peek id = none from
      (LruCache.peek_get s.cache.runeTotalMintsCache id id).symm.trans hpeek] at hsome
    cases hsome
  | unknown _ _ hflush hdb => rw [← h.table hflush, hdb, Option.getD_none]
  | @miss t real total _ _ _ _ =>
    have hself : (t.cache.runeTotalMintsCache.put id total).peek id = some total :=
      LruCache.peek_put_self _ _ _
    cases hself.symm.trans hpeek

/-- The count that is found for a rune lies between the mint entries of the rune and its accepted
mints. -/
theorem MintsCounted.found {total : Option Nat} (h : MintsCounted accepted cenotaphs s)
    (hrec : MintsRecorded c s) (hid : id ≠ .placeholder) (hlook : s.MintsLookup id total s') :
    counted .totalMints id s.entries ≤ total.getD 0 ∧ total.getD 0 ≤ accepted id := by
  have hreal := Session.realRuneId_of_ne hid s
  -- a count from the table is the number of mint entries
  have htable : ∀ {t : Session}, s.flush = some t →
      counted .totalMints id s.entries ≤ (pgGetRuneTotalMints id t.db).getD 0 ∧
        (pgGetRuneTotalMints id t.db).getD 0 ≤ accepted id := by
    intro t hflush
    rw [hrec.tables.table hflush, h.split]
    exact ⟨Nat.le_refl _, Nat.le_add_right _ _⟩
  cases hlook with
  | noEtching hnone => cases hreal.symm.trans hnone
  | hit hreal' hpeek =>
    cases Option.some.inj (hreal.symm.trans hreal')
    exact h.cached _ _ hpeek
  | unknown _ _ hflush hdb =>
    rw [← hdb]
    exact htable hflush
  | miss _ _ hflush hdb =>
    rw [← hdb]
    exact htable hflush

/-- The count that a mint consults lies between the mint entries of its rune and the accepted mints.
For the placeholder there is no count, and the rune that it stands for has not been minted. -/
theorem MintsCounted.consulted {total : Option Nat} {real : RuneId}
    (h : MintsCounted accepted cenotaphs s) (hrec : MintsRecorded c s)
    (hplace : s.AllRows fun id _ => id ≠ .placeholder) (hstep : c.step < 3)
    (hreal : s.realRuneId id = some real) (hlook : s.MintsLookup id total s') :
    counted .totalMints real s.entries ≤ total.getD 0 ∧ total.getD 0 ≤ accepted real := by
  by_cases hid : id = .placeholder
  · subst hid
    have hzero : counted .totalMints real s.entries = 0 := by
      obtain ⟨r, hr, rfl⟩ := Option.map_eq_some_iff.mp hreal
      exact counted_totalMints_eq_zero (hrec.fresh hstep r hr)
    have htable : ∀ {t : Session}, s.flush = some t →
        pgGetRuneTotalMints .placeholder t.db = none := by
      intro t hflush
      exact pgGetRuneTotalMints_placeholder
        (hplace.writes (.flush hflush) fun e he => absurd he List.not_mem_nil).stored
    rw [hzero]
    cases hlook with
    | noEtching hnone => cases hreal.symm.trans hnone
    | hit hreal' hpeek =>
      cases Option.some.inj (hreal.symm.trans hreal')
      exact ⟨Nat.zero_le _, (h.cached _ _ hpeek).2⟩
    | unknown => exact ⟨Nat.zero_le _, Nat.zero_le _⟩
    | miss _ _ hflush hdb => cases (htable hflush).symm.trans hdb
  · have hreal' := Session.realRuneId_of_ne hid s
    cases Option.some.inj (hreal.symm.trans hreal')
    exact h.found hrec hid hlook

/-- What is asked of the two mint functions of the transaction's cache: they write one entry about
the rune, or nothing. -/
structure MintFunction (op : DbLedgerOperation)
    (apply : TransactionCache → RuneId → Nat → DbRune → TransactionCache × Option DbLedgerEntry) :
    Prop where
  /-- A mint of a runestone or of a cenotaph. -/
  operation : op = .mint ∨ op = .burn
  /-- The entry says how much, of which rune. -/
  entry : ∀ tx id total rune entry, (apply tx id total rune).2 = some entry →
    ∃ amount, entry = tx.plainEntry (some amount) id op
  /-- Without an entry the cache stays. -/
  none : ∀ tx id total rune, (apply tx id total rune).2 = none → (apply tx id total rune).1 = tx

theorem mintFunction_applyMint : MintFunction .mint TransactionCache.applyMint where
  operation := Or.inl rfl
  entry := by
    intro tx id total rune entry h
    obtain ⟨-, heq⟩ | ⟨-, amount, -, heq⟩ := tx.applyMint_cases id total rune <;> rw [heq] at h
    · cases h
    · exact ⟨amount, (Option.some.inj h).symm⟩
  none := fun tx id => tx.applyMint_none id

theorem mintFunction_applyCenotaphMint : MintFunction .burn TransactionCache.applyCenotaphMint where
  operation := Or.inr rfl
  entry := by
    intro tx id total rune entry h
    obtain ⟨-, heq⟩ | ⟨-, amount, -, heq⟩ :=
      tx.applyCenotaphMint_cases id total rune <;> rw [heq] at h
    · cases h
    · exact ⟨amount, (Option.some.inj h).symm⟩
  none := fun tx id => tx.applyCenotaphMint_none id

/-- A lookup of a rune keeps the counts. -/
theorem MintsCounted.lookupRune {rune : Option DbRune} (h : MintsCounted accepted cenotaphs s)
    (hlook : s.RuneLookup id rune s') : MintsCounted accepted cenotaphs s' :=
  h.writes hlook.writes.entries_eq (fun _ he => absurd he List.not_mem_nil) fun _ _ hn =>
    Or.inl (hlook.totalMints_eq ▸ hn)

/-- What one more entry counts for a rune. -/
theorem counted_totalMints_concat (es : List DbLedgerEntry) (tx : TransactionCache)
    (amount : Option Nat) (i : RuneId) (op : DbLedgerOperation) :
    counted .totalMints i (es ++ [tx.plainEntry amount id op]) =
      counted .totalMints i es + if op = .mint ∧ i = id then 1 else 0 := by
  have hid : (tx.plainEntry amount id op).runeId = id := rfl
  have hop : (tx.plainEntry amount id op).operation = op := rfl
  rw [counted_append, counted, counted, tally_singleton, DbLedgerEntry.counts, hid, hop]
  by_cases hi : i = id
  · simp [hi]
  · simp [hi, Ne.symm hi]

/-- **An accepted mint counts once**: in the counts of its rune, and in the table if it is not a
cenotaph's. -/
theorem MintsCounted.bump {t v : Session} {op : DbLedgerOperation} {amount : Nat}
    {total : Option Nat} (hop : op = .mint ∨ op = .burn) (h : MintsCounted accepted cenotaphs t)
    (hrec : MintsRecorded c t) (hid : id ≠ .placeholder) (hlook : t.MintsLookup id total s)
    (hentries : v.entries = s.entries ++ [s.cache.txCache.plainEntry (some amount) id op])
    (hcache : v.cache.runeTotalMintsCache = s.cache.runeTotalMintsCache) :
    MintsCounted (fun r => accepted r + if r = id then 1 else 0)
      (fun r => cenotaphs r + if op = .burn ∧ r = id then 1 else 0) (v.bumpTotalMints id) := by
  have hs := h.lookup hrec hlook
  have hnew : ∀ i, counted .totalMints i (v.bumpTotalMints id).entries =
      counted .totalMints i s.entries + if op = .mint ∧ i = id then 1 else 0 := by
    intro i
    rw [show (v.bumpTotalMints id).entries = v.entries from rfl, hentries,
      counted_totalMints_concat]
  refine ⟨fun i => ?_, fun i n hn => ?_⟩
  · rw [hnew, hs.split]
    rcases hop with rfl | rfl <;> by_cases hi : i = id <;> simp [hi] <;> omega
  · rw [hnew]
    rcases Session.peek_bumpTotalMints hn with ⟨hi, hold⟩ | ⟨rfl, rfl⟩
    · rw [if_neg fun h => hi h.2, if_neg hi]
      exact hs.cached i n (hcache ▸ hold)
    · rw [hcache, if_pos rfl]
      have hone : (if op = .mint ∧ i = i then 1 else 0) ≤ 1 := by split <;> omega
      cases hpeek : s.cache.runeTotalMintsCache.peek i with
      | some m =>
        have := hs.cached i m hpeek
        rw [Option.getD_some]
        omega
      | none =>
        -- the count was not cached, so that the table has none, and the cache starts again at one
        have hzero : counted .totalMints i s.entries = 0 := by
          rw [entries_of_writes_nil hlook.writes]
          exact hrec.tables.not_cached hid hlook hpeek
        rw [hzero, Option.getD_none]
        omega

/-- A mint, accepted or not. -/
theorem MintsCounted.mint {op : DbLedgerOperation}
    {apply : TransactionCache → RuneId → Nat → DbRune → TransactionCache × Option DbLedgerEntry}
    {recorded : List DbRune} (hfun : MintFunction op apply) (h : MintsCounted accepted cenotaphs s)
    (hrec : MintsRecorded c s) (hknown : RunesKnown c recorded s) (hopen : c.isOpen = true)
    (hblock : c.tx.block = c.height) (hsafe : id = .placeholder → s.acceptsMint id = false)
    (hout : s.MintOutcome apply id s') :
    MintsRecorded { c with step := 3 } s' ∧
      MintsCounted (fun r => accepted r + if s.acceptsMintOf r id then 1 else 0)
        (fun r => cenotaphs r + if op = .burn ∧ s.acceptsMintOf r id then 1 else 0) s' := by
  have hstep : ∀ {t : Session}, MintsRecorded c t → MintsRecorded { c with step := 3 } t :=
    fun ht => ⟨ht.tables, ht.closed, ht.minted, fun hlt => absurd hlt (Nat.lt_irrefl 3)⟩
  cases hout with
  | unknown haccepts hrune =>
    simp only [Session.acceptsMintOf, haccepts, Bool.false_and, Bool.false_eq_true,
      and_false, if_false, Nat.add_zero]
    exact ⟨hstep (hrec.lookup hopen hrune.writes hrune.txCache_eq), h.lookupRune hrune⟩
  | @refused t u rune total haccepts hrune htotal hnone =>
    simp only [Session.acceptsMintOf, haccepts, Bool.false_and, Bool.false_eq_true,
      and_false, if_false, Nat.add_zero]
    have hsame : u.setTxCache (apply u.cache.txCache id (total.getD 0) rune).1 = u := by
      rw [hfun.none _ _ _ _ hnone]
      rfl
    rw [hsame]
    have ht := hrec.lookup hopen hrune.writes hrune.txCache_eq
    exact ⟨hstep (ht.lookup hopen htotal.writes htotal.txCache_eq),
      (h.lookupRune hrune).lookup ht htotal⟩
  | @accepted t u v rune total entry haccepts hrune htotal hmint hsome hadd =>
    -- the placeholder is excluded, so the counter belongs to the minted rune itself
    have hid : id ≠ .placeholder := by
      intro heq
      rw [hsafe heq] at haccepts
      cases haccepts
    have hreal := Session.realRuneId_of_ne hid s
    have hof : ∀ r, s.acceptsMintOf r id = decide (r = id) := by
      intro r
      rw [Session.acceptsMintOf, haccepts, hreal, Bool.true_and]
      exact decide_eq_decide.mpr ⟨fun h => (Option.some.inj h).symm, fun h => h ▸ rfl⟩
    -- from here the mint counts for the rune of its id only
    simp only [hof, decide_eq_true_eq]
    have ht := hrec.lookup hopen hrune.writes hrune.txCache_eq
    have hu := ht.lookup hopen htotal.writes htotal.txCache_eq
    obtain ⟨amount, rfl⟩ := hfun.entry _ _ _ _ _ hsome
    obtain ⟨hv, -⟩ := Session.writes_add hadd
    have hwrites :
        u.Writes [u.cache.txCache.plainEntry (some amount) id op] [] (v.bumpTotalMints id) :=
      hv.trans_nil (.quiet (.setRuneTotalMintsCache v _))
    have hcache : v.cache.runeTotalMintsCache = u.cache.runeTotalMintsCache := by
      obtain ⟨-, rfl⟩ := Session.addLedgerEntriesToDbCache_eq_some.mp hadd
      rfl
    -- the tables, the counter and the entry follow from what the two lookups kept
    refine ⟨?_, (h.lookupRune hrune).bump hfun.operation ht hid htotal hv.entries_eq hcache⟩
    obtain ⟨hknownt, hrunes⟩ := hknown.lookup hrune
    obtain ⟨hruneof, hruneid⟩ := hrunes rune rfl
    rw [if_neg hid] at hruneid
    have hknownu := hknownt.lookupMints htotal
    have hheight : u.cache.txCache.location.blockHeight = c.height := by
      rw [← hblock, ← hknownu.location]
      rfl
    refine ⟨hu.tables.writes hwrites ?_ (suppliesFit_totalMints _), ?_, ?_, ?_⟩
    · intro e he
      rw [List.mem_singleton.mp he]
      exact hheight
    · exact fun hclosed => absurd (hopen.symm.trans hclosed) (by decide)
    · rw [hwrites.entries_eq]
      intro e he hop
      rcases List.mem_append.mp he with he | he
      · exact hu.minted e he hop
      · rw [List.mem_singleton.mp he]
        have hmintable := hknownu.mintable hruneof hmint
        rw [hruneid] at hmintable
        exact hmintable
    · exact fun hlt => absurd hlt (Nat.lt_irrefl 3)

end

end Runehook
