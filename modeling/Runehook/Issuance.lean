import Runehook.Backing
import Runehook.MintRuns

/-! # Issuance

A rune is issued by its premine and by its mints. The decoder promises that the premine and as many
mints as the cap allows fit in a `u128` (`Etching.supply`), and reads a missing cap as zero; the
mint rule reads it as no cap at all. Where every mint that is accepted of a rune has a cap, or mints
nothing (`Etching.Capped`), what is issued stays within the declared supply, and no sum of its
amounts wraps around (`SumsExact`). The invariant is `Issued`, kept by `Issued.stage`, and the
result is `issued_le_supply`. -/

namespace Runehook

open Lib

/-! ## The declared supply -/

/-- `u128::checked_add`. -/
def u128CheckedAdd (a b : Nat) : Option Nat := if a + b < 2 ^ 128 then some (a + b) else none

/-- `u128::checked_mul`. -/
def u128CheckedMul (a b : Nat) : Option Nat := if a * b < 2 ^ 128 then some (a * b) else none

/-- The amount of one mint, zero if the terms have none. -/
def Etching.mintAmount (e : Etching) : Nat := (e.terms.bind Terms.amount).getD 0

/-- `Etching::supply`. -/
def Etching.supply (e : Etching) : Option Nat := do
  let premine := e.premine.getD 0
  let cap := (e.terms.bind Terms.cap).getD 0
  let mints ← u128CheckedMul cap e.mintAmount
  u128CheckedAdd premine mints

/-- The supply that an etching declares, exactly. -/
theorem Etching.supply_eq_some {e : Etching} {supply : Nat} (h : e.supply = some supply) :
    supply = e.premine.getD 0 + (e.terms.bind Terms.cap).getD 0 * e.mintAmount ∧
    supply < 2 ^ 128 := by
  obtain ⟨mints, hmints, h⟩ := Option.bind_eq_some_iff.mp h
  unfold u128CheckedMul at hmints
  unfold u128CheckedAdd at h
  split_ifs at hmints h with hmul hadd
  cases Option.some.inj hmints
  cases Option.some.inj h
  exact ⟨rfl, hadd⟩

/-- The mints of an etching have a cap, or they mint nothing. -/
def Etching.Capped (e : Etching) : Prop := (e.terms.bind Terms.cap).isSome ∨ e.mintAmount = 0

instance (e : Etching) : Decidable e.Capped := inferInstanceAs (Decidable (_ ∨ _))

/-! ## Exact sums -/

/-- What the change of a rune that waits to be inserted has minted is what the waiting entries
mint. -/
def MintedExact (r : RuneId) (s : Session) : Prop :=
  ((s.cache.dbCache.supplyChanges.lookup r).map DbSupplyChange.minted).getD 0 = minted r s.pending

/-- The additions of a `u128` to the amounts of a rune do not wrap around: the minted amount that
waits to be inserted, the sum that an edict splits, and what any move takes from the balances in
flight. -/
structure SumsExact (r : RuneId) (s : Session) : Prop where
  /-- The minted amount that waits to be inserted is exact. -/
  minted : MintedExact r s
  /-- So is the sum that an edict splits. -/
  unallocated : TransactionCache.unallocated (s.cache.txCache.available r) =
      totalAmount (s.cache.txCache.available r)
  /-- And a move takes and leaves what was there. -/
  sent : ∀ balances amount, totalAmount balances ≤ totalAmount (s.cache.txCache.available r) →
    (takeBalances amount balances 0 []).totalSent +
      totalAmount (takeBalances amount balances 0 []).balances = totalAmount balances

theorem SumsExact.of_lt {r : RuneId} {s : Session} (hminted : MintedExact r s)
    (h : totalAmount (s.cache.txCache.available r) < 2 ^ 128) : SumsExact r s where
  minted := hminted
  unallocated := TransactionCache.unallocated_eq h
  sent := by
    intro balances amount hle
    have hexact := @takeBalances_exact amount balances 0 [] (by omega)
    rw [hexact, Nat.zero_add]

theorem MintedExact.of_new {r : RuneId} {s : Session} (h : s.cache.dbCache = .new) :
    MintedExact r s := by
  rw [MintedExact, Session.pending, h]
  rfl

/-- The minted amount while entries are added one after the other. -/
theorem minted_foldl_count {r : RuneId} (es : List DbLedgerEntry) {dbCache : DbCache} {n : Nat}
    (hn : ((dbCache.supplyChanges.lookup r).map DbSupplyChange.minted).getD 0 = n)
    (hlt : n + minted r es < 2 ^ 128) :
    (((es.foldl DbCache.count dbCache).supplyChanges.lookup r).map DbSupplyChange.minted).getD 0 =
      n + minted r es := by
  induction es generalizing dbCache n with
  | nil => exact hn
  | cons e es ih =>
    rw [← List.singleton_append, minted_append, ← Nat.add_assoc] at hlt ⊢
    refine @ih (dbCache.count e) _ ?_ hlt
    -- an entry counts if it mints the rune
    have hone : minted r [e] = if e.runeId = r then e.counts .minted else 0 := by
      rw [minted, tally_singleton, DbLedgerEntry.counts]
      by_cases hop : e.operation = .mint <;> by_cases hid : e.runeId = r <;> simp [hop, hid]
    show (((countSupply dbCache.supplyChanges e).lookup r).map DbSupplyChange.minted).getD 0 = _
    rw [countSupply_eq_alter, HashMap.lookup_alter, hone]
    rw [hone] at hlt
    by_cases hid : r = e.runeId
    · rw [if_pos hid.symm] at hlt ⊢
      rw [if_pos hid, ← hn, hid]
      refine @counter_supplyStep e _ .minted fun _ => ?_
      show ((dbCache.supplyChanges.lookup e.runeId).map DbSupplyChange.minted).getD 0 + _ < _
      rw [← hid, hn]
      omega
    · rw [if_neg hid, if_neg (Ne.symm hid), hn, Nat.add_zero]

/-- Writing keeps the minted amount exact, whatever flushes there are in between. -/
theorem MintedExact.writes {r : RuneId} {s s' : Session} {es : List DbLedgerEntry}
    {rs : List DbRune} (hwrites : s.Writes es rs s') :
    MintedExact r s → minted r (s.pending ++ es) < 2 ^ 128 → MintedExact r s' := by
  induction hwrites with
  | quiet hq =>
    intro hs _
    unfold MintedExact Session.pending at *
    rwa [hq.dbCache]
  | flush hflush =>
    obtain ⟨db, -, rfl⟩ := Session.flush_eq_some.mp hflush
    exact fun _ _ => .of_new rfl
  | pushRune s rune => exact fun hs _ => hs
  | @add s s' es hadd =>
    intro hs hlt
    obtain ⟨-, rfl⟩ := Session.addLedgerEntriesToDbCache_eq_some.mp hadd
    rw [minted_append] at hlt
    rw [MintedExact, Session.pending, foldl_count_ledgerEntries, minted_append]
    exact minted_foldl_count es hs hlt
  | @trans s t u es es' rs rs' hst _ ih ih' =>
    intro hs hlt
    rw [← List.append_assoc, minted_append] at hlt
    refine ih' (ih hs (by omega)) ?_
    have hsub : minted r t.pending ≤ minted r (s.pending ++ es) := tally_sublist hst.pending_sublist
    rw [minted_append]
    omega

/-! ## The mints of one rune -/

theorem minted_eq_zero {r : RuneId} {es : List DbLedgerEntry}
    (h : ∀ e ∈ es, e.operation = .mint → e.runeId ≠ r) : minted r es = 0 :=
  tally_eq_zero _ _ fun e he => decide_eq_false fun hmint => h e he hmint.1 hmint.2

/-- Where no mint is counted, none is written. -/
theorem minted_eq_zero_of_counted {r : RuneId} {es : List DbLedgerEntry}
    (h : counted .totalMints r es = 0) :
    minted r es = 0 := by
  refine minted_eq_zero fun e he hop hid => ?_
  have hone :=
    le_tally (p := fun e : DbLedgerEntry => e.runeId = r) (f := DbLedgerEntry.counts .totalMints) he
      (decide_eq_true hid)
  rw [DbLedgerEntry.counts, if_pos hop] at hone
  have hzero :
      tally (fun e : DbLedgerEntry => e.runeId = r) (DbLedgerEntry.counts .totalMints) es = 0 := h
  omega

/-- The mint entries of a rune, with what its row says of them. -/
structure MintsOf (r : RuneId) (c : Cursor) (recorded : List DbRune) (mints : Nat)
    (s : Session) : Prop where
  /-- As many were recorded as were accepted. -/
  count : counted .totalMints r s.entries = mints
  /-- A cached count has all of them. -/
  cached : ∀ n, s.cache.runeTotalMintsCache.peek r = some n → mints ≤ n
  /-- A rune that was not etched was not minted. -/
  etched : r ∉ c.etched → mints = 0
  /-- Each is of the amount of the terms. -/
  amount : ∀ row ∈ recorded, row.id = r → minted r s.entries = mints * row.termsAmount.getD 0
  /-- They are no more than the terms allow. -/
  le_cap : ∀ row ∈ recorded, row.id = r → ∀ cap, row.termsCap = some cap → mints ≤ cap

namespace MintsOf

variable {r id : RuneId} {c c' : Cursor} {recorded : List DbRune} {mints height : Nat}
    {s s' : Session}

/-- Writing no mint of the rune, and caching no smaller count. -/
theorem keep {es : List DbLedgerEntry} (h : MintsOf r c recorded mints s)
    (hetched : c'.etched = c.etched) (hentries : s'.entries = s.entries ++ es)
    (hnone : ∀ e ∈ es, e.operation = .mint → e.runeId ≠ r)
    (hpeek : ∀ n, s'.cache.runeTotalMintsCache.peek r = some n →
        s.cache.runeTotalMintsCache.peek r = some n ∨ mints ≤ n) :
      MintsOf r c' recorded mints s' where
  count := by rw [hentries, counted_append, counted_totalMints_eq_zero hnone, h.count, Nat.add_zero]
  cached := by
    intro n hn
    rcases hpeek n hn with hold | hle
    · exact h.cached n hold
    · exact hle
  etched := by
    rw [hetched]
    exact h.etched
  amount := by
    rw [hentries, minted_append, minted_eq_zero hnone, Nat.add_zero]
    exact h.amount
  le_cap := h.le_cap

/-- Rows that are new: a rune that has just been etched has not been minted. -/
theorem record {rows : List DbRune} (h : MintsOf r c recorded mints s)
    (hetched : c'.etched = c.etched ++ rows.map DbRune.id)
    (hnew : ∀ row ∈ rows, row.id ∉ c.etched) :
    MintsOf r c' (recorded ++ rows) mints s := by
  -- a rune that has just been etched was not minted
  have hzero : ∀ row ∈ rows, row.id = r → mints = 0 := by
    rintro row hrow rfl
    exact h.etched (hnew row hrow)
  refine ⟨h.count, h.cached, fun hr => h.etched fun hold => ?_, fun row hrow hid => ?_,
    fun row hrow hid cap hcap => ?_⟩
  · exact hr (hetched ▸ List.mem_append_left _ hold)
  · rcases List.mem_append.mp hrow with hrow | hrow
    · exact h.amount row hrow hid
    · have hmints := hzero row hrow hid
      rw [minted_eq_zero_of_counted (h.count.trans hmints), hmints, Nat.zero_mul]
  · rcases List.mem_append.mp hrow with hrow | hrow
    · exact h.le_cap row hrow hid cap hcap
    · rw [hzero row hrow hid]
      exact Nat.zero_le _

/-- A lookup of a rune leaves the mints. -/
theorem lookup {rune : Option DbRune} (h : MintsOf r c recorded mints s)
    (hlook : s.RuneLookup id rune s') :
    MintsOf r c recorded mints s' :=
  h.keep rfl hlook.writes.entries_eq (fun _ he => absurd he List.not_mem_nil) fun _ hn =>
    Or.inl (hlook.totalMints_eq ▸ hn)

/-- A lookup of a count leaves the mints, and caches what the table has. -/
theorem lookupMints {total : Option Nat} (h : MintsOf r c recorded mints s)
    (htables : SupplyTables (· = .totalMints) height s) (hlook : s.MintsLookup id total s') :
    MintsOf r c recorded mints s' := by
  refine h.keep rfl hlook.writes.entries_eq (fun _ he => absurd he List.not_mem_nil) fun n hn => ?_
  rcases hlook.peek hn with hold | ⟨rfl, t, hflush, hdb⟩
  · exact Or.inl hold
  · have htable := htables.table hflush r
    rw [hdb, Option.getD_some, h.count] at htable
    exact Or.inr htable.ge

/-- The count that is found for the rune is not below the count of its entries. -/
theorem le_found {total : Option Nat} (h : MintsOf r c recorded mints s)
    (htables : SupplyTables (· = .totalMints) height s) (hr : r ≠ .placeholder)
    (hlook : s.MintsLookup r total s') : mints ≤ total.getD 0 := by
  have hreal := Session.realRuneId_of_ne hr s
  -- the table is flushed before it is read
  have htable : ∀ {t : Session}, s.flush = some t →
      mints ≤ (pgGetRuneTotalMints r t.db).getD 0 := by
    intro t hflush
    rw [htables.table hflush, h.count]
  cases hlook with
  | noEtching hnone => cases hreal.symm.trans hnone
  | hit hreal' hpeek =>
    cases Option.some.inj (hreal.symm.trans hreal')
    exact h.cached _ hpeek
  | unknown _ _ hflush hdb =>
    rw [← hdb]
    exact htable hflush
  | miss _ _ hflush hdb =>
    rw [← hdb]
    exact htable hflush

/-- After an accepted mint of the rune its count is greater than the count of the entries before. -/
theorem lt_bumped {t v : Session} {total : Option Nat} (h : MintsOf r c recorded mints t)
    (htables : SupplyTables (· = .totalMints) height t) (hr : r ≠ .placeholder)
    (hlook : t.MintsLookup r total s)
    (hcache : v.cache.runeTotalMintsCache = s.cache.runeTotalMintsCache) {n : Nat}
    (hn : (v.bumpTotalMints r).cache.runeTotalMintsCache.peek r = some n) : mints < n := by
  have hs := h.lookupMints htables hlook
  rcases Session.peek_bumpTotalMints hn with ⟨hne, -⟩ | ⟨-, rfl⟩
  · exact absurd rfl hne
  · rw [hcache]
    cases hpeek : s.cache.runeTotalMintsCache.peek r with
    | some m =>
      have := hs.cached m hpeek
      rw [Option.getD_some]
      omega
    | none =>
      -- the count was not cached, so that the table has none
      have hzero := htables.not_cached hr hlook hpeek
      rw [h.count] at hzero
      omega

/-- **One more mint** of the rune, of the amount and below the cap that its row states. -/
theorem mintRune {t u v : Session} {rune : DbRune} {total : Option Nat} {entry : DbLedgerEntry}
    (h : MintsOf r c recorded mints t) (hknown : RunesKnown c recorded s) (honce : c.etched.Nodup)
    (htables : SupplyTables (· = .totalMints) height t) (hr : r ≠ .placeholder)
    (hgoods : r ≠ uncommonGoods.id) (hrune : s.RuneLookup r (some rune) t)
    (htotal : t.MintsLookup r total u)
    (hmint : isRuneMintable rune (total.getD 0) u.cache.txCache.location)
    (hentries : v.entries = u.entries ++ [entry]) (hop : entry.operation = .mint)
    (hid : entry.runeId = r) (hamount : entry.amount = rune.termsAmount)
    (hcache : v.cache.runeTotalMintsCache = u.cache.runeTotalMintsCache) :
    MintsOf r c recorded (mints + 1) (v.bumpTotalMints r) := by
  have hu := h.lookupMints htables htotal
  have hfound := h.le_found htables hr htotal
  -- the rune that was found is the one that was recorded under its id
  obtain ⟨hof, hruneid⟩ := (hknown.lookup hrune).2 rune rfl
  rw [if_neg hr] at hruneid
  obtain ⟨row₀, hrow₀, heq⟩ := hof
  have hid₀ : row₀.id = r := by rw [← hruneid, heq]
  have hrow₀ : row₀ ∈ recorded := by
    rcases List.mem_cons.mp hrow₀ with rfl | hrow₀
    · exact absurd hid₀.symm hgoods
    · exact hrow₀
  have hnodup : (recorded.map DbRune.id).Nodup := hknown.ids.symm ▸ honce
  have hrow : ∀ row ∈ recorded, row.id = r → row = row₀ := fun row hrow hid =>
    List.inj_on_of_nodup_map hnodup hrow hrow₀ (hid.trans hid₀.symm)
  have hbumped : (v.bumpTotalMints r).entries = u.entries ++ [entry] := hentries
  have hone : counted .totalMints r [entry] = 1 := by
    rw [counted, tally_singleton, if_pos (decide_eq_true hid), DbLedgerEntry.counts, if_pos hop]
  have hvalue : minted r [entry] = rune.termsAmount.getD 0 := by
    rw [minted, tally_singleton, if_pos (decide_eq_true ⟨hop, hid⟩), DbLedgerEntry.value, hamount]
  refine ⟨?_, fun n hn => h.lt_bumped htables hr htotal hcache hn, fun hnot => ?_, ?_, ?_⟩
  · rw [hbumped, counted_append, hu.count, hone]
  · exact absurd (hknown.ids ▸ hid₀ ▸ List.mem_map_of_mem hrow₀) hnot
  · intro row hmem hrowid
    have hamounts : rune.termsAmount = row.termsAmount := by rw [hrow row hmem hrowid, heq]
    rw [hbumped, minted_append, hu.amount row hmem hrowid, hvalue, hamounts, Nat.add_one_mul]
  · intro row hmem hrowid cap hcap
    have hcap : rune.termsCap = some cap := by
      rw [← hcap, hrow row hmem hrowid, heq]
    have hlt := lt_cap_of_mintable hmint hcap
    omega

/-- A mint, of the rune or of another one, accepted or not. -/
theorem mint {op : DbLedgerOperation}
    {apply : TransactionCache → RuneId → Nat → DbRune → TransactionCache × Option DbLedgerEntry}
    (hfun : MintFunction op apply)
    (hamount : ∀ tx id total rune entry, (apply tx id total rune).2 = some entry →
      entry.amount = rune.termsAmount)
    (h : MintsOf r c recorded mints s) (hknown : RunesKnown c recorded s) (honce : c.etched.Nodup)
    (htables : SupplyTables (· = .totalMints) height s) (hr : r ≠ .placeholder)
    (hgoods : r ≠ uncommonGoods.id) (hout : s.MintOutcome apply id s') :
    MintsOf r c recorded (mints + if op = .mint ∧ id = r ∧
      s.acceptsMint id = true then 1 else 0) s' := by
  cases hout with
  | unknown haccepts hrune =>
    rw [if_neg (by simp [haccepts]), Nat.add_zero]
    exact h.lookup hrune
  | @refused t u rune total haccepts hrune htotal hnone =>
    rw [if_neg (by simp [haccepts]), Nat.add_zero, hfun.none _ _ _ _ hnone]
    have htablest :=
      htables.writes hrune.writes (fun _ he => absurd he List.not_mem_nil)
        (suppliesFit_totalMints _)
    exact (h.lookup hrune).lookupMints htablest htotal
  | @accepted t u v rune total entry haccepts hrune htotal hmint hsome hadd =>
    -- the two lookups keep what the sums and the counters say
    have htablest :=
      htables.writes hrune.writes (fun _ he => absurd he List.not_mem_nil)
        (suppliesFit_totalMints _)
    have ht := h.lookup hrune
    have hu := ht.lookupMints htablest htotal
    have hvalue := hamount _ _ _ _ _ hsome
    obtain ⟨amount, rfl⟩ := hfun.entry _ _ _ _ _ hsome
    obtain ⟨hv, -⟩ := Session.writes_add hadd
    have hcache : v.cache.runeTotalMintsCache = u.cache.runeTotalMintsCache := by
      obtain ⟨-, rfl⟩ := Session.addLedgerEntriesToDbCache_eq_some.mp hadd
      rfl
    have hbumped : (v.bumpTotalMints id).entries =
        u.entries ++ [u.cache.txCache.plainEntry (some amount) id op] :=
      hv.entries_eq
    by_cases hid : id = r
    · subst hid
      rcases hfun.operation with rfl | rfl
      · rw [if_pos ⟨rfl, rfl, haccepts⟩]
        exact ht.mintRune hknown honce htablest hr hgoods hrune htotal hmint hv.entries_eq
          rfl rfl hvalue hcache
      · -- the mint of a cenotaph is counted in the cache only
        rw [if_neg (by simp), Nat.add_zero]
        refine hu.keep rfl hbumped (fun e he hop => ?_) fun n hn => Or.inr ?_
        · rw [List.mem_singleton.mp he] at hop
          cases hop
        · exact (ht.lt_bumped htablest hr htotal hcache hn).le
    -- the mint of another rune adds nothing to the counter of this one
    · rw [if_neg (by simp [hid]), Nat.add_zero]
      refine hu.keep rfl hbumped (fun e he _ => ?_) fun n hn => ?_
      · rw [List.mem_singleton.mp he]
        exact hid
      · rcases Session.peek_bumpTotalMints hn with ⟨-, hold⟩ | ⟨heq, -⟩
        · exact Or.inl (hcache ▸ hold)
        · exact absurd heq.symm hid

end MintsOf

theorem TransactionCache.applyMint_amount (tx : TransactionCache) (id : RuneId) (total : Nat)
    (rune : DbRune) (entry : DbLedgerEntry) (h : (tx.applyMint id total rune).2 = some entry) :
    entry.amount = rune.termsAmount := by
  obtain ⟨-, heq⟩ | ⟨-, amount, hamount, heq⟩ := tx.applyMint_cases id total rune <;> rw [heq] at h
  · cases h
  · rw [hamount, ← Option.some.inj h]
    rfl

theorem TransactionCache.applyCenotaphMint_amount (tx : TransactionCache)
    (id : RuneId) (total : Nat) (rune : DbRune) (entry : DbLedgerEntry)
    (h : (tx.applyCenotaphMint id total rune).2 = some entry) :
    entry.amount = rune.termsAmount := by
  obtain ⟨-, heq⟩ | ⟨-, amount, hamount, heq⟩ :=
    tx.applyCenotaphMint_cases id total rune <;> rw [heq] at h
  · cases h
  · rw [hamount, ← Option.some.inj h]
    rfl

/-! ## Stages -/

/-- In a state, the stage mints the rune, not in a cenotaph, and the mint is accepted. -/
def Stage.issues (r : RuneId) (s : Session) : Stage → Bool
  | .call _ (.mint id) => id = r && s.acceptsMint id
  | _ => false

/-- What the rows of a rune premine. -/
def preminedOf (r : RuneId) (recorded : List DbRune) : Nat :=
  tally (fun row => row.id = r) DbRune.premine recorded

theorem preminedOf_append (r : RuneId) (recorded new : List DbRune) :
    preminedOf r (recorded ++ new) = preminedOf r recorded + preminedOf r new :=
  tally_append _ _ recorded new

/-- Rows of other runes premine nothing of the rune. -/
theorem preminedOf_eq_zero {r : RuneId} {recorded : List DbRune} (h : r ∉ recorded.map DbRune.id) :
    preminedOf r recorded = 0 :=
  tally_eq_zero _ _ fun _ hrow => decide_eq_false fun hid => h (hid ▸ List.mem_map_of_mem hrow)

/-- A rune that has one row premines what it says. -/
theorem preminedOf_of_mem {recorded : List DbRune} {row : DbRune}
    (hnodup : (recorded.map DbRune.id).Nodup) (hrow : row ∈ recorded) :
    preminedOf row.id recorded = row.premine := by
  obtain ⟨l, l', rfl⟩ := List.append_of_mem hrow
  rw [← List.singleton_append, List.map_append, List.map_append, List.map_singleton,
    List.nodup_append, List.singleton_append, List.nodup_cons] at hnodup
  have hleft : row.id ∉ l.map DbRune.id := fun h => hnodup.2.2 _ h _ List.mem_cons_self rfl
  rw [← List.singleton_append, preminedOf_append, preminedOf_append, preminedOf_eq_zero hleft,
    preminedOf_eq_zero hnodup.2.1.1, preminedOf, tally_singleton,
    if_pos (decide_eq_true rfl), Nat.zero_add, Nat.add_zero]

/-- A stage premines what its row says. -/
theorem Stage.premine_eq (s : Session) (r : RuneId) (stage : Stage) :
    stage.premine s r = preminedOf r (stage.etchedRune s).toList := by
  cases stage with
  | call block a =>
    cases a with
    | etching e =>
      show _ = preminedOf r [DbRune.fromEtching e s.cache.nextRuneNumber s.cache.txCache.location]
      rw [preminedOf, tally_singleton]
      simp only [decide_eq_true_eq]
      rfl
    | cenotaphEtching rune =>
      show 0 =
          preminedOf r [DbRune.fromCenotaphEtching rune s.cache.nextRuneNumber
            s.cache.txCache.location]
      rw [preminedOf, tally_singleton]
      split <;> rfl
    | _ => rfl
  | _ => rfl

/-- What is followed of a rune along a run. -/
structure Issued (r : RuneId) (c : Cursor) (recorded : List DbRune) (mints : Nat)
    (spent : List (String × Nat)) (s : Session) : Prop where
  /-- The runes that can be looked up were etched in the run. -/
  known : RunesKnown c recorded s
  /-- No id was etched twice. -/
  once : c.etched.Nodup
  /-- Between blocks nothing waits in memory. -/
  closed : c.isOpen = false → s.cache.dbCache = .new
  /-- `supply_changes` counts the mints. -/
  tables : SupplyTables (· = .totalMints) c.height s
  /-- The mints are within the terms. -/
  mints : MintsOf r c recorded mints s
  /-- The supply covers what is unspent and in flight. -/
  backed : Backed r c (preminedOf r recorded) spent s
  /-- What waits is exact as long as the minted amount is a `u128`. -/
  pending : minted r s.entries < 2 ^ 128 → MintedExact r s

section

variable {env : Environment} {r : RuneId} {c : Cursor} {recorded : List DbRune} {mints : Nat}
  {spent : List (String × Nat)} {s s' : Session}

/-- No id is etched twice. -/
theorem Stage.Fits.nodup_next {stage : Stage} (h : stage.Fits c) (honce : c.etched.Nodup) :
    (c.next stage).etched.Nodup := by
  rw [c.etched_next stage]
  split
  · rename_i hetch
    exact List.nodup_append.mpr ⟨honce, List.nodup_singleton _, fun id hid id' hid' heq =>
      (h.etching hetch).1 (List.mem_singleton.mp hid' ▸ heq ▸ hid)⟩
  · exact honce

/-- What a call writes: entries of the open block, and mints only if it mints. -/
theorem RunesKnown.writes_call {block : Block} {a : Action} (h : RunesKnown c recorded s)
    (hfits : (Stage.call block a).Fits c) (hrun : a.run env block s = some s') :
    ∃ es rs, s.Writes es rs s' ∧ (∀ e ∈ es, e.blockHeight = c.height) ∧
      (a.step ≠ 3 → ∀ e ∈ es, e.operation ≠ .mint) := by
  by_cases hbegin : ∃ tx, a = .beginTransaction tx
  · obtain ⟨tx, rfl⟩ := hbegin
    exact ⟨[], [], .quiet (beginTransaction_quiet hrun), fun e he => absurd he List.not_mem_nil,
      fun _ e he => absurd he List.not_mem_nil⟩
  · have hne : ∀ tx, a ≠ .beginTransaction tx := fun tx heq => hbegin ⟨tx, heq⟩
    obtain ⟨es, rs, hwrites, hstep⟩ := Action.run_step hne hrun
    refine ⟨es, rs, hwrites, fun e he => ?_, fun ha => hstep.operation_ne_mint ha⟩
    rw [(hstep.at_location e he).blockHeight, hfits.2.1, ← (hfits.2.2.2 hne).1, ← h.location]
    rfl

/-- A call of `index_block` keeps the mints of a rune in view. -/
theorem MintsOf.call {block : Block} {a : Action} (h : MintsOf r c recorded mints s)
    (hknown : RunesKnown c recorded s) (honce : c.etched.Nodup)
    (htables : SupplyTables (· = .totalMints) c.height s)
    (hrecord : MintsOf r (c.call block a) (recorded ++ (a.etchedRune s).toList) mints s)
    (hr : r ≠ .placeholder) (hgoods : r ≠ uncommonGoods.id) (hfits : (Stage.call block a).Fits c)
    (hrun : a.run env block s = some s') :
    MintsOf r (c.call block a) (recorded ++ (a.etchedRune s).toList)
      (mints + if (Stage.call block a).issues r s then 1 else 0) s' := by
  by_cases ha : a.step = 3
  · cases a with
    | mint id =>
      have hmint :=
        h.mint mintFunction_applyMint TransactionCache.applyMint_amount hknown honce
          htables hr hgoods
        (Session.applyMint_cases hrun)
      -- the stage issues for the rune exactly if its own mint is accepted
      have hissues : (Stage.call block (.mint id)).issues r s = true ↔
          id = r ∧ s.acceptsMint id = true := by
        simp [Stage.issues]
      simp only [true_and, ← hissues] at hmint
      show MintsOf _ _ (recorded ++ []) _ _
      rw [List.append_nil]
      exact ⟨hmint.count, hmint.cached, hmint.etched, hmint.amount, hmint.le_cap⟩
    | cenotaphMint id =>
      have hmint :=
        h.mint mintFunction_applyCenotaphMint TransactionCache.applyCenotaphMint_amount hknown honce
          htables hr hgoods (Session.applyCenotaphMint_cases hrun)
      -- the mint of a cenotaph issues nothing
      rw [if_neg (by simp)] at hmint
      show MintsOf _ _ (recorded ++ []) mints _
      rw [List.append_nil]
      exact ⟨hmint.count, hmint.cached, hmint.etched, hmint.amount, hmint.le_cap⟩
    | _ => cases ha
  · obtain ⟨es, rs, hwrites, -, hnone⟩ := hknown.writes_call hfits hrun
    have hissues : (Stage.call block a).issues r s = false := by
      cases a <;> first | rfl | exact absurd rfl ha
    rw [hissues, if_neg Bool.false_ne_true, Nat.add_zero]
    refine hrecord.keep rfl hwrites.entries_eq (fun e he hop => absurd hop (hnone ha e he))
      fun n hn => Or.inl ?_
    rwa [Action.totalMints_eq ha hrun] at hn

namespace Issued

/-- Nothing is issued before a run. -/
theorem start {network : Network} {cap : Nat} {hcap : 0 < cap}
    (hstart : freshSession network cap hcap = some s) :
    Issued r .start [] 0 [] s := by
  obtain ⟨hempty, hdb⟩ := freshSession_eq_some hstart
  have htracked := MintsTracked.start hstart
  have hentries : s.entries = [] := by
    rw [Session.entries, hempty.dbCache, hdb]
    rfl
  refine ⟨htracked.known, List.nodup_nil, htracked.recorded.closed, htracked.recorded.tables, ?_,
    .of_empty hempty hentries, fun _ => .of_new hempty.dbCache⟩
  refine ⟨by rw [hentries]; rfl, fun n _ => Nat.zero_le n, fun _ => rfl, ?_, ?_⟩
  · exact fun row hrow => absurd hrow List.not_mem_nil
  · exact fun row hrow => absurd hrow List.not_mem_nil

/-- **Every stage keeps a rune in view.** -/
theorem stage {stage : Stage} (h : Issued r c recorded mints spent s) (hr : r ≠ .placeholder)
    (hgoods : r ≠ uncommonGoods.id) (hfits : stage.Fits c) (hnd : (spent ++ stage.spends).Nodup)
    (hrun : stage.run env s = some s') :
    Issued r (c.next stage) (recorded ++ (stage.etchedRune s).toList)
      (mints + if stage.issues r s then 1 else 0) (spent ++ stage.spends) s' := by
  have hknown := stage.runesKnown_etched h.known hfits hrun
  have honce := hfits.nodup_next h.once
  -- the ids of the recorded rows are those etched so far, with the one of this stage
  have hetched : (c.next stage).etched = c.etched ++ (stage.etchedRune s).toList.map DbRune.id := by
    rw [← hknown.ids, List.map_append, h.known.ids]
  have hrecord : MintsOf r (c.next stage) (recorded ++ (stage.etchedRune s).toList) mints s := by
    refine h.mints.record hetched fun row hrow hold => ?_
    rw [hetched, List.nodup_append] at honce
    exact honce.2.2 _ hold _ (List.mem_map_of_mem hrow) rfl
  have hbacked := h.backed.stage h.closed hfits hnd hrun
  rw [stage.premine_eq, ← preminedOf_append] at hbacked
  -- what is left are the tables, the mints and the waiting sum
  suffices hrest : ((c.next stage).isOpen = false → s'.cache.dbCache = .new) ∧
      SupplyTables (· = .totalMints) (c.next stage).height s' ∧
      MintsOf r (c.next stage) (recorded ++ (stage.etchedRune s).toList)
        (mints + if stage.issues r s then 1 else 0) s' ∧
      (minted r s'.entries < 2 ^ 128 → MintedExact r s') from
    ⟨hknown, honce, hrest.1, hrest.2.1, hrest.2.2.1, hbacked, hrest.2.2.2⟩
  cases stage with
  | openBlock block =>
    obtain ⟨number, rfl, -⟩ := resetMaxRuneNumber_eq_some hrun
    refine ⟨fun hopen => Bool.noConfusion hopen, h.tables.openBlock (h.closed hfits.1) hfits.2 _,
      ?_, h.pending⟩
    exact hrecord.keep rfl (List.append_nil _).symm (fun _ he => absurd he List.not_mem_nil)
      fun _ hn => Or.inl hn
  | call block a =>
    have hrun : a.run env block s = some s' := hrun
    have hsame : (c.call block a).isOpen = c.isOpen ∧ (c.call block a).height = c.height := by
      cases a <;> exact ⟨rfl, rfl⟩
    obtain ⟨es, rs, hwrites, hheight, -⟩ := h.known.writes_call hfits hrun
    refine ⟨fun hclosed => ?_, ?_,
      h.mints.call h.known h.once h.tables hrecord hr hgoods hfits hrun, fun hlt => ?_⟩
    · cases (hsame.1.trans hfits.1).symm.trans hclosed
    · show SupplyTables _ (c.call block a).height s'
      rw [hsame.2]
      exact h.tables.writes hwrites hheight (suppliesFit_totalMints _)
    · rw [hwrites.entries_eq, Session.entries, minted_append, minted_append] at hlt
      -- the minted sum before the call is no larger, so it was exact
      have hbefore := h.pending (by rw [Session.entries, minted_append]; omega)
      refine hbefore.writes hwrites ?_
      rw [Session.pending, minted_append]
      omega
  | closeBlock block =>
    have hflush : (closing env block s).flush = some s' := hrun
    have hentries : s'.entries = (closing env block s).entries :=
      entries_of_writes_nil (.flush hflush)
    have htables := h.tables.closeBlock hflush
    obtain ⟨db, -, rfl⟩ := Session.flush_eq_some.mp hflush
    refine ⟨fun _ => rfl, htables, ?_, fun _ => .of_new rfl⟩
    exact hrecord.keep rfl (hentries.trans (List.append_nil _).symm)
      (fun _ he => absurd he List.not_mem_nil) fun _ hn => Or.inl hn
  | rollBack height => exact hfits.elim
  | restart cap hcap =>
    obtain ⟨cache, hcache, rfl⟩ := restart_eq_some hrun
    have hempty := IndexCache.new_empty hcache
    have hentries := entries_restart (h.closed hfits) hempty.dbCache
    refine ⟨fun _ => hempty.dbCache, h.tables.restart hempty.dbCache, ?_,
      fun _ => .of_new hempty.dbCache⟩
    refine hrecord.keep rfl (hentries.trans (List.append_nil _).symm)
      (fun _ he => absurd he List.not_mem_nil) ?_
    -- a fresh cache holds no counter
    intro n hn
    cases (hempty.totalMints r).symm.trans hn

/-- **A run keeps a rune in view**, from any state that does. -/
theorem run {l : List Stage} (h : Issued r c recorded mints spent s) (hr : r ≠ .placeholder)
    (hgoods : r ≠ uncommonGoods.id) (hfollows : Follows c l)
    (hnd : (spent ++ l.flatMap Stage.spends).Nodup) (hrun : runStages env l s = some s') :
    ∃ new, Issued r (l.foldl Cursor.next c) (recorded ++ new)
      (mints + countStages env (Stage.issues r) l s) (spent ++ l.flatMap Stage.spends) s' := by
  induction l generalizing c recorded mints spent s with
  | nil =>
    cases Option.some.inj hrun
    refine ⟨[], ?_⟩
    rw [List.append_nil, List.flatMap_nil, List.append_nil]
    exact h
  | cons stage l ih =>
    obtain ⟨t, hstep, hrest⟩ := foldlM_cons_eq_some.mp hrun
    rw [List.flatMap_cons, ← List.append_assoc] at hnd ⊢
    -- the first stage, then the rest from where it ends
    have ht := h.stage hr hgoods hfollows.1 (hnd.sublist (List.sublist_append_left _ _)) hstep
    obtain ⟨new, hnew⟩ := ih ht hfollows.2 hnd hrest
    refine ⟨(stage.etchedRune s).toList ++ new, ?_⟩
    rw [countStages, hstep, Option.map_some, Option.getD_some, ← Nat.add_assoc, ← List.append_assoc]
    exact hnew

end Issued

/-- What a run that goes on after an etching has issued of its rune: the premine, and as many mints
as it accepted, of the amount and up to the cap of the terms. -/
theorem issued_after_etching {before after : List Stage} {block : Block} {e : Etching}
    {s₀ t : Session} {network : Network} {cap : Nat} {hcap : 0 < cap}
    (hstart : freshSession network cap hcap = some s₀)
    (hfollows : Follows .start (before ++ .call block (.etching e) :: after))
    (hnd : ((before ++ .call block (.etching e) :: after).flatMap Stage.spends).Nodup)
    (hbefore : runStages env before s₀ = some t)
    (hrun : runStages env (before ++ .call block (.etching e) :: after) s₀ = some s)
    (hloc : t.cache.txCache.location.runeId = r) (hr : r ≠ .placeholder)
    (hgoods : r ≠ uncommonGoods.id) :
    let mints := countStages env (Stage.issues r) (before ++ .call block (.etching e) :: after) s₀
    (∃ c spent, Backed r c (e.premine.getD 0) spent s) ∧ minted r s.entries = mints * e.mintAmount ∧
      (∀ termsCap, e.terms.bind Terms.cap = some termsCap → mints ≤ termsCap) ∧
      (minted r s.entries < 2 ^ 128 → MintedExact r s) := by
  intro mints
  obtain ⟨t', ht', hrest⟩ := foldlM_append_eq_some.mp hrun
  cases Option.some.inj (hbefore.symm.trans ht')
  obtain ⟨u, hetch, hafter⟩ := foldlM_cons_eq_some.mp hrest
  obtain ⟨hfollows₁, hfits, hfollows₂⟩ := follows_append.mp hfollows
  have hspends : (before ++ .call block (.etching e) :: after).flatMap Stage.spends =
      before.flatMap Stage.spends ++ after.flatMap Stage.spends := by
    rw [List.flatMap_append, List.flatMap_cons]
    rfl
  rw [hspends] at hnd
  have hnd₁ : ([] ++ before.flatMap Stage.spends).Nodup :=
    hnd.sublist (List.sublist_append_left _ _)
  obtain ⟨old, ht⟩ := (Issued.start (r := r) hstart).run hr hgoods hfollows₁ hnd₁ hbefore
  have hnd₂ :
      ([] ++ before.flatMap Stage.spends ++ (Stage.call block (.etching e)).spends).Nodup := by
    show ([] ++ before.flatMap Stage.spends ++ []).Nodup
    rwa [List.append_nil]
  have hu := ht.stage hr hgoods hfits hnd₂ hetch
  have hnd₃ : ([] ++ before.flatMap Stage.spends ++ (Stage.call block (.etching e)).spends ++
      after.flatMap Stage.spends).Nodup := by
    show ([] ++ before.flatMap Stage.spends ++ [] ++ after.flatMap Stage.spends).Nodup
    rwa [List.append_nil, List.nil_append]
  obtain ⟨new, hs⟩ := hu.run hr hgoods hfollows₂ hnd₃ hafter
  -- the row of the etching is the only one of its rune
  let row := DbRune.fromEtching e t.cache.nextRuneNumber t.cache.txCache.location
  have hs :
    Issued r
    (after.foldl Cursor.next ((before.foldl Cursor.next .start).next (.call block (.etching e))))
    ([] ++ old ++ [row] ++ new) _ _ s := hs
  have hmem : row ∈ [] ++ old ++ [row] ++ new :=
    List.mem_append_left _ (List.mem_append_right _ List.mem_cons_self)
  have hid : row.id = r := hloc
  have honce : (([] ++ old ++ [row] ++ new).map DbRune.id).Nodup := hs.known.ids.symm ▸ hs.once
  have hpremined : preminedOf r ([] ++ old ++ [row] ++ new) = e.premine.getD 0 :=
    hid ▸ preminedOf_of_mem honce hmem
  have hmints : 0 + countStages env (Stage.issues r) before s₀ +
      (if (Stage.call block (.etching e)).issues r t then 1 else 0) +
        countStages env (Stage.issues r) after u = mints := by
    show _ = countStages env (Stage.issues r) (before ++ .call block (.etching e) :: after) s₀
    rw [countStages_append hbefore, countStages, hetch, Option.map_some,
      Option.getD_some, Nat.zero_add, Nat.add_assoc]
  have hissued := hs.mints
  rw [hmints] at hissued
  exact ⟨⟨_, _, hpremined ▸ hs.backed⟩, hissued.amount row hmem hid,
    hissued.le_cap row hmem hid, hs.pending⟩

end

/-- **Issuance stays within the declared supply**, at every moment of a run without rollbacks,
exactly where every mint that is accepted of the rune is of an etching that caps its mints, or mints
nothing. Then no sum of the amounts of the rune wraps around either. -/
theorem issued_le_supply {env : Environment} {network : Network} {cap : Nat} {hcap : 0 < cap}
    {events : List Event} {before after rest : List Stage} {block : Block} {e : Etching}
    {supply : Nat} {r : RuneId} {s₀ t s : Session}
    (hsplit : stages env events = (before ++ .call block (.etching e) :: after) ++ rest)
    (hforward : ∀ e ∈ events, e.Forward) (hblocks : Increasing (indexedBlocks events))
    (hspends : (spends (indexedBlocks events)).Nodup)
    (hstart : freshSession network cap hcap = some s₀) (hbefore : runStages env before s₀ = some t)
    (hrun : runStages env (before ++ .call block (.etching e) :: after) s₀ = some s)
    (hsupply : e.supply = some supply) (hrune : t.cache.txCache.location.runeId = r)
    (hr : r ≠ .placeholder) (hgoods : r ≠ uncommonGoods.id) :
    (e.premine.getD 0 + minted r s.entries ≤ supply ∧ SumsExact r s) ↔
      EveryStage env (fun u stage => stage.issues r u = true → e.Capped)
        (before ++ .call block (.etching e) :: after) s₀ := by
  have hfollows := stages_follow env hforward hblocks
  rw [hsplit] at hfollows
  -- no output is spent twice up to the moment of the statement either
  have hnd : ((before ++ .call block (.etching e) :: after).flatMap Stage.spends).Nodup := by
    rw [← stages_spends env, hsplit, List.flatMap_append] at hspends
    exact hspends.sublist (List.sublist_append_left _ _)
  obtain ⟨⟨c, spent, hbacked⟩, hamount, hle, hexact⟩ :=
    issued_after_etching hstart (follows_append.mp hfollows).1 hnd hbefore hrun hrune hr hgoods
  generalize hmints : countStages env (Stage.issues r) (before ++
    .call block (.etching e) :: after) s₀ = mints at hamount hle
  obtain ⟨rfl, hlt⟩ := Etching.supply_eq_some hsupply
  constructor
  · rintro ⟨hbound, -⟩
    by_cases hcapped : e.Capped
    · exact fun _ _ _ _ _ _ _ => hcapped
    · -- without a cap the declared supply is the premine, so that nothing was minted
      obtain ⟨hnocap, hpos⟩ := not_or.mp hcapped
      rw [Option.not_isSome_iff_eq_none.mp hnocap, Option.getD_none, Nat.zero_mul] at hbound
      have hzero : mints * e.mintAmount = 0 := by omega
      have hmints₀ := hmints.trans ((Nat.mul_eq_zero.mp hzero).resolve_right hpos)
      intro done stage later u hdone hu hissues
      cases (countStages_eq_zero.mp hmints₀ done stage later u hdone hu).symm.trans hissues
  · intro hevery
    -- the cap bounds the accepted mints, and without one nothing may have been minted
    have hwithin : mints * e.mintAmount ≤ (e.terms.bind Terms.cap).getD 0 * e.mintAmount := by
      by_cases hcapped : e.Capped
      · rcases hcapped with hcap | hzero
        · obtain ⟨termsCap, htermsCap⟩ := Option.isSome_iff_exists.mp hcap
          rw [htermsCap, Option.getD_some]
          exact Nat.mul_le_mul_right _ (hle termsCap htermsCap)
        · rw [hzero, Nat.mul_zero]
          exact Nat.zero_le _
      · have hnone : mints = 0 := by
          rw [← hmints, countStages_eq_zero]
          intro done stage later u hdone hu
          exact Bool.eq_false_iff.mpr fun hissues => hcapped
            (hevery done stage later u hdone hu hissues)
        rw [hnone, Nat.zero_mul]
        exact Nat.zero_le _
    -- from here the sums follow from the amounts of the terms
    rw [← hamount] at hwithin
    have havailable := hbacked.available_le
    exact ⟨by omega, .of_lt (hexact (by omega)) (by omega)⟩

/-- An etching with nothing but terms. -/
def termsEtching (terms : Terms) : Etching := ⟨none, none, none, none, none, some terms, false⟩

/-- The script `[0x6a, 0]` etches a rune with these terms, any other `OP_RETURN` output mints it. -/
def termsEnv (terms : Terms) : Environment := .plain fun script =>
  if script = [0x6a, 0] then some (.runestone ⟨[], some (termsEtching terms), none, none⟩)
  else some (.runestone ⟨[], none, some ⟨840001, 1⟩, none⟩)

/-- Terms by which every mint is of half of what a `u128` can count. -/
def halfTerms (cap : Option Nat) : Terms := ⟨some (2 ^ 127), cap, (none, none), (none, none)⟩

/-- The block of the etching. -/
def halfBlock : Block := ⟨"0xb1", 840001, 1700000000, [⟨"0xetch", 1, [], [[1], [0x6a, 0]]⟩]⟩

/-- A rune is etched, and two transactions of the next block mint it. -/
def mintHalves : List Event :=
  [.index halfBlock, .index ⟨"0xb2", 840002, 1700000000,
    [⟨"0xmint", 1, [], [[1], [0x6a]]⟩, ⟨"0xmint2", 2, [], [[1], [0x6a]]⟩]⟩]

/-- The stages of `mintHalves` before the etching. -/
def beforeHalves (terms : Terms) : List Stage := (stages (termsEnv terms) mintHalves).take 3

/-- The stages of `mintHalves` after the etching. -/
def afterHalves (terms : Terms) : List Stage := (stages (termsEnv terms) mintHalves).drop 4

theorem stages_mintHalves (terms : Terms) : stages (termsEnv terms) mintHalves =
    beforeHalves terms ++ .call halfBlock (.etching (termsEtching terms)) :: afterHalves terms :=
  rfl

/-- With a cap of one the second mint is refused. -/
theorem issued_le_supply_halves : ∃ s₀ t s, freshSession .bitcoin 2 (by decide) = some s₀ ∧
    runStages (termsEnv (halfTerms (some 1))) (beforeHalves (halfTerms (some 1))) s₀ = some t ∧
    runStages (termsEnv (halfTerms (some 1))) (stages (termsEnv (halfTerms (some 1))) mintHalves)
    s₀ = some s ∧ (0 + minted ⟨840001, 1⟩ s.entries ≤ 2 ^ 127 ∧ SumsExact ⟨840001, 1⟩ s) := by
  have hruns : (freshSession .bitcoin 2 (by decide)).any fun s₀ =>
      ((runStages (termsEnv (halfTerms (some 1))) (beforeHalves (halfTerms (some 1))) s₀).any
        fun t =>
        t.cache.txCache.location.runeId = ⟨840001, 1⟩) ∧
      (runStages (termsEnv (halfTerms (some 1)))
        (stages (termsEnv (halfTerms (some 1))) mintHalves) s₀).isSome := by
    decide +kernel
  obtain ⟨s₀, hstart, h⟩ := (Option.any_eq_true _ _).mp hruns
  obtain ⟨hany, hsome⟩ := of_decide_eq_true h
  obtain ⟨t, hbefore, hrune⟩ := (Option.any_eq_true _ _).mp hany
  obtain ⟨s, hrun⟩ := Option.isSome_iff_exists.mp hsome
  refine ⟨s₀, t, s, hstart, hbefore, hrun, ?_⟩
  have hforward : ∀ e ∈ mintHalves, e.Forward := by simp [mintHalves, Event.Forward]
  have hsplit := (stages_mintHalves (halfTerms (some 1))).trans (List.append_nil _).symm
  rw [stages_mintHalves] at hrun
  exact (issued_le_supply hsplit hforward ⟨by decide, by decide⟩ (by decide) hstart hbefore hrun rfl
    (of_decide_eq_true hrune) (by decide) (by decide)).mpr fun _ _ _ _ _ _ _ => Or.inl rfl

/-- **Without a cap more is minted than the declared supply**, and the minted amount of the rune
wraps around to zero. -/
theorem exists_supply_lt_minted : ∃ s₀ t s, freshSession .bitcoin 2 (by decide) = some s₀ ∧
    runStages (termsEnv (halfTerms none)) (beforeHalves (halfTerms none)) s₀ = some t ∧
    t.cache.txCache.location.runeId = ⟨840001, 1⟩ ∧
    runStages (termsEnv (halfTerms none)) (stages (termsEnv (halfTerms none)) mintHalves) s₀ =
      some s ∧
    (termsEtching (halfTerms none)).supply = some 0 ∧ minted ⟨840001, 1⟩ s.entries = 2 ^ 128 ∧
    ∃ row ∈ s.db.supplyChanges, row.runeId = ⟨840001, 1⟩ ∧ row.totalMints = 2 ∧ row.minted = 0 := by
  have hruns : (freshSession .bitcoin 2 (by decide)).any fun s₀ =>
      ((runStages (termsEnv (halfTerms none)) (beforeHalves (halfTerms none)) s₀).any fun t =>
        t.cache.txCache.location.runeId = ⟨840001, 1⟩) ∧
      (runStages (termsEnv (halfTerms none)) (stages (termsEnv (halfTerms none)) mintHalves) s₀).any
        fun s =>
        minted ⟨840001, 1⟩ s.entries = 2 ^ 128 ∧ s.db.supplyChanges.any fun row =>
          row.runeId = ⟨840001, 1⟩ ∧ row.totalMints = 2 ∧ row.minted = 0 := by decide +kernel
  obtain ⟨s₀, hstart, h⟩ := (Option.any_eq_true _ _).mp hruns
  obtain ⟨hany, hany'⟩ := of_decide_eq_true h
  obtain ⟨t, hbefore, hrune⟩ := (Option.any_eq_true _ _).mp hany
  obtain ⟨s, hrun, hs⟩ := (Option.any_eq_true _ _).mp hany'
  obtain ⟨hminted, hrows⟩ := of_decide_eq_true hs
  obtain ⟨row, hrow, h⟩ := List.any_eq_true.mp hrows
  exact ⟨s₀, t, s, hstart, hbefore, of_decide_eq_true hrune, hrun, rfl, hminted, row, hrow,
    of_decide_eq_true h⟩

end Runehook
