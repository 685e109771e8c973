import Runehook.Api
import Runehook.Losses

/-! # What the API reports of an output

`getTxIdOutputRuneAmount` of the API reads every row of an output in the ledger, and
`parseAmountResponse` adds them up (`reportedTotal`). The indexer reads its `receive` rows only. A
move writes a row for each sender next to the one that credits the output, so that the sum is what
the output holds exactly if no owner paid for it (`Stage.SparesOwners`): `Stage.charges` is about
one call and `reportedTotal_eq_spendable_iff` about runs. -/

namespace Runehook

open Lib

/-! ## The query and the response -/

/-- `DbAmountChange`: the amount of a row of the ledger, with the decimals of its rune. -/
structure DbAmountChange where
  /-- The owner that the row is about. -/
  address : Option Address
  /-- The amount of the row. -/
  amount : Option Nat
  /-- The decimals of the rune. -/
  divisibility : Nat
  deriving DecidableEq, Repr

/-- The row that the query of `getTxIdOutputRuneAmount` makes of a row of the ledger and one of the
runes. -/
def joinRune (txId : String) (vout : Nat) (runeId : RuneId) (l : DbLedgerEntry) (r : DbRune) :
    Option DbAmountChange :=
  if r.id = l.runeId ∧ l.txId = txId ∧ l.output = some vout ∧ l.runeId = runeId then
    some ⟨l.address, l.amount, r.divisibility⟩
  else none

/-- `getTxIdOutputRuneAmount`. -/
def getTxIdOutputRuneAmount (txId : String) (vout : Nat) (runeId : RuneId) (db : Db) :
    List DbAmountChange :=
  db.ledger.flatMap fun l => db.runes.filterMap (joinRune txId vout runeId l)

/-- `BigNumber.plus` of numbers without fraction; `none` is `NaN`, which a `null` is read as. -/
def bigNumberPlus : Option Nat → Option Nat → Option Nat
  | some total, some amount => some (total + amount)
  | _, _ => none

/-- The `big_num_total` of `parseAmountResponse`. -/
def bigNumTotal (entries : List DbAmountChange) : Option Nat :=
  (entries.map DbAmountChange.amount).foldl bigNumberPlus (some 0)

/-- An entry of the `address_amount` of an `AmountOutputResponse`. -/
structure AddressAmount where
  /-- The owner. -/
  address : Option Address
  /-- The amount. -/
  amount : Option Nat
  deriving DecidableEq, Repr

/-- `AmountOutputResponse`. -/
structure AmountOutputResponse where
  /-- The rune. -/
  runeId : RuneId
  /-- The amount of each row. -/
  addressAmount : List AddressAmount
  /-- The sum of all of them, with decimals. -/
  totalAmount : String
  deriving DecidableEq, Repr

/-- `parseAmountResponse`. The decimals are those of the first entry: without one it throws. -/
def parseAmountResponse (runeId : RuneId) (entries : List DbAmountChange) :
    Option AmountOutputResponse :=
  entries.head?.map fun first =>
    { runeId
      addressAmount := entries.map fun obj => ⟨obj.address, obj.amount⟩
      totalAmount := match bigNumTotal entries with
        | some total => Runehook.divisibility total first.divisibility
        | none => "NaN" }

/-- The handler of `/transactions/:tx_id/amount/:rune_id`, on the rows that the query returns:
without any, it answers that nothing is found. -/
def getTxVoutRuneAmount (runeId : RuneId) (results : List DbAmountChange) :
    Option AmountOutputResponse :=
  if results.length = 0 then none else parseAmountResponse runeId results

/-- The `total_amount` that the handler answers with, before the decimal shift. -/
def reportedTotal (results : List DbAmountChange) : Option Nat :=
  if results.length = 0 then none else bigNumTotal results

/-- The total is what the response shows in the decimals of the rune. -/
theorem totalAmount_of_reportedTotal {runeId : RuneId} {results : List DbAmountChange} {total : Nat}
    (h : reportedTotal results = some total) : ∃ response first,
      getTxVoutRuneAmount runeId results = some response ∧ results.head? = some first ∧
        response.totalAmount = Runehook.divisibility total first.divisibility := by
  unfold reportedTotal at h
  split at h
  · cases h
  · next hlength =>
    obtain ⟨first, rest, rfl⟩ := List.exists_cons_of_ne_nil (l := results) fun hnil =>
      hlength (List.length_eq_zero_iff.mpr hnil)
    refine ⟨_, first, (if_neg hlength).trans rfl, rfl, ?_⟩
    dsimp only
    rw [h]

/-! ## The sum -/

/-- A sum of numbers is a number. -/
theorem bigNumTotal_eq {entries : List DbAmountChange} (h : ∀ obj ∈ entries, obj.amount.isSome) :
    bigNumTotal entries = some (entries.map fun obj => obj.amount.getD 0).sum := by
  have hfold : ∀ (entries : List DbAmountChange) (total : Nat),
      (∀ obj ∈ entries, obj.amount.isSome) →
      (entries.map DbAmountChange.amount).foldl bigNumberPlus (some total) =
        some (total + (entries.map fun obj => obj.amount.getD 0).sum) := by
    intro entries
    induction entries with
    | nil => exact fun _ _ => rfl
    | cons obj entries ih =>
      intro total h
      obtain ⟨hsome, hrest⟩ := List.forall_mem_cons.mp h
      obtain ⟨amount, hamount⟩ := Option.isSome_iff_exists.mp hsome
      rw [List.map_cons, List.foldl_cons, hamount, bigNumberPlus, ih _ hrest, List.map_cons,
        List.sum_cons, hamount, Option.getD_some, Nat.add_assoc]
  rw [bigNumTotal, hfold entries 0 h, Nat.zero_add]

/-- The rows of an output and a rune. -/
def DbLedgerEntry.Feeds (k : String × Nat) (id : RuneId) (e : DbLedgerEntry) : Prop :=
  e.outputKey = some k ∧ e.runeId = id

instance (k : String × Nat) (id : RuneId) (e : DbLedgerEntry) : Decidable (e.Feeds k id) :=
  inferInstanceAs (Decidable (_ ∧ _))

theorem feeds_iff {txId : String} {vout : Nat} {id : RuneId} {e : DbLedgerEntry} :
    e.Feeds (txId, vout) id ↔ e.txId = txId ∧ e.output = some vout ∧ e.runeId = id := by
  rw [show e.Feeds (txId, vout) id ↔ e.outputKey = some (txId, vout) ∧ e.runeId = id from Iff.rfl,
    outputKey_eq_some_iff, and_assoc]

/-- What senders and burns say of an output: it is in the sum of the API, and not in that of the
indexer. -/
def charged (k : String × Nat) (id : RuneId) (es : List DbLedgerEntry) : Nat :=
  tally (fun e => e.Feeds k id ∧ e.operation ≠ .receive) DbLedgerEntry.value es

@[simp] theorem charged_nil (k : String × Nat) (id : RuneId) : charged k id [] = 0 := rfl

@[simp] theorem charged_append (k : String × Nat) (id : RuneId) (es es' : List DbLedgerEntry) :
    charged k id (es ++ es') = charged k id es + charged k id es' := tally_append _ _ es es'

/-- The rows of an output are credits and charges. -/
theorem tally_feeds (k : String × Nat) (id : RuneId) (es : List DbLedgerEntry) :
    tally (fun e => e.Feeds k id) DbLedgerEntry.value es =
      totalAmount (credits k id es) + charged k id es := by
  rw [tally_split _ fun e => decide (e.operation = .receive), charged, totalAmount,
    credits, List.map_map]
  congr 1
  · refine congrArg List.sum
      (congrArg₂ List.map rfl (List.filter_congr fun e _ => Bool.eq_iff_iff.mpr ?_))
    simp [DbLedgerEntry.Feeds, and_comm]
  · exact tally_congr fun e _ => by simp

/-- **The rows of the query**: those of the output, with the decimals of the rune, if it has a row
of its own. -/
theorem getTxIdOutputRuneAmount_eq {db : Db} (hids : (db.runes.map DbRune.id).Nodup) {r : DbRune}
    (hr : r ∈ db.runes) (txId : String) (vout : Nat) : getTxIdOutputRuneAmount txId vout r.id db =
      (db.ledger.filter fun l => l.Feeds (txId, vout) r.id).map fun l =>
      ⟨l.address, l.amount, r.divisibility⟩ := by
  -- a row of the ledger is joined with the one row of its rune
  have hjoin : ∀ l : DbLedgerEntry, db.runes.filterMap (joinRune txId vout r.id l) =
      if l.Feeds (txId, vout) r.id then [⟨l.address, l.amount, r.divisibility⟩] else [] := by
    intro l
    obtain ⟨before, after, hsplit⟩ := List.append_of_mem hr
    rw [hsplit, List.map_append, List.map_cons, List.nodup_append, List.nodup_cons] at hids
    have hother : ∀ rs : List DbRune, r.id ∉ rs.map DbRune.id →
        rs.filterMap (joinRune txId vout r.id l) = [] := by
      intro rs hrs
      refine List.filterMap_eq_nil_iff.mpr fun r' hr' => if_neg ?_
      rintro ⟨hid, -, -, hrune⟩
      exact hrs (List.mem_map.mpr ⟨r', hr', hid.trans hrune⟩)
    rw [hsplit, List.filterMap_append, hother before fun h => hids.2.2 _ h _ List.mem_cons_self rfl,
      List.nil_append, List.filterMap_cons, hother after hids.2.1.1, joinRune]
    by_cases hl : l.Feeds (txId, vout) r.id
    · obtain ⟨htx, hout, hid⟩ := feeds_iff.mp hl
      rw [if_pos hl, if_pos ⟨hid.symm, htx, hout, hid⟩]
    · rw [if_neg hl, if_neg fun h => hl (feeds_iff.mpr h.2)]
  rw [getTxIdOutputRuneAmount]
  induction db.ledger with
  | nil => rfl
  | cons l ledger ih =>
    rw [List.flatMap_cons, ih, hjoin]
    by_cases hl : l.Feeds (txId, vout) r.id
    · rw [if_pos hl]
      simp [hl]
    · rw [if_neg hl]
      simp [hl]

/-- Of a rune without a row the query returns nothing. -/
theorem getTxIdOutputRuneAmount_eq_nil {db : Db} {id : RuneId} (h : ∀ r ∈ db.runes, r.id ≠ id)
    (txId : String) (vout : Nat) : getTxIdOutputRuneAmount txId vout id db = [] := by
  refine List.flatMap_eq_nil_iff.mpr fun l _ => List.filterMap_eq_nil_iff.mpr fun r hr => if_neg ?_
  rintro ⟨hid, -, -, hrune⟩
  exact h r hr (hid.trans hrune)

/-- **What the API reports of an output**, of a table in which every row of an output has an amount:
what is credited to the output and what is charged for it, if the rune has a row. -/
theorem reportedTotal_eq_some_iff {db : Db} {txId : String} {vout : Nat} {id : RuneId}
    {results : List DbAmountChange} {total : Nat} (hids : (db.runes.map DbRune.id).Nodup)
    (hamounts : ∀ l ∈ db.ledger, l.output.isSome → l.amount.isSome)
    (hrow : ∃ l ∈ db.ledger, l.Feeds (txId, vout) id)
    (hresults : results.Perm (getTxIdOutputRuneAmount txId vout id db)) :
    reportedTotal results = some total ↔ (∃ r ∈ db.runes, r.id = id) ∧
      totalAmount (credits (txId, vout) id db.ledger) +
        charged (txId, vout) id db.ledger = total := by
  -- the join needs the row of the rune
  by_cases hknown : ∃ r ∈ db.runes, r.id = id
  · obtain ⟨r, hr, rfl⟩ := hknown
    rw [getTxIdOutputRuneAmount_eq hids hr] at hresults
    have hlength : ¬results.length = 0 := by
      obtain ⟨l, hl, hfeeds⟩ := hrow
      rw [hresults.length_eq, List.length_map]
      exact (List.length_pos_of_mem (List.mem_filter.mpr ⟨hl, decide_eq_true hfeeds⟩)).ne'
    -- an entry with an output has an amount
    have hsome : ∀ obj ∈ results, obj.amount.isSome := by
      intro obj hobj
      obtain ⟨l, hl, rfl⟩ := List.mem_map.mp (hresults.mem_iff.mp hobj)
      obtain ⟨hl, hfeeds⟩ := List.mem_filter.mp hl
      refine hamounts l hl ?_
      rw [((outputKey_eq_some_iff l _).mp (of_decide_eq_true hfeeds).1).2]
      rfl
    have hsum : (results.map fun obj => obj.amount.getD 0).sum =
        tally (fun e => e.Feeds (txId, vout) r.id) DbLedgerEntry.value db.ledger := by
      rw [(hresults.map _).sum_eq, List.map_map]
      rfl
    rw [reportedTotal, if_neg hlength, bigNumTotal_eq hsome, hsum, tally_feeds, Option.some.injEq]
    exact (and_iff_right ⟨r, hr, rfl⟩).symm
  · -- nothing is joined, and the answer is that nothing is found
    have hnil : getTxIdOutputRuneAmount txId vout id db = [] :=
      getTxIdOutputRuneAmount_eq_nil (fun r hr hid => hknown ⟨r, hr, hid⟩) txId vout
    rw [hnil, List.perm_nil] at hresults
    rw [hresults]
    exact iff_of_false (by simp [reportedTotal]) fun h => hknown h.1

/-! ## Moves -/

/-- No move to the output takes from a balance that has an owner. -/
def MovesSpareOwners (vout : Nat) : List (Option Nat × Nat) → List InputRuneBalance → Prop
  | [], _ => True
  | (output, amount) :: moves, balances =>
    (output = some vout → ownedTotal (takeBalances amount balances 0 []).balances =
      ownedTotal balances) ∧
      MovesSpareOwners vout moves (takeBalances amount balances 0 []).balances

/-- Whether no move to the output takes from a balance that has an owner. -/
instance MovesSpareOwners.decide (vout : Nat) :
    ∀ moves balances, Decidable (MovesSpareOwners vout moves balances)
  | [], _ => .isTrue trivial
  | (_, amount) :: moves, balances =>
    have := MovesSpareOwners.decide vout moves (takeBalances amount balances 0 []).balances
    inferInstanceAs (Decidable (_ ∧ _))

/-- What rows say of an output that do not credit it. -/
def chargedRows (vout : Nat) (rows : List LedgerRow) : Nat :=
  tally (fun r => r.output = some vout ∧ r.operation ≠ .receive) (fun r => r.amount.getD 0) rows

/-- **What a move charges** for its output: what it takes from owners. -/
theorem chargedRows_moveRows (receiver : Option Nat → Option Address) (id : RuneId) (vout : Nat)
    (output : Option Nat) (taking : Taking) :
      chargedRows vout (moveRows receiver id output taking) =
        if output = some vout then (taking.senders.map Prod.fst).sum else 0 := by
  -- a row for each sender, and none of them is a credit
  have hne : (if (receiver output).isSome then DbLedgerOperation.send else .burn) ≠ .receive := by
    split <;> decide
  rw [chargedRows,
    tally_moveRows receiver id output taking (b := decide (output = some vout)) (fun _ => by simp)
    fun _ _ => by simp [hne]]
  simp only [decide_eq_true_eq]

/-- **What the moves of an edict charge** for an output is nothing exactly if they spare owners. -/
theorem chargedRows_movesRows_eq_zero_iff (receiver : Option Nat → Option Address)
    (id : RuneId) (vout : Nat) (moves : List (Option Nat × Nat))
    (balances : List InputRuneBalance) :
    chargedRows vout (movesRows receiver id moves balances) = 0 ↔
    MovesSpareOwners vout moves balances := by
  induction moves generalizing balances with
  | nil => exact iff_of_true rfl trivial
  | cons move moves ih =>
    have hsenders := takeBalances_ownedTotal move.2 balances 0 []
    rw [List.map_nil, List.sum_nil, Nat.zero_add] at hsenders
    rw [movesRows, chargedRows, tally_append, ← chargedRows, ← chargedRows, Nat.add_eq_zero_iff, ih,
      chargedRows_moveRows]
    refine and_congr_left fun _ => ?_
    split
    · next houtput =>
      constructor
      -- the first move charges the output what its senders own
      · intro hzero _
        omega
      · intro hspares
        have := hspares houtput
        omega
    · next hother => exact iff_of_true rfl fun houtput => absurd houtput hother

/-! ## Calls -/

/-- The charges of a transaction for one of its outputs are in the rows of the rune. -/
theorem charged_eq_rows {txId : String} {vout : Nat} {id : RuneId} {es : List DbLedgerEntry}
    (hes : ∀ e ∈ es, e.txId = txId) :
    charged (txId, vout) id es = chargedRows vout ((ofRune id es).map DbLedgerEntry.row) := by
  have hfeeds :
      ∀ e : DbLedgerEntry, decide (e.Feeds (txId, vout) id ∧ e.operation ≠ .receive) = true →
      e.runeId = id := fun e h => (of_decide_eq_true h).1.2
  rw [charged, ← tally_ofRune hfeeds, chargedRows, tally_map]
  refine tally_congr fun e he => ?_
  obtain ⟨he, hid⟩ := List.mem_filter.mp he
  simp [feeds_iff, hes e he, of_decide_eq_true hid, DbLedgerEntry.row]

/-- What a transaction writes charges no output of another one. -/
theorem charged_eq_zero {txId : String} {vout : Nat} {id : RuneId} {es : List DbLedgerEntry}
    (hes : ∀ e ∈ es, e.txId = txId → e.output = none) : charged (txId, vout) id es = 0 := by
  refine tally_eq_zero _ _ fun e he => decide_eq_false fun h => ?_
  obtain ⟨htx, hout, -⟩ := feeds_iff.mp h.1
  rw [hes e he htx] at hout
  cases hout

namespace TransactionCache

variable {env : Environment} {tx tx' : TransactionCache} {act : Action} {es : List DbLedgerEntry}
    {rs : List DbRune}

/-- What a call writes for an output has an amount. -/
theorem Step.amount_isSome (h : tx.Step env act es rs tx') :
    ∀ e ∈ es, e.output.isSome → e.amount.isSome := by
  intro e he hout
  refine (h.amount e he).resolve_right fun hetching => ?_
  rw [hetching.2] at hout
  cases hout

theorem burnEntries_output (location : TransactionLocation) (id : RuneId)
    (balances : List InputRuneBalance) (n : Nat) :
    ∀ e ∈ (burnEntries location id balances n).1, e.output = none := by
  induction balances generalizing n with
  | nil => exact fun e he => absurd he List.not_mem_nil
  | cons b balances ih => exact List.forall_mem_cons.mpr ⟨rfl, ih _⟩

/-- Only edicts and the final allocation write for outputs. -/
theorem Step.output_eq_none (h : tx.Step env act es rs tx') (hedict : ∀ e, act ≠ .edict e)
    (hend : act ≠ .endTransaction) : ∀ e ∈ es, e.output = none := by
  have hplain : ∀ amount id operation, ∀ e ∈ [tx.plainEntry amount id operation],
      e.output = none := by
    intro amount id operation e he
    rw [List.mem_singleton.mp he]
    rfl
  cases h with
  | runestone | noMint | noCenotaphMint => exact fun e he => absurd he List.not_mem_nil
  | cenotaph => exact forall_mem_overRunes (fun id n => burnEntries_output _ id _ n) _ _
  | etching | cenotaphEtching | mint | cenotaphMint => exact hplain _ _ _
  | edict e | noEdict e => exact absurd rfl (hedict e)
  | endTransaction => exact absurd rfl hend

end TransactionCache

/-- No move to the output takes from a balance that has an owner, if the stage is a call for the
transaction. -/
def Stage.SparesOwners (txId : String) (vout : Nat) (id : RuneId) (s : Session) : Stage → Prop
  | .call _ (.edict e) => stripHexPrefix s.cache.txCache.location.txId = txId → s.findsRune e.id →
      s.cache.txCache.edictRuneId e.id = some id → MovesSpareOwners vout
        (s.cache.txCache.edictMoves e (TransactionCache.unallocated (s.cache.txCache.available id)))
        (s.cache.txCache.available id)
  | .call _ .endTransaction => stripHexPrefix s.cache.txCache.location.txId = txId →
      MovesSpareOwners vout [(s.cache.txCache.outputPointer, 0)] (s.cache.txCache.available id)
  | _ => True

instance (txId : String) (vout : Nat) (id : RuneId) (s : Session) :
    ∀ stage : Stage, Decidable (stage.SparesOwners txId vout id s)
  | .call _ (.edict _) => inferInstanceAs (Decidable (_ → _ → _ → _))
  | .call _ .endTransaction => inferInstanceAs (Decidable (_ → _))
  | .call _ (.beginTransaction _) | .call _ (.runestone _) | .call _ .cenotaph | .call
      _ (.etching _)
  | .call _ (.cenotaphEtching _) | .call _ (.mint _) | .call _ (.cenotaphMint _) => .isTrue trivial
  | .openBlock _ | .closeBlock _ | .rollBack _ | .restart _ _ => .isTrue trivial

/-- What a stage writes: every entry for an output has an amount, and the output is charged for
nothing exactly if the stage spares owners. -/
structure Stage.Charges (txId : String) (vout : Nat) (id : RuneId) (s : Session) (stage : Stage)
    (es : List DbLedgerEntry) : Prop where
  /-- An entry for an output has an amount. -/
  amounts : ∀ e ∈ es, e.output.isSome → e.amount.isSome
  /-- The output is charged for nothing exactly if the stage spares owners. -/
  charged_iff : charged (txId, vout) id es = 0 ↔ stage.SparesOwners txId vout id s

section

variable {env : Environment} {block : Block} {s s' : Session}

/-- A stage that writes nothing charges nothing. -/
theorem Stage.Charges.nil {txId : String} {vout : Nat} {id : RuneId} {stage : Stage}
    (h : stage.SparesOwners txId vout id s) : stage.Charges txId vout id s [] :=
  ⟨fun _ he => absurd he List.not_mem_nil, iff_of_true rfl h⟩

variable (txId : String) (vout : Nat) (id : RuneId)

/-- **What a call charges** for an output. -/
theorem Action.charges {a : Action} (hrun : a.run env block s = some s') :
    ∃ es, s'.entries = s.entries ++ es ∧ (Stage.call block a).Charges txId vout id s es := by
  by_cases hbegin : ∃ tx, a = .beginTransaction tx
  · obtain ⟨tx, rfl⟩ := hbegin
    obtain ⟨-, rfl⟩ := run_beginTransaction hrun
    exact ⟨[], (List.append_nil _).symm, .nil trivial⟩
  · obtain ⟨es, rs, hwrites, hstep⟩ := Action.run_step (fun tx ha => hbegin ⟨tx, ha⟩) hrun
    have hat := hstep.at_location
    have hamounts := hstep.amount_isSome
    -- a call other than an edict or the end names no output
    have hother : (∀ e, a ≠ .edict e) → a ≠ .endTransaction → charged (txId, vout) id es = 0 :=
      fun hedict hend => charged_eq_zero fun e he _ => hstep.output_eq_none hedict hend e he
    cases a with
    | beginTransaction tx => exact absurd ⟨tx, rfl⟩ hbegin
    | edict e =>
      obtain ⟨hfinds, hw, -⟩ | ⟨hfinds, hw, -⟩ := Session.applyEdict_read hrun
      · refine ⟨[], hw.entries_eq, .nil fun _ hfound => ?_⟩
        exact absurd (hfinds.symm.trans hfound) Bool.false_ne_true
      -- the entries of the call are those of the edict
      · have hes : es = (s.cache.txCache.applyEdict env e).2 :=
          List.append_cancel_left (hwrites.entries_eq.symm.trans hw.entries_eq)
        refine ⟨es, hwrites.entries_eq, hamounts, ?_⟩
        -- an entry charges the output only where it is of the same transaction
        by_cases htx : stripHexPrefix s.cache.txCache.location.txId = txId
        · obtain ⟨hrows, -⟩ := TransactionCache.applyEdict_rows env s.cache.txCache e id
          rw [charged_eq_rows fun e' he' => (hat e' he').txId.trans htx, hes, hrows]
          split
          · next hmeans =>
            rw [chargedRows_movesRows_eq_zero_iff]
            exact ⟨fun h _ _ _ => h, fun h => h htx hfinds hmeans⟩
          · next hmeans => exact iff_of_true rfl fun _ _ h => absurd h hmeans
        · refine iff_of_true (charged_eq_zero fun e' he' h => absurd ?_ htx) fun h => absurd h htx
          exact (hat e' he').txId.symm.trans h
    | endTransaction =>
      obtain ⟨hw, -⟩ : s.Writes (s.cache.txCache.allocateRemainingBalances env).2 [] s' ∧
        s'.cache.txCache = (s.cache.txCache.allocateRemainingBalances env).1 :=
        Session.writes_add hrun
      have hes : es = (s.cache.txCache.allocateRemainingBalances env).2 :=
        List.append_cancel_left (hwrites.entries_eq.symm.trans hw.entries_eq)
      refine ⟨es, hwrites.entries_eq, hamounts, ?_⟩
      by_cases htx : stripHexPrefix s.cache.txCache.location.txId = txId
      · rw [charged_eq_rows fun e' he' => (hat e' he').txId.trans htx, hes,
          TransactionCache.allocateRemainingBalances_rows, chargedRows_movesRows_eq_zero_iff]
        exact ⟨fun h _ => h, fun h => h htx⟩
      · refine iff_of_true (charged_eq_zero fun e' he' h => absurd ?_ htx) fun h => absurd h htx
        exact (hat e' he').txId.symm.trans h
    | runestone | cenotaph | etching | cenotaphEtching | mint | cenotaphMint =>
      exact ⟨es, hwrites.entries_eq, hamounts, iff_of_true (hother (by simp) (by simp)) trivial⟩

/-- **What a stage charges** for an output. -/
theorem Stage.charges {stage : Stage} (hforward : ∀ height, stage ≠ .rollBack height)
    (hrest : stage.between = true → s.cache.dbCache = .new) (hrun : stage.run env s = some s') :
    ∃ es, s'.entries = s.entries ++ es ∧ stage.Charges txId vout id s es := by
  cases stage with
  | openBlock block =>
    have hopen : s.resetMaxRuneNumber = some s' := hrun
    obtain ⟨number, rfl, -⟩ := resetMaxRuneNumber_eq_some hopen
    exact ⟨[], (List.append_nil _).symm, .nil trivial⟩
  | call block a => exact Action.charges txId vout id hrun
  | closeBlock block =>
    have hclosing : (closing env block s).entries = s.entries := rfl
    exact ⟨[], hclosing ▸ (Session.Writes.flush hrun).entries_eq, .nil trivial⟩
  | rollBack height => exact absurd rfl (hforward height)
  -- a restart forgets nothing, as nothing waits between blocks
  | restart cap hcap =>
    obtain ⟨cache, hcache, rfl⟩ := restart_eq_some hrun
    refine ⟨[], ?_, .nil trivial⟩
    rw [Session.entries, Session.entries, (IndexCache.new_empty hcache).dbCache, hrest rfl,
      List.append_nil]

/-! ## The ids of the table of runes -/

/-- A row that is inserted has an id of its own. -/
theorem insertRune_ids {runes runes' : List DbRune} {row : DbRune}
    (h : insertRune runes row = some runes') (hids : (runes.map DbRune.id).Nodup) :
    (runes'.map DbRune.id).Nodup := by
  rw [insertRune] at h
  split_ifs at h with htaken hclash
  · cases h
    exact hids
  · cases h
    rw [List.map_append, List.map_singleton, List.nodup_append]
    refine ⟨hids, List.nodup_singleton _, ?_⟩
    rintro id hid id' hid' rfl
    obtain ⟨r, hr, rfl⟩ := List.mem_map.mp hid
    refine hclash (List.any_eq_true.mpr ⟨r, hr, decide_eq_true (Or.inl ?_)⟩)
    exact List.mem_singleton.mp hid'

/-- Writing keeps the ids of the table distinct. -/
theorem Session.Writes.ids {es : List DbLedgerEntry} {rs : List DbRune} (h : s.Writes es rs s') :
    (s.db.runes.map DbRune.id).Nodup → (s'.db.runes.map DbRune.id).Nodup := by
  induction h with
  | quiet hq => exact fun h => hq.db ▸ h
  | @flush s s' hflush =>
    intro h
    obtain ⟨db, hdb, rfl⟩ := Session.flush_eq_some.mp hflush
    obtain ⟨runes, hrunes, rfl⟩ := DbCache.flush_eq_some.mp hdb
    exact foldlM_induction (P := fun _ runes => (runes.map DbRune.id).Nodup) h
      (fun _ _ _ _ hids hrow => insertRune_ids hrow hids) hrunes
  | pushRune => exact id
  | add hadd =>
    obtain ⟨-, rfl⟩ := Session.addLedgerEntriesToDbCache_eq_some.mp hadd
    exact id
  | trans _ _ ih ih' => exact fun h => ih' (ih h)

/-- A stage that is no rollback keeps the ids of the table distinct. -/
theorem Stage.ids {stage : Stage} (hforward : ∀ height, stage ≠ .rollBack height)
    (hrun : stage.run env s = some s') (hids : (s.db.runes.map DbRune.id).Nodup) :
    (s'.db.runes.map DbRune.id).Nodup := by
  cases stage with
  | openBlock block =>
    have hopen : s.resetMaxRuneNumber = some s' := hrun
    obtain ⟨number, rfl, -⟩ := resetMaxRuneNumber_eq_some hopen
    exact hids
  | call block a =>
    by_cases hbegin : ∃ tx, a = .beginTransaction tx
    · obtain ⟨tx, rfl⟩ := hbegin
      exact (Session.Writes.quiet (beginTransaction_quiet hrun)).ids hids
    · obtain ⟨es, rs, hwrites, -⟩ := Action.run_step (fun tx ha => hbegin ⟨tx, ha⟩) hrun
      exact hwrites.ids hids
  | closeBlock block =>
    have hclosing : (closing env block s).db.runes = s.db.runes := rfl
    exact (Session.Writes.flush hrun).ids (hclosing ▸ hids)
  | rollBack height => exact absurd rfl (hforward height)
  | restart cap hcap =>
    obtain ⟨cache, -, rfl⟩ := restart_eq_some hrun
    exact hids

end

/-! ## Runs -/

/-- After the stages of a run without rollbacks, an output was charged for nothing exactly if they
spared owners. -/
theorem runEvents_charges {env : Environment} {network : Network} {cap : Nat} {hcap : 0 < cap}
    {events : List Event} {s₀ s : Session} (hforward : ∀ e ∈ events, e.Forward)
    (hstart : freshSession network cap hcap = some s₀) (hrun : runEvents env events s₀ = some s)
    (txId : String) (vout : Nat) (id : RuneId) :
    (s.db.runes.map DbRune.id).Nodup ∧ (∀ e ∈ s.db.ledger, e.output.isSome → e.amount.isSome) ∧
      (charged (txId, vout) id s.db.ledger = 0 ↔
        EveryStage env (Stage.SparesOwners txId vout id) (stages env events) s₀) := by
  obtain ⟨hempty, hdb⟩ := freshSession_eq_some hstart
  -- nothing waits after the events, so the entries are those of the table
  have hentries : s.entries = s.db.ledger := by
    rw [Session.entries, runEvents_dbCache hempty.dbCache hrun]
    exact List.append_nil _
  rw [runEvents_eq_runStages] at hrun
  have hnone : s₀.entries = [] := by rw [Session.entries, hdb, hempty.dbCache]; rfl
  have hind := stages_induction (P := fun done t => (t.db.runes.map DbRune.id).Nodup ∧
      (∀ e ∈ t.entries, e.output.isSome → e.amount.isSome) ∧
      (charged (txId, vout) id t.entries = 0 ↔
        EveryStage env (Stage.SparesOwners txId vout id) done s₀))
    (List.append_nil _).symm hempty.dbCache ?_ ?_ hrun
  · rw [hentries] at hind
    exact hind.1
  · rw [hdb, hnone]
    refine ⟨List.nodup_singleton _, fun e he => absurd he List.not_mem_nil, iff_of_true rfl ?_⟩
    exact .of_forall fun stage hstage => absurd hstage List.not_mem_nil
  · rintro done stage rest t t' hsplit hdone hbetween ⟨hids, hamounts, hcharged⟩ hstep
    have hmem : stage ∈ stages env events := hsplit ▸ List.mem_append_right _ List.mem_cons_self
    have hstage := ne_rollBack_of_mem_stages hforward hmem
    -- the amounts charged by a stage add to those before it
    obtain ⟨es, hes, hcharges⟩ := Stage.charges txId vout id hstage hbetween hstep
    rw [hes, charged_append, Nat.add_eq_zero_iff, everyStage_concat hdone, hcharged,
      hcharges.charged_iff]
    exact ⟨stage.ids hstage hstep hids,
      List.forall_mem_append.mpr ⟨hamounts, hcharges.amounts⟩, Iff.rfl⟩

/-- **What the API reports of an output is what can be spent of it**, exactly if the rune has a row
in `runes` and no move to the output ever took from a balance that had an owner: after any run
without rollbacks, of every output and rune with rows in `ledger`, in whatever order the query
returns them. -/
theorem reportedTotal_eq_spendable_iff {env : Environment} {network : Network} {cap : Nat}
    {hcap : 0 < cap} {events : List Event} {s₀ s : Session} (hforward : ∀ e ∈ events, e.Forward)
    (hstart : freshSession network cap hcap = some s₀) (hrun : runEvents env events s₀ = some s)
    {txId : String} {vout : Nat} {id : RuneId}
    (hrow : ∃ l ∈ s.db.ledger, l.txId = txId ∧ l.output = some vout ∧ l.runeId = id)
    {results : List DbAmountChange}
    (hresults : results.Perm (getTxIdOutputRuneAmount txId vout id s.db))
    {outputs : List (Nat × String × Nat)} (hvins : (outputs.map Prod.fst).Nodup) {vin : Nat}
    (hvin : (vin, txId, vout) ∈ outputs) :
    reportedTotal results =
        some (totalAmount (((pgGetInputRuneBalances env outputs s.db).getD vin ∅).getD id [])) ↔
      (∃ r ∈ s.db.runes, r.id = id) ∧
        EveryStage env (Stage.SparesOwners txId vout id) (stages env events) s₀ := by
  obtain ⟨hids, hamounts, hcharged⟩ := runEvents_charges hforward hstart hrun txId vout id
  obtain ⟨hperm, -⟩ := getD_pgGetInputRuneBalances env s.db hvins hvin id
  have hfeeds : ∃ l ∈ s.db.ledger, l.Feeds (txId, vout) id := by
    obtain ⟨l, hl, hfields⟩ := hrow
    exact ⟨l, hl, feeds_iff.mpr hfields⟩
  rw [reportedTotal_eq_some_iff hids hamounts hfeeds hresults, totalAmount_perm hperm, ← hcharged]
  exact and_congr_right fun _ => ⟨fun h => by omega, fun h => by omega⟩

/-- The output that a mint goes to is reported with what can be spent of it. -/
theorem reportedTotal_eq_spendable_mintTx : ∃ s₀ s, freshSession .bitcoin 2 Nat.two_pos = some s₀ ∧
    runEvents mintEnv mintAndRestart s₀ = some s ∧
    reportedTotal (getTxIdOutputRuneAmount "mint" 0 ⟨1, 0⟩ s.db) =
      some
      (totalAmount
        (((pgGetInputRuneBalances mintEnv [(0, "mint", 0)] s.db).getD 0 ∅).getD ⟨1, 0⟩ [])) := by
  have hruns : (freshSession .bitcoin 2 Nat.two_pos).any fun s₀ =>
      ((runEvents mintEnv mintAndRestart s₀).any fun s =>
        (s.db.ledger.any fun l => l.txId = "mint" ∧ l.output = some 0 ∧ l.runeId = ⟨1, 0⟩) ∧
          s.db.runes.any fun r => r.id = ⟨1, 0⟩) ∧
      checkStages mintEnv (fun s stage => stage.SparesOwners "mint" 0 ⟨1, 0⟩ s)
        (stages mintEnv mintAndRestart) s₀ := by decide +kernel
  obtain ⟨s₀, hstart, h⟩ := (Option.any_eq_true _ _).mp hruns
  obtain ⟨hany, hcheck⟩ := of_decide_eq_true h
  obtain ⟨s, hrun, h⟩ := (Option.any_eq_true _ _).mp hany
  obtain ⟨hfed, hrune⟩ := of_decide_eq_true h
  obtain ⟨l, hl, hfields⟩ := List.any_eq_true.mp hfed
  obtain ⟨r, hr, hid⟩ := List.any_eq_true.mp hrune
  have hforward : ∀ e ∈ mintAndRestart, e.Forward := by simp [mintAndRestart, Event.Forward]
  have hvins : ([(0, "mint", 0)].map Prod.fst).Nodup := List.nodup_singleton 0
  have hspares :
      EveryStage mintEnv (Stage.SparesOwners "mint" 0 ⟨1, 0⟩) (stages mintEnv mintAndRestart) s₀ :=
    .of_check (fun _ _ h => of_decide_eq_true h) hcheck
  have hrow := of_decide_eq_true hfields
  exact ⟨s₀, s, hstart, hrun, (reportedTotal_eq_spendable_iff hforward hstart hrun ⟨l, hl, hrow⟩
    (.refl _) hvins List.mem_cons_self).mpr ⟨⟨r, hr, of_decide_eq_true hid⟩, hspares⟩⟩

/-- **A payment is reported twice**: bob is paid the one rune that alice minted, and the API answers
that the output holds two of it. -/
theorem exists_reportedTotal_ne : ∃ s₀ s, freshSession .bitcoin 2 Nat.two_pos = some s₀ ∧
    runEvents mintEnv mintAndSpend s₀ = some s ∧
    (∃ l ∈ s.db.ledger, l.txId = "spend" ∧ l.output = some 0 ∧ l.runeId = ⟨1, 0⟩) ∧
    totalAmount (((pgGetInputRuneBalances mintEnv [(0, "spend", 0)] s.db).getD 0 ∅).getD
      ⟨1, 0⟩ []) = 1 ∧ reportedTotal (getTxIdOutputRuneAmount "spend" 0 ⟨1, 0⟩ s.db) = some 2 ∧
    ∃ response, getTxVoutRuneAmount ⟨1, 0⟩ (getTxIdOutputRuneAmount "spend" 0 ⟨1, 0⟩ s.db) =
      some response ∧ response.totalAmount = "2" := by
  have hruns : (freshSession .bitcoin 2 Nat.two_pos).any fun s₀ =>
      (runEvents mintEnv mintAndSpend s₀).any fun s =>
      (s.db.ledger.any fun l => l.txId = "spend" ∧ l.output = some 0 ∧ l.runeId = ⟨1, 0⟩) ∧
      totalAmount (((pgGetInputRuneBalances mintEnv [(0, "spend", 0)] s.db).getD 0 ∅).getD
        ⟨1, 0⟩ []) = 1 ∧
      reportedTotal (getTxIdOutputRuneAmount "spend" 0 ⟨1, 0⟩ s.db) = some 2 ∧
      (getTxIdOutputRuneAmount "spend" 0 ⟨1, 0⟩ s.db).head?.all (·.divisibility = 0) := by
        decide +kernel
  obtain ⟨s₀, hstart, h⟩ := (Option.any_eq_true _ _).mp hruns
  obtain ⟨s, hrun, h⟩ := (Option.any_eq_true _ _).mp h
  obtain ⟨hrow, hspendable, hreported, hwhole⟩ := of_decide_eq_true h
  obtain ⟨l, hl, hfields⟩ := List.any_eq_true.mp hrow
  obtain ⟨response, first, hanswer, hfirst, htotal⟩ := totalAmount_of_reportedTotal hreported
  -- the rune has no decimals
  rw [hfirst, Option.all_some, decide_eq_true_eq] at hwhole
  rw [hwhole] at htotal
  exact ⟨s₀, s, hstart, hrun, ⟨l, hl, of_decide_eq_true hfields⟩, hspendable, hreported,
    response, hanswer, htotal.trans (by decide)⟩

end Runehook
