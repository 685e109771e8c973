import Runehook.Api
import Runehook.BalanceRuns
import Runehook.Issuance

/-! # The circulating supply

The API reports as the current supply of a rune what was minted, what was burned and what was
premined (`DbRuneWithChainTip.current`). What is burned does not circulate any more, so that the
report is right as long as nothing of the rune is lost: no balance of it is burned or dropped, and
no sum of its amounts wraps around (`Stage.KeepsSupply`). `Step.keeps` is about one call,
`indexTransaction_circulates` about a transaction and `current_eq_holding` about runs. -/

namespace Runehook

open Lib

/-! ## The rows that a run etches -/

/-- The rows that the stages of a run make of its etchings. -/
def etchedRunes (env : Environment) : List Stage → Session → List DbRune
  | [], _ => []
  | stage :: stages, s =>
    (stage.etchedRune s).toList ++ ((stage.run env s).map (etchedRunes env stages)).getD []

section

variable {env : Environment} {l l' : List Stage} {s t : Session}

theorem etchedRunes_append (hrun : runStages env l s = some t) :
    etchedRunes env (l ++ l') s = etchedRunes env l s ++ etchedRunes env l' t := by
  induction l generalizing s with
  | nil =>
    cases Option.some.inj hrun
    rfl
  | cons first l ih =>
    obtain ⟨u, hu, hrun⟩ := foldlM_cons_eq_some.mp hrun
    rw [List.cons_append, etchedRunes, etchedRunes, hu, Option.map_some, Option.map_some,
      Option.getD_some, Option.getD_some, ih hrun, List.append_assoc]

theorem etchedRunes_singleton (stage : Stage) (s : Session) :
    etchedRunes env [stage] s = (stage.etchedRune s).toList := by
  rw [etchedRunes]
  cases stage.run env s <;> exact List.append_nil _

/-- Only calls etch. -/
theorem etchedRunes_between {stage : Stage} (hcall : ∀ block a, stage ≠ .call block a) :
    etchedRunes env (l ++ [stage]) s = etchedRunes env l s := by
  have hnone : ∀ t, stage.etchedRune t = none := by
    intro t
    cases stage with
    | call block a => exact absurd rfl (hcall block a)
    | _ => rfl
  induction l generalizing s with
  | nil => rw [List.nil_append, etchedRunes_singleton, hnone, Option.toList_none, etchedRunes]
  | cons first l ih =>
    rw [List.cons_append, etchedRunes, etchedRunes]
    congr 3
    funext t
    exact ih

/-- Every row is etched by a stage, in the state that it starts from. -/
theorem exists_of_mem_etchedRunes {row : DbRune} (h : row ∈ etchedRunes env l s) :
    ∃ done stage rest t, l = done ++ stage :: rest ∧ runStages env done s = some t ∧
      stage.etchedRune t = some row := by
  induction l generalizing s with
  | nil => exact absurd h List.not_mem_nil
  | cons first l ih =>
    rcases List.mem_append.mp h with h | h
    · exact ⟨[], first, l, s, rfl, rfl, Option.mem_toList.mp h⟩
    · cases hu : first.run env s with
      | none =>
        rw [hu] at h
        exact absurd h List.not_mem_nil
      | some u =>
        rw [hu] at h
        obtain ⟨done, stage, rest, t, rfl, hdone, hrow⟩ := ih h
        exact ⟨first :: done, stage, rest, t, rfl, foldlM_cons_eq_some.mpr ⟨u, hu, hdone⟩, hrow⟩

/-- **A run keeps track of the runes**, each etched once. -/
theorem runesKnown_run {c : Cursor} {recorded : List DbRune} (h : RunesKnown c recorded s)
    (honce : c.etched.Nodup) (hfollows : Follows c l) (hrun : runStages env l s = some t) :
    RunesKnown (l.foldl Cursor.next c) (recorded ++ etchedRunes env l s) t ∧
      (l.foldl Cursor.next c).etched.Nodup := by
  induction l generalizing c recorded s with
  | nil =>
    cases Option.some.inj hrun
    rw [etchedRunes, List.append_nil]
    exact ⟨h, honce⟩
  | cons stage l ih =>
    obtain ⟨u, hu, hrun⟩ := foldlM_cons_eq_some.mp hrun
    rw [etchedRunes, hu, Option.map_some, Option.getD_some, ← List.append_assoc]
    exact ih (stage.runesKnown_etched h hfollows.1 hu) (hfollows.1.nodup_next honce) hfollows.2 hrun

end

/-! ## What is taken -/

/-- A move of everything stops at its first balance, if that is empty: the total is what was asked
for. -/
def StopsAtOnce (amount : Nat) (balances : List InputRuneBalance) : Prop :=
  amount = 0 ∧ balances.head?.map InputRuneBalance.amount = some 0

theorem ownedAmount_le_totalAmount (a : Address) (balances : List InputRuneBalance) :
    ownedAmount a balances ≤ totalAmount balances := by
  rw [← owned_all, ← owned_address]
  exact tally_le_tally fun _ _ _ => rfl

theorem eq_zero_of_totalAmount {balances : List InputRuneBalance} (h : totalAmount balances = 0)
    {b : InputRuneBalance} (hb : b ∈ balances) : b.amount = 0 := by
  have hle : b.amount ≤ owned (fun _ => true) balances := le_tally hb rfl
  rw [owned_all, h] at hle
  exact Nat.le_zero.mp hle

/-- After a first amount a move of everything goes on to the end. -/
theorem takeBalances_rest {balances : List InputRuneBalance} {totalSent : Nat}
    {senders : List (Nat × Address)} (hpos : 0 < totalSent)
    (hfits : totalSent + totalAmount balances < 2 ^ 128) :
    (takeBalances 0 balances totalSent senders).balances = [] := by
  induction balances generalizing totalSent senders with
  | nil => rfl
  | cons bal rest ih =>
    rw [totalAmount_cons] at hfits
    rw [takeBalances]
    simp only [if_true, Nat.lt_irrefl, if_false,
      u128Add_eq (show totalSent + bal.amount < 2 ^ 128 by omega)]
    rw [if_neg (by omega)]
    exact ih (by omega) (by omega)

/-- A move of everything leaves nothing, if it does not stop at once. -/
theorem takeBalances_all {balances : List InputRuneBalance} (hfits : totalAmount balances < 2 ^ 128)
    (hhead : StopsAtOnce 0 balances → totalAmount balances = 0) :
    totalAmount (takeBalances 0 balances 0 []).balances = 0 := by
  have hexact := @takeBalances_exact 0 balances 0 [] (by omega)
  cases balances with
  | nil => rfl
  | cons bal rest =>
    by_cases hzero : bal.amount = 0
    · rw [hhead ⟨rfl, congrArg some hzero⟩] at hexact
      omega
    · rw [totalAmount_cons] at hfits
      rw [takeBalances]
      simp only [if_true, Nat.lt_irrefl, if_false,
        u128Add_eq (show 0 + bal.amount < 2 ^ 128 by omega)]
      rw [if_neg (by omega), takeBalances_rest (by omega) (by omega), totalAmount_nil]

/-- Where there is nothing, or a move stops at once, nothing is taken. -/
theorem takeBalances_nothing {amount : Nat} {balances : List InputRuneBalance}
    (h : totalAmount balances = 0 ∨ StopsAtOnce amount balances) :
    (takeBalances amount balances 0 []).totalSent = 0 ∧
      ∀ s ∈ (takeBalances amount balances 0 []).senders, s.1 = 0 := by
  rcases h with hzero | ⟨rfl, hhead⟩
  -- nothing to take: every part that is taken is zero
  · have htotal := takeBalances_total amount balances 0 []
    refine ⟨by omega, fun s hs => ?_⟩
    have howned := takeBalances_owned amount s.2 balances 0 []
    have hle := ownedAmount_le_totalAmount s.2 balances
    have hsent : s.1 ≤ sentAmount s.2 (takeBalances amount balances 0 []).senders :=
      le_tally hs (decide_eq_true rfl)
    rw [sentAmount_nil] at howned
    omega
  -- the loop stops at the first balance, which is zero
  · obtain ⟨bal, hbal, hzero⟩ := Option.map_eq_some_iff.mp hhead
    obtain ⟨rest, rfl⟩ := List.head?_eq_some_iff.mp hbal
    have htaken : takeBalances 0 (bal :: rest) 0 [] =
        ⟨rest, 0, (bal.address.map fun senderAddress => (0, senderAddress)).toList⟩ := by
      rw [takeBalances]
      simp [hzero, u128Add]
    rw [htaken]
    refine ⟨rfl, fun s hs => ?_⟩
    obtain ⟨a, -, rfl⟩ := Option.map_eq_some_iff.mp (Option.mem_toList.mp hs)
    rfl

/-! ## What is lost -/

theorem counted_burned_eq_zero {r : RuneId} {es : List DbLedgerEntry}
    (h : ∀ e ∈ es, e.operation = .burn → e.runeId = r → e.value = 0) :
    counted .burned r es = 0 := by
  refine List.sum_eq_zero fun n hn => ?_
  obtain ⟨e, he, rfl⟩ := List.mem_map.mp hn
  obtain ⟨he, hid⟩ := List.mem_filter.mp he
  rw [DbLedgerEntry.counts]
  split
  · exact h e he ‹_› (of_decide_eq_true hid)
  · rfl

/-- A move loses nothing: its output has an address, or it takes nothing. -/
def MoveKeeps (env : Environment) (location : TransactionLocation) (outputs : HashMap Nat ScriptBuf)
    (output : Option Nat) (amount : Nat) (balances : List InputRuneBalance) : Prop :=
  receiverAddress env location outputs output = none → totalAmount balances = 0 ∨
    StopsAtOnce amount balances

/-- The moves of an edict, each on the balances that the moves before it leave. -/
def MovesKeep (env : Environment) (location : TransactionLocation)
    (outputs : HashMap Nat ScriptBuf) :
    List (Option Nat × Nat) → List InputRuneBalance → Prop
  | [], _ => True
  | (output, amount) :: moves, balances => MoveKeeps env location outputs output amount balances ∧
      MovesKeep env location outputs moves (takeBalances amount balances 0 []).balances

instance (amount : Nat) (balances : List InputRuneBalance) :
    Decidable (StopsAtOnce amount balances) :=
  inferInstanceAs (Decidable (_ ∧ _))

instance (env : Environment) (location : TransactionLocation) (outputs : HashMap Nat ScriptBuf)
    (output : Option Nat) (amount : Nat) (balances : List InputRuneBalance) :
    Decidable (MoveKeeps env location outputs output amount balances) :=
  inferInstanceAs (Decidable (_ → _))

/-- Whether the moves of an edict lose anything. -/
instance MovesKeep.decide (env : Environment) (location : TransactionLocation)
    (outputs : HashMap Nat ScriptBuf) :
    ∀ moves balances, Decidable (MovesKeep env location outputs moves balances)
  | [], _ => .isTrue trivial
  | (_, amount) :: moves, balances =>
    have := MovesKeep.decide env location outputs moves (takeBalances amount balances 0 []).balances
    inferInstanceAs (Decidable (_ ∧ _))

/-- A call loses nothing of a rune: no cenotaph has it among its inputs, what is moved of it goes to
an output with an address, the last move does not stop at once, and the balances add up to a `u128`.
The id that the migrations have given away is not etched again with a premine. -/
def TransactionCache.KeepsSupply (env : Environment) (r : RuneId)
    (tx : TransactionCache) : Action → Prop
  | .cenotaph => totalAmount (tx.available r) = 0
  | .etching e => tx.location.runeId = r → r = uncommonGoods.id → e.premine.getD 0 = 0
  | .edict e => tx.edictRuneId e.id = some r → totalAmount (tx.available r) < 2 ^ 128 ∧
      MovesKeep env tx.location tx.eligibleOutputs (tx.edictMoves e (unallocated (tx.available r)))
      (tx.available r)
  | .endTransaction => totalAmount (tx.available r) < 2 ^ 128 ∧
      (receiverAddress env tx.location tx.eligibleOutputs tx.outputPointer = none ∨
        StopsAtOnce 0 (tx.available r) → totalAmount (tx.available r) = 0)
  | _ => True

instance (env : Environment) (r : RuneId) (tx : TransactionCache) :
    ∀ a, Decidable (tx.KeepsSupply env r a)
  | .cenotaph => inferInstanceAs (Decidable (_ = _))
  | .etching _ => inferInstanceAs (Decidable (_ → _ → _))
  | .edict _ => inferInstanceAs (Decidable (_ → _ ∧ _))
  | .endTransaction => inferInstanceAs (Decidable (_ ∧ (_ → _)))
  | .beginTransaction _ | .runestone _ | .cenotaphEtching _ | .mint _ | .cenotaphMint _ =>
    .isTrue trivial

namespace TransactionCache

variable {env : Environment} {r : RuneId} {tx tx' : TransactionCache} {act : Action}
  {es : List DbLedgerEntry} {rs : List DbRune}

theorem senderEntries_value {location : TransactionLocation} {id : RuneId} {output : Option Nat}
    {receiver : Option Address} {operation : DbLedgerOperation}
    {senders : List (Nat × Address)} {n : Nat} (h : ∀ s ∈ senders, s.1 = 0) :
    ∀ e ∈ (senderEntries location id output receiver operation senders n).1, e.value = 0 := by
  induction senders generalizing n with
  | nil => exact fun e he => absurd he List.not_mem_nil
  | cons s senders ih =>
    obtain ⟨hs, hsenders⟩ := List.forall_mem_cons.mp h
    intro e he
    rcases List.mem_cons.mp he with rfl | he
    · exact hs
    · exact ih hsenders e he

theorem burnEntries_value {location : TransactionLocation} {id : RuneId}
    {balances : List InputRuneBalance} {n : Nat} :
    ∀ e ∈ (burnEntries location id balances n).1, ∃ b ∈ balances, e.value = b.amount := by
  induction balances generalizing n with
  | nil => exact fun e he => absurd he List.not_mem_nil
  | cons b balances ih =>
    intro e he
    rcases List.mem_cons.mp he with rfl | he
    · exact ⟨b, List.mem_cons_self, rfl⟩
    · obtain ⟨b', hb', hvalue⟩ := ih e he
      exact ⟨b', List.mem_cons_of_mem _ hb', hvalue⟩

/-- **A move that loses nothing** credits what it takes. -/
theorem moveRuneBalanceToOutput_keeps {location : TransactionLocation}
    {outputs : HashMap Nat ScriptBuf} {output : Option Nat} {balances : List InputRuneBalance}
    {amount : Nat} (hfits : totalAmount balances < 2 ^ 128)
    (hkeeps : MoveKeeps env location outputs output amount balances) (id : RuneId) (n : Nat) :
    received id (moveRuneBalanceToOutput env location output id balances outputs amount n).entries +
        totalAmount (takeBalances amount balances 0 []).balances = totalAmount balances ∧
      ∀ e ∈ (moveRuneBalanceToOutput env location output id balances outputs amount n).entries,
        e.operation = .burn → e.value = 0 := by
  have hexact := @takeBalances_exact amount balances 0 [] (by omega)
  rw [moveRuneBalanceToOutput_received]
  cases hreceiver : receiverAddress env location outputs output with
  | some a =>
    -- an output receives all that was taken, and nothing is burned
    rw [Option.isSome_some, if_pos ⟨rfl, rfl⟩]
    refine ⟨by omega, fun e he hop => ?_⟩
    rcases (moveRuneBalanceToOutput_moveOf e he).operation with ⟨hop', -⟩ | ⟨hop', -⟩
    · cases hop.symm.trans hop'
    · rw [hreceiver] at hop'
      cases hop.symm.trans hop'
  | none =>
    -- without an output nothing may have been taken
    obtain ⟨hsent, hsenders⟩ := takeBalances_nothing (hkeeps hreceiver)
    rw [Option.isSome_none, if_neg fun h => Bool.false_ne_true h.2]
    refine ⟨by omega, fun e he _ => ?_⟩
    rw [moveRuneBalanceToOutput, hreceiver] at he
    exact senderEntries_value hsenders e he

theorem applyMoves_keeps {location : TransactionLocation} {outputs : HashMap Nat ScriptBuf}
    (id : RuneId) (moves : List (Option Nat × Nat)) {balances : List InputRuneBalance}
    (hfits : totalAmount balances < 2 ^ 128)
    (hkeeps : MovesKeep env location outputs moves balances) (n : Nat) :
    received id (applyMoves env location id outputs moves balances n).entries +
        totalAmount (applyMoves env location id outputs moves balances n).balances =
      totalAmount balances ∧
      ∀ e ∈ (applyMoves env location id outputs moves balances n).entries, e.operation = .burn →
      e.value = 0 := by
  induction moves generalizing balances n with
  | nil => exact ⟨Nat.zero_add _, fun e he => absurd he List.not_mem_nil⟩
  | cons move moves ih =>
    obtain ⟨htotal, hburns⟩ := moveRuneBalanceToOutput_keeps hfits hkeeps.1 id n
    obtain ⟨htotal', hburns'⟩ :=
      @ih (takeBalances move.2 balances 0 []).balances (by omega) hkeeps.2
        (moveRuneBalanceToOutput env location move.1 id balances outputs move.2 n).nextEventIndex
    rw [applyMoves]
    refine ⟨?_, fun e he => ?_⟩
    · rw [received_append, ← htotal, ← htotal', ← Nat.add_assoc]
      rfl
    · rcases List.mem_append.mp he with he | he
      · exact hburns e he
      · exact hburns' e he

/-- **A call that loses nothing of a rune** leaves to allocate, or credits, what there was, what it
mints and what it premines; and it burns nothing. -/
theorem Step.keeps (h : tx.Step env act es rs tx') (hkeeps : tx.KeepsSupply env r act)
    (hcenotaph : ∀ id, act = .cenotaphMint id → ∀ e ∈ es, e.runeId = r → e.value = 0) :
    received r es + totalAmount (tx'.available r) =
        totalAmount (tx.available r) + minted r es + act.premine tx.location r ∧
      counted .burned r es = 0 := by
  -- an entry of a kind other than a burn adds nothing to the burns
  have hplain : ∀ {amount : Option Nat} {id : RuneId} {operation : DbLedgerOperation},
      operation ≠ .burn → counted .burned r [tx.plainEntry amount id operation] = 0 := by
    intro amount id operation hne
    refine counted_burned_eq_zero fun e he hop => ?_
    rw [List.mem_singleton.mp he] at hop
    exact absurd hop hne
  have hminted : act.step ≠ 3 → minted r es = 0 := fun hstep =>
    minted_eq_zero fun e he hop => absurd hop (h.operation_ne_mint hstep e he)
  cases h with
  | runestone => exact ⟨Nat.zero_add _, rfl⟩
  | noMint | noCenotaphMint | noEdict => exact ⟨Nat.zero_add _, rfl⟩
  | cenotaph =>
    -- the condition leaves a cenotaph nothing of the rune to burn
    have hzero : totalAmount (tx.available r) = 0 := hkeeps
    have hempty : (tx.applyCenotaphInputBurn env).1.available r = [] := available_clear tx _ r
    refine ⟨?_, counted_burned_eq_zero ?_⟩
    · rw [received_applyCenotaphInputBurn, hempty, hzero, hminted (by decide)]
      rfl
    · refine forall_mem_overRunes (fun id n e he _ hid => ?_) _ _
      obtain ⟨b, hb, hvalue⟩ := burnEntries_value e he
      rw [(burnEntries_spec _ _ _ n e he).2.1] at hid
      rw [hvalue]
      exact eq_zero_of_totalAmount hzero (hid ▸ hb)
  | etching e =>
    refine ⟨?_, hplain (by decide)⟩
    rw [received_plainEntry _ _ _ _ (by decide), available_withEtching, Action.premine,
      minted_plainEntry]
    split
    · cases e.premine <;> simp
    · simp
  | cenotaphEtching =>
    refine ⟨?_, hplain (by decide)⟩
    rw [received_plainEntry _ _ _ _ (by decide), available_withEtching, minted_plainEntry]
    split <;> simp [Action.premine]
  | @mint id rune n amount _ hamount =>
    refine ⟨?_, hplain (by decide)⟩
    rw [received_plainEntry _ _ _ _ (by decide), totalAmount_available_nextEvent,
      available_addInputRunes, minted_plainEntry]
    -- an accepted mint adds its amount to the unallocated balances of its own rune only
    by_cases hid : r = id
    · simp [hid, Action.premine]
    · simp [hid, Ne.symm hid, Action.premine]
  | @cenotaphMint id rune n amount _ hamount =>
    refine ⟨?_, counted_burned_eq_zero fun e he _ hid => hcenotaph id rfl e he hid⟩
    rw [received_plainEntry _ _ _ _ (by decide), totalAmount_available_nextEvent, minted_plainEntry]
    simp [Action.premine]
  | edict e =>
    rcases applyEdict_cases env tx e with he | ⟨id, balances, hid, hlookup, he⟩ <;> rw [he]
    · exact ⟨by simp [Action.premine], rfl⟩
    · rw [he] at hminted
      rw [hminted (by simp [Action.step]), available_insert]
      by_cases hr : r = id
      · subst hr
        -- the condition bounds exactly what the moves of the edict receive and burn
        obtain ⟨hfits, hmoves⟩ := hkeeps hid
        have hav : tx.available r = balances := by
          rw [available, HashMap.getD, hlookup, Option.getD_some]
        rw [hav] at hfits hmoves
        obtain ⟨htotal, hburns⟩ := applyMoves_keeps r _ hfits hmoves tx.nextEventIndex
        rw [if_pos rfl, hav]
        exact ⟨htotal, counted_burned_eq_zero fun e he hop _ => hburns e he hop⟩
      -- an edict of another rune writes no entry of this one
      · rw [if_neg hr, ← received_ofRune, ofRune_applyMoves_of_ne (Ne.symm hr), received_nil]
        refine ⟨Nat.zero_add _, counted_burned_eq_zero fun e he _ hid => ?_⟩
        obtain ⟨output, hmove⟩ := applyMoves_moveOf _ _ _ e he
        exact absurd (hid.symm.trans hmove.runeId) hr
  | endTransaction =>
    obtain ⟨hfits, hlost⟩ := hkeeps
    have hmove : MoveKeeps env tx.location tx.eligibleOutputs tx.outputPointer 0 (tx.available r) :=
      fun hnone => Or.inl (hlost (Or.inl hnone))
    have hempty : (tx.allocateRemainingBalances env).1.available r = [] := available_clear tx _ r
    refine ⟨?_, counted_burned_eq_zero ?_⟩
    · rw [hempty, hminted (by decide), ← received_ofRune]
      obtain ⟨hnone, hsome⟩ := ofRune_allocate env tx r
      -- the rest of the rune is moved whole, as the move neither stops early nor drops a part
      by_cases hid : r ∈ tx.inputRunes.keys
      · obtain ⟨m, hm⟩ := hsome hid
        have htotal := (moveRuneBalanceToOutput_keeps hfits hmove r m).1
        rw [takeBalances_all hfits fun hstops => hlost (Or.inr hstops)] at htotal
        rw [hm]
        exact htotal
      · rw [hnone hid, available_of_not_mem hid]
        rfl
    · refine forall_mem_overRunes (fun id n e he hop hid => ?_) _ _
      rw [(moveToPointer_moveOf env tx id n e he).runeId] at hid
      subst hid
      exact (moveRuneBalanceToOutput_keeps hfits hmove id n).2 e he hop

end TransactionCache

/-! ## One transaction -/

/-- The call that a stage makes. -/
def Stage.action : Stage → Option Action
  | .call _ a => some a
  | _ => none

namespace Session

/-- The amount that a mint of a rune would be of, zero if the rune is unknown. -/
def mintAmount (id : RuneId) (s : Session) : Nat :=
  (((s.getCachedRuneByRuneId id).bind Prod.fst).bind DbRune.termsAmount).getD 0

/-- The lookup of a rune is what `get_cached_rune_by_rune_id` returns. -/
theorem RuneLookup.eq_some {id : RuneId} {s t : Session} {rune : Option DbRune}
    (h : s.RuneLookup id rune t) :
    s.getCachedRuneByRuneId id = some (rune, t) := by
  rw [getCachedRuneByRuneId]
  cases h with
  | etching hid => exact if_pos ((RuneId.eq_placeholder_iff id).mpr hid)
  | hit hid hpeek =>
    rw [if_neg fun h => hid ((RuneId.eq_placeholder_iff id).mp h), LruCache.get, hpeek]
  | unknown hid hpeek hflush hdb =>
    rw [if_neg fun h => hid ((RuneId.eq_placeholder_iff id).mp h), LruCache.get, hpeek]
    simp [hflush, hdb]
  | miss hid hpeek hflush hdb =>
    rw [if_neg fun h => hid ((RuneId.eq_placeholder_iff id).mp h), LruCache.get, hpeek]
    simp [hflush, hdb]

/-- A cenotaph's mint writes one entry at most, of the amount of a mint. -/
theorem value_of_cenotaphMint {id : RuneId} {s s' : Session} {es : List DbLedgerEntry}
    (hrun : s.applyCenotaphMint id = some s') (hentries : s'.entries = s.entries ++ es)
    (hzero : s.acceptsMint id = true → s.mintAmount id = 0) : ∀ e ∈ es, e.value = 0 := by
  have hnil : s.Writes [] [] s' → ∀ e ∈ es, e.value = 0 := by
    intro hwrites e he
    rw [List.append_cancel_left (hentries.symm.trans hwrites.entries_eq)] at he
    exact absurd he List.not_mem_nil
  have hout := applyCenotaphMint_cases hrun
  cases hout with
  | unknown _ hrune => exact hnil hrune.writes
  | refused _ hrune htotal =>
    refine hnil ((hrune.writes.nil_trans htotal.writes).nil_trans (.quiet (.setTxCache _ _)))
  | @accepted t u v rune total entry haccepts hrune htotal _ hsome hadd =>
    have hamount := TransactionCache.applyCenotaphMint_amount _ _ _ _ _ hsome
    have hmint := hzero haccepts
    rw [mintAmount, hrune.eq_some] at hmint
    obtain ⟨hv, -⟩ := writes_add hadd
    have hall := (hrune.writes.nil_trans htotal.writes).nil_trans hv
    -- the burned mint writes one entry
    have hes : es = [entry] := List.append_cancel_left (hentries.symm.trans hall.entries_eq)
    intro e he
    rw [hes] at he
    rw [List.mem_singleton.mp he, DbLedgerEntry.value, hamount]
    exact hmint

end Session

/-- A stage loses nothing of a rune. What a cenotaph mints is burned. -/
def Stage.KeepsSupply (env : Environment) (r : RuneId) (s : Session) (stage : Stage) : Prop :=
  (stage.cenotaphMintId = some r → s.acceptsMint r = true → s.mintAmount r = 0) ∧
    ∀ a ∈ stage.action, s.cache.txCache.KeepsSupply env r a

instance (env : Environment) (r : RuneId) (s : Session) (stage : Stage) :
    Decidable (stage.KeepsSupply env r s) :=
  inferInstanceAs (Decidable (_ ∧ _))

/-- What such a stage does if it is a call: the mint of a cenotaph writes no amount of the rune. -/
theorem Stage.KeepsSupply.call {env : Environment} {r : RuneId} {block : Block} {a : Action}
    {s s' : Session} {es : List DbLedgerEntry} {rs : List DbRune}
    (h : (Stage.call block a).KeepsSupply env r s) (hrun : a.run env block s = some s')
    (hentries : s'.entries = s.entries ++ es)
    (hstep : s.cache.txCache.Step env a es rs s'.cache.txCache) :
    s.cache.txCache.KeepsSupply env r a ∧
      ∀ id, a = .cenotaphMint id → ∀ e ∈ es, e.runeId = r → e.value = 0 := by
  obtain ⟨hmint, hcall⟩ := h
  refine ⟨hcall a rfl, fun id heq e he hid => ?_⟩
  subst heq
  have hrune : e.runeId = id := by
    generalize s'.cache.txCache = tx at hstep
    cases hstep with
    | cenotaphMint =>
      rw [List.mem_singleton.mp he]
      rfl
    | noCenotaphMint => exact absurd he List.not_mem_nil
  cases hrune.symm.trans hid
  exact Session.value_of_cenotaphMint hrun hentries (hmint rfl) e he

/-- What was premined and minted of a rune is held by unspent outputs, and nothing was burned. -/
def Circulates (env : Environment) (r : RuneId) (s₀ : Session) (l : List Stage)
    (txs : List Transaction) (es : List DbLedgerEntry) : Prop :=
  holding (fun _ => true) r (laterSpends [] txs) es =
    preminedOf r (etchedRunes env l s₀) + minted r es ∧ counted .burned r es = 0

theorem received_eq_holding (r : RuneId) (es : List DbLedgerEntry) :
    received r es = holding (fun _ => true) r [] es := by
  refine tally_congr fun e _ => decide_eq_decide.mpr ?_
  cases e.outputKey <;> simp

/-- **A transaction keeps the supply of a rune in circulation.** -/
theorem indexTransaction_circulates {env : Environment} {block : Block} {r : RuneId}
    {l : List Stage} {txs : List Transaction} {tx : Transaction}
    {earlier current : List DbLedgerEntry} {s₀ s s' : Session} (h : Before txs tx earlier current s)
    (hl : runStages env l s₀ = some s) (hcirculates : Circulates env r s₀ l txs s.entries)
    (hsafe : EveryStage env (Stage.KeepsSupply env r) (tx.stages env block) s)
    (hrun : indexTransaction env block s tx = some s') :
    Circulates env r s₀ (l ++ tx.stages env block) (txs ++ [tx]) s'.entries := by
  obtain ⟨t, hbegin, hcalls⟩ := indexTransaction_eq_some.mp hrun
  have hlocation : t.cache.txCache.location = tx.location block s.cache.network := by
    obtain ⟨-, rfl⟩ := run_beginTransaction hbegin
    rfl
  have hentries : t.entries = s.entries := by
    obtain ⟨-, rfl⟩ := run_beginTransaction hbegin
    rfl
  -- after every call, what is still in the transaction has not been credited
  have hind := calls_induction_every
    (P := fun done u => u.cache.txCache.location = tx.location block s.cache.network ∧
      runStages env (l ++ .call block (.beginTransaction tx) :: done.map (Stage.call block)) s₀ =
        some u ∧ holding (fun _ => true) r (laterSpends [] (txs ++ [tx])) u.entries +
          totalAmount (u.cache.txCache.available r) = preminedOf r (etchedRunes env
            (l ++ .call block (.beginTransaction tx) :: done.map (Stage.call block)) s₀) +
      minted r u.entries ∧ counted .burned r u.entries = 0) hsafe hbegin
    ⟨hlocation, ?_, ?_⟩ ?_ hcalls
  · obtain ⟨-, -, hfinal, hburned⟩ := hind
    rw [Transaction.available_of_calls hcalls, totalAmount_nil, Nat.add_zero] at hfinal
    exact ⟨hfinal, hburned⟩
  · exact foldlM_append_eq_some.mpr ⟨s, hl, foldlM_singleton_eq_some.mpr hbegin⟩
  · obtain ⟨hheld, hburned⟩ := hcirculates
    have hspend :=
      holding_begin (q := fun _ => true) r h.layered h.separate h.fromTxs h.nodup hbegin
    rw [owned_all] at hspend
    rw [hentries, etchedRunes_append hl, preminedOf_append, ← hspend, hheld]
    refine ⟨?_, hburned⟩
    show _ = _ + preminedOf r (etchedRunes env [.call block (.beginTransaction tx)] s) + _
    rw [etchedRunes_singleton]
    rfl
  · rintro done act u u' es rs hkeeps ⟨hu, hdone, hbalance, hburned⟩ hact hwrites hstep
    refine ⟨hstep.location_eq.trans hu, ?_, ?_⟩
    · rw [List.map_append, List.map_singleton, ← List.cons_append, ← List.append_assoc]
      exact foldlM_append_eq_some.mpr ⟨u, hdone, foldlM_singleton_eq_some.mpr hact⟩
    · obtain ⟨htx, hcenotaph⟩ := hkeeps.call hact hwrites.entries_eq hstep
      obtain ⟨htotal, hnone⟩ := hstep.keeps htx hcenotaph
      have hcredit : holding (fun _ => true) r (laterSpends [] (txs ++ [tx])) es =
          received r es := by
        rw [received_eq_holding]
        refine holding_call h.new fun e he => ?_
        rw [(hstep.at_location e he).txId, hu]
        rfl
      have hpremine : act.premine u.cache.txCache.location r =
          preminedOf r (act.etchedRune u).toList :=
        (Stage.call block act).premine_eq u r
      rw [List.map_append, List.map_singleton, ← List.cons_append, ← List.append_assoc,
        etchedRunes_append hdone,
        etchedRunes_singleton, preminedOf_append, hwrites.entries_eq, holding_append, minted_append,
        counted_append, hcredit, hburned, hnone]
      refine ⟨?_, rfl⟩
      show _ = _ + preminedOf r (act.etchedRune u).toList + _
      omega

/-! ## Runs -/

theorem counted_minted (r : RuneId) (es : List DbLedgerEntry) :
    counted .minted r es = minted r es := by
  induction es with
  | nil => rfl
  | cons e es ih =>
    rw [counted, minted, tally_cons, tally_cons, ← counted, ← minted, ih, DbLedgerEntry.counts]
    by_cases hid : e.runeId = r <;> by_cases hop : e.operation = .mint <;> simp [hid, hop]

/-- The latest row of a rune has in each counter what its ledger rows add up to. -/
theorem RestSound.counter_eq {blocks : List Block} {s : Session}
    (h : RestSound blocks s) {r : RuneId} {row : DbSupplyChange}
    (hrow : s.db.latestSupply r = some row) (counter : SupplyCounter) :
    row.counter counter = counted counter r s.db.ledger := by
  obtain ⟨k, hk⟩ : ∃ k, ∀ e ∈ s.db.ledger, e.blockHeight ≤ k :=
    ⟨tally (fun _ => true) DbLedgerEntry.blockHeight s.db.ledger, fun e he => le_tally he rfl⟩
  have hreading := h.supply.reading counter trivial r (k + 1)
  rw [below_of_lt fun e he => Nat.lt_succ_of_le (hk e he), reading,
    latestBefore_eq_latest] at hreading
  · rw [← hreading,
      show latest DbSupplyChange.runeId DbSupplyChange.blockHeight r s.db.supplyChanges = some row
      from hrow]
    rfl
  · exact fun c hc => Nat.lt_succ_of_le (h.supply.height_le hk c hc)

/-- A row of the table states the premine of its rune, unless the rune is that of the migrations and
another one with a premine was etched under its id. -/
theorem RunesKnown.premine_eq {c : Cursor} {recorded : List DbRune} {s : Session}
    (h : RunesKnown c recorded s) (honce : c.etched.Nodup) {rune : DbRune}
    (hrune : rune ∈ s.db.runes) (hgoods : rune.id = uncommonGoods.id → ∀ row ∈ recorded,
      row.id = rune.id → row.premine = 0) :
    rune.premine = preminedOf rune.id recorded := by
  obtain ⟨row, hrow, heq⟩ := h.stored rune hrune
  have hid : rune.id = row.id := by rw [heq]
  have hpremine : rune.premine = row.premine := by rw [heq]
  rcases List.mem_cons.mp hrow with rfl | hrow
  · rw [hpremine, preminedOf, tally, List.sum_eq_zero]
    · rfl
    · intro n hn
      obtain ⟨row, hrow, rfl⟩ := List.mem_map.mp hn
      obtain ⟨hrow, hrowid⟩ := List.mem_filter.mp hrow
      exact hgoods hid row hrow (of_decide_eq_true hrowid)
  · rw [hpremine, hid, preminedOf_of_mem (h.ids.symm ▸ honce) hrow]

/-- The premine of a row that a stage etches is the one of its etching. -/
theorem Stage.KeepsSupply.premine_eq_zero {env : Environment} {r : RuneId}
    {stage : Stage} {s : Session} {row : DbRune} (h : stage.KeepsSupply env r s)
    (hrow : stage.etchedRune s = some row) (hid : row.id = r) (hgoods : r = uncommonGoods.id) :
    row.premine = 0 := by
  cases stage with
  | call block a =>
    cases a with
    | etching e =>
      cases Option.some.inj hrow
      exact h.2 _ rfl hid hgoods
    | cenotaphEtching rune =>
      cases Option.some.inj hrow
      rfl
    | _ => cases hrow
  | _ => cases hrow

/-- **The reported supply is the circulating supply**, after a run without rollbacks on a chain,
whose stages lose nothing of the rune and whose sums stay in the range of a `u128`: the `current` of
`parseEtchingResponse` is what the outputs that are credited and not spent hold of the rune. -/
theorem current_eq_holding {env : Environment} {network : Network} {cap : Nat} {hcap : 0 < cap}
    {events : List Event} {s₀ s : Session} {rune : DbRune} {row : DbRuneWithChainTip}
    (hforward : ∀ e ∈ events, e.Forward) (hchain : Chain (indexedBlocks events))
    (hids : (txIds (indexedBlocks events)).Nodup) (hspends : (spends (indexedBlocks events)).Nodup)
    (hstart : freshSession network cap hcap = some s₀) (hrun : runEvents env events s₀ = some s)
    (hoverflow : NoOverflow env events s₀)
    (hsafe : EveryStage env (Stage.KeepsSupply env rune.id) (stages env events) s₀)
    (hrune : rune ∈ s.db.runes) (hrow : s.db.etching rune = some row) :
    row.current =
      holding (fun _ => true) rune.id (laterSpends [] (transactions (indexedBlocks events)))
      s.db.ledger := by
  obtain ⟨hempty, hdb⟩ := freshSession_eq_some hstart
  obtain ⟨hheld, hburned⟩ := runEvents_txs (P := Circulates env rune.id s₀)
    (fun l stage txs es hcall hP => ⟨by rw [etchedRunes_between hcall]; exact hP.1, hP.2⟩)
    (fun l txs block tx earlier current t t' hbefore hl hP hstages hstep =>
      indexTransaction_circulates hbefore hl hP hstages hstep)
    hempty hdb hforward hids hspends hsafe ⟨rfl, rfl⟩ hrun
  have hrest :=
    runEvents_restSound hempty hdb (survivingChain_of_forward hforward hchain.heights_pairwise)
      hoverflow hrun
  have hentries : s.entries = s.db.ledger := by
    rw [Session.entries, hrest.dbCache]
    exact List.append_nil _
  rw [hentries] at hheld hburned
  -- what was premined is what the row of the rune says
  obtain ⟨hknown, honce⟩ := runesKnown_run (MintsTracked.start hstart).known List.nodup_nil
    (stages_follow env hforward hchain.increasing) (runEvents_eq_runStages env events s₀ ▸ hrun)
  have hpremine := hknown.premine_eq honce hrune fun hgoods row hrow hid => by
    obtain ⟨done, stage, rest, t, hsplit, hdone, hetched⟩ := exists_of_mem_etchedRunes hrow
    exact (hsafe done stage rest t hsplit hdone).premine_eq_zero hetched hid hgoods
  rw [List.nil_append] at hpremine
  -- the counters are those of the ledger
  obtain ⟨supply, hsupply, rfl⟩ := Option.map_eq_some_iff.mp hrow
  have hminted := hrest.counter_eq hsupply .minted
  have hnone := hrest.counter_eq hsupply .burned
  rw [counted_minted] at hminted
  rw [hburned] at hnone
  show supply.counter .minted + supply.counter .burned + rune.premine = _
  rw [hminted, hnone, hheld, hpremine]
  omega

/-- What alice minted and bob was sent is what the API reports. -/
theorem current_eq_holding_mintAndSpend :
    ∃ s₀ s row, freshSession .bitcoin 2 (by decide) = some s₀ ∧
    runEvents mintEnv mintAndSpend s₀ = some s ∧ s.db.etching uncommonGoods = some row ∧
      row.current = 1 ∧
      row.current =
      holding (fun _ => true) uncommonGoods.id (laterSpends [] [mintTx, spendTx]) s.db.ledger := by
  have hruns : (freshSession .bitcoin 2 (by decide)).any fun s₀ =>
      ((runEvents mintEnv mintAndSpend s₀).any fun s => uncommonGoods ∈ s.db.runes ∧
        (s.db.etching uncommonGoods).any fun row => row.current = 1) ∧
      checkStages mintEnv (fun s stage => stage.KeepsSupply mintEnv uncommonGoods.id s)
        (stages mintEnv mintAndSpend) s₀ := by decide +kernel
  obtain ⟨s₀, hstart, h⟩ := (Option.any_eq_true _ _).mp hruns
  obtain ⟨hany, hcheck⟩ := of_decide_eq_true h
  obtain ⟨s, hrun, h⟩ := (Option.any_eq_true _ _).mp hany
  obtain ⟨hrune, hany⟩ := of_decide_eq_true h
  obtain ⟨row, hrow, hone⟩ := (Option.any_eq_true _ _).mp hany
  have hforward : ∀ e ∈ mintAndSpend, e.Forward := by
    simp [mintAndSpend, mintAndRestart, Event.Forward]
  have hchain : Chain (indexedBlocks mintAndSpend) := ⟨by decide, by decide⟩
  exact ⟨s₀, s, row, hstart, hrun, hrow, of_decide_eq_true hone,
    current_eq_holding hforward hchain (by decide)
    (by decide) hstart hrun (mintAndSpend_noOverflow hstart)
    (.of_check (fun _ _ h => of_decide_eq_true h) hcheck) hrune hrow⟩

/-- **What is burned is reported twice**: alice spends what was minted to her to an output without
address, and the supply that the API reports grows from one to two, where nothing is held any
more. -/
theorem exists_current_ne_holding : ∃ s₀ s row, freshSession .bitcoin 2 (by decide) = some s₀ ∧
    runEvents mintEnv [.index mintBlock, .index { spendBlock with transactions := [burnTx] }] s₀ =
      some s ∧
      uncommonGoods ∈ s.db.runes ∧ s.db.etching uncommonGoods = some row ∧ row.current = 2 ∧
        holding (fun _ => true) uncommonGoods.id (laterSpends [] [mintTx, burnTx])
        s.db.ledger = 0 := by
  have hruns : (freshSession .bitcoin 2 (by decide)).any fun s₀ =>
      (runEvents mintEnv [.index mintBlock, .index { spendBlock with transactions := [burnTx] }]
        s₀).any fun s =>
        (uncommonGoods ∈ s.db.runes ∧
          holding (fun _ => true) uncommonGoods.id (laterSpends [] [mintTx, burnTx])
          s.db.ledger = 0) ∧ (s.db.etching uncommonGoods).any fun row => row.current = 2 := by
          decide +kernel
  obtain ⟨s₀, hstart, h⟩ := (Option.any_eq_true _ _).mp hruns
  obtain ⟨s, hrun, h⟩ := (Option.any_eq_true _ _).mp h
  obtain ⟨⟨hrune, hholding⟩, hany⟩ := of_decide_eq_true h
  obtain ⟨row, hrow, htwo⟩ := (Option.any_eq_true _ _).mp hany
  exact ⟨s₀, s, row, hstart, hrun, hrune, hrow, of_decide_eq_true htwo, hholding⟩

end Runehook
