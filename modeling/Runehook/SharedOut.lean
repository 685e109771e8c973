import Runehook.RegularRuns

/-! # What the edicts share out

The edicts of a transaction and the final allocation, on a session whose lookups are truthful. A
premine or a mint may be of zero units. Such a balance stands last in its deque and nobody owns it
(`ZerosLast`), so that it stops no move before its time: the moves share out the total by the rule
(`Session.applyEdict_shares`, `Session.endTransaction_shares`, and `edicts_share` for all of
them). -/

namespace Runehook

open Lib

/-! ## Balances of nothing -/

/-- Only the last balances may be of nothing, and nobody owns those. -/
def ZerosLast (balances : List InputRuneBalance) : Prop :=
  ∃ some zeros, balances = some ++ zeros ∧ (∀ b ∈ some, 0 < b.amount) ∧ ∀ z ∈ zeros, z = ⟨none, 0⟩

/-- Units that are taken from nothing are none. -/
theorem takeBalances_zeros (amount : Nat) {zeros : List InputRuneBalance}
    (hzeros : ∀ z ∈ zeros, z = ⟨none, 0⟩) {totalSent : Nat} (senders : List (Nat × Address))
    (hlt : totalSent < 2 ^ 128) :
    ∃ left, left.Sublist zeros ∧ takeBalances amount zeros totalSent senders =
      ⟨left, totalSent, senders⟩ := by
  induction zeros with
  | nil => exact ⟨[], List.Sublist.refl _, rfl⟩
  | cons z zeros ih =>
    obtain ⟨hz, hzeros⟩ := List.forall_mem_cons.mp hzeros
    -- a zero adds nothing to what was sent
    have hsame : u128Add totalSent 0 = totalSent := Nat.mod_eq_of_lt hlt
    have hnone : (if amount = 0 then 0 else min 0 (amount - totalSent)) = 0 := by split <;> omega
    have hstep : takeBalances amount (z :: zeros) totalSent senders =
        if totalSent = amount then ⟨zeros, totalSent, senders⟩
        else takeBalances amount zeros totalSent senders := by
      rw [takeBalances, hz]
      simp only [hnone, hsame, lt_irrefl, if_false, Option.map_none, Option.toList_none,
        List.append_nil]
    rw [hstep]
    split
    · exact ⟨zeros, List.sublist_cons_self z zeros, rfl⟩
    · obtain ⟨left, hleft, htake⟩ := ih hzeros
      exact ⟨left, hleft.cons z, htake⟩

/-- Balances of nothing at the end of a deque do not change what is taken from it. -/
theorem takeBalances_append_zeros (amount : Nat) (balances : List InputRuneBalance)
    {zeros : List InputRuneBalance} (hzeros : ∀ z ∈ zeros, z = ⟨none, 0⟩) {totalSent : Nat}
    (senders : List (Nat × Address)) (hlt : totalSent < 2 ^ 128) :
    ∃ left, left.Sublist zeros ∧ takeBalances amount (balances ++ zeros) totalSent senders =
      { takeBalances amount balances totalSent senders with
        balances := (takeBalances amount balances totalSent senders).balances ++ left } := by
  induction balances generalizing totalSent senders with
  | nil => exact takeBalances_zeros amount hzeros senders hlt
  | cons b balances ih =>
    rw [List.cons_append, takeBalances, takeBalances]
    generalize (if amount = 0 then b.amount else min b.amount (amount - totalSent)) = taken
    dsimp only
    split
    · exact ⟨zeros, List.Sublist.refl _, rfl⟩
    · split
      · exact ⟨zeros, List.Sublist.refl _, rfl⟩
      · exact ih _ (Nat.mod_lt _ (by norm_num))

/-- Nor do they change the moves. -/
theorem movesRows_append_zeros (receiver : Option Nat → Option Address) (id : RuneId)
    (moves : List (Option Nat × Nat)) (balances : List InputRuneBalance)
    {zeros : List InputRuneBalance} (hzeros : ∀ z ∈ zeros, z = ⟨none, 0⟩) :
    movesRows receiver id moves (balances ++ zeros) = movesRows receiver id moves balances ∧
      ∃ left, left.Sublist zeros ∧ movesRest moves (balances ++ zeros) =
        movesRest moves balances ++ left := by
  induction moves generalizing balances zeros with
  | nil => exact ⟨rfl, zeros, List.Sublist.refl _, rfl⟩
  | cons move moves ih =>
    obtain ⟨left, hleft, htake⟩ :=
      takeBalances_append_zeros move.2 balances hzeros [] (Nat.two_pow_pos 128)
    obtain ⟨hrows, left', hleft', hrest⟩ := ih (takeBalances move.2 balances 0 []).balances
      fun z hz => hzeros z (hleft.subset hz)
    rw [movesRows, movesRows, movesRest, movesRest, htake]
    dsimp only
    rw [hrows, hrest]
    exact ⟨rfl, left', hleft'.trans hleft, rfl⟩

namespace ZerosLast

variable {balances : List InputRuneBalance}

theorem of_pos (h : ∀ b ∈ balances, 0 < b.amount) : ZerosLast balances :=
  ⟨balances, [], (List.append_nil _).symm, h, fun _ hz => absurd hz List.not_mem_nil⟩

theorem nil : ZerosLast [] := .of_pos fun _ hb => absurd hb List.not_mem_nil

/-- What is premined or minted is put last. -/
theorem concat (h : ∀ b ∈ balances, 0 < b.amount) (amount : Nat) :
    ZerosLast (balances ++ [⟨none, amount⟩]) := by
  rcases Nat.eq_zero_or_pos amount with rfl | hpos
  · exact ⟨balances, [⟨none, 0⟩], rfl, h, List.forall_mem_singleton.mpr rfl⟩
  · exact .of_pos (List.forall_mem_append.mpr ⟨h, List.forall_mem_singleton.mpr hpos⟩)

/-- **The moves share out the total**, and what they leave is as before. -/
theorem moves (h : ZerosLast balances) (hfits : totalAmount balances < 2 ^ 128)
    (receiver : Option Nat → Option Address) (id : RuneId) (moves : List (Option Nat × Nat)) :
    receives (movesRows receiver id moves balances) =
      receiveRows receiver id (serve moves (totalAmount balances)) ∧
      ZerosLast (movesRest moves balances) ∧
      totalAmount (movesRest moves balances) = movesLeave moves (totalAmount balances) := by
  obtain ⟨some, zeros, rfl, hpos, hzeros⟩ := h
  -- zeros have no total
  have hnone : ∀ l : List InputRuneBalance, (∀ z ∈ l, z = ⟨none, 0⟩) →
      totalAmount l = 0 := fun l hl =>
    List.sum_eq_zero fun n hn => by
      obtain ⟨z, hz, rfl⟩ := List.mem_map.mp hn
      rw [hl z hz]
  obtain ⟨hrows, left, hleft, hrest⟩ := movesRows_append_zeros receiver id moves some hzeros
  have hzeros' : ∀ z ∈ left, z = ⟨none, 0⟩ := fun z hz => hzeros z (hleft.subset hz)
  have htotal : totalAmount (some ++ zeros) = totalAmount some := by
    rw [totalAmount_append, hnone zeros hzeros, Nat.add_zero]
  rw [htotal] at hfits ⊢
  obtain ⟨hpos', htotal'⟩ : (∀ b ∈ movesRest moves some, 0 < b.amount) ∧ _ :=
    movesRest_left hpos hfits
  refine ⟨hrows ▸ receives_movesRows hpos hfits, ⟨_, left, hrest, hpos', hzeros'⟩, ?_⟩
  rw [hrest, totalAmount_append, hnone left hzeros', htotal', Nat.add_zero]

end ZerosLast

/-! ## What the rule reads -/

namespace TransactionCache

/-- The two transactions have the same outline: all that the rule for a rune reads. -/
structure SameOutline (tx tx' : TransactionCache) : Prop where
  /-- The place in the chain. -/
  location : tx'.location = tx.location
  /-- The outputs that can get runes. -/
  eligibleOutputs : tx'.eligibleOutputs = tx.eligibleOutputs
  /-- The number of outputs. -/
  totalOutputs : tx'.totalOutputs = tx.totalOutputs
  /-- The pointer. -/
  outputPointer : tx'.outputPointer = tx.outputPointer
  /-- The rune that is etched, flag apart. -/
  etching : tx'.etching.map DbRune.face = tx.etching.map DbRune.face

variable {tx tx' tx'' : TransactionCache}

theorem SameOutline.trans (h : SameOutline tx tx') (h' : SameOutline tx' tx'') :
    SameOutline tx tx'' :=
  ⟨h'.location.trans h.location, h'.eligibleOutputs.trans h.eligibleOutputs,
    h'.totalOutputs.trans h.totalOutputs,
    h'.outputPointer.trans h.outputPointer, h'.etching.trans h.etching⟩

theorem SameOutline.runeShares_eq (h : SameOutline tx tx') (id : RuneId) (edicts : List Edict)
    (total : Nat) :
    tx'.runeShares id edicts total = tx.runeShares id edicts total := by
  have hetching : tx'.etching.map DbRune.runeId = tx.etching.map DbRune.runeId := by
    have hfaces := congrArg (Option.map DbRune.runeId) h.etching
    rwa [Option.map_map, Option.map_map] at hfaces
  have hmeans : tx'.edictRuneId = tx.edictRuneId := by
    funext e
    rw [edictRuneId, edictRuneId, hetching]
  have hshares : tx'.edictShares = tx.edictShares := by
    have heligible : tx'.eligible = tx.eligible := by rw [eligible, eligible, h.eligibleOutputs]
    funext e left
    rw [edictShares, edictShares, heligible, h.totalOutputs]
  induction edicts generalizing total with
  | nil => rw [runeShares, runeShares, h.outputPointer]
  | cons e edicts ih => rw [runeShares, runeShares, hmeans, hshares, ih, ih]

/-- The shares of an edict in a rune: none if it means another rune. -/
def sharesIn (tx : TransactionCache) (id : RuneId) (e : Edict) (total : Nat) :
    List (Option Nat × Nat) :=
  if tx.edictRuneId e.id = some id then tx.edictShares e total else []

theorem runeShares_cons (tx : TransactionCache) (id : RuneId) (e : Edict) (edicts : List Edict)
    (total : Nat) :
    tx.runeShares id (e :: edicts) total =
      tx.sharesIn id e total ++
        tx.runeShares id edicts (total - given (tx.sharesIn id e total)) := by
  rw [runeShares, sharesIn]
  split <;> rfl

end TransactionCache

/-! ## Edicts -/

section

variable {env : Environment} {block : Block} {s t : Session}

/-- **A truthful edict shares out** what the rule says. -/
theorem Session.applyEdict_shares {e : Edict}
    (hzeros : ∀ id, ZerosLast (s.cache.txCache.available id))
    (hfits : ∀ id, totalAmount (s.cache.txCache.available id) < 2 ^ 128)
    (houtput : e.output ≤ s.cache.txCache.totalOutputs)
    (htruthful : (Stage.call block (.edict e)).Truthful s) (hrun : s.applyEdict env e = some t) :
    ∃ es, t.entries = s.entries ++ es ∧ s.cache.txCache.SameOutline t.cache.txCache ∧
      ∀ id, ZerosLast (t.cache.txCache.available id) ∧
        receives ((ofRune id es).map DbLedgerEntry.row) =
          receiveRows (receiverAddress env s.cache.txCache.location s.cache.txCache.eligibleOutputs)
            id (s.cache.txCache.sharesIn id e (totalAmount (s.cache.txCache.available id))) ∧
        totalAmount (t.cache.txCache.available id) = totalAmount (s.cache.txCache.available id) -
          given (s.cache.txCache.sharesIn id e (totalAmount (s.cache.txCache.available id))) := by
  set tx := s.cache.txCache with htx
  set receiver := receiverAddress env tx.location tx.eligibleOutputs
  -- found or not, the edict makes its moves: a rune that is not found has nothing to move
  have hmoves : ∃ es, t.entries = s.entries ++ es ∧ tx.SameOutline t.cache.txCache ∧ ∀ id,
      (ofRune id es).map DbLedgerEntry.row = (if tx.edictRuneId e.id = some id then
        movesRows receiver id (tx.edictMoves e (totalAmount (tx.available id))) (tx.available id)
          else []) ∧
      t.cache.txCache.available id = if tx.edictRuneId e.id = some id then
        movesRest (tx.edictMoves e (totalAmount (tx.available id))) (tx.available id)
          else tx.available id := by
    obtain ⟨hfinds, hwrites, hsame⟩ | ⟨-, hwrites, hnext⟩ := Session.applyEdict_read hrun
    · refine ⟨[], hwrites.entries_eq, ?_, fun id => ?_⟩
      · rw [hsame]
        exact ⟨rfl, rfl, rfl, rfl, rfl⟩
      · rw [hsame]
        split
        · rename_i hmeans
          have hnone : tx.available id = [] := by
            by_contra hsome
            exact absurd (htruthful id hmeans hsome) (Bool.eq_false_iff.mp hfinds)
          obtain ⟨hrows, hrest⟩ :=
            movesRows_nil_balances receiver id (tx.edictMoves e (totalAmount []))
          rw [hnone, hrows, hrest]
          exact ⟨rfl, rfl⟩
        · exact ⟨rfl, rfl⟩
    · obtain ⟨m, n, hfst⟩ := TransactionCache.applyEdict_fst env tx e
      refine ⟨_, hwrites.entries_eq, ?_, fun id => ?_⟩
      · rw [hnext, hfst]
        exact ⟨rfl, rfl, rfl, rfl, rfl⟩
      · rw [hnext, ← TransactionCache.unallocated_eq (hfits id)]
        exact TransactionCache.applyEdict_rows env tx e id
  obtain ⟨es, hentries, houtline, hmoves⟩ := hmoves
  refine ⟨es, hentries, houtline, fun id => ?_⟩
  obtain ⟨hrows, hrest⟩ := hmoves id
  rw [hrows, hrest, TransactionCache.sharesIn]
  split
  · obtain ⟨hreceives, hleft, htotal⟩ := (hzeros id).moves (hfits id) receiver id
      (tx.edictMoves e (totalAmount (tx.available id)))
    rw [movesLeave_eq] at htotal
    rw [TransactionCache.serve_edictMoves houtput] at hreceives htotal
    exact ⟨hleft, hreceives, htotal⟩
  · exact ⟨hzeros id, rfl, rfl⟩

/-- **The final allocation** sends what is left to the pointer. -/
theorem Session.endTransaction_shares (hzeros : ∀ id, ZerosLast (s.cache.txCache.available id))
    (hfits : ∀ id, totalAmount (s.cache.txCache.available id) < 2 ^ 128)
    (hrun : s.endTransaction env = some t) :
    ∃ es, t.entries = s.entries ++ es ∧ ∀ id, receives ((ofRune id es).map DbLedgerEntry.row) =
      receiveRows (receiverAddress env s.cache.txCache.location s.cache.txCache.eligibleOutputs) id
        [(s.cache.txCache.outputPointer, totalAmount (s.cache.txCache.available id))] := by
  obtain ⟨hwrites, -⟩ : s.Writes (s.cache.txCache.allocateRemainingBalances env).2 [] t ∧ _ :=
    Session.writes_add hrun
  refine ⟨_, hwrites.entries_eq, fun id => ?_⟩
  rw [TransactionCache.allocateRemainingBalances_rows]
  exact ((hzeros id).moves (hfits id) _ id [(s.cache.txCache.outputPointer, 0)]).1

/-- What every call but a mint does: it mints nothing. -/
theorem Action.mints_nothing {a : Action} {es : List DbLedgerEntry}
    (hbegin : ∀ tx, a ≠ .beginTransaction tx) (hmint : a.step ≠ 3)
    (hrun : a.run env block s = some t) (hentries : t.entries = s.entries ++ es) (id : RuneId) :
    counted .totalMints id es = 0 := by
  obtain ⟨es', rs, hwrites, hstep⟩ := Action.run_step hbegin hrun
  have hes : es = es' := List.append_cancel_left (hentries.symm.trans hwrites.entries_eq)
  exact counted_totalMints_eq_zero fun e he hop => absurd hop
    (hstep.operation_ne_mint hmint e (hes ▸ he))

/-- A call that etches no rune leaves the table of runes. -/
theorem Action.runes_eq {a : Action} (hetch : a.etches = false)
    (hrun : a.run env block s = some t) :
    t.runes = s.runes := by
  rcases Action.runes hrun with ⟨-, hsame⟩ | ⟨row, hrow, -⟩
  · exact hsame.runes
  · have hsome := a.etchedRune_isSome s
    rw [hrow, hetch] at hsome
    cases hsome

/-- A call that neither etches nor mints is regular. -/
theorem Stage.Regular.of_moves {a : Action} (hetch : a.etches = false) (hmint : a.step ≠ 3) :
    (Stage.call block a).Regular s where
  etches row hrow := by
    have hsome := a.etchedRune_isSome s
    rw [show a.etchedRune s = some row from hrow, hetch] at hsome
    cases hsome
  mints id hid := by
    cases a with
    | mint | cenotaphMint => exact absurd rfl hmint
    | _ => cases hid
  cenotaphMints id hid := by
    cases a with
    | mint | cenotaphMint => exact absurd rfl hmint
    | _ => cases hid

/-- **The edicts and the final allocation share out a rune** by its rule. -/
theorem edicts_share {c : Cursor} {edicts : List Edict} (hat : OnRegularRun c s)
    (hfollows : Follows c ((edicts.map Action.edict ++ [Action.endTransaction]).map
      (Stage.call block))) (hzeros : ∀ id, ZerosLast (s.cache.txCache.available id))
    (hfits : ∀ id, totalAmount (s.cache.txCache.available id) < 2 ^ 128)
    (houtputs : ∀ e ∈ edicts, e.output ≤ s.cache.txCache.totalOutputs)
    (hrun : (edicts.map Action.edict ++ [Action.endTransaction]).foldlM (Action.run env block) s =
      some t) :
    OnRegularRun
      (((edicts.map Action.edict ++ [Action.endTransaction]).map (Stage.call block)).foldl
        Cursor.next c) t ∧
      ∃ es, t.entries = s.entries ++ es ∧ t.runes = s.runes ∧ ∀ id, counted .totalMints id es = 0 ∧
        receives ((ofRune id es).map DbLedgerEntry.row) =
          receiveRows (receiverAddress env s.cache.txCache.location s.cache.txCache.eligibleOutputs)
            id
            (s.cache.txCache.runeShares id edicts
              (totalAmount (s.cache.txCache.available id))) := by
  induction edicts generalizing s c with
  | nil =>
    have hend : Action.run env block s .endTransaction = some t := foldlM_singleton_eq_some.mp hrun
    have hregular : (Stage.call block .endTransaction).Regular s :=
      .of_moves rfl (by simp [Action.step])
    obtain ⟨es, hentries, hshares⟩ := Session.endTransaction_shares hzeros hfits hend
    refine ⟨(hat.call hfollows.1 hregular hend).2, es, hentries, Action.runes_eq rfl hend,
      fun id => ⟨?_, hshares id⟩⟩
    exact Action.mints_nothing (fun _ heq => by cases heq) (by simp [Action.step]) hend hentries id
  | cons e edicts ih =>
    obtain ⟨u, hedict, hrest⟩ := foldlM_cons_eq_some.mp hrun
    obtain ⟨houtput, houtputs⟩ := List.forall_mem_cons.mp houtputs
    have hregular : (Stage.call block (.edict e)).Regular s := .of_moves rfl (by simp [Action.step])
    obtain ⟨hsound, hat'⟩ := hat.call hfollows.1 hregular hedict
    obtain ⟨es, hentries, houtline, hshares⟩ :=
      Session.applyEdict_shares hzeros hfits houtput hsound.truthful hedict
    -- what is left fits as well
    obtain ⟨hlast, es', hentries', hrunes, hrest⟩ := ih hat' hfollows.2 (fun id => (hshares id).1)
      (fun id => (hshares id).2.2 ▸ (Nat.sub_le _ _).trans_lt (hfits id))
      (houtline.totalOutputs ▸ houtputs) hrest
    refine ⟨hlast, es ++ es', by rw [hentries', hentries, List.append_assoc],
      hrunes.trans (Action.runes_eq rfl hedict), fun id => ?_⟩
    obtain ⟨-, hreceives, htotal⟩ := hshares id
    obtain ⟨hmints', hreceives'⟩ := hrest id
    constructor
    · have hmints :=
        Action.mints_nothing (fun _ heq => by cases heq) (by simp [Action.step]) hedict hentries id
      rw [counted_append, hmints, hmints']
    · rw [ofRune_append, List.map_append, receives_append, hreceives, hreceives',
        houtline.runeShares_eq, htotal,
        houtline.location, houtline.eligibleOutputs, TransactionCache.runeShares_cons]
      exact List.flatMap_append.symm

end

end Runehook
