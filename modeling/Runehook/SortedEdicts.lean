import Runehook.MinedRows
import Runehook.RunestoneCodec

/-! # Sorted edicts

`Runestone::encipher` sorts the edicts by their ids. What edicts do to a rune depends on the edicts
that mean this rune and on their order, not on the edicts between them (`SameFor.edicts`), and the
sort is stable (`filter_insertionSort`): so the entries that a transaction writes of each rune are
the same, unless it means one rune by two ids (`TransactionCache.transferEntries_sortById`). -/

namespace Runehook

open Lib

/-! ## Stable sorting -/

/-- **A stable sort** keeps the order of elements that it could leave in any order. -/
theorem filter_insertionSort {α : Type} {r : α → α → Prop} [DecidableRel r]
    [Std.Total r] [IsTrans α r] {p : α → Bool} {l : List α}
    (h : ∀ a ∈ l, ∀ b ∈ l, p a → p b → r a b) :
    (l.insertionSort r).filter p = l.filter p := by
  have hpairwise : (l.filter p).Pairwise r := by
    refine List.pairwise_of_forall_mem_list fun a ha b hb => ?_
    obtain ⟨ha, hpa⟩ := List.mem_filter.mp ha
    obtain ⟨hb, hpb⟩ := List.mem_filter.mp hb
    exact h a ha b hb hpa hpb
  have hsublist : (l.filter p).Sublist (l.insertionSort r) :=
    List.sublist_insertionSort hpairwise List.filter_sublist
  have hfilter : (l.filter p).Sublist ((l.insertionSort r).filter p) := by
    simpa using hsublist.filter p
  exact (hfilter.eq_of_length ((List.perm_insertionSort r l).filter p).length_eq.symm).symm

/-- The edicts with some property stay in order, if they have the same id. -/
theorem filter_sortById {p : Edict → Bool} {edicts : List Edict}
    (h : ∀ a ∈ edicts, ∀ b ∈ edicts, p a → p b → a.id = b.id) :
    (sortById edicts).filter p = edicts.filter p := by
  refine filter_insertionSort fun a ha b hb hpa hpb => ?_
  have hself : b.id.Le b.id := (Std.Total.total b.id b.id).elim id id
  rw [Edict.IdLe, h a ha b hb hpa hpb]
  exact hself

namespace TransactionCache

/-! ## One rune -/

/-- The caches differ in the balances of other runes and in the event index. -/
structure SameFor (id : RuneId) (tx tx' : TransactionCache) : Prop where
  /-- Nothing else differs. -/
  others : ∃ inputRunes n, tx' =
    { tx with
      inputRunes := inputRunes
      nextEventIndex := n }
  /-- The balances of the rune are the same. -/
  available : tx'.available id = tx.available id

variable {env : Environment} {id : RuneId} {tx tx' : TransactionCache}

theorem SameFor.refl (id : RuneId) (tx : TransactionCache) : SameFor id tx tx := ⟨⟨_, _, rfl⟩, rfl⟩

theorem SameFor.edictRuneId (h : SameFor id tx tx') (e : RuneId) :
    tx'.edictRuneId e = tx.edictRuneId e := by
  obtain ⟨inputRunes, n, rfl⟩ := h.others
  rfl

theorem SameFor.trans {tx'' : TransactionCache} (h : SameFor id tx tx') (h' : SameFor id tx' tx'') :
    SameFor id tx tx'' := by
  obtain ⟨inputRunes, n, rfl⟩ := h.others
  obtain ⟨inputRunes', n', rfl⟩ := h'.others
  exact ⟨⟨inputRunes', n', rfl⟩, h'.available.trans h.available⟩

variable (env) in
/-- An edict on another rune changes nothing of this one. -/
theorem SameFor.other (h : SameFor id tx tx') {e : Edict} (hid : tx.edictRuneId e.id ≠ some id) :
    SameFor id tx (tx'.applyEdict env e).1 ∧ ofRune id (tx'.applyEdict env e).2 = [] := by
  obtain ⟨inputRunes, n, hfst⟩ := applyEdict_fst env tx' e
  obtain ⟨hrows, hrest⟩ := applyEdict_rows env tx' e id
  rw [h.edictRuneId, if_neg hid] at hrows hrest
  exact ⟨h.trans ⟨⟨inputRunes, n, hfst⟩, hrest⟩, List.map_eq_nil_iff.mp hrows⟩

variable (env) in
/-- An edict does the same to a rune in both caches. -/
theorem SameFor.edict (h : SameFor id tx tx') (e : Edict) :
    SameFor id (tx.applyEdict env e).1 (tx'.applyEdict env e).1 ∧
      (ofRune id (tx'.applyEdict env e).2).map DbLedgerEntry.row =
        (ofRune id (tx.applyEdict env e).2).map DbLedgerEntry.row := by
  obtain ⟨inputRunes, n, hfst⟩ := applyEdict_fst env tx e
  obtain ⟨inputRunes', n', hfst'⟩ := applyEdict_fst env tx' e
  obtain ⟨hrows, hrest⟩ := applyEdict_rows env tx e id
  obtain ⟨hrows', hrest'⟩ := applyEdict_rows env tx' e id
  have havailable := h.available
  obtain ⟨m, k, rfl⟩ := h.others
  rw [havailable] at hrows' hrest'
  exact ⟨⟨⟨inputRunes', n', by rw [hfst', hfst]⟩, hrest'.trans hrest.symm⟩, hrows'.trans hrows.symm⟩

variable (env) in
/-- **The edicts on a rune** are all that counts for it. -/
theorem SameFor.edicts (h : SameFor id tx tx') {p : RuneId → Prop} [DecidablePred p]
    (hp : ∀ e, p e ↔ tx.edictRuneId e = some id) (edicts : List Edict) :
    SameFor id (applyEdicts env (edicts.filter fun e => p e.id) tx).1
      (applyEdicts env edicts tx').1 ∧
      (ofRune id (applyEdicts env edicts tx').2).map DbLedgerEntry.row =
        (ofRune id (applyEdicts env (edicts.filter fun e => p e.id) tx).2).map
        DbLedgerEntry.row := by
  induction edicts generalizing tx tx' with
  | nil => exact ⟨h, rfl⟩
  | cons e edicts ih =>
    by_cases he : p e.id
    · obtain ⟨hsame, hrows⟩ := h.edict env e
      -- an edict changes neither the location nor the etching that an id is read with
      have hp' : ∀ e', p e' ↔ (tx.applyEdict env e).1.edictRuneId e' = some id := by
        intro e'
        obtain ⟨inputRunes, n, hfst⟩ := applyEdict_fst env tx e
        rw [hp, hfst]
        rfl
      obtain ⟨hsame', hrows'⟩ := ih hsame hp'
      rw [List.filter_cons_of_pos (by simpa using he), applyEdicts, applyEdicts]
      dsimp only
      rw [ofRune_append, List.map_append, ofRune_append, List.map_append, hrows, hrows']
      exact ⟨hsame', rfl⟩
    · obtain ⟨hsame, hnil⟩ := h.other env fun hid => he ((hp e.id).mpr hid)
      obtain ⟨hsame', hrows'⟩ := ih hsame hp
      rw [List.filter_cons_of_neg (by simpa using he), applyEdicts]
      dsimp only
      rw [ofRune_append, hnil, List.nil_append]
      exact ⟨hsame', hrows'⟩

/-! ## The transaction -/

/-- The entries of a runestone's edicts and of the final allocation. -/
def transferEntries (env : Environment) (edicts : List Edict) (tx : TransactionCache) :
    List DbLedgerEntry :=
  (tx.applyEdicts env edicts).2 ++ ((tx.applyEdicts env edicts).1.allocateRemainingBalances env).2

/-- The entries of a rune depend on the edicts that mean it. -/
theorem transferEntries_filter (env : Environment) (edicts : List Edict) (tx : TransactionCache)
    (id : RuneId) :
    (ofRune id (transferEntries env edicts tx)).map DbLedgerEntry.row =
      (ofRune id
        (transferEntries env (edicts.filter fun e => tx.edictRuneId e.id = some id) tx)).map
        DbLedgerEntry.row := by
  obtain ⟨hsame, hrows⟩ :=
    (SameFor.refl id tx).edicts env (p := fun e => tx.edictRuneId e = some id)
      (fun _ => Iff.rfl) edicts
  have havailable := hsame.available
  obtain ⟨inputRunes, n, hothers⟩ := hsame.others
  rw [transferEntries, transferEntries, ofRune_append, ofRune_append, List.map_append,
    List.map_append, hrows,
    allocateRemainingBalances_rows, allocateRemainingBalances_rows, havailable, hothers]

/-- **Sorting the edicts keeps what a transaction transfers**: of each rune it writes the same rows,
in the same order, if the edicts that mean the same rune have the same id. -/
theorem transferEntries_sortById (env : Environment) (tx : TransactionCache) {edicts : List Edict}
    (hids : ∀ a ∈ edicts, ∀ b ∈ edicts, (tx.edictRuneId a.id).isSome →
      tx.edictRuneId a.id = tx.edictRuneId b.id → a.id = b.id) (id : RuneId) :
    (ofRune id (transferEntries env (sortById edicts) tx)).map DbLedgerEntry.row =
      (ofRune id (transferEntries env edicts tx)).map DbLedgerEntry.row := by
  have hfilter : (sortById edicts).filter (fun e => tx.edictRuneId e.id = some id) =
      edicts.filter fun e => tx.edictRuneId e.id = some id := by
    refine filter_sortById fun a ha b hb hpa hpb => hids a ha b hb ?_ ?_
    · simp [of_decide_eq_true hpa]
    · rw [of_decide_eq_true hpa, of_decide_eq_true hpb]
  rw [transferEntries_filter, hfilter, ← transferEntries_filter]

/-- Edicts of two runes, of which two are on the same one and are not in order, in a transaction
that has both. -/
def unsortedEdicts : List Edict := [⟨⟨840000, 2⟩, 1, 1⟩, ⟨⟨840000, 1⟩, 5, 1⟩, ⟨⟨840000, 2⟩, 0, 0⟩]

/-- A transaction with some units of two runes. -/
def twoRunesTx : TransactionCache where
  location := ⟨.bitcoin, "0xb", 840001, 0, 1, "0xtx"⟩
  nextEventIndex := 0
  etching := none
  outputPointer := some 0
  inputRunes := AList.insert ⟨840000, 2⟩ [⟨none, 4⟩]
    ((∅ : HashMap RuneId (List InputRuneBalance)).insert ⟨840000, 1⟩ [⟨some "carol", 3⟩])
  eligibleOutputs := AList.insert 1 [2] ((∅ : HashMap Nat ScriptBuf).insert 0 [1])
  totalOutputs := 2

/-- The theorem on `unsortedEdicts`. -/
theorem transferEntries_sortById_unsortedEdicts :
    (ofRune ⟨840000, 2⟩ (transferEntries (.plain fun _ => none)
        (sortById unsortedEdicts) twoRunesTx)).map DbLedgerEntry.row =
      (ofRune ⟨840000, 2⟩ (transferEntries (.plain fun _ => none) unsortedEdicts twoRunesTx)).map
        DbLedgerEntry.row :=
  transferEntries_sortById (.plain fun _ => none) twoRunesTx (by decide) ⟨840000, 2⟩

end TransactionCache

end Runehook
