import Runehook.LookupAgreement
import Runehook.NoInflation
import Runehook.Stages

/-! # What outputs hold

The amounts in credited outputs that no later transaction spends, over runs: the beginning of a
transaction takes what the spent outputs hold into the transaction (`holding_begin`), and what its
calls credit is new (`holding_call`). `runEvents_txs` is the induction over the transactions of a
run, where each comes with what holds before it (`Before`). -/

namespace Runehook

open Lib

/-! ## Measures -/

/-- How much of a list of balances is of addresses with a property. -/
def owned (q : Option Address → Bool) (balances : List InputRuneBalance) : Nat :=
  tally (fun b => q b.address) InputRuneBalance.amount balances

theorem owned_all (balances : List InputRuneBalance) :
    owned (fun _ => true) balances = totalAmount balances := by
  rw [owned, tally, totalAmount, List.filter_eq_self.mpr fun _ _ => rfl]

theorem owned_address (a : Address) (balances : List InputRuneBalance) :
    owned (fun address => address = some a) balances = ownedAmount a balances := rfl

section

variable {q : Option Address → Bool} {id : RuneId}

@[simp] theorem holding_nil (spent : List (String × Nat)) : holding q id spent [] = 0 := rfl

@[simp] theorem holding_append (spent : List (String × Nat)) (es es' : List DbLedgerEntry) :
    holding q id spent (es ++ es') = holding q id spent es + holding q id spent es' :=
  tally_append _ _ es es'

@[simp] theorem owned_append (l l' : List InputRuneBalance) :
    owned q (l ++ l') = owned q l + owned q l' :=
  tally_append _ _ l l'

theorem owned_perm {l l' : List InputRuneBalance} (h : l.Perm l') :
    owned q l = owned q l' := tally_perm h

/-- What entries credit to an output, for addresses with a property. -/
theorem owned_credits (k : String × Nat) (es : List DbLedgerEntry) :
    owned q (credits k id es) =
      tally (fun e => e.operation = .receive ∧ e.outputKey = some k ∧ e.runeId = id ∧ q e.address)
        DbLedgerEntry.value es := by
  rw [owned, tally, credits, List.filter_map, List.filter_filter, List.map_map, tally]
  congr 2
  refine List.filter_congr fun e _ => ?_
  show (q e.address && decide (e.operation = .receive ∧ e.outputKey = some k ∧ e.runeId = id)) = _
  by_cases hq : q e.address <;> simp [hq]

/-- Spending one more output takes what is credited to it. -/
theorem holding_spend {spent : List (String × Nat)} {k : String × Nat} (hk : k ∉ spent)
    (es : List DbLedgerEntry) :
    holding q id spent es = holding q id (spent ++ [k]) es + owned q (credits k id es) := by
  rw [holding, tally_split _ (fun e => e.outputKey ≠ some k), holding, owned_credits]
  congr 1
  · refine tally_congr fun e _ => ?_
    cases e.outputKey with
    | none => simp
    | some k' =>
      simp only [Option.all_some, List.mem_append, List.mem_singleton]
      by_cases h : k' = k <;> simp [h]
  · refine tally_congr fun e _ => ?_
    by_cases h : e.outputKey = some k
    · simp [h, hk]
    · simp [h]

/-- Spending some more outputs takes what is credited to them. -/
theorem holding_spend_all (es : List DbLedgerEntry) :
    ∀ (ks spent : List (String × Nat)), (spent ++ ks).Nodup →
      holding q id spent es =
        holding q id (spent ++ ks) es + (ks.map fun k => owned q (credits k id es)).sum := by
  intro ks
  induction ks with
  | nil => intro spent _; simp
  | cons k ks ih =>
    intro spent hnd
    have hk : k ∉ spent :=
      fun hmem => (List.nodup_append.mp hnd).2.2 k hmem k List.mem_cons_self rfl
    rw [← List.singleton_append, ← List.append_assoc] at hnd
    rw [holding_spend hk, ih _ hnd, List.map_cons, List.sum_cons, List.append_assoc,
      List.singleton_append]
    omega

/-- New credits are not spent. -/
theorem holding_of_new {spent : List (String × Nat)} {es : List DbLedgerEntry}
    (h : ∀ e ∈ es, ∀ k, e.outputKey = some k → k ∉ spent) :
    holding q id spent es = holding q id [] es := by
  refine tally_congr fun e he => ?_
  cases hk : e.outputKey with
  | none => simp
  | some k => simp [h e he k hk]

end

/-! ## Spends -/

/-- The id of a transaction, as the ledger has it. -/
def Transaction.ledgerId (tx : Transaction) : String := stripHexPrefix tx.hash

/-- The outputs of seen transactions that a transaction spends. -/
def Transaction.spendsOf (seen : List String) (tx : Transaction) : List (String × Nat) :=
  (tx.inputs.map TxIn.outputKey).filter fun k => k.1 ∈ seen

/-- The outputs that some transactions spend later than they were created; the ids of the
transactions seen before are given. -/
def laterSpends : List String → List Transaction → List (String × Nat)
  | _, [] => []
  | seen, tx :: txs => tx.spendsOf seen ++ laterSpends (seen ++ [tx.ledgerId]) txs

theorem laterSpends_append (seen : List String) (txs txs' : List Transaction) :
    laterSpends seen (txs ++ txs') =
      laterSpends seen txs ++ laterSpends (seen ++ txs.map Transaction.ledgerId) txs' := by
  induction txs generalizing seen with
  | nil => simp [laterSpends]
  | cons tx txs ih => simp [laterSpends, ih, List.append_assoc]

theorem laterSpends_concat (txs : List Transaction) (tx : Transaction) :
    laterSpends [] (txs ++ [tx]) = laterSpends [] txs ++
      tx.spendsOf (txs.map Transaction.ledgerId) := by
  rw [laterSpends_append, List.nil_append, laterSpends, laterSpends, List.append_nil]

theorem mem_laterSpends {seen : List String} {txs : List Transaction} {k : String × Nat}
    (h : k ∈ laterSpends seen txs) : k.1 ∈ seen ++ txs.map Transaction.ledgerId := by
  induction txs generalizing seen with
  | nil => exact absurd h List.not_mem_nil
  | cons tx txs ih =>
    rcases List.mem_append.mp h with h | h
    · exact List.mem_append_left _ (of_decide_eq_true (List.mem_filter.mp h).2)
    · have := ih h
      rwa [List.append_assoc, List.singleton_append] at this

/-- The outputs that are spent later are among those that are spent. -/
theorem laterSpends_sublist (seen : List String) (txs : List Transaction) :
    (laterSpends seen txs).Sublist (txs.flatMap fun tx => tx.inputs.map TxIn.outputKey) := by
  induction txs generalizing seen with
  | nil => exact List.Sublist.refl _
  | cons tx txs ih =>
    rw [laterSpends, List.flatMap_cons]
    exact List.filter_sublist.append (ih _)

/-! ## One transaction -/

section

variable {q : Option Address → Bool} {id : RuneId} {env : Environment} {block : Block}
  {tx : Transaction} {earlier current : List DbLedgerEntry} {s t : Session}

theorem owned_flatten (parts : List (List InputRuneBalance)) :
    owned q parts.flatten = (parts.map (owned q)).sum := by
  induction parts with
  | nil => rfl
  | cons part parts ih => rw [List.flatten_cons, owned_append, ih, List.map_cons, List.sum_cons]

theorem exists_of_forall₂ {α β : Type} {R : α → β → Prop} {l : List α} {l' : List β}
    (h : List.Forall₂ R l l') {a : α} (ha : a ∈ l) : ∃ b ∈ l', R a b := by
  induction h with
  | nil => exact absurd ha List.not_mem_nil
  | @cons x y l l' hxy _ ih =>
    rcases List.mem_cons.mp ha with rfl | ha
    · exact ⟨y, List.mem_cons_self, hxy⟩
    · obtain ⟨b, hb, hab⟩ := ih ha
      exact ⟨b, List.mem_cons_of_mem _ hb, hab⟩

/-- The balances that a transaction begins with are those credited to the outputs that it spends. -/
theorem available_begin (id : RuneId) (hlay : Layered AllOf earlier current s)
    (hsep : Separate earlier current)
    (hrun : Action.run env block s (.beginTransaction tx) = some t) :
    ∃ parts, t.cache.txCache.available id = parts.flatten ∧
      List.Forall₂ (fun part k => part.Perm (credits k id s.entries)) parts
      (tx.inputs.map TxIn.outputKey) := by
  obtain ⟨-, rfl⟩ := run_beginTransaction hrun
  obtain ⟨parts, hparts, hfound⟩ := getD_inputRuneBalances env tx.inputs s.cache.blockOutputCache
    s.cache.outputCache s.db id
  refine ⟨parts, hparts, ?_⟩
  rw [List.forall₂_map_right_iff]
  exact hfound.imp fun part input hf => found_perm hlay hsep hf

/-- **The beginning of a transaction** takes what the spent outputs hold into the transaction. -/
theorem holding_begin (id : RuneId) {txs : List Transaction}
    (hlay : Layered AllOf earlier current s) (hsep : Separate earlier current)
    (hfrom : FromTxs (txs.map Transaction.ledgerId) s.entries)
    (hnd : (laterSpends [] (txs ++ [tx])).Nodup)
    (hrun : Action.run env block s (.beginTransaction tx) = some t) :
    holding q id (laterSpends [] txs) s.entries =
      holding q id (laterSpends [] (txs ++ [tx])) s.entries +
        owned q (t.cache.txCache.available id) := by
  obtain ⟨parts, hparts, hperm⟩ := available_begin id hlay hsep hrun
  have hsum : owned q (t.cache.txCache.available id) =
      ((tx.inputs.map TxIn.outputKey).map fun k => owned q (credits k id s.entries)).sum := by
    rw [hparts, owned_flatten]
    clear hparts
    generalize tx.inputs.map TxIn.outputKey = ks at hperm
    induction hperm with
    | nil => rfl
    | cons hp _ ih =>
      rw [List.map_cons, List.map_cons, List.sum_cons, List.sum_cons, ih, owned_perm hp]
  -- outputs of transactions that were not seen have no credits
  have hunseen : ∀ l : List (String × Nat), (l.map fun k => owned q (credits k id s.entries)).sum =
      ((l.filter fun k => k.1 ∈ txs.map Transaction.ledgerId).map fun k =>
        owned q (credits k id s.entries)).sum := by
    intro l
    induction l with
    | nil => rfl
    | cons k l ih =>
      rw [List.map_cons, List.sum_cons, ih]
      by_cases hk : k.1 ∈ txs.map Transaction.ledgerId
      · rw [List.filter_cons_of_pos (by simpa using hk), List.map_cons, List.sum_cons]
      · have hnone : credits k id s.entries = [] := by
          refine credits_eq_nil ?_ id
          rintro ⟨e, he, -, hkey⟩
          exact hk (((outputKey_eq_some_iff e k).mp hkey).1 ▸ hfrom e he)
        rw [List.filter_cons_of_neg (by simpa using hk), hnone]
        exact Nat.zero_add _
  rw [laterSpends_concat] at hnd ⊢
  rw [holding_spend_all s.entries _ _ hnd, hsum, hunseen (tx.inputs.map TxIn.outputKey)]
  rfl

/-- **A call** credits new outputs. -/
theorem holding_call {txs : List Transaction} {es : List DbLedgerEntry}
    (hnew : tx.ledgerId ∉ txs.map Transaction.ledgerId) (hes : ∀ e ∈ es, e.txId = tx.ledgerId) :
    holding q id (laterSpends [] (txs ++ [tx])) es = holding q id [] es := by
  refine holding_of_new fun e he k hk hmem => hnew ?_
  have hfst : k.1 = tx.ledgerId := ((outputKey_eq_some_iff e k).mp hk).1.symm.trans (hes e he)
  rw [laterSpends_concat] at hmem
  rw [← hfst]
  rcases List.mem_append.mp hmem with hmem | hmem
  · exact List.nil_append (txs.map Transaction.ledgerId) ▸ mem_laterSpends hmem
  · exact of_decide_eq_true (List.mem_filter.mp hmem).2

/-- Induction over the calls of a transaction each of which has a property. -/
theorem calls_induction_every {Q : Session → Stage → Prop} {P : List Action → Session → Prop}
    {s' : Session} (hevery : EveryStage env Q (tx.stages env block) s)
    (hbegin : Action.run env block s (.beginTransaction tx) = some t) (start : P [] t)
    (step : ∀ done a u u' es rs, Q u (.call block a) → P done u → a.run env block u = some u' →
      u.Writes es rs u' → u.cache.txCache.Step env a es rs u'.cache.txCache → P (done ++ [a]) u')
    (h : (tx.calls env).foldlM (Action.run env block) t = some s') : P (tx.calls env) s' := by
  have hstages : tx.stages env block = .call block (.beginTransaction tx) ::
      (tx.calls env).map (Stage.call block) := rfl
  -- over the calls, carrying the stages that were run
  have hind := foldlM_induction_split
    (P := fun done u =>
      runStages env (.call block (.beginTransaction tx) :: done.map (Stage.call block)) s =
        some u ∧ P done u) ⟨?_, start⟩ ?_ h
  · exact hind.2
  · exact foldlM_singleton_eq_some.mpr hbegin
  · rintro done a rest u u' hsplit ⟨hdone, hP⟩ hrun
    have ha : a ∈ tx.calls env := hsplit ▸ List.mem_append_right _ List.mem_cons_self
    obtain ⟨es, rs, hwrites, hstep⟩ := Action.run_step (Transaction.ne_beginTransaction ha) hrun
    refine ⟨?_, step done a u u' es rs ?_ hP hrun hwrites hstep⟩
    · rw [List.map_append, ← List.cons_append]
      exact foldlM_append_eq_some.mpr ⟨u, hdone, foldlM_singleton_eq_some.mpr hrun⟩
    · refine hevery _ (.call block a) (rest.map (Stage.call block)) u ?_ hdone
      rw [hstages, hsplit, List.map_append, List.map_cons, List.cons_append]

/-! ## Runs -/

/-- Where a run on distinct transactions is before a transaction: after some others, with exact
layers. -/
structure Before (txs : List Transaction) (tx : Transaction) (earlier current : List DbLedgerEntry)
    (s : Session) : Prop where
  /-- The caches hold what the entries credit. -/
  layered : Layered AllOf earlier current s
  /-- No output is credited both in earlier blocks and in the current one. -/
  separate : Separate earlier current
  /-- The entries are those of the transactions. -/
  fromTxs : FromTxs (txs.map Transaction.ledgerId) s.entries
  /-- Credits have all their fields. -/
  creditsOk : CreditsOk s.entries
  /-- The transaction is none of them. -/
  new : tx.ledgerId ∉ txs.map Transaction.ledgerId
  /-- No output is spent twice, by the transaction neither. -/
  nodup : (laterSpends [] (txs ++ [tx])).Nodup

variable {Q : Session → Stage → Prop}
    {P : List Stage → List Transaction → List DbLedgerEntry → Prop}

/-- What holds after some stages, of the transactions begun and of the entries, holds after a stage
that is not a call as well. -/
def KeptBetweenCalls (P : List Stage → List Transaction → List DbLedgerEntry → Prop) : Prop :=
  ∀ l stage txs es, (∀ block a, stage ≠ .call block a) → P l txs es → P (l ++ [stage]) txs es

/-- **Induction over the transactions of a block**, the layers exact and every stage with a
property. -/
theorem indexTransactions_txs {before : List Stage} {txs : List Transaction} {s₀ s' : Session}
    (hbefore : runStages env before s₀ = some s) (hrest : AtRest AllOf s)
    (hfrom : FromTxs (txs.map Transaction.ledgerId) s.entries) (hcredit : CreditsOk s.entries)
    (hids : ((txs ++ block.transactions).map Transaction.ledgerId).Nodup)
    (hspends : (laterSpends [] (txs ++ block.transactions)).Nodup)
    (hsafe : EveryStage env Q (block.stages env) s) (hP : P before txs s.entries)
    (between : KeptBetweenCalls P) (step : ∀ l txs tx earlier current t t',
      Before txs tx earlier current t → runStages env l s₀ = some t →
      P l txs t.entries → EveryStage env Q (tx.stages env block) t →
      indexTransaction env block t tx = some t' →
      P (l ++ tx.stages env block) (txs ++ [tx]) t'.entries)
    (hrun : indexTransactions env block s = some s') :
    P (before ++ .openBlock block :: block.transactions.flatMap (Transaction.stages env block))
        (txs ++ block.transactions) s'.entries ∧
      FromTxs ((txs ++ block.transactions).map Transaction.ledgerId) s'.entries ∧
        CreditsOk s'.entries ∧
        ∃ current, Layered AllOf s.entries current s' ∧ Separate s.entries current := by
  -- the ids of the transactions of this block are new, so the two parts do not mix
  have hseparate : ∀ {done rest : List Transaction} {current : List DbLedgerEntry},
      block.transactions = done ++ rest → FromTxs (done.map Transaction.ledgerId) current →
        Separate s.entries current := by
    intro done rest current hsplit hcurrent
    refine .of_fromTxs hfrom hcurrent ?_
    rw [← List.map_append]
    rw [hsplit, ← List.append_assoc, List.map_append] at hids
    exact hids.sublist (List.sublist_append_left _ _)
  -- carried over the transactions of the block, with `done` as the ones indexed so far
  have hind := indexTransactions_induction
    (P := fun done current u =>
      runStages env (.openBlock block :: done.flatMap (Transaction.stages env block)) s = some u ∧
        FromTxs (done.map Transaction.ledgerId) current ∧
        FromTxs ((txs ++ done).map Transaction.ledgerId) u.entries ∧ CreditsOk u.entries ∧
        P (before ++ .openBlock block :: done.flatMap (Transaction.stages env block))
          (txs ++ done) u.entries)
    hrest ?_ ?_ hrun
  · obtain ⟨current, ⟨-, hcurrent, hfrom', hcredit', hP'⟩, hlay⟩ := hind
    exact ⟨hP', hfrom', hcredit', current, hlay, hseparate (List.append_nil _).symm hcurrent⟩
  · intro t hreset
    have hentries : t.entries = s.entries := by
      obtain ⟨number, rfl, -⟩ := resetMaxRuneNumber_eq_some hreset
      rfl
    rw [hentries, List.append_nil]
    exact ⟨foldlM_singleton_eq_some.mpr hreset, fun e he => absurd he List.not_mem_nil,
      hfrom, hcredit, between _ _ _ _ (fun _ _ heq => by cases heq) hP⟩
  · rintro done tx rest current t t' es hsplit ⟨hdone, hcurrent, hfromt, hcreditt, hPt⟩ hlay hstep
      hentries hat hes
    have hsplit' : txs ++ block.transactions = (txs ++ done ++ [tx]) ++ rest := by
      rw [hsplit]
      simp
    have htx : Before (txs ++ done) tx s.entries current t := by
      refine ⟨hlay, hseparate hsplit hcurrent, hfromt, hcreditt, ?_, ?_⟩
      -- the id of the transaction is none of the earlier ones
      · rw [hsplit', List.map_append, List.map_append] at hids
        have hnd := hids.sublist (List.sublist_append_left _ _)
        intro hmem
        exact (List.nodup_append.mp hnd).2.2 _ hmem _ (List.mem_singleton.mpr rfl) rfl
      · rw [hsplit', laterSpends_append] at hspends
        exact hspends.sublist (List.sublist_append_left _ _)
    -- the stages of the block as the ones so far, those of this transaction and the rest
    have hstages :
        block.stages env = (.openBlock block :: done.flatMap (Transaction.stages env block)) ++
          (tx.stages env block ++
            (rest.flatMap (Transaction.stages env block) ++ [.closeBlock block])) := by
      rw [Block.stages, hsplit, List.flatMap_append, List.flatMap_cons, List.cons_append,
        List.append_assoc, List.append_assoc]
    rw [hstages] at hsafe
    have hall := foldlM_append_eq_some.mpr ⟨s, hbefore, hdone⟩
    have hnext := step _ _ tx _ _ t t' htx hall hPt (hsafe.right hdone).left hstep
    rw [List.append_assoc, List.append_assoc, List.cons_append] at hnext
    have hids' : ∀ e ∈ es, e.txId = tx.ledgerId := fun e he => (hat e he).txId
    rw [List.flatMap_append, List.flatMap_singleton]
    refine ⟨?_, ?_, ?_, ?_, hnext⟩
    · rw [← List.cons_append]
      rw [indexTransaction_eq_runStages] at hstep
      exact foldlM_append_eq_some.mpr ⟨t, hdone, hstep⟩
    · intro e he
      rw [List.map_append]
      rcases List.mem_append.mp he with he | he
      · exact List.mem_append_left _ (hcurrent e he)
      · exact List.mem_append_right _ (List.mem_singleton.mpr (hids' e he))
    · rw [hentries, ← List.append_assoc, List.map_append]
      intro e he
      rcases List.mem_append.mp he with he | he
      · exact List.mem_append_left _ (hfromt e he)
      · exact List.mem_append_right _ (List.mem_singleton.mpr (hids' e he))
    · rw [hentries]
      exact hcreditt.append hes

/-- The transactions of some blocks, in order. -/
def transactions (blocks : List Block) : List Transaction := blocks.flatMap Block.transactions

theorem transactions_append (blocks : List Block) (block : Block) :
    transactions (blocks ++ [block]) = transactions blocks ++ block.transactions := by
  rw [transactions, List.flatMap_append, List.flatMap_singleton, transactions]

/-- Distinct spent outputs, spent later than they were created or not. -/
theorem laterSpends_nodup {blocks : List Block} (h : (spends blocks).Nodup) :
    (laterSpends [] (transactions blocks)).Nodup := by
  have hspends : spends blocks = (transactions blocks).flatMap fun tx =>
      tx.inputs.map TxIn.outputKey := by
    rw [transactions, List.flatMap_assoc]
    rfl
  exact (hspends ▸ h).sublist (laterSpends_sublist [] _)

/-- **Induction over the transactions of a run** without rollbacks, on distinct transactions each of
whose stages has a property. -/
theorem runEvents_txs {events : List Event} {network : Network} {s₀ : Session}
    (between : KeptBetweenCalls P)
    (step : ∀ l txs block tx earlier current t t', Before txs tx earlier current t →
        runStages env l s₀ = some t → P l txs t.entries → EveryStage env Q (tx.stages env block) t →
      indexTransaction env block t tx = some t' →
      P (l ++ tx.stages env block) (txs ++ [tx]) t'.entries)
    (hempty : s₀.cache.Empty network) (hdb : s₀.db = .migrated) (hforward : ∀ e ∈ events, e.Forward)
    (hids : (txIds (indexedBlocks events)).Nodup) (hspends : (spends (indexedBlocks events)).Nodup)
    (hsafe : EveryStage env Q (stages env events) s₀) (start : P [] [] [])
    (hrun : runEvents env events s₀ = some s) :
    P (stages env events) (transactions (indexedBlocks events)) s.entries := by
  have hlater := laterSpends_nodup hspends
  -- carried over the events, with a session at rest after each of them
  have hind := foldlM_induction_split
    (P := fun done t => runEvents env done s₀ = some t ∧ AtRest AllOf t ∧
      FromTxs (txIds (indexedBlocks done)) t.entries ∧ CreditsOk t.entries ∧
      P (stages env done) (transactions (indexedBlocks done)) t.entries)
      ⟨rfl, .of_empty hempty, ?_⟩ ?_ hrun
  · exact hind.2.2.2.2
  · have hentries : s₀.entries = [] := by
      rw [Session.entries, hdb, hempty.dbCache]
      rfl
    rw [hentries]
    exact ⟨fun e he => absurd he List.not_mem_nil, fun e he => absurd he List.not_mem_nil, start⟩
  · rintro done e rest t t' hsplit ⟨hdone, hrest, hfrom, hcredit, hP⟩ hstep
    have hrun' : runEvents env (done ++ [e]) s₀ = some t' :=
      foldlM_append_eq_some.mpr ⟨t, hdone, foldlM_singleton_eq_some.mpr hstep⟩
    refine ⟨hrun', ?_⟩
    have hdone := runEvents_eq_runStages env done s₀ ▸ hdone
    have hstages : stages env (done ++ [e]) = stages env done ++ e.stages env := by
      rw [stages, List.flatMap_append, List.flatMap_singleton, ← stages]
    rw [indexedBlocks_append, hstages]
    cases e with
    | index block =>
      show AtRest AllOf t' ∧ FromTxs (txIds (indexedBlocks done ++ [block])) t'.entries ∧
        CreditsOk t'.entries ∧
        P (stages env done ++ block.stages env)
        (transactions (indexedBlocks done ++ [block])) t'.entries
      rw [transactions_append]
      obtain ⟨u, htxs, hflush⟩ := indexBlock_eq_some.mp hstep
      -- the transactions and the stages of the whole run, split at this block
      have hblocks : transactions (indexedBlocks events) =
          (transactions (indexedBlocks done) ++ block.transactions) ++
            transactions (indexedBlocks rest) := by
        rw [← transactions_append, hsplit, indexedBlocks_append, transactions, List.flatMap_append,
          ← List.singleton_append (l := rest), indexedBlocks_append,
          List.flatMap_append, ← List.append_assoc, ← List.flatMap_append]
        rfl
      have hevents :
          stages env events = stages env done ++ (block.stages env ++ stages env rest) := by
        rw [hsplit, stages, List.flatMap_append, List.flatMap_cons]
        rfl
      rw [hevents] at hsafe
      have hids' :
          ((transactions (indexedBlocks done) ++ block.transactions).map
            Transaction.ledgerId).Nodup := by
        have hall : ((transactions (indexedBlocks events)).map Transaction.ledgerId).Nodup := hids
        rw [hblocks, List.map_append] at hall
        exact hall.sublist (List.sublist_append_left _ _)
      rw [hblocks, laterSpends_append] at hlater
      obtain ⟨hP', hfrom', hcredit', current, hlay, hsep⟩ :=
        indexTransactions_txs hdone hrest hfrom hcredit hids'
          (hlater.sublist (List.sublist_append_left _ _)) (hsafe.right hdone).left hP between
          (fun l txs tx earlier current t t' => step l txs block tx earlier current t t') htxs
      obtain ⟨hrest', hentries⟩ := closing_atRest hlay (AllOf.moveRules hsep) hflush
      have hclosed := between _ (.closeBlock block) _ _ (fun _ _ heq => by cases heq) hP'
      rw [List.append_assoc, List.cons_append] at hclosed
      rw [hentries]
      refine ⟨hrest', ?_, hcredit', hclosed⟩
      rw [txIds, ← transactions, transactions_append]
      exact hfrom'
    | rollBack height =>
      exact absurd (hforward _ (hsplit ▸ List.mem_append_right _ List.mem_cons_self)) id
    | restart cap hcap =>
      obtain ⟨hrest', hentries⟩ := restart_atRest hrest hstep
      rw [hentries, show indexedBlocks [Event.restart cap hcap] = [] from rfl, List.append_nil]
      exact ⟨hrest', hfrom, hcredit,
        between _ (.restart cap hcap) _ _ (fun _ _ heq => by cases heq) hP⟩

end

end Runehook
