import Runehook.NoPanics
import Runehook.RuneNames
import Runehook.RuneTable

/-! # Reserved names

An etching that chooses no name gets a reserved one, which is made of its block and its transaction
(`Rune.reserved`). The indexer does not check that other etchings keep away from the reserved names.
Where they do (`ReservedNamesLeft`), no two etchings get the same reserved name
(`Rune.reserved_injective`), so that the insert never drops the row of an etching that chose none:
`runEvents_unnamedEtching`. -/

namespace Runehook

open Lib

/-! ## The reserved names -/

/-- `Rune::is_reserved`. -/
def Rune.isReserved (rune : Rune) : Bool := Rune.RESERVED ≤ rune

theorem Rune.isReserved_reserved (block tx : Nat) : Rune.isReserved (Rune.reserved block tx) :=
  decide_eq_true (Nat.le_add_right _ _)

theorem Rune.reserved_lt {id : RuneId} (h : id.Fits) : Rune.reserved id.block id.tx < 2 ^ 128 := by
  have hblock := h.block
  have htx := h.tx
  have hlt : 6402364363415443603228541259936211926 + (id.block * 2 ^ 32 + id.tx) <
      2 ^ 128 := by omega
  exact hlt

/-- **Different ids have different reserved names.** -/
theorem Rune.reserved_injective {id id' : RuneId} (h : id.Fits) (h' : id'.Fits)
    (heq : Rune.toName (Rune.reserved id.block id.tx) =
      Rune.toName (Rune.reserved id'.block id'.tx)) : id = id' := by
  have hrune := Rune.toName_injective (Rune.reserved_lt h) (Rune.reserved_lt h') heq
  have hsum : id.block * 2 ^ 32 + id.tx = id'.block * 2 ^ 32 + id'.tx := Nat.add_left_cancel hrune
  have htx := h.tx
  have htx' := h'.tx
  ext <;> omega

/-! ## Honest names -/

/-- The etchings of an artifact keep away from the reserved names. -/
def Artifact.Unreserved : Artifact → Prop
  | .runestone r => ∀ e ∈ r.etching, ∀ rune ∈ e.rune, ¬Rune.isReserved rune
  | .cenotaph c => ∀ rune ∈ c.etching, ¬Rune.isReserved rune

/-- A row has the reserved name of its own id, or a name that is not reserved. -/
def DbRune.HonestName (r : DbRune) : Prop :=
  r.id.Fits ∧ r.name = Rune.toName (Rune.reserved r.id.block r.id.tx) ∨
    ∃ rune, ¬Rune.isReserved rune ∧ r.name = Rune.toName rune

/-- A row has the reserved name of an id. -/
def DbRune.NamedAfter (r : DbRune) (id : RuneId) : Prop :=
  r.id = id ∧ r.name = Rune.toName (Rune.reserved id.block id.tx)

/-- **Nobody else has the reserved name of an id.** -/
theorem DbRune.HonestName.namedAfter {r : DbRune} (h : r.HonestName) {id : RuneId} (hid : id.Fits)
    (hname : r.name = Rune.toName (Rune.reserved id.block id.tx)) : r.NamedAfter id := by
  refine ⟨?_, hname⟩
  rcases h with ⟨hfits, hown⟩ | ⟨rune, hrune, hown⟩
  · exact Rune.reserved_injective hfits hid (hown.symm.trans hname)
  · have hlt : rune < Rune.RESERVED := Nat.lt_of_not_le fun hle => hrune (decide_eq_true hle)
    have hbound : rune < 2 ^ 128 := Nat.lt_trans hlt (by decide)
    have heq := Rune.toName_injective hbound (Rune.reserved_lt hid) (hown.symm.trans hname)
    rw [heq] at hrune
    exact absurd (Rune.isReserved_reserved _ _) hrune

/-- Every row has an honest name. -/
def Session.HonestNames (s : Session) : Prop := ∀ r ∈ s.runes, r.HonestName

/-- A call keeps away from the reserved names. -/
def Action.Unreserved : Action → Prop
  | .etching e => ∀ rune ∈ e.rune, ¬Rune.isReserved rune
  | .cenotaphEtching rune => ¬Rune.isReserved rune
  | _ => True

theorem Artifact.Unreserved.actions {a : Artifact} (h : a.Unreserved) :
    ∀ action ∈ a.actions, action.Unreserved := by
  cases a with
  | runestone r =>
    rw [Artifact.actions]
    simp only [List.cons_append, List.forall_mem_cons, List.forall_mem_append]
    refine ⟨trivial, ⟨fun action haction => ?_, fun action haction => ?_⟩, fun action haction => ?_⟩
    · obtain ⟨e, he, rfl⟩ := Option.map_eq_some_iff.mp (Option.mem_toList.mp haction)
      exact h e he
    · obtain ⟨id, -, rfl⟩ := Option.map_eq_some_iff.mp (Option.mem_toList.mp haction)
      trivial
    · obtain ⟨e, -, rfl⟩ := List.mem_map.mp haction
      trivial
  | cenotaph c =>
    rw [Artifact.actions]
    simp only [List.cons_append, List.forall_mem_cons, List.forall_mem_append]
    refine ⟨trivial, fun action haction => ?_, fun action haction => ?_⟩
    · obtain ⟨rune, hrune, rfl⟩ := Option.map_eq_some_iff.mp (Option.mem_toList.mp haction)
      exact h rune hrune
    · obtain ⟨id, -, rfl⟩ := Option.map_eq_some_iff.mp (Option.mem_toList.mp haction)
      trivial

/-! ## Calls -/

section

variable {env : Environment} {block : Block} {a : Action} {s s' : Session}

theorem DbRune.name_fromEtching (e : Etching) (number : Nat) (location : TransactionLocation) :
    (DbRune.fromEtching e number location).name =
      Rune.toName (e.rune.getD (Rune.reserved location.runeId.block location.runeId.tx)) := by
  simp only [DbRune.fromEtching, TransactionLocation.runeId]

/-- The row of an etching has an honest name. -/
theorem Action.honestName_etchedRune (ha : a.Unreserved)
    (hfits : s.cache.txCache.location.runeId.Fits) {row : DbRune} (h : a.etchedRune s = some row) :
    row.HonestName := by
  cases a with
  | etching e =>
    cases Option.some.inj h
    cases hrune : e.rune with
    | none =>
      refine .inl ⟨hfits, ?_⟩
      rw [DbRune.name_fromEtching, hrune, Option.getD_none]
      simp only [DbRune.fromEtching]
    | some rune =>
      refine .inr ⟨rune, ha rune hrune, ?_⟩
      rw [DbRune.name_fromEtching, hrune, Option.getD_some]
  | cenotaphEtching rune =>
    cases Option.some.inj h
    exact .inr ⟨rune, ha, rfl⟩
  | _ => cases h

/-- A call keeps the names honest, and every row stays. -/
theorem Session.HonestNames.call (h : s.HonestNames) (ha : a.Unreserved)
    (hfits : s.cache.txCache.location.runeId.Fits) (hrun : a.run env block s = some s') :
    s'.HonestNames ∧ s.runes <+: s'.runes := by
  rcases Action.runes hrun with ⟨-, hsame⟩ | ⟨row, hrow, hetches⟩
  · rw [Session.HonestNames, hsame.runes]
    exact ⟨h, List.prefix_refl _⟩
  · rw [Session.HonestNames, hetches.runes]
    refine ⟨fun r hr => ?_, prefix_keepRune _ _⟩
    rcases mem_keepRune hr with hr | rfl
    · exact h r hr
    · have hhonest := Action.honestName_etchedRune ha hfits hrow
      exact hhonest

/-- **An etching without a name keeps its row.** -/
theorem Session.HonestNames.etching (h : s.HonestNames) {e : Etching} (hunnamed : e.rune = none)
    (hfits : s.cache.txCache.location.runeId.Fits)
    (hrun : (Action.etching e).run env block s = some s') :
    ∃ row ∈ s'.runes, row.NamedAfter s.cache.txCache.location.runeId := by
  have hrow : (Action.etching e).etchedRune s =
      some (.fromEtching e s.cache.nextRuneNumber s.cache.txCache.location) :=
    rfl
  rcases Action.runes hrun with ⟨hnone, -⟩ | ⟨row, hrow', hetches⟩
  · cases hnone.symm.trans hrow
  · obtain rfl := Option.some.inj (hrow'.symm.trans hrow)
    rw [hetches.runes]
    have hnamed : (DbRune.fromEtching e s.cache.nextRuneNumber s.cache.txCache.location).NamedAfter
        s.cache.txCache.location.runeId := by
      refine ⟨rfl, ?_⟩
      rw [DbRune.name_fromEtching, hunnamed, Option.getD_none]
    -- a taken name is taken by the rune that the id names
    cases htaken : nameTaken s.runes (DbRune.fromEtching e s.cache.nextRuneNumber
      s.cache.txCache.location).name with
    | true =>
      rw [keepRune_of_taken htaken]
      obtain ⟨r, hr, hname⟩ := List.any_eq_true.mp htaken
      exact ⟨r, hr, (h r hr).namedAfter hfits ((of_decide_eq_true hname).trans hnamed.2)⟩
    | false =>
      rw [keepRune_of_free htaken]
      exact ⟨_, List.mem_append_right _ List.mem_cons_self, hnamed⟩

end

/-! ## Runs -/

section

variable {env : Environment} {block : Block} {s s' : Session}

/-- The calls after the first of a transaction keep the names honest and the rows, and an etching
without a name among them keeps its own. -/
theorem Session.HonestNames.calls (h : s.HonestNames) {actions : List Action}
    (hactions : ∀ a ∈ actions, a.Unreserved)
    (hbegin : ∀ a ∈ actions, ∀ tx, a ≠ .beginTransaction tx)
    (hfits : s.cache.txCache.location.runeId.Fits)
    (hrun : actions.foldlM (Action.run env block) s = some s') :
    s'.HonestNames ∧ s.runes <+: s'.runes ∧ ∀ e, Action.etching e ∈ actions → e.rune = none →
      ∃ row ∈ s'.runes, row.NamedAfter s.cache.txCache.location.runeId := by
  -- over the calls, which stay at the same transaction
  have hind := foldlM_induction_split (P := fun done t => t.HonestNames ∧ s.runes <+: t.runes ∧
    t.cache.txCache.location = s.cache.txCache.location ∧ ∀ e, Action.etching e ∈ done →
      e.rune = none → ∃ row ∈ t.runes, row.NamedAfter s.cache.txCache.location.runeId)
    ⟨h, List.prefix_refl _, rfl, fun e he => absurd he List.not_mem_nil⟩ ?_ hrun
  · exact ⟨hind.1, hind.2.1, hind.2.2.2⟩
  · rintro done a rest t t' hsplit ⟨hhonest, hbegins, hlocation, hetched⟩ hstep
    have hmem : a ∈ actions := hsplit ▸ List.mem_append_right _ List.mem_cons_self
    obtain ⟨es, rs, -, hcall⟩ := Action.run_step (hbegin a hmem) hstep
    obtain ⟨hhonest', hbegins'⟩ := hhonest.call (hactions a hmem) (hlocation ▸ hfits) hstep
    refine ⟨hhonest', hbegins.trans hbegins', hcall.location_eq.trans hlocation,
      fun e he hunnamed => ?_⟩
    -- an etching before this call keeps its row, one by this call gets it
    rcases List.mem_append.mp he with he | he
    · obtain ⟨row, hrow, hnamed⟩ := hetched e he hunnamed
      exact ⟨row, hbegins'.subset hrow, hnamed⟩
    · obtain rfl := List.mem_singleton.mp he
      have hkept := hhonest.etching hunnamed (hlocation ▸ hfits) hstep
      rwa [hlocation] at hkept

/-- A transaction keeps the names honest and the rows, and the row of its etching if that chose no
name. -/
theorem Session.HonestNames.transaction (h : s.HonestNames) {tx : Transaction}
    (hblock : block.InRange) (htx : tx ∈ block.transactions)
    (hnames : ∀ a, env.decipher tx.outputs = some a → a.Unreserved)
    (hrun : indexTransaction env block s tx = some s') :
    s'.HonestNames ∧ s.runes <+: s'.runes ∧ ∀ r e, env.decipher tx.outputs = some (.runestone r) →
      r.etching = some e → e.rune = none → ∃ row ∈ s'.runes,
      row.NamedAfter ⟨block.height, tx.index⟩ := by
  rw [indexTransaction, Transaction.actions, List.cons_append] at hrun
  obtain ⟨t, hbegin, hcalls⟩ := foldlM_cons_eq_some.mp hrun
  obtain ⟨-, ht⟩ := run_beginTransaction hbegin
  have hlocation : t.cache.txCache.location.runeId = ⟨block.height, tx.index⟩ := ht ▸ rfl
  have hruns : t.runes = s.runes := ht ▸ rfl
  have hfits : RuneId.Fits ⟨block.height, tx.index⟩ :=
    ⟨hblock.height, (hblock.transactions tx htx).index⟩
  -- the calls keep off the reserved names because the artifact does
  have hactions : ∀ a ∈ ((env.decipher tx.outputs).map Artifact.actions).getD [] ++
      [Action.endTransaction],
      a.Unreserved := by
    refine List.forall_mem_append.mpr ⟨?_, List.forall_mem_singleton.mpr trivial⟩
    cases hartifact : env.decipher tx.outputs with
    | none => exact fun a ha => absurd ha List.not_mem_nil
    | some artifact => exact (hnames artifact hartifact).actions
  have hhonest : t.HonestNames := by rwa [Session.HonestNames, hruns]
  obtain ⟨hhonest', hbegins, hetched⟩ := hhonest.calls hactions
    (fun a ha => Transaction.ne_beginTransaction ha) (hlocation.symm ▸ hfits) hcalls
  rw [hlocation] at hetched
  rw [hruns] at hbegins
  refine ⟨hhonest', hbegins, fun r e hartifact hetching hunnamed => hetched e ?_ hunnamed⟩
  rw [hartifact, Option.map_some, Option.getD_some, Artifact.actions, hetching]
  simp

/-- A block keeps the names honest and the rows, and the rows of the etchings that chose no name. -/
theorem Session.HonestNames.wholeBlock (h : s.HonestNames) (hblock : block.InRange)
    (hnames : ∀ tx ∈ block.transactions, ∀ a, env.decipher tx.outputs = some a → a.Unreserved)
    (hrun : indexBlock env block s = some s') :
    s'.HonestNames ∧ s.runes <+: s'.runes ∧ ∀ tx ∈ block.transactions, ∀ r e,
      env.decipher tx.outputs = some (.runestone r) → r.etching = some e → e.rune = none →
        ∃ row ∈ s'.runes, row.NamedAfter ⟨block.height, tx.index⟩ := by
  obtain ⟨t, htxs, hflush⟩ := indexBlock_eq_some.mp hrun
  obtain ⟨u, hreset, hloop⟩ := indexTransactions_eq_some.mp htxs
  obtain ⟨number, rfl, -⟩ := resetMaxRuneNumber_eq_some hreset
  have hind := foldlM_induction_split (P := fun done t => t.HonestNames ∧ s.runes <+: t.runes ∧
    ∀ tx ∈ done, ∀ r e, env.decipher tx.outputs = some (.runestone r) → r.etching = some e →
      e.rune = none → ∃ row ∈ t.runes, row.NamedAfter ⟨block.height, tx.index⟩)
    ⟨h, List.prefix_refl _, fun tx htx => absurd htx List.not_mem_nil⟩ ?_ hloop
  · obtain ⟨hhonest, hbegins, hetched⟩ := hind
    have hruns : s'.runes = t.runes := (Session.flush_runes hflush).2
    rw [Session.HonestNames, hruns]
    exact ⟨hhonest, hbegins, hetched⟩
  · rintro done tx rest t t' hsplit ⟨hhonest, hbegins, hetched⟩ hstep
    have hmem : tx ∈ block.transactions := hsplit ▸ List.mem_append_right _ List.mem_cons_self
    obtain ⟨hhonest', hbegins', hown⟩ := hhonest.transaction hblock hmem (hnames tx hmem) hstep
    refine ⟨hhonest', hbegins.trans hbegins', fun tx' htx' r e hartifact hetching hunnamed => ?_⟩
    rcases List.mem_append.mp htx' with htx' | htx'
    · obtain ⟨row, hrow, hnamed⟩ := hetched tx' htx' r e hartifact hetching hunnamed
      exact ⟨row, hbegins'.subset hrow, hnamed⟩
    · obtain rfl := List.mem_singleton.mp htx'
      exact hown r e hartifact hetching hunnamed

/-- The blocks of a run are in the range of their types, and their etchings keep away from the
reserved names. -/
def ReservedNamesLeft (env : Environment) (events : List Event) : Prop :=
  ∀ block ∈ indexedBlocks events, block.InRange ∧
    ∀ tx ∈ block.transactions, ∀ a, env.decipher tx.outputs = some a → a.Unreserved

theorem ReservedNamesLeft.left {events events' : List Event}
    (h : ReservedNamesLeft env (events ++ events')) :
    ReservedNamesLeft env events :=
  fun block hblock => h block
    (by rw [indexedBlocks, List.filterMap_append]; exact List.mem_append_left _ hblock)

theorem ReservedNamesLeft.right {events events' : List Event}
    (h : ReservedNamesLeft env (events ++ events')) :
    ReservedNamesLeft env events' :=
  fun block hblock => h block
    (by rw [indexedBlocks, List.filterMap_append]; exact List.mem_append_right _ hblock)

/-- **A run keeps the names honest**, and without rollbacks it keeps the rows. -/
theorem runEvents_honestNames {events : List Event} (h : s.HonestNames)
    (hrest : s.cache.dbCache = .new) (hnames : ReservedNamesLeft env events)
    (hrun : runEvents env events s = some s') :
    s'.HonestNames ∧ s'.cache.dbCache = .new ∧
    ((∀ e ∈ events, e.Forward) → s.runes <+: s'.runes) := by
  refine foldlM_induction_split (P := fun done t => t.HonestNames ∧ t.cache.dbCache = .new ∧
    ((∀ e ∈ done, e.Forward) → s.runes <+: t.runes)) ⟨h, hrest, fun _ => List.prefix_refl _⟩ ?_ hrun
  rintro done e rest t t' hsplit ⟨hhonest, hnew, hbegins⟩ hstep
  -- nothing waits between events
  have hnew' : t'.cache.dbCache = .new :=
    @runEvents_dbCache env [e] t t' hnew (foldlM_singleton_eq_some.mpr hstep)
  cases e with
  | index block =>
    have hmem : block ∈ indexedBlocks events :=
      List.mem_filterMap.mpr
        ⟨.index block, hsplit ▸ List.mem_append_right _ List.mem_cons_self, rfl⟩
    obtain ⟨hhonest', hbegins', -⟩ :=
      hhonest.wholeBlock (hnames block hmem).1 (hnames block hmem).2 hstep
    exact ⟨hhonest', hnew',
      fun hforward => (hbegins fun e he => hforward e (List.mem_append_left _ he)).trans hbegins'⟩
  | rollBack height =>
    cases Option.some.inj hstep
    refine ⟨fun r hr => ?_, hnew', fun hforward =>
      absurd (hforward _ (List.mem_append_right _ List.mem_cons_self)) id⟩
    rw [Session.runes_of_rest hnew'] at hr
    rw [Session.HonestNames, Session.runes_of_rest hnew] at hhonest
    exact hhonest r (List.mem_of_mem_filter hr)
  | restart cap hcap =>
    have hruns : t'.runes = t.runes := by
      obtain ⟨cache, -, rfl⟩ := restart_eq_some hstep
      rw [Session.runes_of_rest hnew', Session.runes_of_rest hnew]
    rw [Session.HonestNames, hruns]
    exact ⟨hhonest, hnew', fun hforward => hbegins fun e he =>
      hforward e (List.mem_append_left _ he)⟩

end

theorem uncommonGoods_honestName : uncommonGoods.HonestName := by
  refine .inr ⟨2055900680524219742, by decide, ?_⟩
  decide +kernel

/-- **No etching without a name loses its row**, as long as no other etching chooses a reserved one:
once the block of its transaction is indexed, and until a block is rolled back, there is a row with
the id of the transaction, under the name that is reserved for it. -/
theorem runEvents_unnamedEtching {env : Environment} {network : Network} {cap : Nat}
    {hcap : 0 < cap} {before after : List Event} {block : Block} {s₀ s : Session}
    (hnames : ReservedNamesLeft env (before ++ .index block :: after))
    (hafter : ∀ e ∈ after, e.Forward) (hstart : freshSession network cap hcap = some s₀)
    (hrun : runEvents env (before ++ .index block :: after) s₀ = some s) {tx : Transaction}
    (htx : tx ∈ block.transactions) {r : Runestone}
    (hartifact : env.decipher tx.outputs = some (.runestone r)) {e : Etching}
    (hetching : r.etching = some e) (hunnamed : e.rune = none) :
    ∃ row ∈ s.db.runes, row.NamedAfter ⟨block.height, tx.index⟩ := by
  obtain ⟨hempty, hdb⟩ := freshSession_eq_some hstart
  have hhonest₀ : s₀.HonestNames := by
    rw [Session.HonestNames, Session.runes_of_rest hempty.dbCache, hdb]
    exact List.forall_mem_singleton.mpr uncommonGoods_honestName
  obtain ⟨t, hbefore, hlater⟩ := foldlM_append_eq_some.mp hrun
  obtain ⟨u, hindex, hrest⟩ := foldlM_cons_eq_some.mp hlater
  obtain ⟨hhonest, hnew, -⟩ := runEvents_honestNames hhonest₀ hempty.dbCache hnames.left hbefore
  obtain ⟨hinRange, hunreserved⟩ :=
    hnames.right block (List.mem_filterMap.mpr ⟨_, List.mem_cons_self, rfl⟩)
  obtain ⟨hhonest', -, hetched⟩ := hhonest.wholeBlock hinRange hunreserved hindex
  obtain ⟨row, hrow, hnamed⟩ := hetched tx htx r e hartifact hetching hunnamed
  have hnew' : u.cache.dbCache = .new :=
    @runEvents_dbCache env [.index block] t u hnew (foldlM_singleton_eq_some.mpr hindex)
  have hnamesAfter : ReservedNamesLeft env after := by
    have hcons := hnames.right
    exact fun b hb => hcons b (List.mem_cons_of_mem _ hb)
  obtain ⟨-, hnew'', hbegins⟩ := runEvents_honestNames hhonest' hnew' hnamesAfter hrest
  rw [← Session.runes_of_rest hnew'']
  exact ⟨row, (hbegins hafter).subset hrow, hnamed⟩

/-- The theorem on `freeNameTx`, between a rune that is named like that of the migrations and a
restart. -/
theorem runEvents_unnamedEtching_freeNameTx :
    ∃ s₀ s, freshSession .bitcoin 2 (by decide) = some s₀ ∧
    runEvents etchEnv ([] ++ .index (etchBlock [takenNameTx, freeNameTx]) ::
      [.restart 2 (by decide)]) s₀ = some s ∧ ∃ row ∈ s.db.runes, row.NamedAfter ⟨840001, 2⟩ := by
  have hruns : ((freshSession .bitcoin 2 (by decide)).bind fun s₀ =>
      runEvents etchEnv ([] ++ .index (etchBlock [takenNameTx, freeNameTx]) ::
        [.restart 2 (by decide)]) s₀).isSome := by
    decide +kernel
  obtain ⟨s, hs⟩ := Option.isSome_iff_exists.mp hruns
  obtain ⟨s₀, hstart, hrun⟩ := Option.bind_eq_some_iff.mp hs
  have hnames : ReservedNamesLeft etchEnv
      ([] ++ .index (etchBlock [takenNameTx, freeNameTx]) :: [.restart 2 (by decide)]) := by
    intro block hblock
    obtain rfl : block = etchBlock [takenNameTx, freeNameTx] := by
      simpa [indexedBlocks] using hblock
    refine ⟨⟨by decide, ?_⟩, ?_⟩
    · exact List.forall_mem_cons.mpr ⟨⟨by decide, by decide⟩,
        List.forall_mem_singleton.mpr ⟨by decide, by decide⟩⟩
    · refine List.forall_mem_cons.mpr ⟨?_, List.forall_mem_singleton.mpr ?_⟩
      · rintro a ⟨⟩ e ⟨⟩
        decide
      · rintro a ⟨⟩ e ⟨⟩
        decide
  exact ⟨s₀, s, hstart, hrun, runEvents_unnamedEtching hnames (by simp [Event.Forward]) hstart hrun
    (List.mem_cons_of_mem _ List.mem_cons_self) rfl rfl rfl⟩

end Runehook
