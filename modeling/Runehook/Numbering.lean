import Runehook.RuneTable
import Runehook.Reorgs

/-! # Rune numbers

The next number comes from `MAX(number)` at the beginning of a block, and goes up with every etching
of the block, also with one whose row the insert drops. The numbers of the table are `0`, `1`, and
so on in the order of its rows (`NumberedInOrder`) as long as no such etching comes before another
one in its block (`FreeNamesFirst`): `indexBlock_numberedInOrder` for a block, `runEvents_numbered`
for runs. -/

namespace Runehook

open Lib

/-! ## Places -/

/-- The rune was etched at an earlier place than another one. -/
def DbRune.Before (r r' : DbRune) : Prop :=
  r.blockHeight < r'.blockHeight ∨ (r.blockHeight = r'.blockHeight ∧ r.txIndex < r'.txIndex)

/-- The rune was etched at an earlier place than another one, or at the same. -/
def DbRune.AtOrBefore (r r' : DbRune) : Prop :=
  r.blockHeight < r'.blockHeight ∨ (r.blockHeight = r'.blockHeight ∧ r.txIndex ≤ r'.txIndex)

theorem DbRune.AtOrBefore.not_before {r r' : DbRune} (h : r.AtOrBefore r') : ¬ r'.Before r := by
  unfold AtOrBefore at h
  unfold Before
  omega

/-- The numbers of two runes are in the order of their places. -/
def DbRune.NumberedByPlace (r r' : DbRune) : Prop :=
  (r.Before r' → r.number < r'.number) ∧ (r'.Before r → r'.number < r.number)

instance : Std.Symm DbRune.NumberedByPlace := ⟨fun _ _ h => h.symm⟩

theorem DbRune.AtOrBefore.numberedByPlace {r r' : DbRune} (h : r.AtOrBefore r')
    (hlt : r.number < r'.number) :
    r.NumberedByPlace r' := ⟨fun _ => hlt, fun hbefore => absurd hbefore h.not_before⟩

theorem DbRune.numberedByPlace_self (r : DbRune) : r.NumberedByPlace r := by
  have hself : r.AtOrBefore r := Or.inr ⟨rfl, Nat.le_refl _⟩
  exact ⟨fun hbefore => absurd hbefore hself.not_before,
    fun hbefore => absurd hbefore hself.not_before⟩

/-- The numbers of the rows are `0`, `1`, and so on. -/
def NumberedInOrder (runes : List DbRune) : Prop :=
  runes.map DbRune.number = List.range runes.length

theorem NumberedInOrder.of_prefix {runes runes' : List DbRune} (h : NumberedInOrder runes')
    (hpre : runes <+: runes') : NumberedInOrder runes := by
  obtain ⟨rest, rfl⟩ := hpre
  unfold NumberedInOrder at h ⊢
  rw [List.map_append, List.length_append, List.range_add] at h
  exact (List.append_inj h (by simp)).1

theorem NumberedInOrder.concat {runes : List DbRune} {row : DbRune} (h : NumberedInOrder runes)
    (hnumber : row.number = runes.length) : NumberedInOrder (runes ++ [row]) := by
  unfold NumberedInOrder at h ⊢
  rw [List.map_append, h, List.map_singleton, hnumber, List.length_append, List.length_singleton,
    List.range_succ]

/-! ## The numbers of a block -/

/-- The stage etches a rune under a taken name. -/
def Stage.etchesTaken (s : Session) : Stage → Bool
  | .call _ a => (a.etchedRune s).any fun row => nameTaken s.runes row.name
  | _ => false

/-- The stage etches a rune under a free name. -/
def Stage.etchesFree (s : Session) : Stage → Bool
  | .call _ a => (a.etchedRune s).any fun row => !nameTaken s.runes row.name
  | _ => false

/-- No rune is etched under a free name after one was etched under a taken name. -/
def FreeNamesFirst (env : Environment) (stages : List Stage) (s : Session) : Prop :=
  ∀ done first between second rest t t', stages = done ++ first :: (between ++ second :: rest) →
    runStages env done s = some t → runStages env (done ++ first :: between) s = some t' →
    first.etchesTaken t = true → second.etchesFree t' = false

theorem FreeNamesFirst.of_forall {env : Environment} {l : List Stage} {s : Session}
    (h : EveryStage env (fun t stage => stage.etchesTaken t = false) l s) :
    FreeNamesFirst env l s := by
  intro done first between second rest t t' hsplit hdone _ htaken
  exact absurd (h done first _ t hsplit hdone) (Bool.eq_false_iff.not_left.mpr htaken)

/-- So it is in every block of a run that etches no rune under a taken name. -/
theorem FreeNamesFirst.of_run {env : Environment} {events done rest : List Event} {block : Block}
    {s₀ s : Session}
    (h : EveryStage env (fun t stage => stage.etchesTaken t = false) (stages env events) s₀)
    (hsplit : events = done ++ .index block :: rest) (hdone : runEvents env done s₀ = some s) :
    FreeNamesFirst env (block.stages env) s := by
  rw [hsplit, stages, List.flatMap_append, List.flatMap_cons] at h
  rw [runEvents_eq_runStages] at hdone
  exact .of_forall (h.right hdone).left

/-- The next number is the number of rows, unless a row of the block was dropped. -/
def NumberReady (env : Environment) (s : Session) (done : List Stage) (u : Session) : Prop :=
  u.cache.nextRuneNumber = u.runes.length ∨ ∃ past first between t,
    done = past ++ first :: between ∧ runStages env past s = some t ∧ first.etchesTaken t = true

theorem NumberReady.same {env : Environment} {s u u' : Session} {done : List Stage}
    (h : NumberReady env s done u) (hsame : u.SameRunes u') (stage : Stage) :
    NumberReady env s (done ++ [stage]) u' := by
  rcases h with h | ⟨past, first, between, t, rfl, hpast, htaken⟩
  · exact Or.inl (by rw [hsame.number, hsame.runes, h])
  · exact Or.inr ⟨past, first, between ++ [stage],
      t, by rw [List.append_assoc, List.cons_append], hpast, htaken⟩

/-- The first number of a block whose table is numbered in order. -/
theorem max_of_numberedInOrder {db : Db} {number : Nat} (h : NumberedInOrder db.runes)
    (hmax : pgGetMaxRuneNumber db = some number) : number + 1 = db.runes.length := by
  unfold pgGetMaxRuneNumber at hmax
  rw [h, List.max?_eq_some_iff] at hmax
  obtain ⟨hmem, hle⟩ := hmax
  have hlt := List.mem_range.mp hmem
  have hlast := hle (db.runes.length - 1) (List.mem_range.mpr (by omega))
  omega

/-- **The numbers of the table stay in order in a block** that etches no rune under a free name
after one under a taken name. -/
theorem indexBlock_numberedInOrder {env : Environment} {block : Block} {s s' : Session}
    (hrest : s.cache.dbCache = .new) (h : NumberedInOrder s.db.runes)
    (hnames : FreeNamesFirst env (block.stages env) s) (hrun : indexBlock env block s = some s') :
    NumberedInOrder s'.db.runes := by
  have hrest' : s'.cache.dbCache = .new := by
    obtain ⟨t, -, hflush⟩ := indexBlock_eq_some.mp hrun
    obtain ⟨db, -, rfl⟩ := Session.flush_eq_some.mp hflush
    rfl
  rw [indexBlock_eq_runStages] at hrun
  obtain ⟨u₀, hopen, hstages⟩ := foldlM_cons_eq_some.mp hrun
  have hind := foldlM_induction_split (P := fun done u =>
    runStages env (.openBlock block :: done) s = some u ∧ NumberedInOrder u.runes ∧
      NumberReady env s (.openBlock block :: done) u) ⟨?_, ?_, ?_⟩ ?_ hstages
  · rw [← Session.runes_of_rest hrest']
    exact hind.2.1
  · exact foldlM_cons_eq_some.mpr ⟨u₀, hopen, rfl⟩
  · obtain ⟨number, rfl, -⟩ := resetMaxRuneNumber_eq_some hopen
    exact (Session.runes_of_rest hrest).symm ▸ h
  · obtain ⟨number, rfl, hmax⟩ := resetMaxRuneNumber_eq_some hopen
    have hruns : (s.setNextRuneNumber (number + 1)).runes = s.db.runes :=
      Session.runes_of_rest hrest
    exact Or.inl (by rw [hruns]; exact max_of_numberedInOrder h hmax)
  · rintro done stage rest u u' hsplit ⟨hdone, hnumbers, hready⟩ hstep
    have hdone' : runStages env (.openBlock block :: (done ++ [stage])) s = some u' :=
      foldlM_append_eq_some.mpr ⟨u, hdone, foldlM_singleton_eq_some.mpr hstep⟩
    have hmem : stage ∈ block.transactions.flatMap (Transaction.stages env block) ++
        [.closeBlock block] :=
      hsplit ▸ List.mem_append_right _ List.mem_cons_self
    rcases List.mem_append.mp hmem with hcall | hclose
    · obtain ⟨a, rfl⟩ := exists_call_of_mem_stages hcall
      rcases Action.runes hstep with ⟨-, hsame⟩ | ⟨row, hrow, hetches⟩
      · exact ⟨hdone', hsame.runes.symm ▸ hnumbers, hready.same hsame _⟩
      · by_cases htaken : nameTaken u.runes row.name = true
        · refine ⟨hdone', ?_,
            Or.inr ⟨.openBlock block :: done, .call block a, [], u, rfl, hdone, ?_⟩⟩
          · rw [hetches.runes, keepRune_of_taken htaken]
            exact hnumbers
          · simp [Stage.etchesTaken, hrow, htaken]
        · have hfree := Bool.eq_false_iff.mpr htaken
          have hnext : u.cache.nextRuneNumber = u.runes.length := by
            rcases hready with hready | ⟨past, first, between, t, heq, hpast, hfirst⟩
            · exact hready
            -- a free name after a taken one
            · have hstages : block.stages env =
                  past ++ first :: (between ++ .call block a :: rest) := by
                rw [Block.stages, hsplit, ← List.cons_append, heq, List.append_assoc,
                  List.cons_append]
              have hnot :=
                hnames past first between (.call block a) rest t u hstages hpast
                  (heq ▸ hdone) hfirst
              simp [Stage.etchesFree, hrow, hfree] at hnot
          have hruns := hetches.runes.trans (keepRune_of_free hfree)
          refine ⟨hdone', ?_, Or.inl ?_⟩
          · rw [hruns]
            exact hnumbers.concat ((Action.etchedRow hrow).number.trans hnext)
          · rw [hetches.number, hruns, List.length_append, List.length_singleton, hnext]
    · cases List.mem_singleton.mp hclose
      have hclosing : u.SameRunes (closing env block u) := .of_eq rfl rfl rfl fun _ _ hr => hr
      have hsame := hclosing.trans (.flush hstep)
      exact ⟨hdone', hsame.runes.symm ▸ hnumbers, hready.same hsame _⟩

/-! ## The places of a block -/

/-- What is written to the runes goes to the end of the table, under free names. -/
theorem Session.Writes.runes_eq {s s' : Session} {es : List DbLedgerEntry} {rs : List DbRune}
    (h : s.Writes es rs s') : s'.runes = rs.foldl keepRune s.runes := by
  induction h with
  | quiet h => rw [runes, h.db, h.dbCache, List.foldl_nil, runes]
  | flush h => exact (flush_runes h).2
  | pushRune s rune =>
    show (s.cache.dbCache.runes ++ [rune]).foldl keepRune s.db.runes = _
    rw [List.foldl_append]
    rfl
  | add h => exact (SameRunes.add h).runes
  | trans _ _ ih ih' => rw [ih', ih, List.foldl_append]

theorem foldl_keepRune (rs runes : List DbRune) :
    ∃ kept : List DbRune,
      kept.Sublist rs ∧ rs.foldl keepRune runes = runes ++ kept.map DbRune.stored := by
  induction rs generalizing runes with
  | nil => exact ⟨[], .slnil, (List.append_nil _).symm⟩
  | cons r rs ih =>
    obtain ⟨kept, hsub, heq⟩ := ih (keepRune runes r)
    rw [List.foldl_cons, heq]
    unfold keepRune
    split
    · exact ⟨kept, hsub.cons r, rfl⟩
    · exact ⟨r :: kept, hsub.cons_cons r, by simp⟩

/-- **The rows of a block** come after those of the table, in the order of its transactions. -/
theorem indexBlock_runes {env : Environment} {block : Block} {s s' : Session}
    (hrest : s.cache.dbCache = .new)
    (hindexes : (block.transactions.map Transaction.index).Pairwise (· < ·))
    (hrun : indexBlock env block s = some s') :
    ∃ new, s'.db.runes = s.db.runes ++ new ∧ (∀ r ∈ new, r.blockHeight = block.height) ∧
      new.Pairwise DbRune.AtOrBefore := by
  obtain ⟨t, htxs, hflush⟩ := indexBlock_eq_some.mp hrun
  obtain ⟨u, hreset, htxs⟩ := indexTransactions_eq_some.mp htxs
  obtain ⟨number, rfl, -⟩ := resetMaxRuneNumber_eq_some hreset
  rw [List.pairwise_map] at hindexes
  have hind := foldlM_induction_split (P := fun done u => ∃ es rs, s.Writes es rs u ∧
    (∀ r ∈ rs, r.blockHeight = block.height ∧ ∃ tx ∈ done, r.txIndex = tx.index) ∧
      rs.Pairwise fun r r' => r.txIndex ≤ r'.txIndex)
      ⟨[], [], .quiet (.setNextRuneNumber s _), ?_, .nil⟩ ?_ htxs
  · obtain ⟨es, rs, hwrites, hat, hordered⟩ := hind
    obtain ⟨kept, hsub, hkept⟩ := foldl_keepRune rs s.runes
    have hheight : ∀ r ∈ kept, r.blockHeight = block.height :=
      fun r hr => (hat r (hsub.subset hr)).1
    refine ⟨kept.map DbRune.stored, ?_, ?_, ?_⟩
    · have hclosing : (closing env block t).runes = t.runes := rfl
      rw [(Session.flush_runes hflush).1, hclosing, hwrites.runes_eq, hkept,
        Session.runes_of_rest hrest]
    · intro r hr
      obtain ⟨r₀, hr₀, rfl⟩ := List.mem_map.mp hr
      exact hheight r₀ hr₀
    · rw [List.pairwise_map]
      refine (hordered.sublist hsub).imp_of_mem fun {r r'} hr hr' hle => Or.inr ⟨?_, hle⟩
      exact (hheight r hr).trans (hheight r' hr').symm
  · exact fun r hr => absurd hr List.not_mem_nil
  · rintro done tx rest u u' hsplit ⟨es, rs, hwrites, hat, hordered⟩ hstep
    obtain ⟨es', rs', hwrites', -, -, hat'⟩ := indexTransaction_writes hstep
    refine ⟨es ++ es', rs ++ rs', hwrites.trans hwrites', ?_, ?_⟩
    · intro r hr
      rcases List.mem_append.mp hr with hr | hr
      · obtain ⟨hheight, tx', htx', hindex⟩ := hat r hr
        exact ⟨hheight, tx', List.mem_append_left _ htx', hindex⟩
      · exact ⟨(hat' r hr).blockHeight, tx, List.mem_append_right _ List.mem_cons_self,
          (hat' r hr).txIndex⟩
    · refine List.pairwise_append.mpr ⟨hordered, ?_, ?_⟩
      -- the runes of one transaction are at one place
      · exact List.pairwise_of_forall_mem_list fun r hr r' hr' =>
          ((hat' r hr).txIndex.trans (hat' r' hr').txIndex.symm).le
      · intro r hr r' hr'
        obtain ⟨-, tx', htx', hindex⟩ := hat r hr
        rw [hsplit, List.pairwise_append] at hindexes
        rw [hindex, (hat' r' hr').txIndex]
        exact (hindexes.2.2 tx' htx' tx List.mem_cons_self).le

/-! ## Runs -/

/-- Without the elements of the greatest value, a sorted list is a prefix of itself. -/
theorem filter_ne_prefix {α : Type} {f : α → Nat} {l : List α} {k : Nat}
    (hsorted : l.Pairwise fun a b => f a ≤ f b) (hle : ∀ a ∈ l, f a ≤ k) :
    (l.filter fun a => f a ≠ k) <+: l := by
  induction l with
  | nil => exact List.prefix_refl _
  | cons a l ih =>
    obtain ⟨hhead, htail⟩ := List.pairwise_cons.mp hsorted
    by_cases ha : f a = k
    -- from the first element of the height on, all have it
    · have hnil : (a :: l).filter (fun a => f a ≠ k) = [] := by
        rw [List.filter_eq_nil_iff]
        intro b hb hne
        have hge : f a ≤ f b := by
          rcases List.mem_cons.mp hb with rfl | hb
          · exact Nat.le_refl _
          · exact hhead b hb
        have := hle b hb
        exact of_decide_eq_true hne (by omega)
      rw [hnil]
      exact List.nil_prefix
    · rw [List.filter_cons_of_pos (by simpa using ha)]
      exact List.prefix_cons_inj a |>.mpr (ih htail fun b hb => hle b (List.mem_cons_of_mem _ hb))

/-- Between two blocks the table holds the rune of the migrations and then those of the surviving
blocks, in the order of their places, and numbered in order. -/
structure Numbered (blocks : List Block) (s : Session) : Prop where
  /-- Nothing waits in memory. -/
  rest : s.cache.dbCache = .new
  /-- The heights of the blocks increase. -/
  increasing : blocks.Pairwise fun b b' => b.height < b'.height
  /-- The rows are numbered in order. -/
  numbers : NumberedInOrder s.db.runes
  /-- They are the rune of the migrations and those of the blocks, in the order of their places. -/
  etched : ∃ etched, s.db.runes = uncommonGoods :: etched ∧ etched.Pairwise DbRune.AtOrBefore ∧
    ∀ r ∈ etched, ∃ b ∈ blocks, r.blockHeight = b.height

namespace Numbered

variable {env : Environment} {blocks : List Block} {s s' : Session}

theorem of_empty {network : Network} (h : s.cache.Empty network) (hdb : s.db = .migrated) :
    Numbered [] s where
  rest := h.dbCache
  increasing := .nil
  numbers := by
    rw [hdb]
    rfl
  etched := ⟨[], by rw [hdb]; rfl, .nil, fun r hr => absurd hr List.not_mem_nil⟩

theorem index {block : Block} (h : Numbered blocks s)
    (habove : ∀ b ∈ blocks, b.height < block.height)
    (hindexes : (block.transactions.map Transaction.index).Pairwise (· < ·))
    (hnames : FreeNamesFirst env (block.stages env) s) (hrun : indexBlock env block s = some s') :
    Numbered (blocks ++ [block]) s' := by
  obtain ⟨etched, hetched, hordered, hheights⟩ := h.etched
  obtain ⟨new, hnew, hnewHeight, hnewOrdered⟩ := indexBlock_runes h.rest hindexes hrun
  refine ⟨?_, ?_, indexBlock_numberedInOrder h.rest h.numbers hnames hrun,
    ⟨etched ++ new, by rw [hnew, hetched, List.cons_append], ?_, ?_⟩⟩
  · obtain ⟨t, -, hflush⟩ := indexBlock_eq_some.mp hrun
    obtain ⟨db, -, rfl⟩ := Session.flush_eq_some.mp hflush
    rfl
  · refine List.pairwise_append.mpr ⟨h.increasing, List.pairwise_singleton _ _,
      fun b hb b' hb' => ?_⟩
    exact List.mem_singleton.mp hb' ▸ habove b hb
  · refine List.pairwise_append.mpr ⟨hordered, hnewOrdered, fun r hr r' hr' => Or.inl ?_⟩
    obtain ⟨b, hb, heq⟩ := hheights r hr
    rw [heq, hnewHeight r' hr']
    exact habove b hb
  · intro r hr
    rcases List.mem_append.mp hr with hr | hr
    · obtain ⟨b, hb, heq⟩ := hheights r hr
      exact ⟨b, List.mem_append_left _ hb, heq⟩
    · exact ⟨block, List.mem_append_right _ List.mem_cons_self, hnewHeight r hr⟩

theorem rollBack {height : Nat} (h : Numbered blocks s)
    (hlast : blocks.getLast?.map Block.height = some height)
    (hgenesis : height ≠ uncommonGoods.blockHeight) :
    Numbered blocks.dropLast (rollBackBlock height s) := by
  obtain ⟨b, hb, rfl⟩ := Option.map_eq_some_iff.mp hlast
  obtain ⟨lower, rfl⟩ := List.getLast?_eq_some_iff.mp hb
  obtain ⟨hincreasing, -, habove⟩ := List.pairwise_append.mp h.increasing
  obtain ⟨etched, hetched, hordered, hheights⟩ := h.etched
  -- no rune is above the block that is rolled back
  have hle : ∀ r ∈ etched, r.blockHeight ≤ b.height := by
    intro r hr
    obtain ⟨b', hb', heq⟩ := hheights r hr
    rcases List.mem_append.mp hb' with hb' | hb'
    · exact heq ▸ (habove b' hb' b (List.mem_singleton.mpr rfl)).le
    · rw [heq, List.mem_singleton.mp hb']
  have hsorted : etched.Pairwise fun r r' => r.blockHeight ≤ r'.blockHeight :=
    hordered.imp fun hr => hr.elim Nat.le_of_lt fun hr => hr.1.le
  have hrows : (rollBackBlock b.height s).db.runes =
      uncommonGoods :: etched.filter fun r => r.blockHeight ≠ b.height := by
    show s.db.runes.filter (fun r => r.blockHeight ≠ b.height) = _
    rw [hetched, List.filter_cons_of_pos (by simpa using hgenesis.symm)]
  -- so that dropping its rows leaves a prefix of the numbered ones
  have hprefix := filter_ne_prefix hsorted hle
  rw [List.dropLast_concat]
  refine ⟨h.rest, hincreasing, h.numbers.of_prefix ?_,
    ⟨_, hrows, hordered.sublist hprefix.sublist, ?_⟩⟩
  · rw [hrows, hetched]
    exact (List.prefix_cons_inj _).mpr hprefix
  · intro r hr
    obtain ⟨hr, hne⟩ := List.mem_filter.mp hr
    obtain ⟨b', hb', heq⟩ := hheights r hr
    rcases List.mem_append.mp hb' with hb' | hb'
    · exact ⟨b', hb', heq⟩
    · rw [List.mem_singleton.mp hb'] at heq
      exact absurd heq (of_decide_eq_true hne)

theorem restart {cap : Nat} {hcap : 0 < cap} (h : Numbered blocks s)
    (hrun : s.restart cap hcap = some s') :
    Numbered blocks s' := by
  obtain ⟨cache, hcache, rfl⟩ := restart_eq_some hrun
  exact ⟨(IndexCache.new_empty hcache).dbCache, h.increasing, h.numbers, h.etched⟩

/-- Numbers increase with the places of the etchings. -/
theorem number_lt (h : Numbered blocks s) {r r' : DbRune} (hr : r ∈ s.db.runes)
    (hr' : r' ∈ s.db.runes) (hid : r.id ≠ uncommonGoods.id) (hid' : r'.id ≠ uncommonGoods.id)
    (hbefore : r.Before r') :
    r.number < r'.number := by
  obtain ⟨etched, hetched, hordered, -⟩ := h.etched
  have hmem : ∀ r ∈ s.db.runes, r.id ≠ uncommonGoods.id → r ∈ etched := by
    intro r hr hid
    rw [hetched] at hr
    exact (List.mem_cons.mp hr).resolve_left fun heq => hid (congrArg DbRune.id heq)
  have hnumbers : etched.Pairwise fun r r' => r.number < r'.number := by
    have hall : (s.db.runes.map DbRune.number).Pairwise (· < ·) :=
      h.numbers ▸ List.pairwise_lt_range
    rw [hetched, List.map_cons, List.pairwise_cons] at hall
    exact List.pairwise_map.mp hall.2
  -- of two rows, the one at the earlier place comes first in the table
  have hplaces := (hordered.and hnumbers).imp fun hab => hab.1.numberedByPlace hab.2
  have hall := List.Pairwise.forall_of_forall (fun r _ => r.numberedByPlace_self) hplaces
  exact (hall (hmem r hr hid) (hmem r' hr' hid')).1 hbefore

end Numbered

/-- **Rune numbering**: in a run that indexes at increasing heights and rolls back the highest
block, but not that of the rune of the migrations, and no block of which etches a rune under a free
name after one under a taken name, the numbers of the table are those below the number of its rows,
each once, and they increase with the places of the etchings. -/
theorem runEvents_numbered {env : Environment} {network : Network} {cap : Nat} {hcap : 0 < cap}
    {events : List Event} {blocks : List Block} {s₀ s : Session}
    (hchain : survivingChain events = some blocks)
    (hindexes : ∀ b ∈ indexedBlocks events, (b.transactions.map Transaction.index).Pairwise (· < ·))
    (hgenesis : Event.rollBack uncommonGoods.blockHeight ∉ events)
    (hnames : ∀ done block rest t, events = done ++ .index block :: rest →
        runEvents env done s₀ = some t → FreeNamesFirst env (block.stages env) t)
    (hstart : freshSession network cap hcap = some s₀) (hrun : runEvents env events s₀ = some s) :
    (s.db.runes.map DbRune.number).Nodup ∧
      (∀ n, n ∈ s.db.runes.map DbRune.number ↔ n < s.db.runes.length) ∧
      ∀ r ∈ s.db.runes, ∀ r' ∈ s.db.runes, r.id ≠ uncommonGoods.id → r'.id ≠ uncommonGoods.id →
        r.Before r' → r.number < r'.number := by
  obtain ⟨hempty, hdb⟩ := freshSession_eq_some hstart
  -- the rows are numbered after every prefix of the events
  have h : Numbered blocks s := by
    refine runEvents_induction (.of_empty hempty hdb) ?_ hchain hrun
    intro done e rest bs bs' t t' hsplit hdone _ hon hstep h
    cases e with
    | index block =>
      rw [Event.onChain] at hon
      split at hon
      · rename_i habove
        cases Option.some.inj hon
        have hmem : block ∈ indexedBlocks events := by
          rw [hsplit]
          exact List.mem_filterMap.mpr ⟨.index block,
            List.mem_append_right _ List.mem_cons_self, rfl⟩
        exact h.index habove (hindexes block hmem) (hnames done block rest t hsplit hdone) hstep
      · cases hon
    | rollBack height =>
      rw [Event.onChain] at hon
      split at hon
      · rename_i hlast
        cases Option.some.inj hon
        cases Option.some.inj hstep
        refine h.rollBack hlast fun heq => hgenesis ?_
        rw [hsplit, ← heq]
        exact List.mem_append_right _ List.mem_cons_self
      · cases hon
    | restart cap hcap =>
      cases Option.some.inj hon
      exact h.restart hstep
  -- the numbers of the table are exactly the positions of its rows
  have hnumbers : s.db.runes.map DbRune.number = List.range s.db.runes.length := h.numbers
  refine ⟨?_, fun n => ?_, fun r hr r' hr' hid hid' => h.number_lt hr hr' hid hid'⟩
  · rw [hnumbers]
    exact List.nodup_range
  · rw [hnumbers, List.mem_range]

/-- A block with an etching, a block that is rolled back, and a block in its place. -/
def etchAndReplace : List Event :=
  [.index (etchBlock [freeNameTx]), .index { etchBlock [freeNameTx] with height := 840002 },
    .rollBack 840002, .index { etchBlock [freeNameTx] with height := 840002, hash := "0xb2" }]

/-- The numbers after `etchAndReplace` are `0`, `1` and `2`. -/
theorem runEvents_numbered_etchAndReplace : ∃ s₀ s, freshSession .bitcoin 2 (by decide) = some s₀ ∧
    runEvents etchEnv etchAndReplace s₀ = some s ∧ s.db.runes.length = 3 ∧
      (s.db.runes.map DbRune.number).Nodup ∧
        (∀ n, n ∈ s.db.runes.map DbRune.number ↔ n < s.db.runes.length) ∧
        ∀ r ∈ s.db.runes, ∀ r' ∈ s.db.runes, r.id ≠ uncommonGoods.id → r'.id ≠ uncommonGoods.id →
          r.Before r' → r.number < r'.number := by
  have hruns : (freshSession .bitcoin 2 (by decide)).any fun s₀ =>
      ((runEvents etchEnv etchAndReplace s₀).any fun s => s.db.runes.length = 3) ∧
        checkStages etchEnv (fun s stage => !stage.etchesTaken s)
        (stages etchEnv etchAndReplace) s₀ := by
    decide +kernel
  obtain ⟨s₀, hstart, h⟩ := (Option.any_eq_true _ _).mp hruns
  obtain ⟨hany, hcheck⟩ := of_decide_eq_true h
  obtain ⟨s, hrun, hlength⟩ := (Option.any_eq_true _ _).mp hany
  have hevery :
      EveryStage etchEnv (fun t stage => stage.etchesTaken t = false)
      (stages etchEnv etchAndReplace)
      s₀ := .of_check (fun _ _ h => by simpa using h) hcheck
  have hchain : survivingChain etchAndReplace = some [etchBlock [freeNameTx],
      { etchBlock [freeNameTx] with height := 840002, hash := "0xb2" }] := by decide
  have hindexes : ∀ b ∈ indexedBlocks etchAndReplace,
      (b.transactions.map Transaction.index).Pairwise (· < ·) := by
    decide
  have hgenesis : Event.rollBack uncommonGoods.blockHeight ∉ etchAndReplace := by
    simp [etchAndReplace, uncommonGoods]
  exact ⟨s₀, s, hstart, hrun, of_decide_eq_true hlength, runEvents_numbered hchain hindexes hgenesis
    (fun _ _ _ _ hsplit hdone => .of_run hevery hsplit hdone) hstart hrun⟩

/-- **A dropped rune leaves a gap**: after a block that etches a rune under a taken name and then
one under a free name, there are two rows, with the numbers `0` and `2`. -/
theorem exists_number_gap : ∃ s₀ s, freshSession .bitcoin 2 (by decide) = some s₀ ∧
    runEvents etchEnv [.index (etchBlock [takenNameTx, freeNameTx])] s₀ = some s ∧
      s.db.runes.map DbRune.number = [0, 2] := by
  have hruns : (freshSession .bitcoin 2 (by decide)).any fun s₀ =>
      (runEvents etchEnv [.index (etchBlock [takenNameTx, freeNameTx])] s₀).any fun s =>
        s.db.runes.map DbRune.number = [0, 2] := by decide +kernel
  obtain ⟨s₀, hstart, h⟩ := (Option.any_eq_true _ _).mp hruns
  obtain ⟨s, hrun, hnumbers⟩ := (Option.any_eq_true _ _).mp h
  exact ⟨s₀, s, hstart, hrun, of_decide_eq_true hnumbers⟩

end Runehook
