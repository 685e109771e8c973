import Runehook.Runs

/-! # Runs, call by call

A run of events taken apart into the calls that `index_block` makes (`stages`,
`runEvents_eq_runStages`), so that an invariant can be stated of every moment of a run, and a
condition on every call (`EveryStage`). A `Cursor` follows the stages of a run without looking at
its state: it knows the height of the block, the transaction, and which runes have been etched. On
increasing blocks every stage comes where it should (`Stage.Fits`, `stages_follow`), and
`stages_induction` is the induction over the stages of a run. -/

namespace Runehook

open Lib

/-! ## Stages -/

/-- A stage of a run: what happens between two moments. -/
inductive Stage where
  /-- The cache of the outputs of the block is emptied. -/
  | openBlock (block : Block)
  /-- A call on the index cache. -/
  | call (block : Block) (action : Action)
  /-- The block is flushed. -/
  | closeBlock (block : Block)
  /-- The rows of a height are deleted. -/
  | rollBack (height : Nat)
  /-- The process starts again. -/
  | restart (cap : Nat) (hcap : 0 < cap)

/-- Carry out a stage. -/
def Stage.run (env : Environment) (s : Session) : Stage → Option Session
  | .openBlock _ => s.resetMaxRuneNumber
  | .call block a => a.run env block s
  | .closeBlock block => (closing env block s).flush
  | .rollBack height => some (rollBackBlock height s)
  | .restart cap hcap => s.restart cap hcap

/-- The stages of a transaction. -/
def Transaction.stages (env : Environment) (block : Block) (tx : Transaction) : List Stage :=
  (tx.actions env).map (Stage.call block)

/-- The stages of a block. -/
def Block.stages (env : Environment) (block : Block) : List Stage :=
  .openBlock block ::
    (block.transactions.flatMap (Transaction.stages env block) ++ [.closeBlock block])

/-- The stages of an event. -/
def Event.stages (env : Environment) : Event → List Stage
  | .index block => block.stages env
  | .rollBack height => [.rollBack height]
  | .restart cap hcap => [.restart cap hcap]

/-- The stages of a run. -/
def stages (env : Environment) (events : List Event) : List Stage :=
  events.flatMap (Event.stages env)

/-- Carry out stages. -/
def runStages (env : Environment) (stages : List Stage) (s : Session) : Option Session :=
  stages.foldlM (Stage.run env) s

/-- Every stage of a run, in the state that it starts from, has a property. -/
def EveryStage (env : Environment) (P : Session → Stage → Prop) (stages : List Stage)
    (s : Session) : Prop :=
  ∀ done stage rest t, stages = done ++ stage :: rest → runStages env done s = some t → P t stage

section

variable {env : Environment} {P : Session → Stage → Prop} {l l' : List Stage} {s t : Session}

theorem EveryStage.of_forall (h : ∀ stage ∈ l, ∀ t, P t stage) : EveryStage env P l s := by
  rintro done stage rest t rfl -
  exact h stage (List.mem_append_right _ List.mem_cons_self) t

/-- A test of every stage of a run, in the state that it starts from. -/
def checkStages (env : Environment) (p : Session → Stage → Bool) : List Stage → Session → Bool :=
  checkRun (Stage.run env) p

theorem EveryStage.of_check {p : Session → Stage → Bool}
    (hp : ∀ s stage, p s stage = true → P s stage) (h : checkStages env p l s = true) :
    EveryStage env P l s :=
  fun _ stage _ t hsplit hrun => hp t stage (of_checkRun h hsplit hrun)

/-- What every stage has at the beginning of a run. -/
theorem EveryStage.left (h : EveryStage env P (l ++ l') s) : EveryStage env P l s := by
  rintro done stage rest t rfl hrun
  exact h done stage (rest ++ l') t (by rw [List.append_assoc, List.cons_append]) hrun

/-- What every stage has from a later state on. -/
theorem EveryStage.right (h : EveryStage env P (l ++ l') s) (hrun : runStages env l s = some t) :
    EveryStage env P l' t := by
  rintro done stage rest u rfl hdone
  exact h (l ++ done) stage rest u (List.append_assoc _ _ _).symm
    (foldlM_append_eq_some.mpr ⟨t, hrun, hdone⟩)

/-- What every stage has is what the first has, and what every stage has after it. -/
theorem everyStage_cons {stage : Stage}
    (ht : stage.run env s = some t) :
    EveryStage env P (stage :: l) s ↔ P s stage ∧ EveryStage env P l t := by
  constructor
  · intro h
    exact ⟨h [] stage l s rfl rfl, (h.right (l := [stage]) (foldlM_singleton_eq_some.mpr ht) :)⟩
  · rintro ⟨hstage, hrest⟩ (_ | ⟨first, done⟩) stage' rest u hsplit hdone
    · obtain ⟨rfl, rfl⟩ := List.cons.inj hsplit
      cases Option.some.inj hdone
      exact hstage
    · obtain ⟨rfl, rfl⟩ := List.cons.inj hsplit
      obtain ⟨v, hv, hdone⟩ := foldlM_cons_eq_some.mp hdone
      cases Option.some.inj (ht.symm.trans hv)
      exact hrest done stage' rest u rfl hdone

/-- What every stage has of a run and of the one that continues it. -/
theorem EveryStage.append (h : EveryStage env P l s)
    (h' : ∀ t, runStages env l s = some t → EveryStage env P l' t) :
    EveryStage env P (l ++ l') s := by
  induction l generalizing s with
  | nil => exact h' s rfl
  | cons first l ih =>
    rintro (_ | ⟨first', done⟩) stage rest t hsplit hrun
    · obtain ⟨rfl, rfl⟩ := List.cons.inj hsplit
      exact h [] _ l t rfl hrun
    · obtain ⟨hfirst, htail⟩ := List.cons.inj hsplit
      subst hfirst
      obtain ⟨u, hu, hdone⟩ := foldlM_cons_eq_some.mp hrun
      refine ih ((everyStage_cons hu).mp h).2 (fun v hv => h' v ?_) done stage rest t htail hdone
      exact foldlM_cons_eq_some.mpr ⟨u, hu, hv⟩

/-- What every stage has is what every stage but the last has, and the last. -/
theorem everyStage_concat {stage : Stage} (hrun : runStages env l s = some t) :
    EveryStage env P (l ++ [stage]) s ↔ EveryStage env P l s ∧ P t stage := by
  constructor
  · exact fun h => ⟨h.left, h l stage [] t rfl hrun⟩
  · rintro ⟨hbefore, hstage⟩
    refine hbefore.append fun u hu => ?_
    cases Option.some.inj (hrun.symm.trans hu)
    rintro (_ | ⟨first, done⟩) stage' rest v hsplit hdone
    · obtain ⟨rfl, -⟩ := List.cons.inj hsplit
      cases Option.some.inj hdone
      exact hstage
    · exact absurd (List.cons.inj hsplit).2 (by simp)

end

theorem indexTransaction_eq_runStages (env : Environment) (block : Block) (s : Session)
    (tx : Transaction) :
    indexTransaction env block s tx = runStages env (tx.stages env block) s := by
  rw [runStages, Transaction.stages, List.foldlM_map]
  rfl

theorem indexBlock_eq_runStages (env : Environment) (block : Block) (s : Session) :
    indexBlock env block s = runStages env (block.stages env) s := by
  -- the transactions are the stages of each, one after another
  have htxs : ∀ (txs : List Transaction) (s : Session), txs.foldlM (indexTransaction env block) s =
      runStages env (txs.flatMap (Transaction.stages env block)) s := by
    intro txs
    induction txs with
    | nil => exact fun _ => rfl
    | cons tx txs ih =>
      intro s
      rw [List.foldlM_cons, List.flatMap_cons, runStages, List.foldlM_append, ← runStages,
        ← indexTransaction_eq_runStages]
      exact bind_congr fun t => ih t
  ext s'
  rw [indexBlock_eq_some, runStages, Block.stages, foldlM_cons_eq_some]
  constructor
  · rintro ⟨t, htxs', hflush⟩
    obtain ⟨u, hreset, hfold⟩ := indexTransactions_eq_some.mp htxs'
    exact ⟨u, hreset, foldlM_append_eq_some.mpr ⟨t, (htxs _ _).symm.trans hfold,
      foldlM_singleton_eq_some.mpr hflush⟩⟩
  · rintro ⟨u, hreset, hrest⟩
    obtain ⟨t, hfold, hflush⟩ := foldlM_append_eq_some.mp hrest
    exact ⟨t, indexTransactions_eq_some.mpr ⟨u, hreset, (htxs _ _).trans hfold⟩,
      foldlM_singleton_eq_some.mp hflush⟩

/-- **A run is the run of its stages.** -/
theorem runEvents_eq_runStages (env : Environment) (events : List Event) (s : Session) :
    runEvents env events s = runStages env (stages env events) s := by
  induction events generalizing s with
  | nil => rfl
  | cons e events ih =>
    rw [runEvents, List.foldlM_cons, stages, List.flatMap_cons, runStages,
      List.foldlM_append, ← runStages]
    have he : e.run env s = runStages env (e.stages env) s := by
      cases e with
      | index block => exact indexBlock_eq_runStages env block s
      | rollBack height => rfl
      | restart cap hcap => exact (bind_pure _).symm
    rw [he]
    exact bind_congr fun t => ih t

/-! ## The cursor -/

/-- Where a run is. -/
structure Cursor where
  /-- The height of the block that is open, or was open last. -/
  height : Nat
  /-- Whether a block is open. -/
  isOpen : Bool
  /-- The rune id of the transaction. -/
  tx : RuneId
  /-- How far the calls for the transaction have come. -/
  step : Nat
  /-- The ids of the runes etched so far. -/
  etched : List RuneId

/-- Before a run. The location of a new index cache is block 1, transaction 0. -/
def Cursor.start : Cursor := ⟨0, false, ⟨1, 0⟩, 0, []⟩

/-- The place of an action among the calls for a transaction. -/
def Action.step : Action → Nat
  | .beginTransaction _ => 0
  | .runestone _ | .cenotaph => 1
  | .etching _ | .cenotaphEtching _ => 2
  | .mint _ | .cenotaphMint _ => 3
  | .edict _ => 4
  | .endTransaction => 5

/-- The action etches a rune. -/
def Action.etches : Action → Bool
  | .etching _ | .cenotaphEtching _ => true
  | _ => false

/-- The cursor after a call. -/
def Cursor.call (c : Cursor) (block : Block) : Action → Cursor
  | .beginTransaction tx => { c with tx := ⟨block.height, tx.index⟩, step := 0 }
  | a => { c with step := a.step, etched := if a.etches then c.etched ++ [c.tx] else c.etched }

/-- The cursor after a stage. -/
def Cursor.next (c : Cursor) : Stage → Cursor
  | .openBlock block => { c with height := block.height, isOpen := true }
  | .call block a => c.call block a
  | .closeBlock _ => { c with isOpen := false }
  | .rollBack _ => c
  | .restart _ _ => { c with tx := ⟨1, 0⟩, step := 0 }

/-- A call for a transaction may come after another one: an edict follows an edict. -/
def After (step step' : Nat) : Prop := step < step' ∨ (step = 4 ∧ step' = 4)

/-- The stage comes where it should in a run on increasing blocks: blocks do not overlap, a call is
for a transaction of the open block, the calls for a transaction come in order, and no id is etched
twice. -/
def Stage.Fits (c : Cursor) : Stage → Prop
  | .openBlock block => c.isOpen = false ∧ c.height ≤ block.height
  | .call block a => c.isOpen = true ∧ c.height = block.height ∧ (a.etches → c.tx ∉ c.etched) ∧
      ((∀ tx, a ≠ .beginTransaction tx) → c.tx.block = block.height ∧ After c.step a.step)
  | .closeBlock block => c.isOpen = true ∧ c.height = block.height
  | .rollBack _ => False
  | .restart _ _ => c.isOpen = false

/-- Stages that come one after the other where they should. -/
def Follows : Cursor → List Stage → Prop
  | _, [] => True
  | c, stage :: stages => stage.Fits c ∧ Follows (c.next stage) stages

theorem follows_append {c : Cursor} {l l' : List Stage} :
    Follows c (l ++ l') ↔ Follows c l ∧ Follows (l.foldl Cursor.next c) l' := by
  induction l generalizing c with
  | nil => simp [Follows]
  | cons stage l ih => simp [Follows, ih, and_assoc]

/-- Each stage fits the cursor that the stages before it leave. -/
theorem Follows.fits {c : Cursor} {done rest : List Stage} {stage : Stage}
    (h : Follows c (done ++ stage :: rest)) : stage.Fits (done.foldl Cursor.next c) :=
  (follows_append.mp h).2.1

/-- Blocks at increasing heights, whose transactions have distinct indexes. -/
structure Increasing (blocks : List Block) : Prop where
  /-- The heights increase. -/
  heights : blocks.Pairwise fun b b' => b.height < b'.height
  /-- The transactions of a block have distinct indexes. -/
  indexes : ∀ b ∈ blocks, (b.transactions.map Transaction.index).Nodup

theorem Chain.increasing {blocks : List Block} (h : Chain blocks) : Increasing blocks :=
  ⟨h.heights_pairwise, h.indexes⟩

/-- **The calls for a transaction come in order.** -/
theorem Transaction.actions_ordered (env : Environment) (tx : Transaction) :
    ∃ as, tx.actions env = .beginTransaction tx :: as ∧ (∀ a ∈ as, 0 < a.step) ∧
      as.Pairwise fun a b => After a.step b.step := by
  rw [Transaction.actions]
  cases env.decipher tx.outputs with
  | none => exact ⟨[.endTransaction], rfl, by simp [Action.step], List.pairwise_singleton _ _⟩
  | some artifact =>
    refine ⟨artifact.actions ++ [.endTransaction], rfl, ?_⟩
    -- the steps of the calls are numbers that can be read off
    rw [← List.forall_mem_map (f := Action.step) (P := fun n => 0 < n), ← List.pairwise_map]
    cases artifact with
    | runestone r =>
      have hedicts : (r.edicts.map Action.edict).map Action.step =
          List.replicate r.edicts.length 4 := by
        rw [List.map_map, List.map_eq_replicate_iff]
        exact fun _ _ => rfl
      rw [Artifact.actions, List.map_append, List.map_append, hedicts]
      cases r.etching <;> cases r.mint <;>
        simp [Action.step, After, List.pairwise_append, List.pairwise_replicate,
          List.mem_replicate] <;> and_intros <;> rintro a (⟨-, rfl⟩ | rfl) <;> decide
    | cenotaph k =>
      rw [Artifact.actions]
      cases k.etching <;> cases k.mint <;> simp [Action.step, After]

/-- What the stages of a part of a block leave of the cursor. -/
structure Cursor.Within (c c' : Cursor) (ids : List RuneId) : Prop where
  /-- The block is as open as before. -/
  isOpen : c'.isOpen = c.isOpen
  /-- It is the same block. -/
  height : c'.height = c.height
  /-- Only runes of the transactions were etched. -/
  etched : ∀ id ∈ c'.etched, id ∈ c.etched ∨ id ∈ ids

/-- Calls in order, for a transaction that has begun. -/
theorem calls_follow {block : Block} {as : List Action} {c : Cursor}
    (hordered : as.Pairwise fun a b => After a.step b.step) (hafter : ∀ a ∈ as, After c.step a.step)
    (hopen : c.isOpen = true) (hheight : c.height = block.height) (htx : c.tx.block = block.height)
    (hnew : c.step < 2 → c.tx ∉ c.etched) :
    Follows c (as.map (Stage.call block)) ∧
      c.Within ((as.map (Stage.call block)).foldl Cursor.next c) [c.tx] := by
  induction as generalizing c with
  | nil => exact ⟨trivial, rfl, rfl, fun id hid => Or.inl hid⟩
  | cons a as ih =>
    obtain ⟨hhead, htail⟩ := List.pairwise_cons.mp hordered
    have ha := hafter a List.mem_cons_self
    have hstep : 0 < a.step := by rcases ha with ha | ha <;> omega
    have hbegin : ∀ tx, a ≠ .beginTransaction tx := by
      rintro tx rfl
      exact absurd hstep (Nat.lt_irrefl 0)
    -- a call other than the first only moves the step and may etch
    have hcall : c.call block a =
        { c with step := a.step, etched := if a.etches then c.etched ++ [c.tx] else c.etched } := by
      cases a <;> first | rfl | exact absurd rfl (hbegin _)
    have hetches : a.etches → a.step = 2 := by cases a <;> simp [Action.etches, Action.step]
    have hbefore : a.step = 2 → c.step < 2 := by rcases ha with ha | ha <;> omega
    obtain ⟨hfollows, hwithin⟩ := ih (c := c.call block a) htail (by rw [hcall]; exact hhead)
      (by rw [hcall]; exact hopen) (by rw [hcall]; exact hheight) (by rw [hcall]; exact htx) <| by
        rw [hcall]
        intro hlt
        have hnot : a.etches = false := Bool.eq_false_iff.mpr fun he => by
          have : a.step < 2 := hlt
          have := hetches he
          omega
        rw [hnot]
        refine hnew ?_
        have : a.step < 2 := hlt
        rcases ha with ha | ha <;> omega
    refine ⟨⟨⟨hopen, hheight, fun he => hnew (hbefore (hetches he)), fun _ => ⟨htx, ha⟩⟩, hfollows⟩,
      ?_⟩
    rw [List.map_cons, List.foldl_cons]
    rw [hcall] at hwithin
    show c.Within (List.foldl Cursor.next (c.call block a) _) _
    rw [hcall]
    -- what is etched later is etched by this transaction
    refine ⟨hwithin.isOpen, hwithin.height, fun id hid => ?_⟩
    rcases hwithin.etched id hid with hid | hid
    · split at hid
      · exact List.mem_append.mp hid
      · exact Or.inl hid
    · exact Or.inr hid

/-- The id of a rune etched by a transaction of a block. -/
def Transaction.runeId (block : Block) (tx : Transaction) : RuneId := ⟨block.height, tx.index⟩

theorem Transaction.follows (env : Environment) {block : Block} (tx : Transaction) {c : Cursor}
    (hopen : c.isOpen = true) (hheight : c.height = block.height)
    (hnew : tx.runeId block ∉ c.etched) :
    Follows c (tx.stages env block) ∧
      c.Within ((tx.stages env block).foldl Cursor.next c) [tx.runeId block] := by
  obtain ⟨as, hactions, hpos, hordered⟩ := tx.actions_ordered env
  obtain ⟨hfollows, hwithin⟩ :=
    calls_follow (c := { c with tx := tx.runeId block, step := 0 }) hordered
      (fun a ha => Or.inl (hpos a ha)) hopen hheight rfl fun _ => hnew
  rw [Transaction.stages, hactions, List.map_cons, List.foldl_cons]
  exact ⟨⟨⟨hopen, hheight, fun h => absurd h Bool.false_ne_true, fun h => absurd rfl (h tx)⟩,
    hfollows⟩, hwithin.isOpen, hwithin.height, hwithin.etched⟩

/-- The transactions of a block. -/
theorem transactions_follow (env : Environment) {block : Block}
    {txs : List Transaction} {c : Cursor} (hopen : c.isOpen = true)
    (hheight : c.height = block.height) (hnodup : (txs.map Transaction.index).Nodup)
    (hnew : ∀ tx ∈ txs, tx.runeId block ∉ c.etched) :
    Follows c (txs.flatMap (Transaction.stages env block)) ∧
      c.Within ((txs.flatMap (Transaction.stages env block)).foldl Cursor.next c)
        (txs.map (Transaction.runeId block)) := by
  induction txs generalizing c with
  | nil => exact ⟨trivial, rfl, rfl, fun id hid => Or.inl hid⟩
  | cons tx txs ih =>
    obtain ⟨hfollows, hwithin⟩ := tx.follows env hopen hheight (hnew tx List.mem_cons_self)
    rw [List.map_cons, List.nodup_cons] at hnodup
    obtain ⟨hfollows', hwithin'⟩ :=
      ih (hwithin.isOpen.trans hopen) (hwithin.height.trans hheight) hnodup.2 <| by
      intro tx' htx' hmem
      rcases hwithin.etched _ hmem with hold | hold
      · exact hnew tx' (List.mem_cons_of_mem _ htx') hold
      · have heq : tx'.index = tx.index := congrArg RuneId.tx (List.mem_singleton.mp hold)
        exact hnodup.1 (heq ▸ List.mem_map_of_mem htx')
    rw [List.flatMap_cons, List.foldl_append]
    refine ⟨follows_append.mpr ⟨hfollows, hfollows'⟩, hwithin'.isOpen.trans hwithin.isOpen,
      hwithin'.height.trans hwithin.height, ?_⟩
    intro id hid
    rcases hwithin'.etched id hid with hid | hid
    · rcases hwithin.etched id hid with hid | hid
      · exact Or.inl hid
      · exact Or.inr (List.mem_singleton.mp hid ▸ List.mem_cons_self)
    · exact Or.inr (List.mem_cons_of_mem _ hid)

/-- **On increasing blocks the stages of a run come where they should.** -/
theorem stages_follow (env : Environment) {events : List Event} (hforward : ∀ e ∈ events, e.Forward)
    (hblocks : Increasing (indexedBlocks events)) : Follows .start (stages env events) := by
  -- from any cursor that is closed and below the blocks to come
  have hfrom : ∀ (events : List Event) (c : Cursor), (∀ e ∈ events, e.Forward) →
      Increasing (indexedBlocks events) → c.isOpen = false →
      (∀ b ∈ indexedBlocks events, c.height ≤ b.height ∧ ∀ id ∈ c.etched, id.block < b.height) →
      Follows c (stages env events) := by
    intro events
    induction events with
    | nil => exact fun _ _ _ _ _ => trivial
    | cons e events ih =>
      intro c hforward hblocks hclosed hlow
      have htail : ∀ e ∈ events, e.Forward := fun e he => hforward e (List.mem_cons_of_mem _ he)
      rw [stages, List.flatMap_cons]
      refine follows_append.mpr ?_
      cases e with
      | index block =>
        have hindexed : indexedBlocks (.index block :: events) =
            block :: indexedBlocks events := rfl
        rw [hindexed] at hblocks hlow
        -- the block is above the cursor and above everything etched so far
        obtain ⟨habove, hheights⟩ := List.pairwise_cons.mp hblocks.heights
        obtain ⟨hle, hetched⟩ := hlow block List.mem_cons_self
        obtain ⟨hfollows, hwithin⟩ := @transactions_follow env block block.transactions
          { c with height := block.height, isOpen := true } rfl rfl
          (hblocks.indexes block List.mem_cons_self)
          fun tx _ hmem => Nat.lt_irrefl _ (hetched _ hmem)
        rw [Event.stages, Block.stages]
        refine ⟨⟨⟨hclosed, hle⟩,
          follows_append.mpr ⟨hfollows, ⟨hwithin.isOpen, hwithin.height⟩, trivial⟩⟩, ?_⟩
        rw [List.foldl_cons, List.foldl_append, List.foldl_cons, List.foldl_nil]
        refine ih _ htail
          ⟨hheights, fun b hb => hblocks.indexes b (List.mem_cons_of_mem _ hb)⟩ rfl ?_
        intro b hb
        have hlt := habove b hb
        refine ⟨hwithin.height.symm ▸ hlt.le, fun id hid => ?_⟩
        rcases hwithin.etched id hid with hid | hid
        · exact (hlow b (List.mem_cons_of_mem _ hb)).2 id hid
        · obtain ⟨tx, -, rfl⟩ := List.mem_map.mp hid
          exact hlt
      | rollBack height => exact absurd (hforward _ List.mem_cons_self) id
      | restart cap hcap => exact ⟨⟨hclosed, trivial⟩, ih _ htail hblocks hclosed hlow⟩
  refine hfrom events .start hforward hblocks rfl ?_
  exact fun b _ => ⟨Nat.zero_le _, fun id hid => absurd hid List.not_mem_nil⟩

/-! ## Between blocks -/

/-- The stage comes between two blocks. -/
def Stage.between : Stage → Bool
  | .openBlock _ | .rollBack _ | .restart _ _ => true
  | .call _ _ | .closeBlock _ => false

/-- A block is open after a stage. -/
def Stage.leavesOpen (isOpen : Bool) : Stage → Bool
  | .openBlock _ => true
  | .closeBlock _ => false
  | _ => isOpen

/-- Blocks do not overlap, and calls are made in a block. -/
def Bracketed : Bool → List Stage → Prop
  | _, [] => True
  | isOpen, stage :: stages => stage.between = !isOpen ∧ Bracketed (stage.leavesOpen isOpen) stages

theorem bracketed_append {isOpen : Bool} {l l' : List Stage} :
    Bracketed isOpen (l ++ l') ↔ Bracketed isOpen l ∧
    Bracketed (l.foldl Stage.leavesOpen isOpen) l' := by
  induction l generalizing isOpen with
  | nil => simp [Bracketed]
  | cons stage l ih => simp [Bracketed, ih, and_assoc]

/-- The stages of the transactions of a block are calls. -/
theorem exists_call_of_mem_stages {env : Environment} {block : Block} {txs : List Transaction}
    {stage : Stage} (h : stage ∈ txs.flatMap (Transaction.stages env block)) :
    ∃ a, stage = .call block a := by
  obtain ⟨tx, -, hstage⟩ := List.mem_flatMap.mp h
  obtain ⟨a, -, rfl⟩ := List.mem_map.mp hstage
  exact ⟨a, rfl⟩

/-- A run without rollbacks has no stage that is one. -/
theorem ne_rollBack_of_mem_stages {env : Environment} {events : List Event}
    (hforward : ∀ e ∈ events, e.Forward) {stage : Stage} (h : stage ∈ stages env events)
    (height : Nat) : stage ≠ .rollBack height := by
  rintro rfl
  obtain ⟨e, he, hstage⟩ := List.mem_flatMap.mp h
  cases e with
  | index block =>
    rcases List.mem_cons.mp hstage with heq | hstage
    · cases heq
    · rcases List.mem_append.mp hstage with hcall | hclose
      · obtain ⟨a, heq⟩ := exists_call_of_mem_stages hcall
        cases heq
      · cases List.mem_singleton.mp hclose
  | rollBack height' => exact hforward _ he
  | restart cap hcap => cases List.mem_singleton.mp hstage

theorem calls_bracketed {l : List Stage} (h : ∀ stage ∈ l, ∃ block a, stage = .call block a) :
    Bracketed true l ∧ l.foldl Stage.leavesOpen true = true := by
  induction l with
  | nil => exact ⟨trivial, rfl⟩
  | cons stage l ih =>
    obtain ⟨block, a, rfl⟩ := h stage List.mem_cons_self
    obtain ⟨hl, hopen⟩ := ih fun stage hstage => h stage (List.mem_cons_of_mem _ hstage)
    exact ⟨⟨rfl, hl⟩, hopen⟩

/-- **The blocks of a run do not overlap**, and none is open at its end. -/
theorem stages_bracketed (env : Environment) (events : List Event) :
    Bracketed false (stages env events) ∧
    (stages env events).foldl Stage.leavesOpen false = false := by
  induction events with
  | nil => exact ⟨trivial, rfl⟩
  | cons e events ih =>
    rw [stages, List.flatMap_cons, bracketed_append, List.foldl_append]
    -- an event starts and ends between blocks
    have he : Bracketed false (e.stages env) ∧
        (e.stages env).foldl Stage.leavesOpen false = false := by
      cases e with
      | index block =>
        obtain ⟨hcalls, hopen⟩ :=
          calls_bracketed (l := block.transactions.flatMap (Transaction.stages env block))
            fun stage hstage => ⟨block, exists_call_of_mem_stages hstage⟩
        have hclose : Bracketed true [Stage.closeBlock block] := ⟨rfl, trivial⟩
        refine ⟨⟨rfl, bracketed_append.mpr ⟨hcalls, hopen.symm ▸ hclose⟩⟩, ?_⟩
        rw [Event.stages, Block.stages, List.foldl_cons, List.foldl_append]
        rfl
      | rollBack height => exact ⟨⟨rfl, trivial⟩, rfl⟩
      | restart cap hcap => exact ⟨⟨rfl, trivial⟩, rfl⟩
    rw [he.2]
    exact ⟨⟨he.1, ih.1⟩, ih.2⟩

/-- A stage leaves nothing waiting in memory between two blocks. -/
theorem Stage.dbCache_new {env : Environment} {stage : Stage} {s s' : Session} {isOpen : Bool}
    (hbetween : stage.between = !isOpen) (h : isOpen = false → s.cache.dbCache = .new)
    (hrun : stage.run env s = some s') (hclosed : stage.leavesOpen isOpen = false) :
    s'.cache.dbCache = .new := by
  cases stage with
  | openBlock block => cases hclosed
  | call block a =>
    have hclosed : isOpen = false := hclosed
    rw [hclosed] at hbetween
    cases hbetween
  | closeBlock block =>
    obtain ⟨db, -, rfl⟩ := Session.flush_eq_some.mp hrun
    rfl
  | rollBack height =>
    cases Option.some.inj hrun
    exact h hclosed
  | restart cap hcap =>
    obtain ⟨cache, hcache, rfl⟩ := restart_eq_some hrun
    exact (IndexCache.new_empty hcache).dbCache

/-- **Induction over stages at the beginning of a run**: nothing waits in memory between two
blocks. -/
theorem stages_induction {env : Environment} {events : List Event} {P : List Stage → Session → Prop}
    {l rest : List Stage} {s₀ s : Session} (hsplit : stages env events = l ++ rest)
    (hrest : s₀.cache.dbCache = .new) (start : P [] s₀)
    (step : ∀ done stage later t t', l = done ++ stage :: later → runStages env done s₀ = some t →
      (stage.between = true → t.cache.dbCache = .new) → P done t → stage.run env t = some t' →
      P (done ++ [stage]) t')
    (hrun : runStages env l s₀ = some s) :
    P l s ∧ (l.foldl Stage.leavesOpen false = false → s.cache.dbCache = .new) := by
  -- a stage between blocks finds the block before it closed
  have hbracketed := (stages_bracketed env events).1
  have hind :=
    foldlM_induction_split (P := fun done t => runStages env done s₀ = some t ∧ P done t ∧
      (done.foldl Stage.leavesOpen false = false → t.cache.dbCache = .new))
      ⟨rfl, start, fun _ => hrest⟩ ?_ hrun
  · exact hind.2
  · rintro done stage later t t' rfl ⟨hdone, hP, hnew⟩ hstep
    rw [hsplit, List.append_assoc, bracketed_append] at hbracketed
    have hbetween := hbracketed.2.1
    refine ⟨foldlM_append_eq_some.mpr ⟨t, hdone, foldlM_singleton_eq_some.mpr hstep⟩,
      step done stage later t t' rfl hdone (fun h => hnew ?_) hP hstep, ?_⟩
    · rw [h] at hbetween
      simpa using hbetween.symm
    · rw [List.foldl_append]
      exact stage.dbCache_new hbetween hnew hstep

/-- Nothing waits in memory after a run. -/
theorem runEvents_dbCache {env : Environment} {events : List Event} {s₀ s : Session}
    (hrest : s₀.cache.dbCache = .new) (hrun : runEvents env events s₀ = some s) :
    s.cache.dbCache = .new := by
  rw [runEvents_eq_runStages] at hrun
  exact (stages_induction (P := fun _ _ => True) (List.append_nil _).symm hrest trivial
    (fun _ _ _ _ _ _ _ _ _ _ => trivial) hrun).2 (stages_bracketed env events).2

end Runehook
