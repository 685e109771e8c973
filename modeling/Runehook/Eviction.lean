import Runehook.RuneTable

/-! # Lookups of runes do not depend on evictions

What the LRU cache of runes has under an id is the row that the next flush leaves in the table
(`CachesRows`), in a run that etches no rune in a cenotaph, whose flag the insert forgets, and none
that the insert drops or refuses (`Stage.keepsRow`). A lookup that misses the cache flushes and
reads that row, so that it finds the same rune (`CachesRows.lookup_eq`, and `lookup_evicted` for
runs). -/

namespace Runehook

open Lib

/-! ## Spaced names -/

/-- A name without its bullets. -/
def unspaced (name : String) : String := String.ofList (name.toList.filter fun c => c ≠ '•')

theorem bullet_notMem_letters {fuel n : Nat} {acc : List Char} (hacc : '•' ∉ acc) :
    '•' ∉ Rune.letters fuel n acc := by
  induction fuel generalizing n acc with
  | zero => exact hacc
  | succ fuel ih =>
    unfold Rune.letters
    split
    · refine ih fun hmem => ?_
      rcases List.mem_cons.mp hmem with heq | hmem
      -- the letters of a name are no bullets
      · have hletter : ∀ i, "ABCDEFGHIJKLMNOPQRSTUVWXYZ".toList.getD i 'A' ≠ '•' := by
          intro i
          rw [List.getD_eq_getElem?_getD]
          cases hi : "ABCDEFGHIJKLMNOPQRSTUVWXYZ".toList[i]? with
          | none => decide
          | some c =>
            have hall : ("ABCDEFGHIJKLMNOPQRSTUVWXYZ".toList.all fun c => c ≠ '•') = true := by
              decide +kernel
            exact of_decide_eq_true (List.all_eq_true.mp hall c (List.mem_of_getElem? hi))
        exact hletter _ heq.symm
      · exact hacc hmem
    · exact hacc

/-- A name has no bullets. -/
theorem Rune.bullet_notMem_toName (rune : Rune) : '•' ∉ (Rune.toName rune).toList := by
  unfold Rune.toName
  split
  · decide
  · rw [String.toList_ofList]
    exact bullet_notMem_letters List.not_mem_nil

theorem Rune.unspaced_toName (rune : Rune) : unspaced (Rune.toName rune) = Rune.toName rune := by
  have hfilter : (Rune.toName rune).toList.filter (fun c => c ≠ '•') =
      (Rune.toName rune).toList := by
    rw [List.filter_eq_self]
    intro c hc
    exact decide_eq_true fun heq => Rune.bullet_notMem_toName rune (heq ▸ hc)
  rw [unspaced, hfilter, String.ofList_toList]

/-- A spaced name is the name with bullets. -/
theorem SpacedRune.unspaced_toName (rune : Rune) (spacers : Nat) :
    unspaced (SpacedRune.toName rune spacers) = Rune.toName rune := by
  -- dropping the bullets from a spaced list leaves its letters
  have hfilter : ∀ (l : List Char) (k m : Nat), '•' ∉ l →
      ((l.zipIdx k).flatMap fun p => if p.2 < m ∧
        spacers.testBit p.2 then [p.1, '•'] else [p.1]).filter (fun c => c ≠ '•') = l := by
    intro l
    induction l with
    | nil => exact fun _ _ _ => rfl
    | cons c l ih =>
      intro k m hmem
      have hc : c ≠ '•' := fun heq => hmem (heq ▸ List.mem_cons_self)
      have hl := ih (k + 1) m fun h => hmem (List.mem_cons_of_mem _ h)
      rw [List.zipIdx_cons, List.flatMap_cons, List.filter_append, hl]
      dsimp only
      split_ifs <;> simp [hc]
  unfold SpacedRune.toName unspaced
  rw [String.toList_ofList]
  exact (congrArg String.ofList (hfilter _ 0 _ (Rune.bullet_notMem_toName rune))).trans
    String.ofList_toList

/-- The spaced name of a rune that is etched is its name with bullets. -/
theorem Action.unspaced_etchedRune {s : Session} {a : Action} {row : DbRune}
    (h : a.etchedRune s = some row) :
    unspaced row.spacedName = row.name := by
  cases a with
  | etching e =>
    cases Option.some.inj h
    unfold DbRune.fromEtching
    cases e.spacers with
    | none => exact Rune.unspaced_toName _
    | some spacers => exact SpacedRune.unspaced_toName _ spacers
  | cenotaphEtching rune =>
    cases Option.some.inj h
    exact Rune.unspaced_toName rune
  | _ => cases h

/-! ## What the cache has -/

/-- The stage may not etch a rune in a cenotaph, nor one with the name or the id of a row. -/
def Stage.keepsRow (s : Session) : Stage → Bool
  | .call _ a => (a.etchedRune s).all fun row =>
      !row.cenotaph && s.runes.all fun r => r.name ≠ row.name ∧ r.id ≠ row.id
  | _ => true

/-- What waits can be inserted, new numbers are free, and the cache has the rows of the table. -/
structure CachesRows (s : Session) : Prop where
  /-- What waits can be inserted. -/
  insertable : s.Insertable
  /-- The next number is above all others. -/
  numbers : ∀ r ∈ s.runes, r.number < s.cache.nextRuneNumber
  /-- The spaced name of a row gives its name. -/
  spaced : ∀ r ∈ s.runes, unspaced r.spacedName = r.name
  /-- A cached rune is the row of its id. -/
  cached : ∀ id r, s.cache.runeCache.peek id = some r → s.runeById id = some r

namespace CachesRows

variable {s s' : Session}

theorem of_new {network : Network} {cap : Nat} {hcap : 0 < cap} {db : Db} {cache : IndexCache}
    (hcache : IndexCache.new network cap hcap db = some cache)
    (hspaced : ∀ r ∈ db.runes, unspaced r.spacedName = r.name) : CachesRows ⟨cache, db⟩ := by
  obtain ⟨number, hmax, heq⟩ := Option.bind_eq_some_iff.mp hcache
  cases Option.some.inj heq
  refine ⟨rfl, fun r hr => ?_, hspaced, fun id r hr => ?_⟩
  · have hle := (List.max?_eq_some_iff.mp hmax).2 r.number (List.mem_map_of_mem hr)
    exact Nat.lt_succ_of_le hle
  · rw [LruCache.peek_new] at hr
    cases hr

theorem same (h : CachesRows s) (hsame : s.SameRunes s') : CachesRows s' where
  insertable := hsame.insertable h.insertable
  numbers := by
    rw [hsame.runes, hsame.number]
    exact h.numbers
  spaced := by
    rw [hsame.runes]
    exact h.spaced
  cached := by
    intro id r hr
    rw [Session.runeById, hsame.runes]
    rcases hsame.cached id r hr with hr | hr
    · exact h.cached id r hr
    · exact hr

/-- A rune that is etched under a name and an id of its own violates no constraint. -/
theorem insertRune_eq (h : CachesRows s) {a : Action} {row : DbRune}
    (hrow : a.etchedRune s = some row) (hnew : ∀ r ∈ s.runes, r.name ≠ row.name ∧ r.id ≠ row.id) :
    insertRune s.runes row = some (s.runes ++ [row.stored]) ∧
    keepRune s.runes row = s.runes ++ [row.stored] := by
  have hfree : nameTaken s.runes row.name = false := by
    unfold nameTaken
    rw [List.any_eq_false]
    exact fun r hr => by simpa using (hnew r hr).1
  have hnone :
      (s.runes.any fun r => r.id = row.id ∨ r.number = row.number ∨ r.spacedName = row.spacedName) =
        false := by
    rw [List.any_eq_false]
    intro r hr hconflict
    rcases of_decide_eq_true hconflict with hid | hnumber | hname
    · exact (hnew r hr).2 hid
    · exact absurd (hnumber.trans (Action.etchedRow hrow).number) (h.numbers r hr).ne
    -- rows with one spaced name have one name
    · refine (hnew r hr).1 ?_
      rw [← h.spaced r hr, hname, Action.unspaced_etchedRune hrow]
  refine ⟨?_, keepRune_of_free hfree⟩
  unfold insertRune
  rw [show (s.runes.any fun r => r.name = row.name) = false from hfree, hnone]
  rfl

theorem etches (h : CachesRows s) {a : Action} {row : DbRune} (hrow : a.etchedRune s = some row)
    (hcenotaph : row.cenotaph = false) (hnew : ∀ r ∈ s.runes, r.name ≠ row.name ∧ r.id ≠ row.id)
    -- the new row is inserted as it was made, since its name and its id are free
    (hetches : EtchesRune row s s') : CachesRows s' := by
  obtain ⟨hinsert, hkeep⟩ := h.insertRune_eq hrow hnew
  have hstored : row.stored = row := by
    unfold DbRune.stored
    rw [← hcenotaph]
  rw [hstored] at hkeep hinsert
  have hruns := hetches.runes.trans hkeep
  refine ⟨hetches.insertable h.insertable (hinsert.trans (congrArg some hkeep.symm)), ?_, ?_,
    fun id r hr => ?_⟩
  · rw [hruns, hetches.number]
    intro r hr
    rcases List.mem_append.mp hr with hr | hr
    · exact Nat.lt_succ_of_lt (h.numbers r hr)
    · rw [List.mem_singleton.mp hr, (Action.etchedRow hrow).number]
      exact Nat.lt_succ_self _
  · rw [hruns]
    intro r hr
    rcases List.mem_append.mp hr with hr | hr
    · exact h.spaced r hr
    · rw [List.mem_singleton.mp hr]
      exact Action.unspaced_etchedRune hrow
  · unfold Session.runeById
    rw [hruns, List.find?_append]
    rcases hetches.cached id r hr with ⟨rfl, rfl⟩ | ⟨-, hold⟩
    · rw [List.find?_eq_none.mpr fun r' hr' => by simpa using (hnew r' hr').2]
      simp
    · rw [show (s.runes.find? fun r => r.id = id) = some r from h.cached id r hold]
      rfl

/-- **A lookup returns the row that the next flush leaves in the table**, whatever the cache has
evicted. -/
theorem lookup_eq (h : CachesRows s) {id : RuneId} (hid : id ≠ .placeholder)
    {c : LruCache RuneId DbRune}
    (hc : ∀ r, c.peek id = some r → s.cache.runeCache.peek id = some r) :
    ((s.setRuneCache c).getCachedRuneByRuneId id).map Prod.fst = some (s.runeById id) := by
  unfold Session.getCachedRuneByRuneId
  rw [if_neg fun heq => hid ((RuneId.eq_placeholder_iff id).mp heq)]
  cases hpeek : c.peek id with
  | some r =>
    have hget : (s.setRuneCache c).cache.runeCache.get id = (some r, (c.get id).2) := by
      rw [← hpeek]
      rfl
    rw [hget, h.cached id r (hc r hpeek)]
    rfl
  | none =>
    have hget : (s.setRuneCache c).cache.runeCache.get id = (none, (c.get id).2) := by
      rw [← hpeek]
      rfl
    -- a miss flushes, and the table then has the rows of the session
    have hinsertable : (s.setRuneCache c).Insertable := h.insertable
    obtain ⟨t, hflush⟩ := Session.flush_of_insertable hinsertable
    have hrow := Session.pgGetRuneById_flush hflush id
    have hsame : (s.setRuneCache c).runeById id = s.runeById id := rfl
    rw [hget, ← hsame, ← hrow]
    simp only [hflush, Option.bind_eq_bind, Option.bind_some]
    cases pgGetRuneById id t.db <;> rfl

end CachesRows

/-! ## Runs -/

/-- **Every stage of a run without rollbacks keeps the cache and the table together.** -/
theorem Stage.cachesRows {env : Environment} {s s' : Session} {stage : Stage} (h : CachesRows s)
    (hforward : ∀ height, stage ≠ .rollBack height)
    (hrest : stage.between = true → s.cache.dbCache = .new) (hsafe : stage.keepsRow s = true)
    (hrun : stage.run env s = some s') : CachesRows s' := by
  cases stage with
  | openBlock block =>
    obtain ⟨number, rfl, hmax⟩ := resetMaxRuneNumber_eq_some hrun
    refine ⟨h.insertable, fun r hr => ?_, h.spaced, h.cached⟩
    have hruns : (s.setNextRuneNumber (number + 1)).runes = s.db.runes :=
      Session.runes_of_rest (hrest rfl)
    rw [hruns] at hr
    exact Nat.lt_succ_of_le ((List.max?_eq_some_iff.mp hmax).2 r.number (List.mem_map_of_mem hr))
  | call block a =>
    rcases Action.runes hrun with ⟨-, hsame⟩ | ⟨row, hrow, hetches⟩
    · exact h.same hsame
    · simp only [Stage.keepsRow, hrow, Option.all_some, Bool.and_eq_true, List.all_eq_true] at hsafe
      exact h.etches hrow (by simpa using hsafe.1)
        (fun r hr => of_decide_eq_true (hsafe.2 r hr)) hetches
  | closeBlock block =>
    have hclosing : s.SameRunes (closing env block s) := .of_eq rfl rfl rfl fun _ _ hr => hr
    exact h.same (hclosing.trans (.flush hrun))
  | rollBack height => exact absurd rfl (hforward height)
  | restart cap hcap =>
    have hruns := Session.runes_of_rest (hrest rfl)
    obtain ⟨cache, hcache, rfl⟩ := restart_eq_some hrun
    exact .of_new hcache fun r hr => h.spaced r (hruns.symm ▸ hr)

/-- **Lookups of runes do not depend on evictions**: at every moment of a run without rollbacks, in
which no rune is etched in a cenotaph or with the name or the id of a row, a lookup returns the
same, whether the cache still has the rune or not. -/
theorem lookup_evicted {env : Environment} {network : Network} {cap : Nat} {hcap : 0 < cap}
    {events : List Event} {done rest : List Stage} {s₀ s : Session}
    (hforward : ∀ e ∈ events, e.Forward) (hsplit : stages env events = done ++ rest)
    (hstart : freshSession network cap hcap = some s₀)
    (hsafe : EveryStage env (fun t stage => stage.keepsRow t = true) done s₀)
    (hrun : runStages env done s₀ = some s) (id : RuneId) (hid : id ≠ .placeholder)
    (c : LruCache RuneId DbRune)
    (hc : ∀ r, c.peek id = some r → s.cache.runeCache.peek id = some r) :
    ((s.setRuneCache c).getCachedRuneByRuneId id).map Prod.fst =
        (s.getCachedRuneByRuneId id).map Prod.fst ∧ (s.getCachedRuneByRuneId id).isSome := by
  rw [freshSession] at hstart
  obtain ⟨cache, hcache, hs₀⟩ := Option.bind_eq_some_iff.mp hstart
  cases Option.some.inj hs₀
  have hspaced : ∀ r ∈ Db.migrated.runes, unspaced r.spacedName = r.name := by decide
  have hnew : cache.dbCache = .new := (IndexCache.new_empty hcache).dbCache
  have h : CachesRows s := by
    refine (stages_induction (P := fun _ t => CachesRows t) hsplit hnew
      (.of_new hcache hspaced) ?_ hrun).1
    intro past stage later t t' heq hpast hbetween h hstep
    have hmem : stage ∈ stages env events := by
      rw [hsplit, heq]
      exact List.mem_append_left _ (List.mem_append_right _ List.mem_cons_self)
    exact stage.cachesRows h (ne_rollBack_of_mem_stages hforward hmem) hbetween
      (hsafe past stage later t heq hpast) hstep
  have hself : (s.getCachedRuneByRuneId id).map Prod.fst = some (s.runeById id) :=
    h.lookup_eq hid fun r hr => hr
  refine ⟨(h.lookup_eq hid hc).trans hself.symm, ?_⟩
  rw [← Option.isSome_map, hself]
  rfl

/-- A rune that was just etched is found without the cache. -/
theorem lookup_evicted_freeName : ∃ s₀ s, freshSession .bitcoin 2 (by decide) = some s₀ ∧
    runStages etchEnv (stages etchEnv [.index (etchBlock [freeNameTx])]) s₀ = some s ∧
      (s.cache.runeCache.peek ⟨840001, 2⟩).isSome ∧
        ((s.setRuneCache (.new 2 (by decide))).getCachedRuneByRuneId ⟨840001, 2⟩).map Prod.fst =
            (s.getCachedRuneByRuneId ⟨840001, 2⟩).map Prod.fst ∧
          (s.getCachedRuneByRuneId ⟨840001, 2⟩).isSome := by
  have hruns : (freshSession .bitcoin 2 (by decide)).any fun s₀ =>
      ((runStages etchEnv (stages etchEnv [.index (etchBlock [freeNameTx])]) s₀).any fun s =>
          (s.cache.runeCache.peek ⟨840001, 2⟩).isSome) ∧
        checkStages etchEnv (fun s stage => stage.keepsRow s)
          (stages etchEnv [.index (etchBlock [freeNameTx])]) s₀ := by decide +kernel
  obtain ⟨s₀, hstart, h⟩ := (Option.any_eq_true _ _).mp hruns
  obtain ⟨hany, hcheck⟩ := of_decide_eq_true h
  obtain ⟨s, hrun, hpeek⟩ := (Option.any_eq_true _ _).mp hany
  have hnone :
      ∀ r, (LruCache.new 2 (by decide) : LruCache RuneId DbRune).peek ⟨840001, 2⟩ = some r →
      s.cache.runeCache.peek ⟨840001, 2⟩ = some r := by
    intro r hr
    rw [LruCache.peek_new] at hr
    cases hr
  exact ⟨s₀, s, hstart, hrun, hpeek,
    lookup_evicted (by simp [Event.Forward]) (List.append_nil _).symm hstart
    (.of_check (fun _ _ h => h) hcheck) hrun ⟨840001, 2⟩ (by decide) _ hnone⟩

/-- Every `OP_RETURN` output carries a cenotaph that etches a rune. -/
def cenotaphEtchEnv : Environment := .plain fun _ => some (.cenotaph ⟨some 0, none, none⟩)

/-- **The flag of a cenotaph is lost with an eviction**: a rune that was etched in a cenotaph is one
in the cache, and is not when it is read back from the table. -/
theorem exists_lookup_ne : ∃ s₀ s r r', freshSession .bitcoin 2 (by decide) = some s₀ ∧
    runEvents cenotaphEtchEnv [.index (etchBlock [freeNameTx])] s₀ = some s ∧
      (s.getCachedRuneByRuneId ⟨840001, 2⟩).map Prod.fst = some (some r) ∧
        ((s.setRuneCache (.new 2 (by decide))).getCachedRuneByRuneId ⟨840001, 2⟩).map Prod.fst =
          some (some r') ∧ r.cenotaph = true ∧ r'.cenotaph = false := by
  have hruns : (freshSession .bitcoin 2 (by decide)).any fun s₀ =>
      (runEvents cenotaphEtchEnv [.index (etchBlock [freeNameTx])] s₀).any fun s =>
        (((s.getCachedRuneByRuneId ⟨840001, 2⟩).map Prod.fst).getD none).any (fun r => r.cenotaph) ∧
          ((((s.setRuneCache (.new 2 (by decide))).getCachedRuneByRuneId ⟨840001, 2⟩).map
            Prod.fst).getD none).any (fun r => !r.cenotaph) := by decide +kernel
  have hsome : ∀ {found : Option (Option DbRune)} {r : DbRune}, found.getD none = some r →
      found = some (some r) := by
    rintro (_ | found) r h
    · cases h
    · exact congrArg some h
  obtain ⟨s₀, hstart, h⟩ := (Option.any_eq_true _ _).mp hruns
  obtain ⟨s, hrun, h⟩ := (Option.any_eq_true _ _).mp h
  obtain ⟨hcached, hevicted⟩ := of_decide_eq_true h
  obtain ⟨r, hr, hcenotaph⟩ := (Option.any_eq_true _ _).mp hcached
  obtain ⟨r', hr', hplain⟩ := (Option.any_eq_true _ _).mp hevicted
  exact ⟨s₀, s, r, r', hstart, hrun, hsome hr, hsome hr', hcenotaph, by simpa using hplain⟩

end Runehook
