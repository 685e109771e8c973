import Runehook.KnownRunes
import Runehook.Rows

/-! # Mints, one at a time

What a mint does to the cache of mint counts, accepted or not (`Action.totalMints_eq`), and how many
mints of a rune a run accepts (`acceptedMints`, `acceptedCenotaphMints`). -/

namespace Runehook

open Lib

namespace Session

/-- An id other than the placeholder stands for itself. -/
theorem realRuneId_of_ne {id : RuneId} (hid : id ≠ .placeholder) (s : Session) :
    s.realRuneId id = some id :=
  if_neg fun h => hid ((RuneId.eq_placeholder_iff id).mp h)

/-- A lookup of a rune leaves the mint counts. -/
theorem RuneLookup.totalMints_eq {id : RuneId} {s s' : Session} {rune : Option DbRune}
    (h : s.RuneLookup id rune s') : s'.cache.runeTotalMintsCache = s.cache.runeTotalMintsCache := by
  cases h with
  | etching => rfl
  | hit => rfl
  | unknown _ _ hflush =>
    obtain ⟨db, -, rfl⟩ := flush_eq_some.mp hflush
    rfl
  | miss _ _ hflush =>
    obtain ⟨db, -, rfl⟩ := flush_eq_some.mp hflush
    rfl

/-- A lookup of a mint count caches at most the count that it finds in the table. -/
theorem MintsLookup.peek {id : RuneId} {s s' : Session} {total : Option Nat}
    (h : s.MintsLookup id total s') {i : RuneId} {n : Nat}
    (hn : s'.cache.runeTotalMintsCache.peek i = some n) :
    s.cache.runeTotalMintsCache.peek i = some n ∨
      i = id ∧ ∃ t, s.flush = some t ∧ pgGetRuneTotalMints id t.db = some n := by
  cases h with
  | noEtching => exact Or.inl hn
  | hit => exact Or.inl ((LruCache.peek_get _ _ _).symm.trans hn)
  | unknown _ _ hflush =>
    obtain ⟨db, -, rfl⟩ := flush_eq_some.mp hflush
    exact Or.inl hn
  | @miss t real total _ _ hflush hdb =>
    rcases LruCache.peek_put hn with ⟨rfl, rfl⟩ | ⟨-, hold⟩
    · exact Or.inr ⟨rfl, t, hflush, hdb⟩
    · obtain ⟨db, -, rfl⟩ := flush_eq_some.mp hflush
      exact Or.inl hold

theorem bumpTotalMints_of_some {id : RuneId} {s : Session} {m : Nat}
    (h : s.cache.runeTotalMintsCache.peek id = some m) :
      (s.bumpTotalMints id).cache.runeTotalMintsCache =
        s.cache.runeTotalMintsCache.modify id (· + 1) := by
  unfold bumpTotalMints
  rw [h]
  rfl

theorem bumpTotalMints_of_none {id : RuneId} {s : Session}
    (h : s.cache.runeTotalMintsCache.peek id = none) :
    (s.bumpTotalMints id).cache.runeTotalMintsCache = s.cache.runeTotalMintsCache.put id 1 := by
  unfold bumpTotalMints
  rw [h]
  rfl

/-- What is cached after one more mint of a rune. -/
theorem peek_bumpTotalMints {id i : RuneId} {s : Session} {n : Nat}
    (hn : (s.bumpTotalMints id).cache.runeTotalMintsCache.peek i = some n) :
    (i ≠ id ∧ s.cache.runeTotalMintsCache.peek i = some n) ∨
      (i = id ∧ n = (s.cache.runeTotalMintsCache.peek id).getD 0 + 1) := by
  cases hpeek : s.cache.runeTotalMintsCache.peek id with
  | some m =>
    rw [bumpTotalMints_of_some hpeek, LruCache.peek_modify, hpeek] at hn
    split at hn
    · rename_i hi
      exact Or.inr ⟨hi, (Option.some.inj hn).symm⟩
    · rename_i hi
      exact Or.inl ⟨hi, hn⟩
  | none =>
    rw [bumpTotalMints_of_none hpeek] at hn
    rcases LruCache.peek_put hn with ⟨rfl, rfl⟩ | ⟨hi, hold⟩
    · exact Or.inr ⟨rfl, rfl⟩
    · exact Or.inl ⟨hi, hold⟩

/-- A mint that is not accepted writes nothing. -/
theorem MintOutcome.refuses
    {apply : TransactionCache → RuneId → Nat → DbRune → TransactionCache × Option DbLedgerEntry}
    {id : RuneId} {s s' : Session}
    (happly : ∀ tx total rune, (apply tx id total rune).2 = none → (apply tx id total rune).1 = tx)
    (hout : s.MintOutcome apply id s') (haccepts : s.acceptsMint id = false) :
    s.Writes [] [] s' ∧ s'.cache.txCache = s.cache.txCache ∧
      ∀ i n, s'.cache.runeTotalMintsCache.peek i = some n →
        s.cache.runeTotalMintsCache.peek i = some n ∨
        i = id ∧ ∃ t u, s.Writes [] [] t ∧ t.flush = some u ∧
        pgGetRuneTotalMints id u.db = some n := by
  cases hout with
  | unknown _ hrune =>
    refine ⟨hrune.writes, hrune.txCache_eq, fun i n hn => Or.inl ?_⟩
    rwa [hrune.totalMints_eq] at hn
  | @refused t u rune total _ hrune htotal hnone =>
    have hsame : u.setTxCache (apply u.cache.txCache id (total.getD 0) rune).1 = u := by
      rw [happly _ _ _ hnone]
      rfl
    rw [hsame]
    refine ⟨hrune.writes.nil_trans htotal.writes, htotal.txCache_eq.trans hrune.txCache_eq,
      fun i n hn => ?_⟩
    rcases htotal.peek hn with hold | ⟨rfl, v, hflush, hdb⟩
    · exact Or.inl (hrune.totalMints_eq ▸ hold)
    · exact Or.inr ⟨rfl, t, v, hrune.writes, hflush, hdb⟩
  | accepted haccepts' => exact absurd (haccepts'.symm.trans haccepts) (by decide)

end Session

theorem TransactionCache.applyMint_none (tx : TransactionCache) (id : RuneId) (total : Nat)
    (rune : DbRune) (h : (tx.applyMint id total rune).2 = none) :
    (tx.applyMint id total rune).1 = tx := by
  obtain ⟨-, heq⟩ | ⟨-, _, -, heq⟩ := tx.applyMint_cases id total rune <;> rw [heq] at h ⊢
  cases h

theorem TransactionCache.applyCenotaphMint_none (tx : TransactionCache) (id : RuneId) (total : Nat)
    (rune : DbRune) (h : (tx.applyCenotaphMint id total rune).2 = none) :
    (tx.applyCenotaphMint id total rune).1 = tx := by
  obtain ⟨-, heq⟩ | ⟨-, _, -, heq⟩ := tx.applyCenotaphMint_cases id total rune <;> rw [heq] at h ⊢
  cases h

/-- A call that does not mint leaves the mint counts. -/
theorem Action.totalMints_eq {env : Environment} {block : Block} {a : Action} {s s' : Session}
    (ha : a.step ≠ 3) (hrun : a.run env block s = some s') :
    s'.cache.runeTotalMintsCache = s.cache.runeTotalMintsCache := by
  -- recording entries leaves the counters alone
  have hadd : ∀ {t t' : Session} {es : List DbLedgerEntry},
      t.addLedgerEntriesToDbCache es = some t' →
      t'.cache.runeTotalMintsCache = t.cache.runeTotalMintsCache := by
    intro t t' es h
    obtain ⟨-, rfl⟩ := Session.addLedgerEntriesToDbCache_eq_some.mp h
    rfl
  cases a with
  | beginTransaction tx =>
    obtain ⟨-, rfl⟩ := run_beginTransaction hrun
    rfl
  | runestone r =>
    cases Option.some.inj hrun
    rw [Session.applyRunestone]
    cases r.pointer <;> rfl
  | cenotaph => exact (hadd hrun :)
  | etching e =>
    rw [Action.run, Session.applyEtching, TransactionCache.applyEtching_eq,
      Session.recordEtching] at hrun
    obtain ⟨t, ht, hs⟩ := Option.bind_eq_some_iff.mp hrun
    cases Option.some.inj hs
    exact (hadd ht :)
  | cenotaphEtching rune =>
    rw [Action.run, Session.applyCenotaphEtching, TransactionCache.applyCenotaphEtching_eq,
      Session.recordEtching] at hrun
    obtain ⟨t, ht, hs⟩ := Option.bind_eq_some_iff.mp hrun
    cases Option.some.inj hs
    exact (hadd ht :)
  | mint id => exact absurd rfl ha
  | cenotaphMint id => exact absurd rfl ha
  | edict e =>
    rw [Action.run, Session.applyEdict] at hrun
    obtain ⟨⟨rune, t⟩, hrune, hrun⟩ := Option.bind_eq_some_iff.mp hrun
    have ht := (Session.runeLookup_of_eq_some hrune).totalMints_eq
    cases rune with
    | none =>
      cases Option.some.inj hrun
      exact ht
    | some rune =>
      have hs := hadd hrun
      exact hs.trans ht
  | endTransaction => exact (hadd hrun :)

/-! ## The mints of a run -/

/-- The stage mints, in a runestone or a cenotaph. -/
def Stage.mintId : Stage → Option RuneId
  | .call _ (.mint id) | .call _ (.cenotaphMint id) => some id
  | _ => none

/-- The stage mints in a cenotaph. -/
def Stage.cenotaphMintId : Stage → Option RuneId
  | .call _ (.cenotaphMint id) => some id
  | _ => none

/-- The stage etches a rune. -/
def Stage.etches : Stage → Bool
  | .call _ a => a.etches
  | _ => false

/-- What a stage adds to the runes: nothing, or the rune of the transaction if the stage etches. -/
theorem Cursor.etched_next (stage : Stage) (c : Cursor) :
    (c.next stage).etched = if stage.etches then c.etched ++ [c.tx] else c.etched := by
  cases stage with
  | call block a => cases a <;> rfl
  | _ => rfl

/-- A stage that etches comes before the mint of its transaction. -/
theorem Stage.Fits.etching {c : Cursor} {stage : Stage} (h : stage.Fits c)
    (hetch : stage.etches = true) :
    c.tx ∉ c.etched ∧ c.tx.block = c.height ∧ stage.mintId = none := by
  cases stage with
  | call block a =>
    obtain ⟨-, hheight, hnew, hcalls⟩ := h
    refine ⟨hnew hetch, ?_, ?_⟩
    · refine (hcalls ?_).1.trans hheight.symm
      rintro tx rfl
      cases hetch
    · cases a <;> first | rfl | cases hetch
  | _ => cases hetch

/-- In a state, a mint of this id is accepted, and is for this rune. -/
def Session.acceptsMintOf (s : Session) (r id : RuneId) : Bool :=
  s.acceptsMint id && (s.realRuneId id = some r)

/-- How many of the stages of a run, each in the state that it starts from, have a property. -/
def countStages (env : Environment) (p : Session → Stage → Bool) : List Stage → Session → Nat
  | [], _ => 0
  | stage :: stages, s =>
    (if p s stage then 1 else 0) + ((stage.run env s).map (countStages env p stages)).getD 0

/-- How many mints of a rune a run accepts. -/
def acceptedMints (env : Environment) (r : RuneId) (stages : List Stage) (s : Session) : Nat :=
  countStages env (fun s stage => stage.mintId.any (s.acceptsMintOf r)) stages s

/-- How many mints of a rune a run accepts in cenotaphs. -/
def acceptedCenotaphMints (env : Environment) (r : RuneId) (stages : List Stage)
    (s : Session) : Nat :=
  countStages env (fun s stage => stage.cenotaphMintId.any (s.acceptsMintOf r)) stages s

theorem countStages_append {env : Environment} {p : Session → Stage → Bool} {l l' : List Stage}
    {s t : Session} (hrun : runStages env l s = some t) :
    countStages env p (l ++ l') s = countStages env p l s + countStages env p l' t := by
  induction l generalizing s with
  | nil =>
    cases Option.some.inj hrun
    exact (Nat.zero_add _).symm
  | cons first l ih =>
    obtain ⟨u, hu, hrun⟩ := foldlM_cons_eq_some.mp hrun
    rw [List.cons_append, countStages, countStages, hu, Option.map_some, Option.map_some,
      Option.getD_some, Option.getD_some, ih hrun, Nat.add_assoc]

theorem countStages_concat {env : Environment} {p : Session → Stage → Bool} {stages : List Stage}
    {stage : Stage} {s t : Session} (hrun : runStages env stages s = some t) :
    countStages env p (stages ++ [stage]) s = countStages env p stages s + if p t stage then 1
    else 0 := by
  rw [countStages_append hrun, countStages]
  cases stage.run env t <;> rfl

/-- No stage has the property when none is counted. -/
theorem countStages_eq_zero {env : Environment} {p : Session → Stage → Bool} {l : List Stage}
    {s : Session} :
    countStages env p l s = 0 ↔ EveryStage env (fun t stage => p t stage = false) l s := by
  constructor
  -- a stage that counts would be one at least
  · rintro hzero done stage rest t rfl hdone
    rw [countStages_append hdone, countStages] at hzero
    by_contra hp
    rw [if_pos (Bool.not_eq_false _ ▸ hp)] at hzero
    omega
  · intro h
    induction l generalizing s with
    | nil => rfl
    | cons stage l ih =>
      have hfirst := h [] stage l s rfl rfl
      rw [countStages, if_neg (Bool.eq_false_iff.mp hfirst), Nat.zero_add]
      cases hstep : stage.run env s with
      | none => rfl
      | some t =>
        have hrest : EveryStage env (fun t stage => p t stage = false) l t :=
          EveryStage.right (l := [stage]) h (foldlM_singleton_eq_some.mpr hstep)
        exact ih hrest

end Runehook
