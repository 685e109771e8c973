import Runehook.KnownRunes
import Runehook.Reorgs

/-! # The runes of a chain

The table `runes` holds the rune of the migrations and runes of the blocks that survive:
`EtchedOnChain` is the invariant, and `runEvents_etchedOnChain` says that every run on a chain keeps
it, whatever was rolled back. So the id of a transaction that comes next is free
(`EtchedOnChain.id_free`). -/

namespace Runehook

open Lib Session

/-- The rows after some writes are rows from before or rows that were recorded. -/
theorem Session.Writes.mem_runes {s s' : Session} {es : List DbLedgerEntry} {rs : List DbRune}
    (h : s.Writes es rs s') :
    ∀ r ∈ s'.db.runes ++ s'.cache.dbCache.runes,
    r.IsOf ((s.db.runes ++ s.cache.dbCache.runes) ++ rs) := by
  induction h with
  | quiet h =>
    rw [h.db, h.dbCache]
    exact fun r hr => .of_mem (List.mem_append_left _ hr)
  | flush h =>
    obtain ⟨db, hdb, rfl⟩ := flush_eq_some.mp h
    intro r hr
    rcases List.mem_append.mp hr with hr | hr
    · rw [List.append_nil]
      -- the flush moves the waiting rows to the table
      rcases DbCache.mem_flush_runes hdb r hr with hr | hr
      · exact .of_mem (List.mem_append_left _ hr)
      · exact hr.mono (List.subset_append_right _ _)
    · exact absurd hr List.not_mem_nil
  | pushRune s rune =>
    intro r hr
    rw [List.append_assoc]
    exact .of_mem hr
  | add h =>
    obtain ⟨-, rfl⟩ := addLedgerEntriesToDbCache_eq_some.mp h
    intro r hr
    rw [foldl_count_runes] at hr
    exact .of_mem (List.mem_append_left _ hr)
  | trans _ _ ih ih' =>
    intro r hr
    obtain ⟨r₀, hr₀, heq⟩ := ih' r hr
    rw [← List.append_assoc]
    rcases List.mem_append.mp hr₀ with hr₀ | hr₀
    · obtain ⟨r₁, hr₁, heq'⟩ := ih r₀ hr₀
      refine ⟨r₁, List.mem_append_left _ hr₁, ?_⟩
      rw [heq, heq']
    · exact ⟨r₀, List.mem_append_right _ hr₀, heq⟩

/-- Where a rune was etched. -/
theorem DbRune.IsOf.place {runes : List DbRune} {r : DbRune} (h : r.IsOf runes) :
    ∃ r₀ ∈ runes, r.id = r₀.id ∧ r.blockHeight = r₀.blockHeight := by
  obtain ⟨r₀, hr₀, heq⟩ := h
  exact ⟨r₀, hr₀, by rw [heq], by rw [heq]⟩

/-- Between two blocks, nothing waits and the table holds runes of the blocks that survive. -/
structure EtchedOnChain (blocks : List Block) (s : Session) : Prop where
  /-- Nothing waits to be inserted. -/
  rest : s.cache.dbCache = .new
  /-- A rune of the table is that of the migrations, or was etched in a block that survives. -/
  runes : ∀ r ∈ s.db.runes,
    r.id = uncommonGoods.id ∨ ∃ b ∈ blocks, r.id.block = b.height ∧ r.blockHeight = b.height

namespace EtchedOnChain

variable {env : Environment} {blocks : List Block} {block : Block} {s t : Session}

theorem of_empty {network : Network} (h : s.cache.Empty network) (hdb : s.db = .migrated) :
    EtchedOnChain [] s where
  rest := h.dbCache
  runes := by
    rw [hdb]
    exact List.forall_mem_singleton.mpr (.inl rfl)

/-- **While a block is indexed**, what is recorded was recorded before, or by one of its
transactions. -/
theorem mem_runes (h : EtchedOnChain blocks s) (hrun : indexTransactions env block s = some t)
    {r : DbRune} (hr : r ∈ t.db.runes ++ t.cache.dbCache.runes) :
    (∃ r₀ ∈ s.db.runes, r.id = r₀.id ∧ r.blockHeight = r₀.blockHeight) ∨
      ∃ tx ∈ block.transactions, r.id = tx.runeId block ∧ r.blockHeight = block.height := by
  obtain ⟨es, rs, hwrites, -, -, hat⟩ := indexTransactions_writes hrun
  obtain ⟨r₀, hr₀, hid, hheight⟩ := (hwrites.mem_runes r hr).place
  rw [h.rest, DbCache.new, List.append_nil] at hr₀
  rcases List.mem_append.mp hr₀ with hold | hnew
  · exact .inl ⟨r₀, hold, hid, hheight⟩
  · obtain ⟨tx, htx, hplace⟩ := hat r₀ hnew
    exact .inr ⟨tx, htx, hid.trans hplace.id, hheight.trans hplace.blockHeight⟩

/-- **A block** adds its own runes. -/
theorem index (h : EtchedOnChain blocks s) (hrun : indexBlock env block s = some t) :
    EtchedOnChain (blocks ++ [block]) t := by
  obtain ⟨u, htransactions, hflush⟩ := indexBlock_eq_some.mp hrun
  obtain ⟨db, hdb, rfl⟩ := Session.flush_eq_some.mp hflush
  refine ⟨rfl, fun r hr => ?_⟩
  -- what is inserted is what was recorded, up to the flag that the table loses
  have hof := (Session.Writes.flush hflush).mem_runes r (List.mem_append_left _ hr)
  obtain ⟨r₀, hr₀, hid, hheight⟩ := hof.place
  rw [List.append_nil] at hr₀
  rw [hid, hheight]
  rcases h.mem_runes htransactions hr₀ with ⟨r₁, hr₁, hid₁, hheight₁⟩ | ⟨tx, -, hid₁, hheight₁⟩
  · rw [hid₁, hheight₁]
    refine (h.runes r₁ hr₁).imp_right ?_
    rintro ⟨b, hb, hplace⟩
    exact ⟨b, List.mem_append_left _ hb, hplace⟩
  · exact .inr ⟨block, List.mem_append_right _ List.mem_cons_self,
      congrArg RuneId.block hid₁, hheight₁⟩

/-- **A rollback** deletes the runes of the highest block. -/
theorem rollBack (h : EtchedOnChain (blocks ++ [block]) s) :
    EtchedOnChain blocks (rollBackBlock block.height s) where
  rest := h.rest
  runes r hr := by
    obtain ⟨hr, hother⟩ := List.mem_filter.mp hr
    refine (h.runes r hr).imp_right ?_
    rintro ⟨b, hb, hid, hheight⟩
    rcases List.mem_append.mp hb with hb | hb
    · exact ⟨b, hb, hid, hheight⟩
    · rw [List.mem_singleton.mp hb] at hheight
      exact absurd hheight (of_decide_eq_true hother)

theorem restart (h : EtchedOnChain blocks s) {cap : Nat} {hcap : 0 < cap}
    (hrun : s.restart cap hcap = some t) : EtchedOnChain blocks t := by
  obtain ⟨cache, hcache, rfl⟩ := restart_eq_some hrun
  exact ⟨(IndexCache.new_empty hcache).dbCache, h.runes⟩

/-- **The id of a transaction is free** before it is indexed. The transactions of `block` are those
of its block before `tx`. -/
theorem id_free (h : EtchedOnChain blocks s) (habove : ∀ b ∈ blocks, b.height < block.height)
    (hrun : indexTransactions env block s = some t) {tx : Transaction}
    (hindex : ∀ earlier ∈ block.transactions, earlier.index ≠ tx.index)
    (hgoods : tx.runeId block ≠ uncommonGoods.id) :
    ∀ r ∈ t.db.runes ++ t.cache.dbCache.runes, r.id ≠ tx.runeId block := by
  intro r hr hid
  rcases h.mem_runes hrun hr with ⟨r₀, hr₀, hid₀, -⟩ | ⟨earlier, hearlier, hid₀, -⟩
  · rcases h.runes r₀ hr₀ with hfirst | ⟨b, hb, hplace, -⟩
    · exact hgoods (hid.symm.trans (hid₀.trans hfirst))
    · have hlt := habove b hb
      rw [← hplace, ← hid₀, hid] at hlt
      exact Nat.lt_irrefl _ hlt
  · exact hindex earlier hearlier (congrArg RuneId.tx (hid₀.symm.trans hid))

end EtchedOnChain

/-- **The runes of a run are those of the blocks that survive it.** -/
theorem runEvents_etchedOnChain {env : Environment} {network : Network} {cap : Nat} {hcap : 0 < cap}
    {events : List Event} {blocks : List Block} {s₀ s : Session}
    (hchain : survivingChain events = some blocks)
    (hstart : freshSession network cap hcap = some s₀) (hrun : runEvents env events s₀ = some s) :
    EtchedOnChain blocks s := by
  obtain ⟨hempty, hdb⟩ := freshSession_eq_some hstart
  refine runEvents_induction (.of_empty hempty hdb) ?_ hchain hrun
  intro done e rest bs bs' t t' _ _ _ hon hstep h
  cases e with
  | index block =>
    rw [Event.onChain] at hon
    split at hon
    · cases Option.some.inj hon
      exact h.index hstep
    · cases hon
  | rollBack height =>
    rw [Event.onChain] at hon
    split at hon
    · next hlast =>
      cases Option.some.inj hon
      cases Option.some.inj hstep
      obtain ⟨block, hget, rfl⟩ := Option.map_eq_some_iff.mp hlast
      rw [← List.dropLast_append_getLast? block hget] at h
      exact h.rollBack
    · cases hon
  | restart cap hcap =>
    cases Option.some.inj hon
    exact h.restart hstep

end Runehook
