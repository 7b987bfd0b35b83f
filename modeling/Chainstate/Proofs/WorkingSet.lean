-- SUMMARY: Working sets follow the ledger: what they find, what they apply and what they commit.
import Chainstate.Proofs.Ledger
import Chainstate.Proofs.Steps

/-!
# Working sets and tables of coins

A working set stands for two tables: the coins that were loaded and the coins as they are now.
`WorkingSet.Tracks` says that every slot agrees with both and that the two agree wherever there is
no slot. Loading starts the relation, and every step of applying a transaction keeps it beside the
same step of the ledger. At its end the changes to commit lead from the first table to the second
and the undo record is the one between them.
-/

namespace Chainstate

namespace WorkingSet

/-- The slots hold what two tables of coins hold, and the tables agree elsewhere. -/
structure Tracks (w : WorkingSet) (before after : Table OutPoint Coin) : Prop where
  loaded : ∀ (o : OutPoint) (s : Slot), w.slots[o]? = some s → s.loaded = before[o]?
  current : ∀ (o : OutPoint) (s : Slot), w.slots[o]? = some s → s.current = after[o]?
  rest : ∀ o : OutPoint, w.slots[o]? = none → after[o]? = before[o]?

/-- Every one of some outpoints has a slot. -/
def Covers (w : WorkingSet) (os : List OutPoint) : Prop := ∀ o ∈ os, o ∈ w.slots

/-- No slot is lost. -/
def Extends (w w' : WorkingSet) : Prop := ∀ o ∈ w.slots, o ∈ w'.slots

theorem Extends.trans {w w₁ w₂ : WorkingSet} (h : Extends w w₁) (h' : Extends w₁ w₂) :
    Extends w w₂ := fun o ho => h' o (h o ho)

theorem Extends.covers {w w' : WorkingSet} (h : Extends w w') {os : List OutPoint}
    (hc : w.Covers os) : w'.Covers os := fun o ho => h o (hc o ho)

theorem extends_put (w : WorkingSet) (o : OutPoint) (s : Slot) : Extends w (w.put o s) := by
  intro a ha
  rw [Std.ExtTreeMap.mem_iff_isSome_getElem?] at ha ⊢
  rw [put, Table.getElem?_insert]
  split
  · rfl
  · exact ha

/-! ## Loading -/

/-- A successful load adds one slot per change and keeps the slots that were there. -/
theorem load_ok {cs : List CoinChange} {w w' : WorkingSet} (h : load cs w = .ok () w')
    (o : OutPoint) (s : Slot) :
    w'.slots[o]? = some s
      ↔ w.slots[o]? = some s ∨ ∃ c ∈ cs, c.outpoint = o ∧ s = ⟨c.coin, c.coin⟩ := by
  induction cs generalizing w with
  | nil =>
    simp only [load, step_pure_ok, true_and] at h
    simp [h]
  | cons c cs ih =>
    unfold load at h
    simp only [step_bind_ok, step_get_ok] at h
    obtain ⟨w₀, w₁, ⟨rfl, rfl⟩, h⟩ := h
    split at h
    · exact absurd h step_throw_ok
    · next hfresh =>
      simp only [step_bind_ok, step_set_ok] at h
      obtain ⟨_, w₂, rfl, h⟩ := h
      have hnone : w.slots[c.outpoint]? = none := by
        simpa using hfresh
      rw [ih h, put, Table.getElem?_insert]
      by_cases heq : c.outpoint = o
      · subst heq
        simp [hnone, eq_comm]
      · simp [heq]

/-- The coins of a table under some outpoints, entered into an empty working set, track the table
and cover the outpoints. -/
theorem tracks_of_load {t : Table OutPoint Coin} {cs : List CoinChange}
    (hrows : ∀ c ∈ cs, c.coin = t[c.outpoint]?) {w : WorkingSet} (h : load cs empty = .ok () w) :
    w.Tracks t t ∧ w.Covers (cs.map CoinChange.outpoint) := by
  have hslot {o : OutPoint} {s : Slot} (hs : w.slots[o]? = some s) : s = ⟨t[o]?, t[o]?⟩ := by
    rcases (load_ok h o s).1 hs with hempty | ⟨c, hc, rfl, rfl⟩
    · simp [empty] at hempty
    · rw [hrows c hc]
  refine ⟨⟨?_, ?_, fun _ _ => rfl⟩, ?_⟩
  · intro o s hs
    rw [hslot hs]
  · intro o s hs
    rw [hslot hs]
  · intro o ho
    obtain ⟨c, hc, rfl⟩ := List.mem_map.1 ho
    rw [Std.ExtTreeMap.mem_iff_isSome_getElem?, (load_ok h c.outpoint _).2 (.inr ⟨c, hc, rfl, rfl⟩)]
    rfl

/-! ## Looking up -/

/-- What a working set finds is in the table. -/
theorem Tracks.getElem?_of_coin? {w : WorkingSet} {before after : Table OutPoint Coin}
    (h : w.Tracks before after) {o : OutPoint} {c : Coin} (hc : w.coin? o = some c) :
    after[o]? = some c := by
  obtain ⟨s, hs, hcurrent⟩ := Option.bind_eq_some_iff.1 hc
  rw [← h.current o s hs]
  exact hcurrent

/-- The inputs that pass their checks are all found and deep enough, and the sum that is computed
for them is the value of their coins. -/
theorem sumInputs_ok {p : Params} {w : WorkingSet} {before after : Table OutPoint Coin}
    (h : w.Tracks before after) {height : Nat} {total sum : Int} {ins : List TxIn}
    (hsum : w.sumInputs p height total ins = .ok sum) :
    sum = total + Ledger.inputValue after ins
      ∧ ∀ i ∈ ins, ∃ coin, after[i.prevout]? = some coin
        ∧ checkMaturity p height coin = .ok () := by
  induction ins generalizing total with
  | nil =>
    simp only [sumInputs, Except.ok.injEq] at hsum
    exact ⟨by simp [hsum, Ledger.inputValue], fun _ hi => absurd hi List.not_mem_nil⟩
  | cons i ins ih =>
    unfold sumInputs at hsum
    split at hsum
    · cases hsum
    · next c hc =>
      have hfound := h.getElem?_of_coin? hc
      simp only [check_bind_ok] at hsum
      obtain ⟨_, hmature, hsum⟩ := hsum
      split at hsum
      · simp at hsum
      · obtain ⟨hrest, hdeep⟩ := ih hsum
        have hvalue : after.valueAt i.prevout = c.amount := by
          simp [Table.valueAt, hfound]
        refine ⟨?_, List.forall_mem_cons.2 ⟨⟨c, hfound, hmature⟩, hdeep⟩⟩
        unfold Ledger.inputValue at hrest ⊢
        rw [List.map_cons, totalAmount_cons, hvalue]
        omega

theorem checkInputs_ok {p : Params} {w : WorkingSet} {before after : Table OutPoint Coin}
    (h : w.Tracks before after) {height : Nat} {tx : Transaction} {sum : Int}
    (hsum : w.checkInputs p tx height = .ok sum) :
    sum = Ledger.inputValue after tx.inputs
      ∧ ∀ i ∈ tx.inputs, ∃ coin, after[i.prevout]? = some coin
        ∧ checkMaturity p height coin = .ok () := by
  obtain ⟨hsum, hmature⟩ := sumInputs_ok h hsum
  exact ⟨by omega, hmature⟩

/-! ## Applying transactions -/

theorem spend_ok {w w' : WorkingSet} {before after : Table OutPoint Coin}
    (h : w.Tracks before after) {o : OutPoint} (hspend : spend o w = .ok () w') :
    o ∈ after ∧ w'.Tracks before (after.erase o) ∧ Extends w w' := by
  unfold spend at hspend
  simp only [step_bind_ok, step_get_ok] at hspend
  obtain ⟨w₀, w₁, ⟨rfl, rfl⟩, hspend⟩ := hspend
  cases hs : w.slots[o]? with
  | none =>
    rw [hs] at hspend
    exact absurd hspend step_throw_ok
  | some s =>
    rw [hs] at hspend
    cases hcurrent : s.current with
    | none =>
      simp only [hcurrent, Option.isNone_none, if_true] at hspend
      exact absurd hspend step_throw_ok
    | some c =>
      simp only [hcurrent, Option.isNone_some, Bool.false_eq_true, if_false, step_set_ok] at hspend
      subst hspend
      refine ⟨?_, ⟨?_, ?_, ?_⟩, extends_put _ _ _⟩
      · rw [Std.ExtTreeMap.mem_iff_isSome_getElem?, ← h.current o s hs, hcurrent]
        rfl
      · intro a s' hs'
        rw [put, Table.getElem?_insert] at hs'
        split at hs'
        · next heq =>
          cases hs'
          subst heq
          exact h.loaded _ s hs
        · exact h.loaded a s' hs'
      · intro a s' hs'
        rw [put, Table.getElem?_insert] at hs'
        rw [Table.getElem?_erase]
        by_cases heq : o = a
        · rw [if_pos heq] at hs' ⊢
          cases hs'
          rfl
        · rw [if_neg heq] at hs' ⊢
          exact h.current a s' hs'
      · intro a ha
        rw [put, Table.getElem?_insert] at ha
        by_cases heq : o = a
        · rw [if_pos heq] at ha
          cases ha
        · rw [if_neg heq] at ha
          rw [Table.getElem?_erase, if_neg heq]
          exact h.rest a ha

theorem spendAll_ok {ins : List TxIn} {w w' : WorkingSet} {before after : Table OutPoint Coin}
    (h : w.Tracks before after) (hspend : spendAll ins w = .ok () w') :
    ∃ after', Ledger.spend ins after = some after' ∧ w'.Tracks before after' ∧ Extends w w' := by
  induction ins generalizing w after with
  | nil =>
    simp only [spendAll, step_pure_ok, true_and] at hspend
    subst hspend
    exact ⟨after, rfl, h, fun _ ho => ho⟩
  | cons i ins ih =>
    simp only [spendAll, step_bind_ok] at hspend
    obtain ⟨_, w₁, hfirst, hrest⟩ := hspend
    obtain ⟨hthere, h₁, hext⟩ := spend_ok h hfirst
    obtain ⟨after', hafter, h', hext'⟩ := ih h₁ hrest
    refine ⟨after', ?_, h', hext.trans hext'⟩
    rw [Ledger.spend, if_pos (Std.ExtTreeMap.contains_iff_mem.2 hthere)]
    exact hafter

theorem tracks_create {w : WorkingSet} {before after : Table OutPoint Coin}
    (h : w.Tracks before after) {o : OutPoint} (ho : o ∈ w.slots) (c : Coin) :
    (w.create o c).Tracks before (after.insert o c) := by
  obtain ⟨s, hs⟩ := Option.isSome_iff_exists.1 (Std.ExtTreeMap.mem_iff_isSome_getElem?.1 ho)
  refine ⟨?_, ?_, ?_⟩
  · intro a s' hs'
    rw [create, put, Table.getElem?_insert] at hs'
    split at hs'
    · next heq =>
      cases hs'
      subst heq
      simp only [hs, Option.bind_some]
      exact h.loaded _ s hs
    · exact h.loaded a s' hs'
  · intro a s' hs'
    rw [create, put, Table.getElem?_insert] at hs'
    rw [Table.getElem?_insert]
    by_cases heq : o = a
    · rw [if_pos heq] at hs' ⊢
      cases hs'
      rfl
    · rw [if_neg heq] at hs' ⊢
      exact h.current a s' hs'
  · intro a ha
    rw [create, put, Table.getElem?_insert] at ha
    by_cases heq : o = a
    · rw [if_pos heq] at ha
      cases ha
    · rw [if_neg heq] at ha
      rw [Table.getElem?_insert, if_neg heq]
      exact h.rest a ha

theorem tracks_createAll {ocs : List (OutPoint × Coin)} {w : WorkingSet}
    {before after : Table OutPoint Coin} (h : w.Tracks before after)
    (hcover : w.Covers (ocs.map Prod.fst)) :
    (ocs.foldl (fun w oc => w.create oc.1 oc.2) w).Tracks before (MemoryStore.addCoins after ocs)
      ∧ Extends w (ocs.foldl (fun w oc => w.create oc.1 oc.2) w) := by
  induction ocs generalizing w after with
  | nil => exact ⟨h, fun _ ho => ho⟩
  | cons oc ocs ih =>
    have hext : Extends w (w.create oc.1 oc.2) := extends_put _ _ _
    have hfirst := hcover oc.1 List.mem_cons_self
    have hrest : (w.create oc.1 oc.2).Covers (ocs.map Prod.fst) :=
      hext.covers fun o ho => hcover o (List.mem_cons_of_mem _ ho)
    obtain ⟨htracks, hext'⟩ := ih (tracks_create h hfirst oc.2) hrest
    exact ⟨htracks, hext.trans hext'⟩

/-- A transaction whose outpoints have slots is applied as the ledger applies it. -/
theorem apply_ok {tx : Transaction} {height : Nat} {time : Option UInt32} {w w' : WorkingSet}
    {before after : Table OutPoint Coin} (h : w.Tracks before after)
    (hcover : w.Covers tx.outPoints) (happly : apply tx height time w = .ok () w') :
    ∃ after', Ledger.apply height time tx after = some after' ∧ w'.Tracks before after'
      ∧ Extends w w' := by
  unfold apply at happly
  obtain ⟨w₁, rest, hrest, h₁, hext, rfl⟩ : ∃ w₁ rest, Ledger.unspent tx after = some rest
      ∧ w₁.Tracks before rest ∧ Extends w w₁
      ∧ (tx.createdCoins height time).foldl (fun w oc => w.create oc.1 oc.2) w₁ = w' := by
    unfold Ledger.unspent
    split at happly
    · next hcoinbase =>
      exact ⟨w, after, if_pos hcoinbase, h, fun _ ho => ho, step_modify_ok.1 happly⟩
    · next hcoinbase =>
      simp only [step_bind_ok, step_modify_ok] at happly
      obtain ⟨_, w₁, hspend, hcreate⟩ := happly
      obtain ⟨rest, hrest, h₁, hext⟩ := spendAll_ok h hspend
      exact ⟨w₁, rest, by rw [if_neg hcoinbase, hrest], h₁, hext, hcreate⟩
  have hcreated : w₁.Covers ((tx.createdCoins height time).map Prod.fst) := by
    intro o ho
    obtain ⟨oc, hoc, rfl⟩ := List.mem_map.1 ho
    exact hext _ (hcover _ (Transaction.mem_createdCoins hoc).1)
  obtain ⟨htracks, hext'⟩ := tracks_createAll h₁ hcreated
  refine ⟨_, ?_, htracks, hext.trans hext'⟩
  rw [Ledger.apply, hrest]
  rfl

/-! ## Results -/

/-- The changed slots are the outpoints where the two tables differ. -/
theorem mem_changedSlots {w : WorkingSet} {before after : Table OutPoint Coin}
    (h : w.Tracks before after) {o : OutPoint} {s : Slot} :
    (o, s) ∈ w.changedSlots
      ↔ s = ⟨before[o]?, after[o]?⟩ ∧ after[o]? ≠ before[o]? := by
  simp only [changedSlots, List.mem_filter, Std.ExtTreeMap.mem_toList_iff_getElem?_eq_some,
    bne_iff_ne]
  constructor
  · rintro ⟨hs, hne⟩
    rw [h.current o s hs, h.loaded o s hs] at hne
    refine ⟨?_, hne⟩
    rw [← h.current o s hs, ← h.loaded o s hs]
  · rintro ⟨rfl, hne⟩
    cases hs : w.slots[o]? with
    | none => exact absurd (h.rest o hs) hne
    | some s =>
      refine ⟨?_, hne⟩
      rw [← h.current o s hs, ← h.loaded o s hs]

theorem sorted_changedSlots (w : WorkingSet) :
    w.changedSlots.Pairwise fun a b => compare a.1 b.1 = .lt :=
  w.slots.ordered_keys_toList.sublist List.filter_sublist

/-- Each change is the coin that is found now, where that is not the one that was loaded. -/
theorem mem_changes {w : WorkingSet} {before after : Table OutPoint Coin}
    (h : w.Tracks before after) {c : CoinChange} :
    c ∈ w.changes ↔ c.coin = after[c.outpoint]? ∧ after[c.outpoint]? ≠ before[c.outpoint]? := by
  unfold changes
  rw [List.mem_map]
  constructor
  · rintro ⟨⟨o, s⟩, hmem, rfl⟩
    obtain ⟨rfl, hne⟩ := (mem_changedSlots h).1 hmem
    exact ⟨rfl, hne⟩
  · rintro ⟨hcoin, hne⟩
    refine ⟨(c.outpoint, ⟨before[c.outpoint]?, after[c.outpoint]?⟩), ?_, ?_⟩
    · exact (mem_changedSlots h).2 ⟨rfl, hne⟩
    · obtain ⟨o, coin⟩ := c
      simp only at hcoin
      rw [hcoin]

theorem nodup_changes (w : WorkingSet) : (w.changes.map CoinChange.outpoint).Nodup := by
  have hmap : w.changes.map CoinChange.outpoint = w.changedSlots.map Prod.fst := by
    rw [changes, List.map_map]
    rfl
  rw [hmap, List.Nodup, List.pairwise_map]
  refine w.sorted_changedSlots.imp ?_
  intro a b hlt heq
  have hself : compare b.1 b.1 = .eq := Std.ReflCmp.compare_self
  rw [heq, hself] at hlt
  cases hlt

end WorkingSet

namespace CoinChange

theorem mem_deletions {changes : List CoinChange} {o : OutPoint} :
    o ∈ deletions changes ↔ ∃ c ∈ changes, c.deletion? = some o := by
  rw [deletions, (perm_sortBy _ _).mem_iff, List.mem_filterMap]

theorem mem_insertions {changes : List CoinChange} {oc : OutPoint × Coin} :
    oc ∈ insertions changes ↔ ∃ c ∈ changes, c.insertion? = some oc := by
  rw [insertions, (perm_sortBy _ _).mem_iff, List.mem_filterMap]

theorem insertion?_eq_some {c : CoinChange} {o : OutPoint} {coin : Coin} :
    c.insertion? = some (o, coin)
      ↔ c.outpoint = o ∧ c.coin = some coin ∧ coin.isPrunable = false := by
  obtain ⟨a, coin'⟩ := c
  cases coin' with
  | none => simp [insertion?]
  | some d =>
    cases hd : d.isPrunable with
    | true =>
      simp only [insertion?, hd, if_true]
      constructor
      · intro h
        cases h
      · rintro ⟨-, h, hspendable⟩
        cases h
        rw [hd] at hspendable
        cases hspendable
    | false =>
      simp only [insertion?, hd, Bool.false_eq_true, if_false, Option.some.injEq, Prod.mk.injEq]
      constructor
      · rintro ⟨rfl, rfl⟩
        exact ⟨rfl, rfl, hd⟩
      · rintro ⟨rfl, rfl, -⟩
        exact ⟨rfl, rfl⟩

theorem deletion?_eq_some {c : CoinChange} {o : OutPoint} :
    c.deletion? = some o
      ↔ c.outpoint = o ∧ ∀ coin, c.coin = some coin → coin.isPrunable = true := by
  obtain ⟨a, coin'⟩ := c
  cases coin' with
  | none => simp [deletion?]
  | some d =>
    cases hd : d.isPrunable with
    | true => simp [deletion?, hd]
    | false => simp [deletion?, hd]

/-- Changes of distinct outpoints insert under distinct outpoints. -/
theorem nodup_insertions {changes : List CoinChange}
    (h : (changes.map CoinChange.outpoint).Nodup) :
    ((insertions changes).map Prod.fst).Nodup := by
  have hperm : ((insertions changes).map Prod.fst).Perm
      ((changes.filterMap insertion?).map Prod.fst) := (perm_sortBy _ _).map Prod.fst
  refine hperm.nodup_iff.2 ?_
  clear hperm
  induction changes with
  | nil => simp
  | cons c changes ih =>
    obtain ⟨hc, hrest⟩ := List.nodup_cons.1 h
    cases hins : c.insertion? with
    | none =>
      rw [List.filterMap_cons_none hins]
      exact ih hrest
    | some oc =>
      rw [List.filterMap_cons_some hins, List.map_cons, List.nodup_cons]
      refine ⟨?_, ih hrest⟩
      intro hdup
      obtain ⟨oc', hoc', heq⟩ := List.mem_map.1 hdup
      obtain ⟨c', hc', hins'⟩ := List.mem_filterMap.1 hoc'
      have h₁ := (insertion?_eq_some.1 hins).1
      have h₂ := (insertion?_eq_some.1 hins').1
      exact hc (List.mem_map.2 ⟨c', hc', by rw [h₁, h₂, heq]⟩)

end CoinChange

namespace WorkingSet

/-- Writing the changes turns the table that was loaded into the table as it is now, where no new
coin is one that cannot be spent. -/
theorem addCoins_changes {w : WorkingSet} {before after : Table OutPoint Coin}
    (h : w.Tracks before after) (hafter : Ledger.AddsSpendable before after) :
    MemoryStore.addCoins (MemoryStore.removeCoins before (CoinChange.deletions w.changes))
      (CoinChange.insertions w.changes) = after := by
  have hkeys := CoinChange.nodup_insertions w.nodup_changes
  apply Std.ExtTreeMap.ext_getElem?
  intro o
  by_cases hsame : after[o]? = before[o]?
  · -- No change is about this outpoint.
    have hnone : ∀ c ∈ w.changes, c.outpoint ≠ o := by
      rintro c hc rfl
      exact ((mem_changes h).1 hc).2 hsame
    have hins : o ∉ (CoinChange.insertions w.changes).map Prod.fst := by
      intro hmem
      obtain ⟨oc, hoc, rfl⟩ := List.mem_map.1 hmem
      obtain ⟨c, hc, hins⟩ := CoinChange.mem_insertions.1 hoc
      exact hnone c hc (CoinChange.insertion?_eq_some.1 hins).1
    have hdel : o ∉ CoinChange.deletions w.changes := by
      intro hmem
      obtain ⟨c, hc, hdel⟩ := CoinChange.mem_deletions.1 hmem
      exact hnone c hc (CoinChange.deletion?_eq_some.1 hdel).1
    rw [MemoryStore.getElem?_addCoins_of_notMem _ hins, MemoryStore.getElem?_removeCoins,
      if_neg hdel, hsame]
  · have hchange : (⟨o, after[o]?⟩ : CoinChange) ∈ w.changes := (mem_changes h).2 ⟨rfl, hsame⟩
    cases ha : after[o]? with
    | some c =>
      have hins : (o, c) ∈ CoinChange.insertions w.changes := by
        have hspendable : c.isPrunable = false :=
          (hafter o c ha).resolve_left fun hold => hsame (ha.trans hold.symm)
        refine CoinChange.mem_insertions.2 ⟨_, hchange, ?_⟩
        exact CoinChange.insertion?_eq_some.2 ⟨rfl, ha, hspendable⟩
      exact MemoryStore.getElem?_addCoins_of_mem _ hkeys hins
    | none =>
      have hins : o ∉ (CoinChange.insertions w.changes).map Prod.fst := by
        intro hmem
        obtain ⟨⟨o', c⟩, hoc, rfl⟩ := List.mem_map.1 hmem
        obtain ⟨d, hd, hins⟩ := CoinChange.mem_insertions.1 hoc
        obtain ⟨houtpoint, hcoin, -⟩ := CoinChange.insertion?_eq_some.1 hins
        rw [((mem_changes h).1 hd).1, houtpoint] at hcoin
        rw [hcoin] at ha
        cases ha
      have hdel : o ∈ CoinChange.deletions w.changes := by
        refine CoinChange.mem_deletions.2 ⟨_, hchange, ?_⟩
        refine CoinChange.deletion?_eq_some.2 ⟨rfl, ?_⟩
        intro coin hcoin
        rw [ha] at hcoin
        cases hcoin
      rw [MemoryStore.getElem?_addCoins_of_notMem _ hins, MemoryStore.getElem?_removeCoins,
        if_pos hdel]

/-- The undo record of a working set is the record between its two tables. -/
theorem undo_eq_between {w : WorkingSet} {before after : Table OutPoint Coin}
    (h : w.Tracks before after) (previous : Tip) :
    w.undo previous = UndoRecord.between previous before after := by
  have hremove : (w.undo previous).remove = (UndoRecord.between previous before after).remove := by
    apply Table.eq_of_sorted id
    · refine List.Pairwise.filterMap _ ?_ w.sorted_changedSlots
      intro a b hlt o ho o' ho'
      obtain ⟨-, -, rfl⟩ := Option.map_eq_some_iff.1 ho
      obtain ⟨-, -, rfl⟩ := Option.map_eq_some_iff.1 ho'
      exact hlt
    · exact List.pairwise_map.2 (after.ordered_keys_toList.sublist List.filter_sublist)
    · intro o
      rw [UndoRecord.mem_remove_between]
      simp only [undo, List.mem_filterMap, Prod.exists, Option.map_eq_some_iff]
      constructor
      · rintro ⟨o', s, hmem, c, hc, rfl⟩
        obtain ⟨rfl, hne⟩ := (mem_changedSlots h).1 hmem
        refine ⟨c, hc, ?_⟩
        rw [← hc]
        exact hne.symm
      · rintro ⟨c, hc, hne⟩
        refine ⟨o, ⟨before[o]?, after[o]?⟩, (mem_changedSlots h).2 ⟨rfl, ?_⟩, c, hc, rfl⟩
        rw [hc]
        exact hne.symm
  have hrestore : (w.undo previous).restore
      = (UndoRecord.between previous before after).restore := by
    apply Table.eq_of_sorted Prod.fst
    · refine List.Pairwise.filterMap _ ?_ w.sorted_changedSlots
      intro a b hlt oc hoc oc' hoc'
      obtain ⟨-, -, rfl⟩ := Option.map_eq_some_iff.1 hoc
      obtain ⟨-, -, rfl⟩ := Option.map_eq_some_iff.1 hoc'
      exact hlt
    · exact before.ordered_keys_toList.sublist List.filter_sublist
    · rintro ⟨o, c⟩
      rw [UndoRecord.mem_restore_between]
      simp only [undo, List.mem_filterMap, Prod.exists, Option.map_eq_some_iff, Prod.mk.injEq]
      constructor
      · rintro ⟨o', s, hmem, c', hc, rfl, rfl⟩
        obtain ⟨rfl, hne⟩ := (mem_changedSlots h).1 hmem
        refine ⟨hc, ?_⟩
        rw [← hc]
        exact hne
      · rintro ⟨hc, hne⟩
        refine ⟨o, ⟨before[o]?, after[o]?⟩, (mem_changedSlots h).2 ⟨rfl, ?_⟩, c, hc, rfl, rfl⟩
        rw [hc]
        exact hne
  calc w.undo previous
      = ⟨some previous, (w.undo previous).remove, (w.undo previous).restore⟩ := rfl
    _ = UndoRecord.between previous before after := by rw [hremove, hrestore]; rfl

end WorkingSet

/-! ## Committing -/

/-- What is committed on top of a tip finds that tip, leaves its own, and keeps stake records. -/
theorem MemoryStore.tip_of_commit {db db' : MemoryStore} {changes : List CoinChange} {old new : Tip}
    {undo : UndoRecord} (h : MemoryStore.commit db changes old new undo = .ok db') :
    db.tip = some old ∧ db'.tip = some new ∧ db'.stakeTable = db.stakeTable := by
  unfold MemoryStore.commit Tip.check at h
  split at h
  · next htip =>
    cases h
    exact ⟨htip, rfl, rfl⟩
  · cases h

/-- Committing a working set that tracks the coins of the database stores the coins as they are now,
with the record that leads back. -/
theorem WorkingSet.commit_of_tracks {w : WorkingSet} {db : MemoryStore}
    {after : Table OutPoint Coin} (h : w.Tracks db.coinTable after)
    (hafter : Ledger.AddsSpendable db.coinTable after) {old : Tip} (htip : db.tip = some old)
    (new : Tip) :
    db.commit w.changes old new (w.undo old) = .ok { db with
      tip := some new
      coinTable := after
      undoTable := db.undoTable.insert (old.height + 1) (.between old db.coinTable after) } := by
  have hcheck : Tip.check db.tip old = .ok () := by
    rw [htip]
    exact if_pos rfl
  rw [MemoryStore.commit, hcheck, undo_eq_between h]
  simp only [addCoins_changes h hafter]
  rfl

end Chainstate
