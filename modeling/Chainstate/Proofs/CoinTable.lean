-- SUMMARY: Coin tables after bulk removals and additions: what they hold and what it is worth.
import Chainstate.Store.Memory
import Mathlib.Data.List.Nodup

/-!
# Coin tables

A block changes a table of coins by removing some outpoints and adding some coins. The first part
says what is found under an outpoint afterwards. The second part is about the value of a table,
the sum of the amounts in it: removing distinct outpoints takes away what was found under them,
and adding coins adds at most their amounts, since a coin may take the place of another.
-/

namespace Chainstate

/-! ## Single entries -/

namespace Table

section Entries

variable {κ ν : Type} [Ord κ] [Std.TransOrd κ] [Std.LawfulEqOrd κ] [DecidableEq κ]

theorem getElem?_insert (t : Table κ ν) (k a : κ) (v : ν) :
    (t.insert k v)[a]? = if k = a then some v else t[a]? := by
  rw [Std.ExtTreeMap.getElem?_insert]
  by_cases h : k = a
  · subst h
    simp
  · simp [h]

theorem getElem?_erase (t : Table κ ν) (k a : κ) :
    (t.erase k)[a]? = if k = a then none else t[a]? := by
  rw [Std.ExtTreeMap.getElem?_erase]
  by_cases h : k = a
  · subst h
    simp
  · simp [h]

theorem erase_insert (t : Table κ ν) (k : κ) (v : ν) : (t.insert k v).erase k = t.erase k := by
  apply Std.ExtTreeMap.ext_getElem?
  intro a
  rw [getElem?_erase, getElem?_erase, getElem?_insert]
  by_cases hk : k = a <;> simp [hk]

theorem erase_of_getElem?_eq_none {t : Table κ ν} {k : κ} (h : t[k]? = none) : t.erase k = t := by
  apply Std.ExtTreeMap.ext_getElem?
  intro a
  rw [getElem?_erase]
  split
  · next heq => rw [← heq, h]
  · rfl

omit [DecidableEq κ] in
/-- The entries of a table have distinct keys, so no entry is listed twice. -/
theorem nodup_toList (t : Table κ ν) : t.toList.Nodup := by
  refine t.distinct_keys_toList.imp ?_
  intro a b h heq
  subst heq
  exact h (Std.ReflCmp.compare_self)

/-- The entries of a table are one of them and those of the table without it. -/
theorem toList_perm_erase {t : Table κ ν} {k : κ} {v : ν} (h : t[k]? = some v) :
    t.toList.Perm ((k, v) :: (t.erase k).toList) := by
  have hfresh : (k, v) ∉ (t.erase k).toList := by
    simp [Std.ExtTreeMap.mem_toList_iff_getElem?_eq_some]
  refine (List.perm_ext_iff_of_nodup t.nodup_toList
    (List.nodup_cons.2 ⟨hfresh, nodup_toList (t.erase k)⟩)).2 ?_
  rintro ⟨a, w⟩
  simp only [Std.ExtTreeMap.mem_toList_iff_getElem?_eq_some, List.mem_cons, Prod.mk.injEq,
    getElem?_erase]
  by_cases hk : k = a
  · subst hk
    simp [h, eq_comm]
  · simp [hk, Ne.symm hk]

/-- Inserting lists the new entry beside those under other keys. -/
theorem toList_perm_insert (t : Table κ ν) (k : κ) (v : ν) :
    (t.insert k v).toList.Perm ((k, v) :: (t.erase k).toList) := by
  have h := toList_perm_erase (t := t.insert k v) (k := k) (v := v) (by simp)
  rwa [erase_insert] at h

omit [Std.LawfulEqOrd κ] [DecidableEq κ] in
/-- Lists in strict key order with the same members are the same. -/
theorem eq_of_sorted {α : Type} (key : α → κ) {as bs : List α}
    (has : as.Pairwise fun a b => compare (key a) (key b) = .lt)
    (hbs : bs.Pairwise fun a b => compare (key a) (key b) = .lt)
    (h : ∀ a, a ∈ as ↔ a ∈ bs) : as = bs := by
  have hirrefl : ∀ a b, compare (key a) (key b) = .lt → a ≠ b := by
    intro a b hlt heq
    have hself : compare (key b) (key b) = .eq := Std.ReflCmp.compare_self
    rw [heq, hself] at hlt
    cases hlt
  have hperm : as.Perm bs :=
    (List.perm_ext_iff_of_nodup (has.imp (hirrefl _ _)) (hbs.imp (hirrefl _ _))).2 h
  refine List.Perm.eq_of_pairwise ?_ has hbs hperm
  intro a b _ _ hab hba
  rw [Std.OrientedOrd.eq_swap, hba] at hab
  cases hab

/-- Every entry of the table satisfies a property. -/
def All (P : ν → Prop) (t : Table κ ν) : Prop := ∀ (k : κ) (v : ν), t[k]? = some v → P v

omit [Std.LawfulEqOrd κ] [DecidableEq κ] in
theorem all_empty (P : ν → Prop) : All P (∅ : Table κ ν) := by
  intro k v h
  simp at h

theorem All.insert {P : ν → Prop} {t : Table κ ν} (h : t.All P) (k : κ) {v : ν} (hv : P v) :
    All P (t.insert k v) := by
  intro a w hw
  rw [getElem?_insert] at hw
  split at hw
  · cases hw
    exact hv
  · exact h a w hw

end Entries

end Table

/-! ## Lookups after bulk changes -/

namespace MemoryStore

theorem removeCoins_cons (t : Table OutPoint Coin) (o : OutPoint) (os : List OutPoint) :
    removeCoins t (o :: os) = removeCoins (t.erase o) os := rfl

theorem addCoins_cons (t : Table OutPoint Coin) (oc : OutPoint × Coin)
    (ocs : List (OutPoint × Coin)) :
    addCoins t (oc :: ocs) = addCoins (t.insert oc.1 oc.2) ocs := rfl

theorem getElem?_removeCoins (t : Table OutPoint Coin) (os : List OutPoint) (o : OutPoint) :
    (removeCoins t os)[o]? = if o ∈ os then none else t[o]? := by
  induction os generalizing t with
  | nil => simp [removeCoins]
  | cons hd os ih =>
    rw [removeCoins_cons, ih, Table.getElem?_erase]
    by_cases hmem : o ∈ os
    · simp [hmem]
    · by_cases heq : hd = o
      · simp [heq]
      · simp [hmem, heq, Ne.symm heq]

/-- Adding coins changes nothing under other outpoints. -/
theorem getElem?_addCoins_of_notMem (t : Table OutPoint Coin) {ocs : List (OutPoint × Coin)}
    {o : OutPoint} (h : o ∉ ocs.map Prod.fst) : (addCoins t ocs)[o]? = t[o]? := by
  induction ocs generalizing t with
  | nil => rfl
  | cons hd ocs ih =>
    simp only [List.map_cons, List.mem_cons, not_or] at h
    rw [addCoins_cons, ih _ h.2, Table.getElem?_insert, if_neg (Ne.symm h.1)]

/-- Coins added under distinct outpoints are found there. -/
theorem getElem?_addCoins_of_mem (t : Table OutPoint Coin) {ocs : List (OutPoint × Coin)}
    {o : OutPoint} {c : Coin} (hkeys : (ocs.map Prod.fst).Nodup) (h : (o, c) ∈ ocs) :
    (addCoins t ocs)[o]? = some c := by
  induction ocs generalizing t with
  | nil => cases h
  | cons hd ocs ih =>
    simp only [List.map_cons, List.nodup_cons] at hkeys
    rw [addCoins_cons]
    rcases List.mem_cons.1 h with rfl | hmem
    · rw [getElem?_addCoins_of_notMem _ hkeys.1, Table.getElem?_insert, if_pos rfl]
    · exact ih _ hkeys.2 hmem

/-- A coin that is found after an addition was added or had been there. -/
theorem mem_or_getElem?_of_addCoins {t : Table OutPoint Coin} {ocs : List (OutPoint × Coin)}
    {o : OutPoint} {c : Coin} (h : (addCoins t ocs)[o]? = some c) :
    (o, c) ∈ ocs ∨ t[o]? = some c := by
  induction ocs generalizing t with
  | nil => exact .inr h
  | cons hd ocs ih =>
    rw [addCoins_cons] at h
    rcases ih h with hmem | hold
    · exact .inl (List.mem_cons_of_mem _ hmem)
    · rw [Table.getElem?_insert] at hold
      split at hold
      · next heq =>
        cases hold
        subst heq
        exact .inl (List.mem_cons_self)
      · exact .inr hold

/-- Under the outpoint of an added coin only added coins are found. -/
theorem mem_of_addCoins {t : Table OutPoint Coin} {ocs : List (OutPoint × Coin)} {o : OutPoint}
    {c : Coin} (h : (addCoins t ocs)[o]? = some c) (ho : o ∈ ocs.map Prod.fst) : (o, c) ∈ ocs := by
  induction ocs generalizing t with
  | nil => cases ho
  | cons hd ocs ih =>
    rw [addCoins_cons] at h
    by_cases hlater : o ∈ ocs.map Prod.fst
    · exact List.mem_cons_of_mem _ (ih h hlater)
    · obtain rfl : o = hd.1 := (List.mem_cons.1 ho).resolve_right hlater
      rw [getElem?_addCoins_of_notMem _ hlater, Table.getElem?_insert, if_pos rfl] at h
      cases h
      exact List.mem_cons_self

theorem all_removeCoins {P : Coin → Prop} {t : Table OutPoint Coin}
    (h : t.All P) (os : List OutPoint) : (removeCoins t os).All P := by
  intro o c hc
  rw [getElem?_removeCoins] at hc
  split at hc
  · cases hc
  · exact h o c hc

theorem all_addCoins {P : Coin → Prop} {t : Table OutPoint Coin} (h : t.All P)
    {ocs : List (OutPoint × Coin)} (hocs : ∀ oc ∈ ocs, P oc.2) : (addCoins t ocs).All P := by
  intro o c hc
  rcases mem_or_getElem?_of_addCoins hc with hmem | hold
  · exact hocs _ hmem
  · exact h o c hold

/-- The database gives one entry per outpoint, whether or not there is a coin. -/
theorem getElem?_fetch (db : MemoryStore) (os : List OutPoint) (o : OutPoint) :
    (db.fetch os)[o]? = if o ∈ os then some db.coinTable[o]? else none := by
  have h : ∀ t : Table OutPoint (Option Coin),
      (os.foldl (fun t o => t.insert o db.coinTable[o]?) t)[o]?
        = if o ∈ os then some db.coinTable[o]? else t[o]? := by
    induction os with
    | nil => simp
    | cons hd os ih =>
      intro t
      rw [List.foldl_cons, ih, Table.getElem?_insert]
      by_cases hmem : o ∈ os
      · simp [hmem]
      · by_cases heq : hd = o
        · simp [heq]
        · simp [hmem, heq, Ne.symm heq]
  rw [fetch, h]
  simp

end MemoryStore

/-! ## Value -/

theorem totalAmount_perm {as bs : List Int} (h : as.Perm bs) : totalAmount as = totalAmount bs := by
  induction h with
  | nil => rfl
  | cons a _ ih => rw [totalAmount_cons, totalAmount_cons, ih]
  | swap a b l =>
    simp only [totalAmount_cons]
    omega
  | trans _ _ ih₁ ih₂ => exact ih₁.trans ih₂

namespace Table

/-- The sum of the amounts of all coins. -/
def value (t : Table OutPoint Coin) : Int := totalAmount (t.toList.map fun oc => oc.2.amount)

/-- What is found under an outpoint is worth. -/
def valueAt (t : Table OutPoint Coin) (o : OutPoint) : Int := t[o]?.elim 0 Coin.amount

/-- No coin of the table has a negative amount. -/
def Nonnegative (t : Table OutPoint Coin) : Prop := t.All fun c => 0 ≤ c.amount

theorem valueAt_nonneg {t : Table OutPoint Coin} (h : t.Nonnegative) (o : OutPoint) :
    0 ≤ t.valueAt o := by
  unfold valueAt
  cases ho : t[o]? with
  | none => simp
  | some c => exact h o c ho

theorem value_erase (t : Table OutPoint Coin) (o : OutPoint) :
    value (t.erase o) = t.value - t.valueAt o := by
  unfold valueAt
  cases ho : t[o]? with
  | none => simp [erase_of_getElem?_eq_none ho]
  | some c =>
    have h := totalAmount_perm ((toList_perm_erase ho).map fun oc => oc.2.amount)
    simp only [List.map_cons, totalAmount_cons] at h
    simp only [value, Option.elim_some]
    omega

/-- A new coin adds its amount and displaces what was there. -/
theorem value_insert (t : Table OutPoint Coin) (o : OutPoint) (c : Coin) :
    value (t.insert o c) = t.value - t.valueAt o + c.amount := by
  have h := totalAmount_perm ((toList_perm_insert t o c).map fun oc => oc.2.amount)
  simp only [List.map_cons, totalAmount_cons] at h
  have herase := t.value_erase o
  unfold value at herase ⊢
  omega

/-- Removing distinct outpoints takes away what is found under them. -/
theorem value_removeCoins (t : Table OutPoint Coin) {os : List OutPoint} (h : os.Nodup) :
    value (MemoryStore.removeCoins t os) = t.value - totalAmount (os.map t.valueAt) := by
  induction os generalizing t with
  | nil => simp [MemoryStore.removeCoins]
  | cons o os ih =>
    obtain ⟨ho, hos⟩ := List.nodup_cons.1 h
    have hrest : os.map (valueAt (t.erase o)) = os.map t.valueAt := by
      apply List.map_congr_left
      intro a ha
      have hne : o ≠ a := fun heq => ho (heq ▸ ha)
      simp [valueAt, getElem?_erase, hne]
    rw [MemoryStore.removeCoins_cons, ih _ hos, hrest, value_erase, List.map_cons,
      totalAmount_cons]
    omega

/-- Added coins are worth at most the sum of their amounts. -/
theorem value_addCoins_le {t : Table OutPoint Coin} (h : t.Nonnegative)
    {ocs : List (OutPoint × Coin)} (hocs : ∀ oc ∈ ocs, 0 ≤ oc.2.amount) :
    (MemoryStore.addCoins t ocs).value
      ≤ t.value + totalAmount (ocs.map fun oc => oc.2.amount) := by
  induction ocs generalizing t with
  | nil => simp [MemoryStore.addCoins]
  | cons oc ocs ih =>
    have hoc := hocs oc List.mem_cons_self
    have hle := ih (All.insert h oc.1 hoc) fun x hx => hocs x (List.mem_cons_of_mem _ hx)
    have hold := valueAt_nonneg h oc.1
    rw [value_insert] at hle
    rw [MemoryStore.addCoins_cons, List.map_cons, totalAmount_cons]
    omega

/-- A coin that is added before others are removed is worth no more than one that is added last. -/
theorem value_removeCoins_insert_le {t : Table OutPoint Coin} (h : t.Nonnegative) (o : OutPoint)
    {c : Coin} (hc : 0 ≤ c.amount) (os : List OutPoint) :
    (MemoryStore.removeCoins (t.insert o c) os).value
      ≤ (MemoryStore.removeCoins t os).value + c.amount := by
  by_cases ho : o ∈ os
  · have hsame : MemoryStore.removeCoins (t.insert o c) os = MemoryStore.removeCoins t os := by
      apply Std.ExtTreeMap.ext_getElem?
      intro a
      rw [MemoryStore.getElem?_removeCoins, MemoryStore.getElem?_removeCoins, getElem?_insert]
      by_cases ha : a ∈ os
      · rw [if_pos ha, if_pos ha]
      · have hne : o ≠ a := fun heq => ha (heq ▸ ho)
        rw [if_neg ha, if_neg ha, if_neg hne]
    rw [hsame]
    omega
  · have hlast : MemoryStore.removeCoins (t.insert o c) os
        = (MemoryStore.removeCoins t os).insert o c := by
      apply Std.ExtTreeMap.ext_getElem?
      intro a
      rw [MemoryStore.getElem?_removeCoins, getElem?_insert, getElem?_insert,
        MemoryStore.getElem?_removeCoins]
      by_cases heq : o = a
      · subst heq
        rw [if_neg ho, if_pos rfl, if_pos rfl]
      · rw [if_neg heq, if_neg heq]
    have hold := valueAt_nonneg (MemoryStore.all_removeCoins h os) o
    rw [hlast, value_insert]
    omega

/-- Coins that are added before others are removed are worth at most the sum of their amounts. -/
theorem value_removeCoins_addCoins_le {t : Table OutPoint Coin} (h : t.Nonnegative)
    {ocs : List (OutPoint × Coin)} (hocs : ∀ oc ∈ ocs, 0 ≤ oc.2.amount) (os : List OutPoint) :
    (MemoryStore.removeCoins (MemoryStore.addCoins t ocs) os).value
      ≤ (MemoryStore.removeCoins t os).value + totalAmount (ocs.map fun oc => oc.2.amount) := by
  induction ocs generalizing t with
  | nil => simp [MemoryStore.addCoins]
  | cons oc ocs ih =>
    have hoc := hocs oc List.mem_cons_self
    have hle := ih (All.insert h oc.1 hoc) fun x hx => hocs x (List.mem_cons_of_mem _ hx)
    have hfirst := value_removeCoins_insert_le h oc.1 hoc os
    rw [MemoryStore.addCoins_cons, List.map_cons, totalAmount_cons]
    omega

end Table

end Chainstate
