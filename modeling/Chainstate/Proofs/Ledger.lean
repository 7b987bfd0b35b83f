-- SUMMARY: The ledger of blocks: the coins that they leave, what they pay and what undoes them.
import Chainstate.Network
import Chainstate.Proofs.CoinTable
import Chainstate.WorkingSet

/-!
# Ledgers

What a coin database should hold, told without working sets, changes or commits: start from no
coins and go through the transactions of the connected blocks, removing what each spends and
adding what each creates. Lists of connected blocks have the newest block first.

Main statements: the value of the coins grows by at most what the transactions pay beyond what
they spend (`value_applyAll_le`), and the record between two tables of coins leads back from the
second to the first (`UndoRecord.restores_between`).
-/

namespace Chainstate

/-! ## Created coins -/

namespace Transaction

theorem length_outPoints (tx : Transaction) : tx.outPoints.length = tx.outputs.length := by
  simp [outPoints]

theorem getElem?_outPoints {tx : Transaction} {n : Nat} {o : OutPoint} :
    tx.outPoints[n]? = some o ↔ n < tx.outputs.length ∧ o = ⟨tx.txid, UInt32.ofNat n⟩ := by
  by_cases hn : n < tx.outputs.length
  · simp [outPoints, hn, eq_comm]
  · simp [outPoints, hn]

/-- The created coins are those of the outputs that someone can spend, each under the id of the
transaction and the place of its output, with the height and time of the block and the kind of the
transaction. -/
theorem mem_createdCoins_iff {tx : Transaction} {height : Nat} {time : Option UInt32}
    {o : OutPoint} {c : Coin} :
    (o, c) ∈ tx.createdCoins height time
      ↔ ∃ n out, tx.outputs[n]? = some out ∧ out.script.isUnspendable = false
        ∧ o = ⟨tx.txid, UInt32.ofNat n⟩
        ∧ c = ⟨height, out, tx.isCoinbase, tx.isCoinstake, time⟩ := by
  rw [createdCoins, List.mem_filter, List.mem_iff_getElem?]
  simp only [List.getElem?_zip_eq_some, getElem?_outPoints, List.getElem?_map,
    Option.map_eq_some_iff, Bool.not_eq_true', Coin.isPrunable]
  constructor
  · rintro ⟨⟨n, ⟨-, rfl⟩, out, hout, rfl⟩, hspendable⟩
    exact ⟨n, out, hout, hspendable, rfl, rfl⟩
  · rintro ⟨n, out, hout, hspendable, rfl, rfl⟩
    have hn : n < tx.outputs.length := (List.getElem?_eq_some_iff.1 hout).1
    exact ⟨⟨n, ⟨hn, rfl⟩, out, hout, rfl⟩, hspendable⟩

/-- Every created coin stands under an outpoint of its transaction, holds one of the outputs and
can be spent. -/
theorem mem_createdCoins {tx : Transaction} {height : Nat} {time : Option UInt32}
    {oc : OutPoint × Coin} (h : oc ∈ tx.createdCoins height time) :
    oc.1 ∈ tx.outPoints ∧ oc.2.output ∈ tx.outputs ∧ oc.2.isPrunable = false := by
  obtain ⟨n, out, hout, hspendable, ho, hc⟩ := mem_createdCoins_iff.1 h
  have hn : n < tx.outputs.length := (List.getElem?_eq_some_iff.1 hout).1
  rw [ho, hc]
  exact ⟨List.mem_of_getElem? (getElem?_outPoints.2 ⟨hn, rfl⟩), List.mem_of_getElem? hout,
    hspendable⟩

theorem totalAmount_filter_le (ocs : List (OutPoint × Coin)) (p : OutPoint × Coin → Bool)
    (h : ∀ oc ∈ ocs, 0 ≤ oc.2.amount) :
    totalAmount ((ocs.filter p).map fun oc => oc.2.amount)
      ≤ totalAmount (ocs.map fun oc => oc.2.amount) := by
  induction ocs with
  | nil => simp
  | cons oc ocs ih =>
    have hoc := h oc List.mem_cons_self
    have hle := ih fun x hx => h x (List.mem_cons_of_mem _ hx)
    rw [List.filter_cons]
    split
    · simp only [List.map_cons, totalAmount_cons]
      omega
    · simp only [List.map_cons, totalAmount_cons]
      omega

/-- The created coins are worth at most the outputs; the ones that no one can spend are lost. -/
theorem totalAmount_createdCoins_le {tx : Transaction} (height : Nat) (time : Option UInt32)
    (h : ∀ out ∈ tx.outputs, 0 ≤ out.amount) :
    totalAmount ((tx.createdCoins height time).map fun oc => oc.2.amount) ≤ tx.totalOut := by
  let coin (out : TxOut) : Coin := ⟨height, out, tx.isCoinbase, tx.isCoinstake, time⟩
  have hzip : (tx.outPoints.zip (tx.outputs.map coin)).map (fun oc => oc.2.amount)
      = tx.outputs.map TxOut.amount := by
    have hsnd : (tx.outPoints.zip (tx.outputs.map coin)).map Prod.snd = tx.outputs.map coin :=
      List.map_snd_zip (by simp [length_outPoints])
    have hcomp := congrArg (List.map Coin.amount) hsnd
    rw [List.map_map, List.map_map] at hcomp
    exact hcomp
  have hle := totalAmount_filter_le (tx.outPoints.zip (tx.outputs.map coin))
    (fun oc => !oc.2.isPrunable) ?_
  · rw [hzip] at hle
    exact hle
  · intro oc hoc
    obtain ⟨out, hout, heq⟩ := List.mem_map.1 (List.of_mem_zip hoc).2
    rw [← heq]
    exact h out hout

end Transaction

namespace Ledger

/-! ## Transactions -/

/-- Removes the coins that inputs refer to, each of which must be there when its turn comes. -/
def spend : List TxIn → Table OutPoint Coin → Option (Table OutPoint Coin)
  | [], t => some t
  | i :: rest, t => if t.contains i.prevout then spend rest (t.erase i.prevout) else none

/-- The coins that a transaction leaves unspent. A coinbase spends nothing. -/
def unspent (tx : Transaction) (t : Table OutPoint Coin) : Option (Table OutPoint Coin) :=
  if tx.isCoinbase then some t else spend tx.inputs t

/-- Removes what a transaction spends and adds the coins it creates at a height and time. -/
def apply (height : Nat) (time : Option UInt32) (tx : Transaction) (t : Table OutPoint Coin) :
    Option (Table OutPoint Coin) :=
  (unspent tx t).map fun rest => MemoryStore.addCoins rest (tx.createdCoins height time)

def applyAll (height : Nat) (time : Option UInt32) :
    List Transaction → Table OutPoint Coin → Option (Table OutPoint Coin)
  | [], t => some t
  | tx :: rest, t => do applyAll height time rest (← apply height time tx t)

/-- The inputs that can be spent are distinct and all there, and what is left is the table without
their coins. -/
theorem spend_eq_some {ins : List TxIn} {t t' : Table OutPoint Coin} (h : spend ins t = some t') :
    (ins.map TxIn.prevout).Nodup ∧ (∀ i ∈ ins, i.prevout ∈ t)
      ∧ t' = MemoryStore.removeCoins t (ins.map TxIn.prevout) := by
  induction ins generalizing t with
  | nil =>
    simp only [spend, Option.some.injEq] at h
    simp [h, MemoryStore.removeCoins]
  | cons i ins ih =>
    unfold spend at h
    split at h
    · next hmem =>
      obtain ⟨hnodup, hthere, heq⟩ := ih h
      -- The later inputs are found after `i` is gone, so none of them refers to the same coin.
      have hother : ∀ j ∈ ins, j.prevout ≠ i.prevout ∧ j.prevout ∈ t := by
        intro j hj
        have hj := hthere j hj
        rw [Std.ExtTreeMap.mem_iff_isSome_getElem?, Table.getElem?_erase] at hj
        split at hj
        · cases hj
        · next hne => exact ⟨Ne.symm hne, Std.ExtTreeMap.mem_iff_isSome_getElem?.2 hj⟩
      refine ⟨?_, ?_, ?_⟩
      · rw [List.map_cons, List.nodup_cons]
        refine ⟨?_, hnodup⟩
        intro hdup
        obtain ⟨j, hj, heq⟩ := List.mem_map.1 hdup
        exact (hother j hj).1 heq
      · intro j hj
        rcases List.mem_cons.1 hj with rfl | hj
        · exact Std.ExtTreeMap.contains_iff_mem.1 hmem
        · exact (hother j hj).2
      · rw [List.map_cons, MemoryStore.removeCoins_cons]
        exact heq
    · cases h

/-! ## Payments -/

/-- A transaction with the value of what it spends where it stands. -/
structure Payment where
  transaction : Transaction
  valueIn : Int

namespace Payment

/-- What the transaction pays beyond what it spends. -/
def gain (p : Payment) : Int := p.transaction.totalOut - p.valueIn

def isCoinbase (p : Payment) : Bool := p.transaction.isCoinbase

def isCoinstake (p : Payment) : Bool := p.transaction.isCoinstake

end Payment

/-- The value of the coins that inputs refer to. -/
def inputValue (t : Table OutPoint Coin) (ins : List TxIn) : Int :=
  totalAmount (ins.map fun i => t.valueAt i.prevout)

/-- A transaction on top of a table of coins. A coinbase spends nothing. -/
def payment (t : Table OutPoint Coin) (tx : Transaction) : Payment :=
  ⟨tx, if tx.isCoinbase then 0 else inputValue t tx.inputs⟩

/-- The payments of transactions that are applied one after the other. -/
def payments (height : Nat) (time : Option UInt32) :
    List Transaction → Table OutPoint Coin → List Payment
  | [], _ => []
  | tx :: rest, t => payment t tx :: ((apply height time tx t).elim [] (payments height time rest))

theorem payments_cons {height : Nat} {time : Option UInt32} {tx : Transaction}
    {rest : List Transaction} {t t' : Table OutPoint Coin} (h : apply height time tx t = some t') :
    payments height time (tx :: rest) t = payment t tx :: payments height time rest t' := by
  rw [payments, h, Option.elim_some]

/-- Each payment is one of the transactions. -/
theorem transaction_mem_of_mem_payments {height : Nat} {time : Option UInt32}
    {txs : List Transaction} {t : Table OutPoint Coin} {p : Payment}
    (h : p ∈ payments height time txs t) : p.transaction ∈ txs := by
  induction txs generalizing t with
  | nil => cases h
  | cons tx rest ih =>
    unfold payments at h
    rcases List.mem_cons.1 h with rfl | hrest
    · exact List.mem_cons_self
    · cases happly : apply height time tx t with
      | none =>
        rw [happly] at hrest
        cases hrest
      | some t' =>
        rw [happly] at hrest
        exact List.mem_cons_of_mem _ (ih hrest)

/-! ## Value -/

/-- Spending takes the value of the inputs out of the table. -/
theorem value_spend {ins : List TxIn} {t t' : Table OutPoint Coin} (h : spend ins t = some t') :
    t'.value = t.value - inputValue t ins := by
  obtain ⟨hnodup, -, rfl⟩ := spend_eq_some h
  rw [Table.value_removeCoins t hnodup, List.map_map]
  rfl

/-- What is unspent was there before. -/
theorem getElem?_of_unspent {tx : Transaction} {t rest : Table OutPoint Coin}
    (h : unspent tx t = some rest) {o : OutPoint} {c : Coin} (hc : rest[o]? = some c) :
    t[o]? = some c := by
  unfold unspent at h
  split at h
  · cases h
    exact hc
  · obtain ⟨-, -, rfl⟩ := spend_eq_some h
    rw [MemoryStore.getElem?_removeCoins] at hc
    split at hc
    · cases hc
    · exact hc

theorem unspent_all {P : Coin → Prop} {tx : Transaction} {t rest : Table OutPoint Coin}
    (h : unspent tx t = some rest) (ht : t.All P) : rest.All P :=
  fun o c hc => ht o c (getElem?_of_unspent h hc)

theorem value_unspent {tx : Transaction} {t rest : Table OutPoint Coin}
    (h : unspent tx t = some rest) : rest.value = t.value - (payment t tx).valueIn := by
  unfold unspent at h
  unfold payment
  split at h
  · next hcoinbase =>
    cases h
    simp [hcoinbase]
  · next hcoinbase =>
    simp only [hcoinbase, Bool.false_eq_true, if_false]
    exact value_spend h

theorem apply_eq_some {height : Nat} {time : Option UInt32} {tx : Transaction}
    {t t' : Table OutPoint Coin} (h : apply height time tx t = some t') :
    ∃ rest, unspent tx t = some rest
      ∧ t' = MemoryStore.addCoins rest (tx.createdCoins height time) := by
  unfold apply at h
  obtain ⟨rest, hrest, heq⟩ := Option.map_eq_some_iff.1 h
  exact ⟨rest, hrest, heq.symm⟩

/-- What holds of the coins of a table and of those that a transaction creates holds afterwards. -/
theorem apply_all {P : Coin → Prop} {height : Nat} {time : Option UInt32} {tx : Transaction}
    {t t' : Table OutPoint Coin} (h : apply height time tx t = some t') (ht : t.All P)
    (hnew : ∀ oc ∈ tx.createdCoins height time, P oc.2) : t'.All P := by
  obtain ⟨rest, hrest, rfl⟩ := apply_eq_some h
  exact MemoryStore.all_addCoins (unspent_all hrest ht) hnew

/-- What a table has and another had not can be spent. -/
def AddsSpendable (before after : Table OutPoint Coin) : Prop :=
  ∀ (o : OutPoint) (c : Coin), after[o]? = some c → before[o]? = some c ∨ c.isPrunable = false

theorem AddsSpendable.refl (t : Table OutPoint Coin) : AddsSpendable t t := fun _ _ hc => .inl hc

theorem AddsSpendable.of_all {before after : Table OutPoint Coin}
    (h : after.All fun c => c.isPrunable = false) : AddsSpendable before after :=
  fun o c hc => .inr (h o c hc)

theorem AddsSpendable.apply {before t t' : Table OutPoint Coin} (h : AddsSpendable before t)
    {height : Nat} {time : Option UInt32} {tx : Transaction}
    (happly : Ledger.apply height time tx t = some t') : AddsSpendable before t' := by
  obtain ⟨rest, hrest, rfl⟩ := apply_eq_some happly
  intro o c hc
  rcases MemoryStore.mem_or_getElem?_of_addCoins hc with hcreated | hold
  · exact .inr (Transaction.mem_createdCoins hcreated).2.2
  · exact h o c (getElem?_of_unspent hrest hold)

theorem createdCoins_nonneg (height : Nat) (time : Option UInt32) {tx : Transaction}
    (hout : ∀ out ∈ tx.outputs, 0 ≤ out.amount) :
    ∀ oc ∈ tx.createdCoins height time, 0 ≤ oc.2.amount :=
  fun _ hoc => hout _ (Transaction.mem_createdCoins hoc).2.1

/-- A transaction adds at most what it pays beyond what it spends. -/
theorem value_apply_le {height : Nat} {time : Option UInt32} {tx : Transaction}
    {t t' : Table OutPoint Coin} (h : apply height time tx t = some t') (ht : t.Nonnegative)
    (hout : ∀ out ∈ tx.outputs, 0 ≤ out.amount) : t'.value ≤ t.value + (payment t tx).gain := by
  obtain ⟨rest, hrest, rfl⟩ := apply_eq_some h
  have hvalue := value_unspent hrest
  have hcreated := tx.totalAmount_createdCoins_le height time hout
  have hle := Table.value_addCoins_le (unspent_all hrest ht)
    (createdCoins_nonneg height time hout)
  change _ ≤ t.value + (tx.totalOut - (payment t tx).valueIn)
  omega

/-- Inputs that are spent after a coinbase take out at least what they were worth before it, less
what the coinbase pays. A coinbase can displace the coins that they refer to. -/
theorem value_sub_inputValue_le {height : Nat} {time : Option UInt32} {coinbase : Transaction}
    (hcoinbase : coinbase.isCoinbase = true) {t t' : Table OutPoint Coin}
    (h : apply height time coinbase t = some t') (ht : t.Nonnegative)
    (hout : ∀ out ∈ coinbase.outputs, 0 ≤ out.amount) {ins : List TxIn}
    (hins : (ins.map TxIn.prevout).Nodup) :
    t'.value - inputValue t' ins ≤ t.value - inputValue t ins + coinbase.totalOut := by
  obtain ⟨rest, hrest, rfl⟩ := apply_eq_some h
  rw [unspent, if_pos hcoinbase, Option.some.injEq] at hrest
  subst hrest
  have hcreated := coinbase.totalAmount_createdCoins_le height time hout
  have hle := Table.value_removeCoins_addCoins_le ht (createdCoins_nonneg height time hout)
    (ins.map TxIn.prevout)
  rw [Table.value_removeCoins _ hins, Table.value_removeCoins _ hins, List.map_map,
    List.map_map] at hle
  change _ - inputValue _ ins ≤ _ - inputValue _ ins + _ at hle
  omega

theorem applyAll_cons_eq_some {height : Nat} {time : Option UInt32} {tx : Transaction}
    {rest : List Transaction} {t t' : Table OutPoint Coin}
    (h : applyAll height time (tx :: rest) t = some t') :
    ∃ t₁, apply height time tx t = some t₁ ∧ applyAll height time rest t₁ = some t' :=
  Option.bind_eq_some_iff.1 h

theorem applyAll_all {P : Coin → Prop} {height : Nat} {time : Option UInt32}
    {txs : List Transaction} {t t' : Table OutPoint Coin}
    (h : applyAll height time txs t = some t') (ht : t.All P)
    (hnew : ∀ tx ∈ txs, ∀ oc ∈ tx.createdCoins height time, P oc.2) : t'.All P := by
  induction txs generalizing t with
  | nil =>
    cases h
    exact ht
  | cons tx rest ih =>
    obtain ⟨t₁, happly, hrest⟩ := applyAll_cons_eq_some h
    have ht₁ := apply_all happly ht (hnew tx List.mem_cons_self)
    exact ih hrest ht₁ fun x hx => hnew x (List.mem_cons_of_mem _ hx)

/-- The transactions of a block add at most what they pay beyond what they spend. -/
theorem value_applyAll_le {height : Nat} {time : Option UInt32} {txs : List Transaction}
    {t t' : Table OutPoint Coin} (h : applyAll height time txs t = some t') (ht : t.Nonnegative)
    (hout : ∀ tx ∈ txs, ∀ out ∈ tx.outputs, 0 ≤ out.amount) :
    t'.value ≤ t.value + totalAmount ((payments height time txs t).map Payment.gain) := by
  induction txs generalizing t with
  | nil =>
    cases h
    simp [payments]
  | cons tx rest ih =>
    obtain ⟨t₁, happly, hrest⟩ := applyAll_cons_eq_some h
    have hfirst := hout tx List.mem_cons_self
    have ht₁ : t₁.Nonnegative := apply_all happly ht (createdCoins_nonneg height time hfirst)
    have hhead := value_apply_le happly ht hfirst
    have htail := ih hrest ht₁ fun x hx => hout x (List.mem_cons_of_mem _ hx)
    rw [payments_cons happly, List.map_cons, totalAmount_cons]
    omega

/-! ## Blocks -/

/-- Networks with proof of stake remember the time of each coin. -/
def coinTime (net : Network) (b : Block) : Option UInt32 :=
  if net.rules.coins.contains .connectStake then some b.header.time else none

/-- The coins that blocks leave; nothing where a block spends a coin that is not there. -/
def coins (net : Network) : List (Chain × Block) → Option (Table OutPoint Coin)
  | [] => some ∅
  | (_, b) :: older => do
    applyAll (older.length + 1) (coinTime net b) b.transactions (← coins net older)

/-- The tip above blocks: the genesis where there are none. -/
def tip (net : Network) : List (Chain × Block) → Tip
  | [] => ⟨net.genesisDigest, 0⟩
  | (c, _) :: older => ⟨c.digest, older.length + 1⟩

/-- The payments of all blocks. -/
def history (net : Network) : List (Chain × Block) → List Payment
  | [] => []
  | (_, b) :: older =>
    (coins net older).elim [] (payments (older.length + 1) (coinTime net b) b.transactions)
      ++ history net older

theorem tip_height (net : Network) (blocks : List (Chain × Block)) :
    (tip net blocks).height = blocks.length := by
  cases blocks with
  | nil => rfl
  | cons cb older => rfl

theorem coins_cons_eq_some {net : Network} {c : Chain} {b : Block} {older : List (Chain × Block)}
    {t : Table OutPoint Coin} (h : coins net ((c, b) :: older) = some t) :
    ∃ before, coins net older = some before
      ∧ applyAll (older.length + 1) (coinTime net b) b.transactions before = some t :=
  Option.bind_eq_some_iff.1 h

/-- No coin of the ledger is one that cannot be spent. -/
theorem coins_spendable {net : Network} {blocks : List (Chain × Block)} {t : Table OutPoint Coin}
    (h : coins net blocks = some t) : t.All fun c => c.isPrunable = false := by
  induction blocks generalizing t with
  | nil =>
    cases h
    exact Table.all_empty _
  | cons cb older ih =>
    obtain ⟨before, hbefore, happly⟩ := coins_cons_eq_some h
    refine applyAll_all happly (ih hbefore) ?_
    intro tx _ oc hoc
    exact (Transaction.mem_createdCoins hoc).2.2

/-! ## Undoing -/

end Ledger

/-- The record that leads back from one table of coins to another: what is new is removed and what
is gone or replaced is put back, both in outpoint order. -/
def UndoRecord.between (previous : Tip) (before after : Table OutPoint Coin) : UndoRecord :=
  { previousTip := some previous
    remove := (after.toList.filter fun oc => before[oc.1]? != some oc.2).map Prod.fst
    restore := before.toList.filter fun oc => after[oc.1]? != some oc.2 }

namespace UndoRecord

theorem mem_remove_between {previous : Tip} {before after : Table OutPoint Coin} {o : OutPoint} :
    o ∈ (between previous before after).remove
      ↔ ∃ c, after[o]? = some c ∧ before[o]? ≠ some c := by
  simp only [between, List.mem_map, List.mem_filter, Prod.exists, exists_and_right,
    exists_eq_right, Std.ExtTreeMap.mem_toList_iff_getElem?_eq_some, bne_iff_ne]

theorem mem_restore_between {previous : Tip} {before after : Table OutPoint Coin} {o : OutPoint}
    {c : Coin} :
    (o, c) ∈ (between previous before after).restore
      ↔ before[o]? = some c ∧ after[o]? ≠ some c := by
  simp only [between, List.mem_filter, Std.ExtTreeMap.mem_toList_iff_getElem?_eq_some, bne_iff_ne]

theorem nodup_restore_between (previous : Tip) (before after : Table OutPoint Coin) :
    ((between previous before after).restore.map Prod.fst).Nodup := by
  have hkeys : (before.toList.map Prod.fst).Nodup := by
    rw [Std.ExtTreeMap.map_fst_toList_eq_keys]
    exact before.nodup_keys
  exact hkeys.sublist (List.filter_sublist.map Prod.fst)

/-- The record between two tables takes the second back to the first. -/
theorem restores_between (previous : Tip) (before after : Table OutPoint Coin) :
    MemoryStore.addCoins
      (MemoryStore.removeCoins after (between previous before after).remove)
      (between previous before after).restore = before := by
  apply Std.ExtTreeMap.ext_getElem?
  intro o
  by_cases hkey : o ∈ (between previous before after).restore.map Prod.fst
  · obtain ⟨⟨o', c⟩, hmem, rfl⟩ := List.mem_map.1 hkey
    rw [MemoryStore.getElem?_addCoins_of_mem _ (nodup_restore_between _ _ _) hmem]
    exact (mem_restore_between.1 hmem).1.symm
  · -- Nothing is put back here, so what was there before is still there, or nothing was.
    have hsame : ∀ c, before[o]? = some c → after[o]? = some c := by
      intro c hc
      by_contra hne
      exact hkey (List.mem_map.2 ⟨(o, c), mem_restore_between.2 ⟨hc, hne⟩, rfl⟩)
    rw [MemoryStore.getElem?_addCoins_of_notMem _ hkey, MemoryStore.getElem?_removeCoins]
    split
    · next hrem =>
      obtain ⟨c, hafter, hbefore⟩ := mem_remove_between.1 hrem
      cases hb : before[o]? with
      | none => rfl
      | some d =>
        have hd := hsame d hb
        rw [hafter] at hd
        rw [hb, hd] at hbefore
        exact absurd rfl hbefore
    · next hrem =>
      cases ha : after[o]? with
      | none =>
        cases hb : before[o]? with
        | none => rfl
        | some d =>
          rw [hsame d hb] at ha
          cases ha
      | some c =>
        by_contra hne
        exact hrem (mem_remove_between.2 ⟨c, ha, fun hb => hne hb.symm⟩)

end UndoRecord

/-- With the record between two tables under its tip a database goes back from the second to the
first, and the record is gone. -/
theorem MemoryStore.rewind_of_between {db : MemoryStore} {tip previous : Tip}
    {before : Table OutPoint Coin} (htip : db.tip = some tip)
    (hundo : db.undoTable[tip.height]? = some (.between previous before db.coinTable)) :
    db.rewind = .ok (previous, { db with
      tip := some previous
      coinTable := before
      undoTable := db.undoTable.erase tip.height }) := by
  unfold rewind
  simp only [htip, hundo, UndoRecord.restores_between]
  rfl

namespace Ledger

/-- The undo records of blocks, by height: each leads from the coins after a block to those before
it. -/
def undo? (net : Network) : List (Chain × Block) → Nat → Option UndoRecord
  | [], _ => none
  | (c, b) :: older, height =>
    if height = older.length + 1 then do
      let before ← coins net older
      let after ← coins net ((c, b) :: older)
      some (UndoRecord.between (tip net older) before after)
    else undo? net older height

theorem undo?_eq_none_of_lt {net : Network} {blocks : List (Chain × Block)} {height : Nat}
    (h : blocks.length < height) : undo? net blocks height = none := by
  induction blocks with
  | nil => rfl
  | cons cb older ih =>
    simp only [List.length_cons] at h
    rw [undo?, if_neg (by omega), ih (by omega)]

/-- A coin database holds the ledger of blocks: the tip above them, the coins that they leave and
their undo records, and nothing else under any height. -/
structure Holds (net : Network) (blocks : List (Chain × Block)) (db : MemoryStore) : Prop where
  tip : db.tip = some (tip net blocks)
  coins : coins net blocks = some db.coinTable
  undo : ∀ height : Nat, db.undoTable[height]? = undo? net blocks height

end Ledger

end Chainstate
