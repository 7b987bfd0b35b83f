-- SUMMARY: Transaction ids: none occurs twice on a chain whose coinbases start with their heights.
import Chainstate.Proofs.CoinbaseHeight
import Chainstate.Proofs.History
import Chainstate.Proofs.Issuance

/-!
# Unique transaction ids

Coinbases differ by their heights. Any other transaction spends, and what it has spent is gone for
good: the coins of a transaction could only come back with the same transaction. So no transaction
stands on a chain twice (`Ledger.Traced.apply` is the step, `Ledger.traced_of_valid` the run), and
where ids tell transactions apart no id does. Hence every outpoint that a block creates is new
(`Ledger.createsFresh_of_nodup`) without the check of BIP30.
-/

namespace Chainstate

/-! ## Outpoints -/

namespace Transaction

theorem txid_of_mem_outPoints {tx : Transaction} {o : OutPoint} (h : o ∈ tx.outPoints) :
    o.txid = tx.txid := by
  obtain ⟨n, -, rfl⟩ := List.mem_map.1 h
  rfl

/-- A transaction names its outputs differently, unless it has more of them than indices. -/
theorem nodup_outPoints {tx : Transaction} (h : tx.outputs.length ≤ UInt32.size) :
    tx.outPoints.Nodup := by
  refine List.nodup_range.map_on ?_
  intro a ha b hb heq
  rw [List.mem_range] at ha hb
  have hindex := congrArg (fun o : OutPoint => o.index.toNat) heq
  simp only [UInt32.toNat_ofNat_of_lt' (Nat.lt_of_lt_of_le ha h),
    UInt32.toNat_ofNat_of_lt' (Nat.lt_of_lt_of_le hb h)] at hindex
  exact hindex

/-- Every output takes some bytes of its transaction. -/
theorem length_outputs_le_size (tx : Transaction) : tx.outputs.length ≤ tx.size := by
  have hout : tx.outputs.length ≤ (tx.outputs.flatMap TxOut.encode).length := by
    induction tx.outputs with
    | nil => exact Nat.le_refl 0
    | cons out outs ih =>
      have hpos : 0 < (TxOut.encode out).length := by
        simp only [TxOut.encode, Encode.i64, List.length_append, Bytes.length_littleEndian]
        omega
      rw [List.flatMap_cons, List.length_append, List.length_cons]
      omega
  simp only [size, encode, encodeList, List.length_append]
  omega

end Transaction

namespace Ledger

variable {height : Nat} {time : Option UInt32} {tx : Transaction} {txs xs : List Transaction}
  {t t' : Table OutPoint Coin} {o : OutPoint}

/-! ## Where coins come from -/

theorem getElem?_eq_none_of_unspent (h : unspent tx t = some t') (ho : t[o]? = none) :
    t'[o]? = none := by
  rw [Option.eq_none_iff_forall_ne_some]
  intro c hc
  rw [getElem?_of_unspent h hc] at ho
  cases ho

/-- A transaction adds coins under its own id only. -/
theorem getElem?_addCoins_createdCoins (hne : o.txid ≠ tx.txid) :
    (MemoryStore.addCoins t (tx.createdCoins height time))[o]? = t[o]? := by
  apply MemoryStore.getElem?_addCoins_of_notMem
  intro hmem
  obtain ⟨oc, hoc, rfl⟩ := List.mem_map.1 hmem
  exact hne (Transaction.txid_of_mem_outPoints (Transaction.mem_createdCoins hoc).1)

theorem getElem?_eq_none_of_apply (h : apply height time tx t = some t') (hne : o.txid ≠ tx.txid)
    (ho : t[o]? = none) : t'[o]? = none := by
  obtain ⟨rest, hrest, rfl⟩ := apply_eq_some h
  rw [getElem?_addCoins_createdCoins hne]
  exact getElem?_eq_none_of_unspent hrest ho

theorem getElem?_eq_none_of_applyAll (h : applyAll height time txs t = some t')
    (hne : o.txid ∉ txs.map Transaction.txid) (ho : t[o]? = none) : t'[o]? = none := by
  induction txs generalizing t with
  | nil =>
    cases h
    exact ho
  | cons tx txs ih =>
    rw [List.map_cons, List.mem_cons, not_or] at hne
    obtain ⟨t₁, happly, hrest⟩ := applyAll_cons_eq_some h
    exact ih hrest hne.2 (getElem?_eq_none_of_apply happly hne.1 ho)

/-- What a transaction spends is there before it, and gone after it unless it has the id of the
transaction itself. -/
theorem getElem?_prevout_of_apply (h : apply height time tx t = some t')
    (hplain : tx.isCoinbase = false) {i : TxIn} (hi : i ∈ tx.inputs) :
    t[i.prevout]? ≠ none ∧ (i.prevout.txid ≠ tx.txid → t'[i.prevout]? = none) := by
  obtain ⟨rest, hrest, rfl⟩ := apply_eq_some h
  rw [unspent, if_neg (by simp [hplain])] at hrest
  obtain ⟨-, hthere, rfl⟩ := spend_eq_some hrest
  refine ⟨?_, ?_⟩
  · exact Option.isSome_iff_ne_none.1 (Std.ExtTreeMap.mem_iff_isSome_getElem?.1 (hthere i hi))
  · intro hne
    rw [getElem?_addCoins_createdCoins hne, MemoryStore.getElem?_removeCoins,
      if_pos (List.mem_map_of_mem hi)]

theorem applyAll_append (height : Nat) (time : Option UInt32) (txs xs : List Transaction)
    (t : Table OutPoint Coin) :
    applyAll height time (txs ++ xs) t
      = (applyAll height time txs t).bind (applyAll height time xs) := by
  induction txs generalizing t with
  | nil => rfl
  | cons tx txs ih =>
    rw [List.cons_append, applyAll, applyAll]
    cases happly : apply height time tx t with
    | none => rfl
    | some t₁ => exact ih t₁

end Ledger

/-! ## The check of BIP30 -/

namespace Spending

variable {p : Params} {height : Nat} {time : Option UInt32} {w : WorkingSet}
  {before after : Table OutPoint Coin} {txs : List Transaction}

theorem overwrites_eq_false (h : w.Tracks before after) {tx : Transaction}
    (hnone : ∀ o ∈ tx.outPoints, after[o]? = none) : overwrites w tx = false := by
  rw [overwrites, List.any_eq_false]
  intro o ho hthere
  obtain ⟨coin, hcoin⟩ := Option.isSome_iff_exists.1 hthere
  have hfound := h.getElem?_of_coin? hcoin
  rw [hnone o ho] at hfound
  cases hfound

theorem foldlM_connectTransaction_bip30 (h : w.Tracks before after)
    (hcover : ∀ tx ∈ txs, w.Covers tx.outPoints)
    (hfresh : ∀ earlier tx later, txs = earlier ++ tx :: later → ∀ t,
      Ledger.applyAll height time earlier after = some t → ∀ o ∈ tx.outPoints, t[o]? = none)
    (tally : Tally) :
    txs.foldlM (connectTransaction p height true time) tally w
      = txs.foldlM (connectTransaction p height false time) tally w := by
  induction txs generalizing w after tally with
  | nil => rfl
  | cons tx txs ih =>
    have hcheck : checkTransaction p height true w tally tx
        = checkTransaction p height false w tally tx := by
      rw [checkTransaction, checkTransaction,
        overwrites_eq_false h (hfresh [] tx txs rfl after rfl), Bool.and_false, Bool.and_false]
    have hfirst : connectTransaction p height true time tally tx w
        = connectTransaction p height false time tally tx w := by
      rw [connectTransaction, connectTransaction, step_get_bind, step_get_bind, hcheck]
    rw [List.foldlM_cons, List.foldlM_cons]
    refine step_bind_congr hfirst fun tally₁ w₁ hrun => ?_
    obtain ⟨hcover₀, hcover⟩ := List.forall_mem_cons.1 hcover
    obtain ⟨after₁, happly, h₁, hext, -⟩ := connectTransaction_ok h hcover₀ hrun
    refine ih h₁ (fun tx htx => hext.covers (hcover tx htx)) ?_ tally₁
    intro earlier tx' later heq t ht
    refine hfresh (tx :: earlier) tx' later (by rw [heq, List.cons_append]) t ?_
    rw [Ledger.applyAll, happly]
    exact ht

/-- Where each transaction creates only new outpoints, the check of BIP30 makes no difference. -/
theorem connect_bip30 (h : w.Tracks before after) (hcover : ∀ tx ∈ txs, w.Covers tx.outPoints)
    (hfresh : ∀ earlier tx later, txs = earlier ++ tx :: later → ∀ t,
      Ledger.applyAll height time earlier after = some t → ∀ o ∈ tx.outPoints, t[o]? = none) :
    connect p height true time txs w = connect p height false time txs w :=
  step_bind_congr (foldlM_connectTransaction_bip30 h hcover hfresh _) fun _ _ _ => rfl

end Spending

namespace Ledger

variable {height : Nat} {time : Option UInt32} {tx : Transaction} {txs xs : List Transaction}
  {t t' : Table OutPoint Coin} {o : OutPoint}

/-! ## Ledgers -/

/-- The transactions of blocks, oldest first. -/
def transactions : List (Chain × Block) → List Transaction
  | [] => []
  | (_, b) :: older => transactions older ++ b.transactions

theorem transactions_append (newer older : List (Chain × Block)) :
    transactions (newer ++ older) = transactions older ++ transactions newer := by
  induction newer with
  | nil => rw [List.nil_append, transactions, List.append_nil]
  | cons cb newer ih => rw [List.cons_append, transactions, transactions, ih, List.append_assoc]

variable {net : Network} {newer older blocks : List (Chain × Block)}

/-- Every coin of a ledger stands under the id of one of its transactions. -/
theorem getElem?_coins_eq_none (h : coins net blocks = some t)
    (ho : o.txid ∉ (transactions blocks).map Transaction.txid) : t[o]? = none := by
  induction blocks generalizing t with
  | nil =>
    cases h
    simp
  | cons cb older ih =>
    obtain ⟨c, b⟩ := cb
    obtain ⟨before, hbefore, happly⟩ := coins_cons_eq_some h
    rw [transactions, List.map_append, List.mem_append, not_or] at ho
    exact getElem?_eq_none_of_applyAll happly ho.2 (ih hbefore ho.1)

theorem valid_of_append (h : Valid net (newer ++ older)) : Valid net older := by
  induction newer with
  | nil => exact h
  | cons cb newer ih => exact ih h.2

theorem coins_of_append (h : coins net (newer ++ older) = some t) :
    ∃ before, coins net older = some before := by
  induction newer generalizing t with
  | nil => exact ⟨t, h⟩
  | cons cb newer ih =>
    obtain ⟨before, hbefore, -⟩ := coins_cons_eq_some h
    exact ih hbefore

/-! ## Tracing coins -/

/-- No two different transactions have the same id. -/
def Distinguished (txs : List Transaction) : Prop :=
  ∀ tx ∈ txs, ∀ tx' ∈ txs, tx.txid = tx'.txid → tx = tx'

instance (txs : List Transaction) : Decidable (Distinguished txs) :=
  inferInstanceAs (Decidable (∀ tx ∈ txs, ∀ tx' ∈ txs, tx.txid = tx'.txid → tx = tx'))

theorem Distinguished.mono (h : Distinguished xs) (hsub : ∀ tx ∈ txs, tx ∈ xs) :
    Distinguished txs :=
  fun tx htx tx' htx' => h tx (hsub tx htx) tx' (hsub tx' htx')

/-- What a table of coins owes to the transactions that have led to it, none of which has the id of
another: each of its coins was created by one of them, and so was each coin that they have spent,
which is not there any more. -/
structure Traced (txs : List Transaction) (t : Table OutPoint Coin) : Prop where
  nodup : (txs.map Transaction.txid).Nodup
  origin : ∀ o : OutPoint, o.txid ∉ txs.map Transaction.txid → t[o]? = none
  spent : ∀ tx ∈ txs, tx.isCoinbase = false → ∀ i ∈ tx.inputs,
    i.prevout.txid ∈ txs.map Transaction.txid ∧ t[i.prevout]? = none

/-- A transaction that can be applied has not been applied before, unless it is a coinbase. -/
theorem Traced.txid_notMem (h : Traced txs t) (happly : apply height time tx t = some t')
    (hdist : Distinguished (txs ++ [tx])) (hinputs : tx.inputs ≠ [])
    (hcoinbase : tx.isCoinbase = true → tx ∉ txs) : tx.txid ∉ txs.map Transaction.txid := by
  intro hmem
  obtain ⟨tx', htx', heq⟩ := List.mem_map.1 hmem
  have hsame : tx' = tx :=
    hdist tx' (List.mem_append_left _ htx') tx (List.mem_append_right _ List.mem_cons_self) heq
  subst hsame
  cases hkind : tx'.isCoinbase with
  | true => exact hcoinbase hkind htx'
  | false =>
    -- Its first coin is gone since it was applied the first time.
    obtain ⟨i, hi⟩ := List.exists_mem_of_ne_nil _ hinputs
    exact (getElem?_prevout_of_apply happly hkind hi).1 (h.spent tx' htx' hkind i hi).2

theorem Traced.apply (h : Traced txs t) (happly : apply height time tx t = some t')
    (hnew : tx.txid ∉ txs.map Transaction.txid) : Traced (txs ++ [tx]) t' := by
  have hids : (txs ++ [tx]).map Transaction.txid = txs.map Transaction.txid ++ [tx.txid] := by
    rw [List.map_append, List.map_singleton]
  have hother {o : OutPoint} (ho : o.txid ∈ txs.map Transaction.txid) : o.txid ≠ tx.txid :=
    fun heq => hnew (heq ▸ ho)
  refine ⟨?_, ?_, ?_⟩
  · rw [hids]
    exact List.nodup_append.2 ⟨h.nodup, List.nodup_singleton _, by
      rintro id hid _ hlast rfl
      exact hnew (List.mem_singleton.1 hlast ▸ hid)⟩
  · intro o ho
    rw [hids, List.mem_append, not_or, List.mem_singleton] at ho
    exact getElem?_eq_none_of_apply happly ho.2 (h.origin o ho.1)
  · intro tx' htx' hplain i hi
    rw [hids]
    rcases List.mem_append.1 htx' with hold | hlast
    · obtain ⟨hid, hgone⟩ := h.spent tx' hold hplain i hi
      exact ⟨List.mem_append_left _ hid, getElem?_eq_none_of_apply happly (hother hid) hgone⟩
    · obtain rfl := List.mem_singleton.1 hlast
      obtain ⟨hthere, hgone⟩ := getElem?_prevout_of_apply happly hplain hi
      have hid : i.prevout.txid ∈ txs.map Transaction.txid := by
        by_contra hnone
        exact hthere (h.origin _ hnone)
      exact ⟨List.mem_append_left _ hid, hgone (hother hid)⟩

/-- Transactions that are not coinbases can only be applied to coins that they have not been applied
to. -/
theorem Traced.applyAll (h : Traced txs t) (happly : applyAll height time xs t = some t')
    (hdist : Distinguished (txs ++ xs)) (hinputs : ∀ tx ∈ xs, tx.inputs ≠ [])
    (hplain : ∀ tx ∈ xs, tx.isCoinbase = false) : Traced (txs ++ xs) t' := by
  induction xs generalizing txs t with
  | nil =>
    cases happly
    rw [List.append_nil]
    exact h
  | cons tx xs ih =>
    obtain ⟨t₁, hfirst, hrest⟩ := applyAll_cons_eq_some happly
    obtain ⟨hins, hinputs⟩ := List.forall_mem_cons.1 hinputs
    obtain ⟨hkind, hplain⟩ := List.forall_mem_cons.1 hplain
    rw [List.append_cons] at hdist ⊢
    have hnew := h.txid_notMem hfirst (hdist.mono fun _ => List.mem_append_left _) hins
      fun hcoinbase => absurd hcoinbase (by simp [hkind])
    exact ih (h.apply hfirst hnew) hrest hdist hinputs hplain

/-! ## Chains -/

/-- Where BIP34 is in force an admitted block starts with its only coinbase, marked with its
height. -/
theorem coinbase_of_admitted {c : Chain} {b : Block} {db db' : MemoryStore}
    (h : Engine.Admitted net c b db db') (hbip34 : net.params.bip34Height ≤ c.height) :
    ∃ coinbase rest, b.transactions = coinbase :: rest ∧ coinbase.MarkedWith c.height
      ∧ ∀ tx ∈ rest, tx.isCoinbase = false := by
  obtain ⟨coinbase, rest, htxs, hcoinbase, hplain⟩ :=
    Block.checkCoinbasePosition_ok h.contents.coinbase
  have hcheck := Block.checked_of_checkTransactions h.contents.transactions coinbase
    (htxs ▸ List.mem_cons_self)
  exact ⟨coinbase, rest, htxs, Block.markedWith_of_checkCoinbaseHeight (h.contents.height hbip34)
    htxs hcheck hcoinbase, hplain⟩

/-- Where BIP34 is in force from the first block on, every coinbase of a valid ledger is marked with
the height of a block. -/
theorem markedWith_of_valid (hbip34 : net.params.bip34Height ≤ 1) (hvalid : Valid net blocks)
    (h : coins net blocks = some t) :
    ∀ tx ∈ transactions blocks, tx.isCoinbase = true →
      ∃ height ≤ blocks.length, tx.MarkedWith height := by
  induction blocks generalizing t with
  | nil =>
    intro tx htx
    cases htx
  | cons cb older ih =>
    obtain ⟨c, b⟩ := cb
    obtain ⟨db, db', hadmitted, hheight, hbefore, -, hvalid', -⟩ := admitted_of_valid hvalid h
    obtain ⟨coinbase, rest, htxs, hmarked, hplain⟩ := coinbase_of_admitted hadmitted (by omega)
    intro tx htx hkind
    rcases List.mem_append.1 htx with hold | hnew
    · obtain ⟨height, hle, hmarked⟩ := ih hvalid' hbefore tx hold hkind
      exact ⟨height, Nat.le_succ_of_le hle, hmarked⟩
    · rw [htxs] at hnew
      rcases List.mem_cons.1 hnew with rfl | hrest
      · exact ⟨c.height, Nat.le_of_eq hheight, hmarked⟩
      · exact absurd hkind (by simp [hplain tx hrest])

/-- The coins of a valid ledger are traced back to its transactions, where BIP34 is in force from
the first block on and ids tell the transactions apart. -/
theorem traced_of_valid (hbip34 : net.params.bip34Height ≤ 1) (hvalid : Valid net blocks)
    (h : coins net blocks = some t) (hdist : Distinguished (transactions blocks)) :
    Traced (transactions blocks) t := by
  induction blocks generalizing t with
  | nil =>
    cases h
    exact ⟨List.nodup_nil, fun o _ => by simp, fun _ htx => nomatch htx⟩
  | cons cb older ih =>
    obtain ⟨c, b⟩ := cb
    obtain ⟨db, db', hadmitted, hheight, hbefore, -, hvalid', -⟩ := admitted_of_valid hvalid h
    obtain ⟨coinbase, rest, htxs, hmarked, hplain⟩ := coinbase_of_admitted hadmitted (by omega)
    have hchecks := Block.checked_of_checkTransactions hadmitted.contents.transactions
    obtain ⟨before, hbefore', happly⟩ := coins_cons_eq_some h
    rw [transactions] at hdist ⊢
    have htraced := ih hvalid' hbefore' (hdist.mono fun _ => List.mem_append_left _)
    rw [htxs] at hchecks happly hdist ⊢
    obtain ⟨t₁, hfirst, hrest⟩ := applyAll_cons_eq_some happly
    obtain ⟨hcheck, hchecks⟩ := List.forall_mem_cons.1 hchecks
    rw [List.append_cons] at hdist ⊢
    -- An older coinbase is marked with a lower height.
    have hcoinbase : coinbase.isCoinbase = true → coinbase ∉ transactions older := by
      intro hkind hmem
      obtain ⟨height, hle, hold⟩ := markedWith_of_valid hbip34 hvalid' hbefore coinbase hmem hkind
      have hsame := hold.unique hmarked
      omega
    have hnew := htraced.txid_notMem hfirst (hdist.mono fun _ => List.mem_append_left _)
      hcheck.inputs hcoinbase
    exact (htraced.apply hfirst hnew).applyAll hrest hdist
      (fun tx htx => (hchecks tx htx).inputs) hplain

/-! ## New outpoints -/

/-- What transactions create on top of the coins `before` is new: under no outpoint of a transaction
is there a coin, neither before all of them nor when its turn comes, and none was created by an
earlier one. -/
def Fresh (height : Nat) (time : Option UInt32) (txs : List Transaction)
    (before : Table OutPoint Coin) : Prop :=
  ∀ earlier tx later, txs = earlier ++ tx :: later →
    ∃ t, applyAll height time earlier before = some t
      ∧ ∀ o ∈ tx.outPoints, before[o]? = none ∧ t[o]? = none
        ∧ ∀ tx' ∈ earlier, o ∉ tx'.outPoints

/-- Transactions create only new outpoints where no id occurs twice among them and below. -/
theorem fresh_of_nodup (hcoins : coins net older = some t)
    (happly : applyAll height time txs t = some t')
    (hnodup : ((transactions older ++ txs).map Transaction.txid).Nodup) :
    Fresh height time txs t := by
  intro earlier tx later htxs
  rw [htxs, applyAll_append] at happly
  obtain ⟨t₁, hearlier, -⟩ := Option.bind_eq_some_iff.1 happly
  rw [htxs, ← List.append_assoc, List.map_append] at hnodup
  obtain ⟨-, -, hdisjoint⟩ := List.nodup_append.1 hnodup
  have hnew : tx.txid ∉ (transactions older ++ earlier).map Transaction.txid :=
    fun hmem => hdisjoint _ hmem _ List.mem_cons_self rfl
  rw [List.map_append, List.mem_append, not_or] at hnew
  refine ⟨t₁, hearlier, ?_⟩
  intro o ho
  rw [← Transaction.txid_of_mem_outPoints ho] at hnew
  have hnone := getElem?_coins_eq_none hcoins hnew.1
  refine ⟨hnone, getElem?_eq_none_of_applyAll hearlier hnew.2 hnone, ?_⟩
  intro tx' htx' ho'
  exact hnew.2 (List.mem_map.2 ⟨tx', htx', (Transaction.txid_of_mem_outPoints ho').symm⟩)

/-- A block creates nothing but new outpoints, each of them once. BIP30, which would check that, is
off, and makes no difference to how the block is connected. -/
structure CreatesFresh (net : Network) (c : Chain) (b : Block) (before : Table OutPoint Coin) :
    Prop where
  fresh : Fresh c.height (coinTime net b) b.transactions before
  distinct : net.params.maxTransactionSize < UInt32.size → ∀ tx ∈ b.transactions, tx.outPoints.Nodup
  unchecked : ∀ cache : DeploymentCache, (cache.flags net.params c).1.enforceBip30 = false
  redundant : ∀ w : WorkingSet, w.Tracks before before → w.Covers (Attempt.touched b) →
    Spending.connect net.params c.height true (coinTime net b) b.transactions w
      = Spending.connect net.params c.height false (coinTime net b) b.transactions w

/-- A block creates only new outpoints where no id occurs twice up to it. -/
theorem createsFresh_of_nodup (hbip34 : net.params.bip34Height ≤ 1) {c : Chain} {b : Block}
    (hvalid : Valid net ((c, b) :: older)) (h : coins net ((c, b) :: older) = some t)
    (hnodup : ((transactions ((c, b) :: older)).map Transaction.txid).Nodup) :
    ∃ before, coins net older = some before ∧ CreatesFresh net c b before := by
  obtain ⟨db, db', hadmitted, hheight, -⟩ := admitted_of_valid hvalid h
  obtain ⟨before, hbefore, happly⟩ := coins_cons_eq_some h
  rw [← hheight] at happly
  have hfresh := fresh_of_nodup hbefore happly hnodup
  refine ⟨before, hbefore, hfresh, ?_, ?_, ?_⟩
  · intro hsize tx htx
    have hle := (Block.checked_of_checkTransactions hadmitted.contents.transactions tx htx).size
    have hcount := tx.length_outputs_le_size
    exact Transaction.nodup_outPoints (by omega)
  · intro cache
    simp only [DeploymentCache.enforceBip30_flags, Bool.not_eq_false', decide_eq_true_eq]
    omega
  · intro w htracks hcovers
    refine Spending.connect_bip30 htracks (Attempt.covers_outPoints hcovers) ?_
    intro earlier tx later htxs t ht o ho
    obtain ⟨t₁, hearlier, hnew⟩ := hfresh earlier tx later htxs
    rw [hearlier, Option.some.injEq] at ht
    rw [← ht]
    exact (hnew o ho).2.1

end Ledger

/-! ## Reachable databases -/

namespace Session

variable {net : Network}

/-- Where BIP34 is in force from the first block on, whatever an engine goes through: if ids tell
the transactions of the chain apart, no id occurs twice on it, and every block of it has created
only new outpoints, with BIP30 off. -/
theorem txids_nodup_history (hnet : Engine.BuiltIn net) (hbip34 : net.params.bip34Height ≤ 1)
    (events : List Event) :
    ∃ blocks, Ledger.Holds net blocks (history net events).engine.store
      ∧ (∀ cb ∈ blocks, ∃ ev ∈ events, cb ∈ ev.blocks)
      ∧ (net.Coherent → blocks = (history net events).connected)
      ∧ (¬net.Coherent → (history net events).connected = [])
      ∧ (Ledger.Distinguished (Ledger.transactions blocks) →
        ((Ledger.transactions blocks).map Transaction.txid).Nodup
        ∧ ∀ newer c b older, blocks = newer ++ (c, b) :: older →
          ∃ before, Ledger.coins net older = some before
            ∧ Ledger.CreatesFresh net c b before) := by
  obtain ⟨blocks, hkeeps, hasked⟩ := inv_history hnet
    (P := fun cb => ∃ ev ∈ events, cb ∈ ev.blocks) fun ev hev cb hcb => ⟨ev, hev, hcb⟩
  refine ⟨blocks, hkeeps.holds, hasked, fun hcoherent => (hkeeps.connected hcoherent).symm,
    hkeeps.stuck, ?_⟩
  intro hdist
  have hnodup := (Ledger.traced_of_valid hbip34 hkeeps.valid hkeeps.holds.coins hdist).nodup
  refine ⟨hnodup, ?_⟩
  intro newer c b older heq
  subst heq
  obtain ⟨t, ht⟩ := Ledger.coins_of_append hkeeps.holds.coins
  rw [Ledger.transactions_append, List.map_append] at hnodup
  exact Ledger.createsFresh_of_nodup hbip34 (Ledger.valid_of_append hkeeps.valid) ht
    (List.nodup_append.1 hnodup).1

end Session

/-! ## A block that is connected twice -/

namespace StakeRegtest

/-- A block that stakes is connected, taken back and connected again by a new engine. -/
def events : List Event :=
  [.request (.validate 2000000000 chain source), .request (onTop staking), .request .rewind,
    .request .flush, .restart, .request (.loadStakes chain), .request (onTop staking)]

set_option maxRecDepth 10000

/-- The two blocks stand on the chain once, and ids tell their four transactions apart. -/
theorem connected_events :
    (Session.history quick events).connected.map Prod.snd = [staking, source]
      ∧ Ledger.Distinguished (Ledger.transactions (Session.history quick events).connected)
      ∧ [quick.genesisDigest, source.digest, staking.digest].Nodup := by
  decide +kernel

theorem txids_nodup_history_events : Engine.BuiltIn quick ∧ quick.params.bip34Height ≤ 1
    ∧ Ledger.Distinguished (Ledger.transactions (Session.history quick events).connected)
    ∧ ∃ blocks,
      Ledger.Holds quick blocks (Session.history quick events).engine.store
      ∧ (∀ cb ∈ blocks, ∃ ev ∈ events, cb ∈ ev.blocks)
      ∧ (quick.Coherent → blocks = (Session.history quick events).connected)
      ∧ (¬quick.Coherent → (Session.history quick events).connected = [])
      ∧ (Ledger.Distinguished (Ledger.transactions blocks) →
        ((Ledger.transactions blocks).map Transaction.txid).Nodup
        ∧ ∀ newer c b older, blocks = newer ++ (c, b) :: older →
          ∃ before, Ledger.coins quick older = some before
            ∧ Ledger.CreatesFresh quick c b before) :=
  ⟨.inr rfl, by decide, connected_events.2.1,
    Session.txids_nodup_history (.inr rfl) (by decide) events⟩

end StakeRegtest

end Chainstate
