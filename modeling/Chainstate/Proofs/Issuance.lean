-- SUMMARY: Issuance: what a reachable database is worth against the rewards of its blocks.
import Chainstate.Proofs.Reachable

/-!
# Issuance

The coins of a database are worth no more than the rewards that the schedule grants to its blocks.
On networks of proof of stake this holds of every reachable database (`Session.value_run_stake`).
On networks of proof of work transactions of a coinstake's shape escape: they owe no fee, so
nothing bounds what they pay, and the law holds up to their gains (`Session.value_run_work`).
-/

namespace Chainstate

/-! ## Reward checks -/

namespace Block

theorem first_ok {b : Block} {tx : Transaction} (h : b.first = .ok tx) :
    ∃ rest, b.transactions = tx :: rest := by
  unfold first at h
  split at h
  · next tx' rest htxs =>
    cases h
    exact ⟨rest, htxs⟩
  · cases h

theorem checkWorkReward_ok {b : Block} {p : Params} {height : Nat} {fees : Int}
    (h : b.checkWorkReward p height fees = .ok ()) :
    ∃ coinbase rest, b.transactions = coinbase :: rest
      ∧ coinbase.totalOut ≤ fees + p.workRewardAt height := by
  unfold checkWorkReward at h
  obtain ⟨coinbase, hfirst, h⟩ := check_bind_ok.1 h
  obtain ⟨rest, htxs⟩ := first_ok hfirst
  refine ⟨coinbase, rest, htxs, ?_⟩
  split at h
  · cases h
  · next hbound => exact Int.le_trans (Int.not_lt.1 hbound) (wrappedSum_le _ _)

/-- No transaction has a coinstake's shape, save the one that stakes. -/
theorem checkCoinstakeShape_ok {b : Block} {p : Params} (h : b.checkCoinstakeShape p = .ok ()) :
    ∀ tx ∈ if b.isProofOfStake then b.transactions.drop 2 else b.transactions,
      tx.isCoinstake = false := by
  intro tx htx
  by_contra hcoinstake
  have hany : (if b.isProofOfStake then b.transactions.drop 2 else b.transactions).any
      Transaction.isCoinstake = true :=
    List.any_eq_true.2 ⟨tx, htx, by simpa using hcoinstake⟩
  unfold checkCoinstakeShape at h
  simp only [hany, if_true] at h
  cases h

end Block

namespace Staking

/-- Where a block stakes its coinbase pays nothing and the coinstake is bounded, and elsewhere the
coinbase is. -/
theorem checkReward_ok {p : Params} {b : Block} {height : Nat} {fees stakeIn : Int}
    (h : checkReward p b height fees stakeIn = .ok ()) :
    ∃ coinbase rest, b.transactions = coinbase :: rest
      ∧ (∀ tx, b.coinstake? = some tx →
        coinbase.totalOut = 0 ∧ tx.totalOut - stakeIn ≤ fees + p.stakeRewardAt height)
      ∧ (b.coinstake? = none → coinbase.totalOut ≤ fees + p.workRewardAt height) := by
  unfold checkReward at h
  obtain ⟨coinbase, hfirst, h⟩ := check_bind_ok.1 h
  obtain ⟨rest, htxs⟩ := Block.first_ok hfirst
  refine ⟨coinbase, rest, htxs, ?_⟩
  cases hstake : b.coinstake? with
  | some tx =>
    simp only [hstake, check_guard_ok] at h
    obtain ⟨hzero, hbound, -⟩ := h
    refine ⟨?_, fun h => nomatch h⟩
    rintro _ ⟨⟩
    exact ⟨by omega, Int.le_trans (Int.not_lt.1 hbound) (wrappedSum_le _ _)⟩
  | none =>
    simp only [hstake, check_guard_ok] at h
    obtain ⟨hbound, -⟩ := h
    exact ⟨(fun _ h => nomatch h),
      fun _ => Int.le_trans (Int.not_lt.1 hbound) (wrappedSum_le _ _)⟩

end Staking

/-! ## The value that a block adds -/

namespace Ledger

theorem gains_append (kind : Payment → Bool) (ps qs : List Payment) :
    gains kind (ps ++ qs) = gains kind ps + gains kind qs := by
  unfold gains
  rw [List.filter_append, List.map_append, totalAmount_append]

variable {height : Nat} {time : Option UInt32} {coinbase coinstake : Transaction}
  {rest : List Transaction} {t t' : Table OutPoint Coin}

/-- The only coinbase gains all that it pays. -/
theorem gains_coinbase (h : applyAll height time (coinbase :: rest) t = some t')
    (hcoinbase : coinbase.isCoinbase = true) (hrest : ∀ tx ∈ rest, tx.isCoinbase = false) :
    gains Payment.isCoinbase (payments height time (coinbase :: rest) t) = coinbase.totalOut := by
  obtain ⟨t₁, happly, -⟩ := applyAll_cons_eq_some h
  have hgain : (payment t coinbase).gain = coinbase.totalOut := by
    simp [payment, Payment.gain, hcoinbase]
  have hothers : gains Payment.isCoinbase (payments height time rest t₁) = 0 := by
    apply gains_eq_zero
    intro pay hpay
    exact hrest _ (transaction_mem_of_mem_payments hpay)
  rw [payments_cons happly, gains_cons, hothers, hgain]
  simp [payment, Payment.isCoinbase, hcoinbase]

/-- A block whose coinbase is bounded by its fees and a reward adds that reward, and what its
coinstakes gain. -/
theorem value_le_of_coinbase (h : applyAll height time (coinbase :: rest) t = some t')
    (ht : t.Nonnegative) (hout : ∀ tx ∈ coinbase :: rest, ∀ out ∈ tx.outputs, 0 ≤ out.amount)
    (hcoinbase : coinbase.isCoinbase = true) (hrest : ∀ tx ∈ rest, tx.isCoinbase = false)
    {reward : Int}
    (hreward : coinbase.totalOut ≤ fees (payments height time (coinbase :: rest) t) + reward) :
    t'.value ≤ t.value + reward
      + gains Payment.isCoinstake (payments height time (coinbase :: rest) t) := by
  have hvalue := value_applyAll_le h ht hout
  rw [totalAmount_gain, gains_coinbase h hcoinbase hrest] at hvalue
  omega

/-- A block with one coinstake, bounded by what it stakes, the fees and a reward, adds that reward.
The stake is taken where the block starts: its coinbase pays nothing and can only displace it. -/
theorem value_le_of_coinstake
    (h : applyAll height time (coinbase :: coinstake :: rest) t = some t') (ht : t.Nonnegative)
    (hout : ∀ tx ∈ coinbase :: coinstake :: rest, ∀ out ∈ tx.outputs, 0 ≤ out.amount)
    (hcoinbase : coinbase.isCoinbase = true) (hcoinstake : coinstake.isCoinstake = true)
    (hrest : ∀ tx ∈ rest, tx.isCoinbase = false ∧ tx.isCoinstake = false)
    (hzero : coinbase.totalOut = 0) {reward : Int}
    (hreward : coinstake.totalOut - inputValue t coinstake.inputs
      ≤ fees (payments height time (coinbase :: coinstake :: rest) t) + reward) :
    t'.value ≤ t.value + reward := by
  have hplain : coinstake.isCoinbase = false := by
    by_contra hboth
    have hnot := Transaction.isCoinstake_eq_false_of_isCoinbase (Bool.not_eq_false _ ▸ hboth)
    exact Bool.false_ne_true (hnot.symm.trans hcoinstake)
  obtain ⟨t₁, hfirst, htail⟩ := applyAll_cons_eq_some h
  obtain ⟨t₂, hsecond, hlast⟩ := applyAll_cons_eq_some htail
  obtain ⟨hout₀, hout'⟩ := List.forall_mem_cons.1 hout
  obtain ⟨hout₁, hout₂⟩ := List.forall_mem_cons.1 hout'
  have ht₁ : t₁.Nonnegative := apply_all hfirst ht (createdCoins_nonneg height time hout₀)
  have ht₂ : t₂.Nonnegative := apply_all hsecond ht₁ (createdCoins_nonneg height time hout₁)
  -- The coinstake, seen from the table before the coinbase.
  have hnodup : (coinstake.inputs.map TxIn.prevout).Nodup := by
    obtain ⟨left, hleft, -⟩ := apply_eq_some hsecond
    rw [unspent, if_neg (by simp [hplain])] at hleft
    exact (spend_eq_some hleft).1
  have hbefore := value_sub_inputValue_le hcoinbase hfirst ht hout₀ hnodup
  have hstaked := value_apply_le hsecond ht₁ hout₁
  have hgain : (payment t₁ coinstake).gain
      = coinstake.totalOut - inputValue t₁ coinstake.inputs := by
    simp [payment, Payment.gain, hplain]
  -- The transactions after it leave their fees.
  have hvalue := value_applyAll_le hlast ht₂ hout₂
  have hcoinbases : gains Payment.isCoinbase (payments height time rest t₂) = 0 :=
    gains_eq_zero fun pay hpay => (hrest _ (transaction_mem_of_mem_payments hpay)).1
  have hcoinstakes : gains Payment.isCoinstake (payments height time rest t₂) = 0 :=
    gains_eq_zero fun pay hpay => (hrest _ (transaction_mem_of_mem_payments hpay)).2
  rw [totalAmount_gain, hcoinbases, hcoinstakes] at hvalue
  have hfees : fees (payments height time (coinbase :: coinstake :: rest) t)
      = fees (payments height time rest t₂) := by
    rw [payments_cons hfirst, payments_cons hsecond, fees_cons, fees_cons]
    simp [Payment.fee, Payment.isCoinbase, Payment.isCoinstake, payment, hcoinbase, hcoinstake]
  omega

end Ledger

/-! ## Admitted blocks -/

/-- The reward that the schedule grants to a block of its kind. -/
def Block.rewardAt (b : Block) (p : Params) (height : Nat) : Int :=
  if b.isProofOfStake then p.stakeRewardAt height else p.workRewardAt height

namespace Engine

variable {net : Network} {c : Chain} {b : Block} {db db' : MemoryStore}

/-- On networks of proof of work a block adds its reward, and what its coinstakes gain. -/
theorem value_le_of_admitted_work (h : Admitted net c b db db') (hrules : net.rules = RuleSet.work)
    (hdb : db.coinTable.Nonnegative) :
    db'.coinTable.value ≤ db.coinTable.value + net.params.workRewardAt c.height
      + Ledger.gains Ledger.Payment.isCoinstake
        (Ledger.payments c.height none b.transactions db.coinTable) := by
  rcases h.coins with ⟨-, fees, hconnected, hreward⟩ | ⟨hstake, -⟩
  · obtain ⟨coinbase, rest, htxs, hcoinbase, hrest⟩ :=
      Block.checkCoinbasePosition_ok h.contents.coinbase
    obtain ⟨coinbase', rest', htxs', hbound⟩ := Block.checkWorkReward_ok hreward
    rw [htxs, List.cons.injEq] at htxs'
    obtain ⟨rfl, rfl⟩ := htxs'
    have hout := Block.checkTransactions_ok h.contents.transactions
    have happly := hconnected.coins
    rw [hconnected.fees] at hbound
    rw [htxs] at hout happly hbound ⊢
    exact Ledger.value_le_of_coinbase happly hdb hout hcoinbase hrest hbound
  · exact absurd (hrules.symm.trans hstake) work_ne_stake

/-- On networks of proof of stake a block adds no more than its reward. -/
theorem value_le_of_admitted_stake (h : Admitted net c b db db')
    (hrules : net.rules = RuleSet.stake) (hdb : db.coinTable.Nonnegative) :
    db'.coinTable.value ≤ db.coinTable.value + b.rewardAt net.params c.height := by
  rcases h.coins with ⟨hwork, -⟩ | ⟨-, fees, stakeIn, hconnected, hreward, hstaked⟩
  · exact absurd (hwork.symm.trans hrules) work_ne_stake
  · obtain ⟨coinbase, rest, htxs, hcoinbase, hrest⟩ :=
      Block.checkCoinbasePosition_ok h.contents.coinbase
    obtain ⟨coinbase', rest', htxs', hkind, hplain⟩ := Staking.checkReward_ok hreward
    rw [htxs, List.cons.injEq] at htxs'
    obtain ⟨rfl, rfl⟩ := htxs'
    have hshape := Block.checkCoinstakeShape_ok (h.contents.shape hrules)
    have hout := Block.checkTransactions_ok h.contents.transactions
    have happly := hconnected.coins
    have hfees := hconnected.fees
    cases hstake : b.coinstake? with
    | some coinstake =>
      have hpos := Block.isProofOfStake_of_coinstake? hstake
      obtain ⟨_, others, htxs', hcoinstake⟩ := Block.coinstake?_eq_some hstake
      rw [htxs, List.cons.injEq] at htxs'
      obtain ⟨rfl, rfl⟩ := htxs'
      obtain ⟨hzero, hbound⟩ := hkind coinstake hstake
      rw [hstaked coinstake hstake, hfees] at hbound
      rw [if_pos hpos, htxs] at hshape
      rw [htxs] at hout happly hbound
      have hothers : ∀ tx ∈ others, tx.isCoinbase = false ∧ tx.isCoinstake = false :=
        fun tx htx => ⟨hrest tx (List.mem_cons_of_mem _ htx), hshape tx htx⟩
      rw [Block.rewardAt, if_pos hpos]
      exact Ledger.value_le_of_coinstake happly hdb hout hcoinbase hcoinstake hothers hzero hbound
    | none =>
      have hpow : ¬b.isProofOfStake = true :=
        Bool.eq_false_iff.1 (Block.isProofOfStake_of_coinstake?_eq_none hstake)
      have hbound := hplain hstake
      rw [hfees] at hbound
      rw [if_neg hpow] at hshape
      have hcoinstakes : Ledger.gains Ledger.Payment.isCoinstake
          (Ledger.payments c.height (some b.header.time) b.transactions db.coinTable) = 0 :=
        Ledger.gains_eq_zero fun pay hpay => hshape _ (Ledger.transaction_mem_of_mem_payments hpay)
      rw [htxs] at hout happly hbound hcoinstakes
      have hvalue := Ledger.value_le_of_coinbase happly hdb hout hcoinbase hrest hbound
      rw [Block.rewardAt, if_neg hpow]
      omega

end Engine

/-! ## Ledgers of admitted blocks -/

/-- The rewards of proof-of-work blocks, from the first to a height. -/
def Params.workRewards (p : Params) : Nat → Int
  | 0 => 0
  | height + 1 => p.workRewards height + p.workRewardAt (height + 1)

/-- The rewards of blocks, each by its kind and height. -/
def Params.rewards (p : Params) : List (Chain × Block) → Int
  | [] => 0
  | (_, b) :: older => p.rewards older + b.rewardAt p (older.length + 1)

namespace Ledger

variable {net : Network} {blocks : List (Chain × Block)} {t : Table OutPoint Coin}

theorem coins_nonneg (hvalid : Valid net blocks) (h : coins net blocks = some t) :
    t.Nonnegative := by
  induction blocks generalizing t with
  | nil =>
    cases h
    exact Table.all_empty _
  | cons cb older ih =>
    obtain ⟨c, b⟩ := cb
    obtain ⟨⟨db, db', -, -, hadmitted⟩, hvalid⟩ := hvalid
    obtain ⟨before, hbefore, happly⟩ := coins_cons_eq_some h
    have hout := Block.checkTransactions_ok hadmitted.contents.transactions
    refine applyAll_all happly (ih hvalid hbefore) ?_
    intro tx htx
    exact createdCoins_nonneg _ _ (hout tx htx)

/-- The tables and heights at which a block of a valid ledger was admitted. -/
theorem admitted_of_valid {c : Chain} {b : Block} {older : List (Chain × Block)}
    (hvalid : Valid net ((c, b) :: older)) (h : coins net ((c, b) :: older) = some t) :
    ∃ db db', Engine.Admitted net c b db db' ∧ c.height = older.length + 1
      ∧ coins net older = some db.coinTable ∧ db'.coinTable = t ∧ Valid net older
      ∧ history net ((c, b) :: older)
        = payments c.height (coinTime net b) b.transactions db.coinTable ++ history net older := by
  obtain ⟨⟨db, db', hdb, hdb', hadmitted⟩, hvalid⟩ := hvalid
  obtain ⟨fees, hconnected⟩ := connected_of_admitted hadmitted.coins
  have hheight := hdb.height_eq hconnected
  have hcoins := hdb'.coins
  rw [h, Option.some.injEq] at hcoins
  refine ⟨db, db', hadmitted, hheight, hdb.coins, hcoins.symm, hvalid, ?_⟩
  rw [history, hdb.coins, hheight]
  rfl

/-- On networks of proof of work the coins are worth the rewards of all heights and what the
coinstakes have gained, or less. -/
theorem value_le_work (hrules : net.rules = RuleSet.work) (hvalid : Valid net blocks)
    (h : coins net blocks = some t) :
    t.value ≤ net.params.workRewards blocks.length
      + gains Payment.isCoinstake (history net blocks) := by
  induction blocks generalizing t with
  | nil =>
    cases h
    exact Int.le_refl 0
  | cons cb older ih =>
    obtain ⟨c, b⟩ := cb
    obtain ⟨db, db', hadmitted, hheight, hbefore, rfl, hvalid', hhistory⟩ :=
      admitted_of_valid hvalid h
    have hle := ih hvalid' hbefore
    have hblock := Engine.value_le_of_admitted_work hadmitted hrules (coins_nonneg hvalid' hbefore)
    rw [hhistory, gains_append, coinTime_of_work hrules, List.length_cons, Params.workRewards,
      ← hheight]
    omega

/-- On networks of proof of stake the coins are worth no more than the rewards of the blocks. -/
theorem value_le_stake (hrules : net.rules = RuleSet.stake) (hvalid : Valid net blocks)
    (h : coins net blocks = some t) : t.value ≤ net.params.rewards blocks := by
  induction blocks generalizing t with
  | nil =>
    cases h
    exact Int.le_refl 0
  | cons cb older ih =>
    obtain ⟨c, b⟩ := cb
    obtain ⟨db, db', hadmitted, hheight, hbefore, rfl, hvalid', -⟩ := admitted_of_valid hvalid h
    have hle := ih hvalid' hbefore
    have hblock :=
      Engine.value_le_of_admitted_stake hadmitted hrules (coins_nonneg hvalid' hbefore)
    rw [Params.rewards, ← hheight]
    omega

/-- What holds of every payment of an admitted block holds of every payment of the history. -/
theorem forall_mem_history {P : Payment → Prop} (hvalid : Valid net blocks)
    (h : coins net blocks = some t)
    (hblock : ∀ c b db db' fees, Engine.Admitted net c b db db' →
      Connected net.params c b (coinTime net b) fees db db' →
      ∀ pay ∈ payments c.height (coinTime net b) b.transactions db.coinTable, P pay) :
    ∀ pay ∈ history net blocks, P pay := by
  induction blocks generalizing t with
  | nil =>
    intro pay hpay
    cases hpay
  | cons cb older ih =>
    obtain ⟨c, b⟩ := cb
    obtain ⟨db, db', hadmitted, hheight, hbefore, -, hvalid', hhistory⟩ :=
      admitted_of_valid hvalid h
    obtain ⟨fees, hconnected⟩ := connected_of_admitted hadmitted.coins
    rw [hhistory]
    intro pay hpay
    rcases List.mem_append.1 hpay with hnew | hold
    · exact hblock c b db db' fees hadmitted hconnected pay hnew
    · exact ih hvalid' hbefore pay hold

/-- No payment pays more than it spends, save coinbases and coinstakes. -/
theorem totalOut_le_of_mem_history (hvalid : Valid net blocks) (h : coins net blocks = some t) :
    ∀ pay ∈ history net blocks, pay.isCoinbase = false → pay.isCoinstake = false →
      pay.transaction.totalOut ≤ pay.valueIn := by
  refine forall_mem_history (P := fun pay => pay.isCoinbase = false → pay.isCoinstake = false →
    pay.transaction.totalOut ≤ pay.valueIn) hvalid h ?_
  intro c b db db' fees _ hconnected pay hpay hcoinbase hcoinstake
  have hfee := hconnected.solvent pay hpay
  simp only [Payment.fee, Payment.gain, hcoinbase, hcoinstake, Bool.or_self, Bool.false_eq_true,
    if_false] at hfee
  omega

/-- The transactions of the history have passed their own checks. -/
theorem checked_of_mem_history (hvalid : Valid net blocks) (h : coins net blocks = some t) :
    ∀ pay ∈ history net blocks, pay.transaction.Checked net.params := by
  refine forall_mem_history (P := fun pay => pay.transaction.Checked net.params) hvalid h ?_
  intro c b db db' fees hadmitted _ pay hpay
  exact Block.checked_of_checkTransactions hadmitted.contents.transactions _
    (transaction_mem_of_mem_payments hpay)

theorem gains_nonpos {kind : Payment → Bool} {ps : List Payment}
    (h : ∀ pay ∈ ps, kind pay = true → pay.transaction.totalOut ≤ pay.valueIn) :
    gains kind ps ≤ 0 := by
  induction ps with
  | nil => exact Int.le_refl 0
  | cons pay ps ih =>
    have hle := ih fun x hx => h x (List.mem_cons_of_mem _ hx)
    rw [gains_cons]
    split
    · next hkind =>
      have hpay := h pay List.mem_cons_self hkind
      rw [Payment.gain]
      omega
    · omega

end Ledger

/-! ## Reachable databases -/

namespace Session

variable {net : Network}

/-- On networks of proof of work, after any requests, only coinbases and transactions of a
coinstake's shape pay more than they spend, and the coins are worth the rewards of all heights up
to the tip and what those coinstakes have gained, or less. They are within the rewards alone where
no coinstake has gained anything. The largest amount leaves room below the largest word: outputs are
added up in words, and no sum of the history has wrapped around. -/
theorem value_run_work (hrules : net.rules = RuleSet.work)
    (hroom : net.params.maxMoney < 0x7fffffffffffffff) (requests : List Request) :
    ∃ blocks, Ledger.Holds net blocks (run net requests).engine.store
      ∧ (net.params.isProofOfStake = false → blocks = (run net requests).connected)
      ∧ (∀ pay ∈ Ledger.history net blocks,
        (totalWord (pay.transaction.outputs.map TxOut.value)).toInt = pay.transaction.totalOut)
      ∧ (∀ pay ∈ Ledger.history net blocks, pay.isCoinbase = false → pay.isCoinstake = false →
        pay.transaction.totalOut ≤ pay.valueIn)
      ∧ (run net requests).engine.store.coinTable.value
        ≤ net.params.workRewards blocks.length
          + Ledger.gains Ledger.Payment.isCoinstake (Ledger.history net blocks)
      ∧ ((∀ pay ∈ Ledger.history net blocks, pay.isCoinstake = true →
          pay.transaction.totalOut ≤ pay.valueIn) →
        (run net requests).engine.store.coinTable.value
          ≤ net.params.workRewards blocks.length) := by
  obtain ⟨blocks, hkeeps⟩ := inv_run (.inl hrules) requests
  have hvalue := Ledger.value_le_work hrules hkeeps.valid hkeeps.holds.coins
  refine ⟨blocks, hkeeps.holds, ?_, ?_, ?_, hvalue, ?_⟩
  · intro hplain
    exact (hkeeps.connected (.inr ⟨hrules, hplain⟩)).symm
  · intro pay hpay
    exact (Ledger.checked_of_mem_history hkeeps.valid hkeeps.holds.coins pay
      hpay).toInt_totalOutWord hroom
  · exact Ledger.totalOut_le_of_mem_history hkeeps.valid hkeeps.holds.coins
  · intro hcoinstakes
    have hgains := Ledger.gains_nonpos hcoinstakes
    omega

/-- On networks of proof of stake, after any requests, the coins are worth no more than the rewards
of the connected blocks. -/
theorem value_run_stake (hrules : net.rules = RuleSet.stake) (requests : List Request) :
    (run net requests).engine.store.coinTable.value
      ≤ net.params.rewards (run net requests).connected := by
  obtain ⟨blocks, hkeeps⟩ := inv_run (.inr hrules) requests
  rw [hkeeps.connected (.inl hrules)]
  exact Ledger.value_le_stake hrules hkeeps.valid hkeeps.holds.coins

end Session

/-! ## Blocks that spend and stake -/

namespace Regtest

/-- A payment has left a fee to the coinbase of its block, and the coins are worth two rewards. -/
theorem value_run_work_spends : quick.rules = RuleSet.work
    ∧ quick.params.maxMoney < 0x7fffffffffffffff
    ∧ (Session.run quick spends).connected.map Prod.snd = [spending, block]
    ∧ ∃ blocks, Ledger.Holds quick blocks (Session.run quick spends).engine.store
      ∧ (quick.params.isProofOfStake = false → blocks = (Session.run quick spends).connected)
      ∧ (∀ pay ∈ Ledger.history quick blocks,
        (totalWord (pay.transaction.outputs.map TxOut.value)).toInt = pay.transaction.totalOut)
      ∧ (∀ pay ∈ Ledger.history quick blocks, pay.isCoinbase = false →
        pay.isCoinstake = false → pay.transaction.totalOut ≤ pay.valueIn)
      ∧ (Session.run quick spends).engine.store.coinTable.value
        ≤ quick.params.workRewards blocks.length
          + Ledger.gains Ledger.Payment.isCoinstake (Ledger.history quick blocks)
      ∧ ((∀ pay ∈ Ledger.history quick blocks, pay.isCoinstake = true →
          pay.transaction.totalOut ≤ pay.valueIn) →
        (Session.run quick spends).engine.store.coinTable.value
          ≤ quick.params.workRewards blocks.length) :=
  ⟨rfl, by decide, connected_spends, Session.value_run_work rfl (by decide) spends⟩

end Regtest

namespace StakeRegtest

/-- A proof-of-work block that takes its whole reward. -/
def block : Block :=
  Block.withMerkleRoot
    ⟨⟨4, Network.stakeRegtest.genesisDigest, Digest.zero, 1470467064, ⟨0x207fffff⟩, 9⟩,
      [{ Regtest.coinbase with outputs := [⟨400000000, ⟨[0x51]⟩⟩] }], []⟩

def requests : List Request :=
  [.validate 2000000000 (.extend block.header Network.stakeRegtest.genesisChain) block]

/-- The test network where the next block may spend and stake a coin. -/
def quick : Network :=
  { Network.stakeRegtest with
    params := { Params.stakeRegtest with coinbaseMaturity := 1, stakeMinConfirmations := 1 } }

def coinbase : Transaction :=
  { Regtest.coinbase with outputs := [⟨300000000, ⟨[0x51]⟩⟩, ⟨100000000, ⟨[0x51]⟩⟩] }

/-- A proof-of-work block with two coins. -/
def source : Block :=
  Block.withMerkleRoot
    ⟨⟨4, Network.stakeRegtest.genesisDigest, Digest.zero, 1470467064, ⟨0x207fffff⟩, 3⟩,
      [coinbase], []⟩

def chain : Chain := .extend source.header Network.stakeRegtest.genesisChain

/-- The key of the secret one. -/
def key : Bytes := 2 :: Bytes.bigEndian 32 Secp256k1.generator.x

/-- A block that stakes the first of the coins and pays `paid` to its key, while a payment of the
other coin leaves a fee. -/
def stakingBlock (paid : Int64) (signature : Signature) : Block :=
  { Block.withMerkleRoot
      ⟨⟨4, source.header.digest, Digest.zero, 1470467072, ⟨0x207fffff⟩, 0⟩,
        [{ coinbase with
            inputs := [⟨OutPoint.null, ⟨[0x52, 0x00]⟩, 0xffffffff⟩]
            outputs := [⟨0, ⟨[]⟩⟩] },
          ⟨1, [⟨⟨coinbase.txid, 0⟩, ⟨[]⟩, 0xffffffff⟩],
            [⟨0, ⟨[]⟩⟩, ⟨paid, Script.payToKey key⟩], 0⟩,
          ⟨1, [⟨⟨coinbase.txid, 1⟩, ⟨[]⟩, 0xffffffff⟩], [⟨99999000, ⟨[0x51]⟩⟩], 0⟩], []⟩ with
    signature := signature.encode }

/-- A coinstake that takes the fee and the whole reward. -/
def staking : Block :=
  stakingBlock 9800000300001000
    ⟨0xa4c57f5189733712ce4ec3d3448633d9a1487986537a469ff9dc8762465fc443,
      0x7936aedfc8eb533cf81774e0ad1fc9f7606d5d1056b5d4a01bb94bed8943d55b⟩

/-- A coinstake that takes more. -/
def overstaking : Block :=
  stakingBlock 9800000300001001
    ⟨0x444a47a338c1f253d2d35d8efd4a67f5e81b1fe77208912a126d040c1eb47203,
      0x463fbfda50b340ea56703bc0ce29a22deac59aae8a1dbd4980cff836a9b45e4⟩

def onTop (b : Block) : Request := .validate 2000000000 (.extend b.header chain) b

/-- Two blocks that stake a coin of the first one: one is refused, and the other is accepted, taken
back and accepted again. -/
def stakes : List Request :=
  [.validate 2000000000 chain source, onTop overstaking, onTop staking, .rewind, onTop staking]

set_option maxRecDepth 10000

theorem value_run_stake_stakes : quick.rules = RuleSet.stake
    ∧ (Session.run quick stakes).connected.map Prod.snd = [staking, source]
    ∧ (Session.run quick stakes).engine.store.coinTable.value
      ≤ quick.params.rewards (Session.run quick stakes).connected :=
  ⟨rfl, by decide +kernel, Session.value_run_stake rfl stakes⟩

end StakeRegtest

end Chainstate
