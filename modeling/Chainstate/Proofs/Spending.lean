-- SUMMARY: Connecting transactions: what the checks of a block say about its payments and fees.
import Chainstate.Proofs.WorkingSet
import Chainstate.Validation.Contents
import Chainstate.Validation.Staking

/-!
# Connecting transactions

`Spending.connect_ok` is what a successful connection of transactions means for the ledger: every
transaction is applied to the tracked table and spends coins that are deep enough in it, and the
fees are those of its payments, none of them negative. Coinbases and transactions of a coinstake's
shape owe no fee, so what they pay beyond what they spend is for the reward check of the network to
bound (`Ledger.totalAmount_gain`).
-/

namespace Chainstate

/-! ## Shapes and amounts -/

namespace Transaction

/-- A coinbase refers to nothing, a coinstake starts with a real output. -/
theorem isCoinstake_eq_false_of_isCoinbase {tx : Transaction} (h : tx.isCoinbase = true) :
    tx.isCoinstake = false := by
  unfold isCoinbase at h
  unfold isCoinstake
  split at h
  · next i hins =>
    rw [hins]
    split
    · next hcons _ =>
      cases hcons
      simp [h]
    · rfl
  · cases h

/-- Outputs that pass the check of values are in range, one by one. -/
theorem checkValues_ok {p : Params} {total : Int} {outs : List TxOut}
    (h : checkValues p total outs = .ok ()) :
    ∀ out ∈ outs, 0 ≤ out.amount ∧ out.amount ≤ p.maxMoney := by
  induction outs generalizing total with
  | nil =>
    intro out hout
    cases hout
  | cons o outs ih =>
    unfold checkValues at h
    split at h
    · cases h
    · next hnonneg =>
      split at h
      · cases h
      · next hlarge =>
        simp only at h
        split at h
        · cases h
        · exact List.forall_mem_cons.2 ⟨⟨Int.not_lt.1 hnonneg, Int.not_lt.1 hlarge⟩, ih h⟩

/-- Their sum is in range as well where words can hold more than the largest amount. A sum that
stops at the largest word is then out of range. -/
theorem totalAmount_le_of_checkValues {p : Params} (hroom : p.maxMoney < maxAmount) {total : Int}
    {outs : List TxOut} (htotal : total ≤ p.maxMoney) (h : checkValues p total outs = .ok ()) :
    total + totalAmount (outs.map TxOut.amount) ≤ p.maxMoney := by
  induction outs generalizing total with
  | nil => simpa using htotal
  | cons o outs ih =>
    unfold checkValues at h
    split at h
    · cases h
    split at h
    · cases h
    dsimp only at h
    split at h
    · cases h
    · next hrange =>
      have hin : p.moneyRange (min (total + o.amount) maxAmount) = true := by simpa using hrange
      rw [Params.moneyRange, Bool.and_eq_true, decide_eq_true_eq, decide_eq_true_eq] at hin
      have hsum : min (total + o.amount) maxAmount = total + o.amount := by omega
      rw [hsum] at h hin
      have hrest := ih hin.2 h
      rw [List.map_cons, totalAmount_cons]
      omega

/-- What holds of a transaction that passes its own checks. -/
structure Checked (p : Params) (tx : Transaction) : Prop where
  inputs : tx.inputs ≠ []
  outputs : tx.outputs ≠ []
  size : tx.size ≤ p.maxTransactionSize
  values : checkValues p 0 tx.outputs = .ok ()
  distinct : (tx.inputs.map TxIn.prevout).Nodup
  prevouts : tx.checkPrevouts = .ok ()

theorem checked_of_check {p : Params} {tx : Transaction} (h : tx.check p = .ok ()) :
    tx.Checked p := by
  unfold check at h
  simp only [check_guard_ok, check_bind_ok] at h
  obtain ⟨hinputs, houtputs, hsize, _, hvalues, hdistinct, hprevouts⟩ := h
  exact ⟨by simpa using hinputs, by simpa using houtputs, Nat.not_lt.1 hsize, hvalues,
    not_not.1 hdistinct, hprevouts⟩

namespace Checked

variable {p : Params} {tx : Transaction}

/-- The outputs of a transaction that passes its own checks are not negative. -/
theorem amount_nonneg (h : tx.Checked p) : ∀ out ∈ tx.outputs, 0 ≤ out.amount :=
  fun out hout => (checkValues_ok h.values out hout).1

theorem amount_le (h : tx.Checked p) : ∀ out ∈ tx.outputs, out.amount ≤ p.maxMoney :=
  fun out hout => (checkValues_ok h.values out hout).2

theorem totalOut_nonneg (h : tx.Checked p) : 0 ≤ tx.totalOut :=
  totalAmount_nonneg (List.forall_mem_map.2 h.amount_nonneg)

theorem totalOut_le (h : tx.Checked p) (hroom : p.maxMoney < maxAmount) :
    tx.totalOut ≤ p.maxMoney := by
  obtain ⟨out, hout⟩ := List.exists_mem_of_ne_nil _ h.outputs
  have hmoney : 0 ≤ p.maxMoney := Int.le_trans (h.amount_nonneg out hout) (h.amount_le out hout)
  have hle := totalAmount_le_of_checkValues hroom hmoney h.values
  rwa [Int.zero_add] at hle

/-- The outputs are worth the same when they are added up in words. -/
theorem toInt_totalOutWord (h : tx.Checked p) (hroom : p.maxMoney < maxAmount) :
    tx.totalOutWord.toInt = tx.totalOut := by
  have hnonneg := h.totalOut_nonneg
  have hle := h.totalOut_le hroom
  have hmax : maxAmount = 0x7fffffffffffffff := rfl
  exact Transaction.toInt_totalOutWord ⟨by omega, by omega⟩

end Checked

end Transaction

namespace Block

theorem checked_of_checkTransactions {b : Block} {p : Params}
    (h : b.checkTransactions p = .ok ()) : ∀ tx ∈ b.transactions, tx.Checked p := by
  unfold checkTransactions at h
  generalize b.transactions = txs at h
  induction txs with
  | nil =>
    intro tx htx
    cases htx
  | cons tx txs ih =>
    change (tx.check p >>= fun _ => txs.forM (Transaction.check p)) = .ok () at h
    obtain ⟨_, hfirst, hrest⟩ := check_bind_ok.1 h
    intro tx' htx'
    rcases List.mem_cons.1 htx' with rfl | hmem
    · exact Transaction.checked_of_check hfirst
    · exact ih hrest tx' hmem

theorem checkTransactions_ok {b : Block} {p : Params} (h : b.checkTransactions p = .ok ()) :
    ∀ tx ∈ b.transactions, ∀ out ∈ tx.outputs, 0 ≤ out.amount := fun tx htx =>
  (checked_of_checkTransactions h tx htx).amount_nonneg

/-- A block whose coinbase is in place starts with its only coinbase. -/
theorem checkCoinbasePosition_ok {b : Block} (h : b.checkCoinbasePosition = .ok ()) :
    ∃ coinbase rest, b.transactions = coinbase :: rest ∧ coinbase.isCoinbase = true
      ∧ ∀ tx ∈ rest, tx.isCoinbase = false := by
  unfold checkCoinbasePosition at h
  split at h
  · cases h
  · next coinbase rest htxs =>
    split at h
    · cases h
    · next hfirst =>
      split at h
      · cases h
      · next hrest =>
        refine ⟨coinbase, rest, htxs, by simpa using hfirst, ?_⟩
        intro tx htx
        by_contra hcoinbase
        exact hrest (List.any_eq_true.2 ⟨tx, htx, by simpa using hcoinbase⟩)

end Block

/-! ## Fees -/

namespace Ledger

/-- What a payment leaves to its block. Coinbases and coinstakes leave nothing. -/
def Payment.fee (p : Payment) : Int := if p.isCoinbase || p.isCoinstake then 0 else -p.gain

/-- The sum of what payments of one kind pay beyond what they spend. -/
def gains (kind : Payment → Bool) (ps : List Payment) : Int :=
  totalAmount ((ps.filter kind).map Payment.gain)

/-- The sum of the fees that payments leave. -/
def fees (ps : List Payment) : Int := totalAmount (ps.map Payment.fee)

theorem gains_cons (kind : Payment → Bool) (p : Payment) (ps : List Payment) :
    gains kind (p :: ps) = (if kind p then p.gain else 0) + gains kind ps := by
  unfold gains
  rw [List.filter_cons]
  split
  · rw [List.map_cons, totalAmount_cons]
  · omega

theorem fees_cons (p : Payment) (ps : List Payment) : fees (p :: ps) = p.fee + fees ps := rfl

/-- Every payment is a coinbase, a coinstake or one that leaves its fee. -/
theorem totalAmount_gain (ps : List Payment) :
    totalAmount (ps.map Payment.gain)
      = gains Payment.isCoinbase ps + gains Payment.isCoinstake ps - fees ps := by
  induction ps with
  | nil => rfl
  | cons p ps ih =>
    rw [List.map_cons, totalAmount_cons, ih, gains_cons, gains_cons, fees_cons]
    cases hcoinbase : p.isCoinbase with
    | true =>
      have hcoinstake : p.isCoinstake = false :=
        Transaction.isCoinstake_eq_false_of_isCoinbase hcoinbase
      simp only [Payment.fee, hcoinbase, hcoinstake, Bool.true_or, Bool.false_eq_true, if_true,
        if_false]
      omega
    | false =>
      cases hcoinstake : p.isCoinstake with
      | true =>
        simp only [Payment.fee, hcoinbase, hcoinstake, Bool.or_true, Bool.false_eq_true, if_true,
          if_false]
        omega
      | false =>
        simp only [Payment.fee, hcoinbase, hcoinstake, Bool.or_self, Bool.false_eq_true, if_false]
        omega

theorem gains_eq_zero {kind : Payment → Bool} {ps : List Payment} (h : ∀ p ∈ ps, kind p = false) :
    gains kind ps = 0 := by
  unfold gains
  rw [List.filter_eq_nil_iff.2 fun p hp => by simp [h p hp]]
  rfl

end Ledger

/-! ## Maturity -/

namespace Ledger

/-- What a transaction spends at a height is there and deep enough. A coinbase spends nothing. -/
def SpendsMature (p : Params) (height : Nat) (t : Table OutPoint Coin) (tx : Transaction) : Prop :=
  tx.isCoinbase = false → ∀ i ∈ tx.inputs, ∃ coin, t[i.prevout]? = some coin
    ∧ WorkingSet.checkMaturity p height coin = .ok ()

/-- Transactions that are applied one after the other spend coins that are deep enough, each of them
where it stands. -/
def Mature (p : Params) (height : Nat) (time : Option UInt32) :
    List Transaction → Table OutPoint Coin → Prop
  | [], _ => True
  | tx :: rest, t => SpendsMature p height t tx
    ∧ ∀ t', apply height time tx t = some t' → Mature p height time rest t'

end Ledger

/-! ## Connecting transactions -/

namespace Tally

/-- A fee that is added is what the outputs leave of the inputs, and in range as the sum is. -/
theorem addFee_ok {p : Params} {fees fees' valueIn : Int} {tx : Transaction}
    (h : addFee p fees tx valueIn = .ok fees') :
    tx.totalOut ≤ valueIn ∧ p.moneyRange (valueIn - tx.totalOut) = true
      ∧ fees' = fees + (valueIn - tx.totalOut) ∧ p.moneyRange fees' = true := by
  unfold addFee at h
  dsimp only at h
  split at h
  · cases h
  · next hbelow =>
    split at h
    · cases h
    · next hfee =>
      split at h
      · cases h
      · next hsum =>
        cases h
        exact ⟨Int.not_lt.1 hbelow, by simpa using hfee, rfl, by simpa using hsum⟩

/-- What it takes to add a transaction, and what is added: a coinbase adds what it writes, any other
transaction finds its inputs and adds what it writes and spends, and its fee if it owes one. -/
theorem add_cases {p : Params} {w : WorkingSet} {height : Nat} {t t' : Tally} {tx : Transaction}
    (h : t.add p w height tx = .ok t') :
    (tx.isCoinbase = true ∧ t' = ⟨t.fees, t.sigOps + tx.sigOps⟩)
      ∨ (tx.isCoinbase = false ∧ w.hasInputs tx = true
        ∧ t'.sigOps = t.sigOps + tx.sigOps + w.spendingSigOps tx
        ∧ ∃ valueIn, w.checkInputs p tx height = .ok valueIn
          ∧ ((tx.isCoinstake = true ∧ t'.fees = t.fees)
            ∨ (tx.isCoinstake = false ∧ addFee p t.fees tx valueIn = .ok t'.fees))) := by
  unfold add at h
  dsimp only at h
  split at h
  · next hcoinbase =>
    cases h
    exact .inl ⟨hcoinbase, rfl⟩
  · next hcoinbase =>
    split at h
    · cases h
    · next hinputs =>
      refine .inr ⟨Bool.eq_false_iff.2 hcoinbase, by simpa using hinputs, ?_⟩
      simp only [check_bind_ok] at h
      obtain ⟨valueIn, hin, h⟩ := h
      split at h
      · next hcoinstake =>
        simp only [check_bind_ok, check_pure_ok] at h
        obtain ⟨_, rfl, rfl⟩ := h
        exact ⟨rfl, valueIn, hin, .inl ⟨hcoinstake, rfl⟩⟩
      · next hcoinstake =>
        simp only [check_bind_ok, check_pure_ok] at h
        obtain ⟨_, hfee, rfl⟩ := h
        exact ⟨rfl, valueIn, hin, .inr ⟨Bool.eq_false_iff.2 hcoinstake, hfee⟩⟩

/-- Adding a transaction adds the fee of its payment, which is not negative, and checks that what it
spends is deep enough. -/
theorem add_ok {p : Params} {w : WorkingSet} {before after : Table OutPoint Coin}
    (h : w.Tracks before after) {height : Nat} {t t' : Tally} {tx : Transaction}
    (hadd : t.add p w height tx = .ok t') :
    t'.fees = t.fees + (Ledger.payment after tx).fee ∧ 0 ≤ (Ledger.payment after tx).fee
      ∧ Ledger.SpendsMature p height after tx := by
  obtain ⟨hcoinbase, rfl⟩ | ⟨hcoinbase, -, -, valueIn, hin, hfees⟩ := add_cases hadd
  · have hfee : (Ledger.payment after tx).fee = 0 := by
      simp [Ledger.Payment.fee, Ledger.Payment.isCoinbase, Ledger.payment, hcoinbase]
    rw [hfee]
    refine ⟨by simp, Int.le_refl 0, fun hplain => ?_⟩
    rw [hcoinbase] at hplain
    cases hplain
  · obtain ⟨hvalue, hmature⟩ := WorkingSet.checkInputs_ok h hin
    obtain ⟨hcoinstake, hsame⟩ | ⟨hcoinstake, hsum⟩ := hfees
    · have hfee : (Ledger.payment after tx).fee = 0 := by
        simp [Ledger.Payment.fee, Ledger.Payment.isCoinstake, Ledger.payment, hcoinstake]
      rw [hfee, Int.add_zero]
      exact ⟨hsame, Int.le_refl 0, fun _ => hmature⟩
    · have hfee : (Ledger.payment after tx).fee = valueIn - tx.totalOut := by
        simp only [Ledger.Payment.fee, Ledger.Payment.isCoinbase, Ledger.Payment.isCoinstake,
          Ledger.Payment.gain, Ledger.payment, hcoinbase, hcoinstake, Bool.or_self,
          Bool.false_eq_true, if_false, hvalue]
        omega
      obtain ⟨hbelow, -, hsum, -⟩ := addFee_ok hsum
      rw [hfee]
      exact ⟨hsum, Int.sub_nonneg.2 hbelow, fun _ => hmature⟩

/-- Adding a transaction adds the operations that it writes and, but for a coinbase, those of the
scripts that it spends. -/
theorem sigOps_of_add {p : Params} {w : WorkingSet} {height : Nat} {t t' : Tally}
    {tx : Transaction} (hadd : t.add p w height tx = .ok t') :
    t'.sigOps = t.sigOps + (tx.sigOps + if tx.isCoinbase then 0 else w.spendingSigOps tx) := by
  obtain ⟨hcoinbase, rfl⟩ | ⟨hcoinbase, -, hsigOps, -⟩ := add_cases hadd
  · rw [if_pos hcoinbase, Nat.add_zero]
  · rw [hsigOps, hcoinbase, if_neg Bool.false_ne_true, Nat.add_assoc]

end Tally

namespace Spending

/-- A transaction that passes its checks overwrites nothing, is added, and the total of its
operations and those before is within the limit. -/
theorem checkTransaction_ok {p : Params} {height : Nat} {bip30 : Bool} {w : WorkingSet}
    {t t' : Tally} {tx : Transaction} (h : checkTransaction p height bip30 w t tx = .ok t') :
    (bip30 && overwrites w tx) = false ∧ t.add p w height tx = .ok t'
      ∧ t'.sigOps * p.witnessScaleFactor ≤ p.maxBlockSigOpsCost := by
  unfold checkTransaction at h
  simp only [check_guard_ok, check_bind_ok, check_pure_ok] at h
  obtain ⟨hnew, t₁, hadd, hlimit, rfl⟩ := h
  exact ⟨Bool.eq_false_iff.2 hnew, hadd, Nat.not_lt.1 hlimit⟩

/-- A transaction that is connected passes its checks and is applied. -/
theorem connectTransaction_run {p : Params} {height : Nat} {bip30 : Bool} {time : Option UInt32}
    {w w' : WorkingSet} {t t' : Tally} {tx : Transaction}
    (h : connectTransaction p height bip30 time t tx w = .ok t' w') :
    checkTransaction p height bip30 w t tx = .ok t'
      ∧ WorkingSet.apply tx height time w = .ok () w' := by
  unfold connectTransaction at h
  rw [step_get_bind] at h
  cases hcheck : checkTransaction p height bip30 w t tx with
  | error r =>
    rw [hcheck] at h
    exact absurd h step_throw_ok
  | ok t₁ =>
    rw [hcheck] at h
    simp only [step_bind_ok, step_adaptExcept_ok, step_pure_ok] at h
    obtain ⟨_, _, happly, rfl, rfl⟩ := h
    exact ⟨rfl, happly⟩

theorem connectTransaction_ok {p : Params} {height : Nat} {bip30 : Bool} {time : Option UInt32}
    {w w' : WorkingSet} {before after : Table OutPoint Coin} (h : w.Tracks before after)
    {t t' : Tally} {tx : Transaction} (hcover : w.Covers tx.outPoints)
    (hconnect : connectTransaction p height bip30 time t tx w = .ok t' w') :
    ∃ after', Ledger.apply height time tx after = some after' ∧ w'.Tracks before after'
      ∧ WorkingSet.Extends w w'
      ∧ t'.fees = t.fees + (Ledger.payment after tx).fee ∧ 0 ≤ (Ledger.payment after tx).fee
      ∧ Ledger.SpendsMature p height after tx := by
  obtain ⟨hcheck, happly⟩ := connectTransaction_run hconnect
  obtain ⟨after', hafter, htracks, hext⟩ := WorkingSet.apply_ok h hcover happly
  obtain ⟨-, hadd, -⟩ := checkTransaction_ok hcheck
  exact ⟨after', hafter, htracks, hext, Tally.add_ok h hadd⟩

theorem foldlM_connectTransaction_ok {p : Params} {height : Nat} {bip30 : Bool}
    {time : Option UInt32} {txs : List Transaction} {w w' : WorkingSet}
    {before after : Table OutPoint Coin} (h : w.Tracks before after) {t t' : Tally}
    (hcover : ∀ tx ∈ txs, w.Covers tx.outPoints)
    (hconnect : txs.foldlM (connectTransaction p height bip30 time) t w = .ok t' w') :
    ∃ after', Ledger.applyAll height time txs after = some after' ∧ w'.Tracks before after'
      ∧ WorkingSet.Extends w w'
      ∧ t'.fees = t.fees + Ledger.fees (Ledger.payments height time txs after)
      ∧ (∀ pay ∈ Ledger.payments height time txs after, 0 ≤ pay.fee)
      ∧ Ledger.Mature p height time txs after := by
  induction txs generalizing w after t with
  | nil =>
    rw [List.foldlM_nil, step_pure_ok] at hconnect
    obtain ⟨rfl, rfl⟩ := hconnect
    refine ⟨after, rfl, h, fun _ ho => ho, by simp [Ledger.fees, Ledger.payments], ?_, trivial⟩
    intro pay hpay
    cases hpay
  | cons tx txs ih =>
    rw [List.foldlM_cons, step_bind_ok] at hconnect
    obtain ⟨t₁, w₁, hfirst, hrest⟩ := hconnect
    obtain ⟨after₁, happly, h₁, hext, hfee, hnonneg, hmature⟩ :=
      connectTransaction_ok h (hcover tx List.mem_cons_self) hfirst
    have hcover₁ : ∀ x ∈ txs, w₁.Covers x.outPoints :=
      fun x hx => hext.covers (hcover x (List.mem_cons_of_mem _ hx))
    obtain ⟨after', hafter, h', hext', hfees, hall, hmatures⟩ := ih h₁ hcover₁ hrest
    rw [Ledger.payments_cons happly]
    refine ⟨after', ?_, h', hext.trans hext', ?_, ?_, hmature, ?_⟩
    · rw [Ledger.applyAll, happly]
      exact hafter
    · rw [Ledger.fees_cons]
      omega
    · intro pay hpay
      rcases List.mem_cons.1 hpay with rfl | hpay
      · exact hnonneg
      · exact hall pay hpay
    · intro t' ht'
      rw [happly, Option.some.injEq] at ht'
      rw [← ht']
      exact hmatures

/-- Connecting transactions applies them to the tracked table, for the fees of their payments, and
each of them spends coins that are deep enough. -/
theorem connect_ok {p : Params} {height : Nat} {bip30 : Bool} {time : Option UInt32}
    {txs : List Transaction} {w w' : WorkingSet} {before after : Table OutPoint Coin}
    (h : w.Tracks before after) {fees : Int} (hcover : ∀ tx ∈ txs, w.Covers tx.outPoints)
    (hconnect : connect p height bip30 time txs w = .ok fees w') :
    ∃ after', Ledger.applyAll height time txs after = some after' ∧ w'.Tracks before after'
      ∧ WorkingSet.Extends w w' ∧ fees = Ledger.fees (Ledger.payments height time txs after)
      ∧ (∀ pay ∈ Ledger.payments height time txs after, 0 ≤ pay.fee)
      ∧ Ledger.Mature p height time txs after := by
  unfold connect at hconnect
  simp only [step_bind_ok, step_pure_ok] at hconnect
  obtain ⟨t, w₁, hfold, rfl, rfl⟩ := hconnect
  obtain ⟨after', hafter, h', hext, hfees, hall, hmature⟩ :=
    foldlM_connectTransaction_ok h hcover hfold
  refine ⟨after', hafter, h', hext, ?_, hall, hmature⟩
  change t.fees = 0 + _ at hfees
  omega

end Spending

end Chainstate
