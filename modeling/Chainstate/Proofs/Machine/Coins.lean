-- SUMMARY: Connecting transactions on a machine: sums of inputs, fees and counts stay in range.
import Chainstate.Proofs.Issuance
import Chainstate.Proofs.Machine.Contents

/-!
# Connecting transactions on a machine

The sums of connecting a block, in machine words: the values of inputs, fees, signature operations
and rewards. A running sum is compared with the largest amount after each step, so it leaves that
range by one coin at most; coins of the ledger are in range themselves (`Coin.InRange`), and twice
the range fits into a word. The tally of fees and signature operations is bounded again after every
transaction (`Tally.Bounded`), which carries the run over the transactions of a block.
-/

namespace Chainstate

/-- Rewards that keep sums in range. -/
structure Params.Rewarding (p : Params) : Prop where
  premine : 0 ≤ p.premineReward ∧ p.premineReward ≤ 0x7fffffffffffff
  work : 0 ≤ p.workReward ∧ p.workReward ≤ 0x7fffffffffffff
  stake : 0 ≤ p.stakeReward ∧ p.stakeReward ≤ 0x7fffffffffffff
  split : ∀ split ∈ p.rewardSplit, split.percentage ≤ 0xff

/-- Rewards that are small enough for the rewards of all heights together to fit into a word. -/
structure Params.Scarce (p : Params) : Prop where
  work : p.workReward ≤ 0x3fffffff
  stake : p.stakeReward ≤ 0x3fffffff

/-- A height without a premine grants what halvings have left of the reward. -/
theorem Params.workRewardAt_of_not_premine {p : Params} (hp : 0 ≤ p.workReward) {height : Nat}
    (h : p.isPremine height = false) :
    0 ≤ p.workRewardAt height ∧ p.workRewardAt height ≤ p.workReward := by
  rw [workRewardAt, if_neg (by rw [h]; decide)]
  split
  · exact ⟨hp, Int.le_refl _⟩
  · dsimp only
    split
    · exact ⟨Int.le_refl _, hp⟩
    · rw [Int.shiftRight_eq_div_pow]
      exact ⟨Int.ediv_nonneg hp (Int.natCast_nonneg _), Int.ediv_le_self _ hp⟩

/-- A coin whose amount and whose script are within the limits. -/
structure Coin.InRange (p : Params) (c : Coin) : Prop where
  nonneg : 0 ≤ c.amount
  amount : c.amount ≤ p.maxMoney
  script : c.output.script.bytes.length ≤ Script.maxSpendableSize

/-- A tally within the limits. -/
structure Tally.Bounded (p : Params) (t : Tally) : Prop where
  nonneg : 0 ≤ t.fees
  fees : t.fees ≤ p.maxMoney
  sigOps : t.sigOps ≤ p.maxBlockSigOpsCost

theorem Tally.bounded_zero {p : Params} (hp : p.Limited) : Tally.zero.Bounded p :=
  ⟨Int.le_refl _, hp.money, Nat.zero_le _⟩

theorem Params.moneyRange_iff {p : Params} {amount : Int} :
    p.moneyRange amount = true ↔ 0 ≤ amount ∧ amount ≤ p.maxMoney := by
  rw [moneyRange, Bool.and_eq_true, decide_eq_true_eq, decide_eq_true_eq]

/-- The coins that a transaction creates are in range if its outputs are. -/
theorem Transaction.Checked.inRange {p : Params} {tx : Transaction} (h : tx.Checked p)
    (height : Nat) (time : Option UInt32) :
    ∀ oc ∈ tx.createdCoins height time, oc.2.InRange p := by
  intro oc hoc
  obtain ⟨-, hout, hspendable⟩ := Transaction.mem_createdCoins hoc
  refine ⟨h.amount_nonneg _ hout, h.amount_le _ hout, ?_⟩
  simp only [Coin.isPrunable, Script.isUnspendable, Bool.or_eq_false_iff,
    decide_eq_false_iff_not] at hspendable
  exact Nat.le_of_not_lt hspendable.2

namespace WorkingSet

/-- What is found in a working set of coins in range is in range. -/
theorem Tracks.inRange {p : Params} {w : WorkingSet} {before after : Table OutPoint Coin}
    (h : w.Tracks before after) (hafter : after.All (Coin.InRange p)) {o : OutPoint} {c : Coin}
    (hc : w.coin? o = some c) : c.InRange p :=
  hafter o c (h.getElem?_of_coin? hc)

/-- Checked inputs have a sum in range. -/
theorem sumInputs_inRange {p : Params} {w : WorkingSet} {height : Nat} {total sum : Int}
    {ins : List TxIn} (htotal : 0 ≤ total ∧ total ≤ p.maxMoney)
    (h : w.sumInputs p height total ins = .ok sum) : 0 ≤ sum ∧ sum ≤ p.maxMoney := by
  induction ins generalizing total with
  | nil =>
    cases h
    exact htotal
  | cons i ins ih =>
    unfold sumInputs at h
    split at h
    · cases h
    · simp only [check_bind_ok] at h
      obtain ⟨_, -, h⟩ := h
      split at h
      · simp at h
      · next hrange =>
        simp only [Bool.or_eq_true, Bool.not_eq_true', not_or, Bool.not_eq_false] at hrange
        exact ih (Params.moneyRange_iff.1 hrange.2) h

theorem checkInputs_inRange {p : Params} (hp : p.Limited) {w : WorkingSet} {tx : Transaction}
    {height : Nat} {sum : Int} (h : w.checkInputs p tx height = .ok sum) :
    0 ≤ sum ∧ sum ≤ p.maxMoney :=
  sumInputs_inRange ⟨Int.le_refl _, hp.money⟩ h

end WorkingSet

namespace Machine

variable {ε : Type} {p : Params} {w : WorkingSet} {before after : Table OutPoint Coin}

/-! ## Outpoints -/

/-- The outpoints of the outputs, whose indices have 32 bits. -/
def outPoints (tx : Transaction) : Checked ε (List OutPoint) :=
  let txid := tx.txid
  (List.range tx.outputs.length).mapM fun n => do
    let n ← Word.u32.nat n
    .ok ⟨txid, UInt32.ofNat n⟩

theorem outPoints_eq {tx : Transaction} (h : tx.Sized) :
    (outPoints tx : Checked ε _) = .ok tx.outPoints := by
  have hlength := h.outputs.1
  rw [CompactSize.maxSize] at hlength
  exact mapM_ok fun n hn => by
    have := List.mem_range.1 hn
    rw [Word.u32_ok (by omega)]
    rfl

/-! ## Inputs -/

/-- Adds the values of inputs to `total`, each value and each sum in range. -/
def sumInputs (p : Params) (w : WorkingSet) (height : Nat) :
    (total : Int) → List TxIn → Checked Rejection Int
  | total, [] => .ok total
  | total, i :: rest =>
    match w.coin? i.prevout with
    | none => .error (.failure .inputUnavailable)
    | some c => do
      .of (WorkingSet.checkMaturity p height c)
      let total ← Word.i64.int (total + c.amount)
      if !p.moneyRange c.amount || !p.moneyRange total then
        .error (.failure .inputValueOutOfRange)
      else sumInputs p w height total rest

theorem sumInputs_eq (hp : p.Limited) (hw : w.Tracks before after)
    (hafter : after.All (Coin.InRange p)) {height : Nat} {total : Int} {ins : List TxIn}
    (htotal : 0 ≤ total ∧ total ≤ p.maxMoney) :
    sumInputs p w height total ins = .of (w.sumInputs p height total ins) := by
  have hmoney := hp.money'
  induction ins generalizing total with
  | nil => rfl
  | cons i rest ih =>
    rw [sumInputs, WorkingSet.sumInputs]
    cases hc : w.coin? i.prevout with
    | none => rfl
    | some c =>
      have hcoin := hw.inRange hafter hc
      have hnonneg := hcoin.nonneg
      have hamount := hcoin.amount
      refine Checked.bind_of rfl fun _ _ => ?_
      rw [Word.i64_ok (by omega) (by omega), checked_ok_bind]
      dsimp only
      split
      · rfl
      · next hrange =>
        simp only [Bool.or_eq_true, Bool.not_eq_true', not_or, Bool.not_eq_false] at hrange
        exact ih (Params.moneyRange_iff.1 hrange.2)

/-- Adds the signature operations of spent outputs to `total`. -/
def inputSigOps (w : WorkingSet) : (total : Nat) → List TxIn → Checked ε Nat
  | total, [] => .ok total
  | total, i :: rest =>
    match w.coin? i.prevout with
    | none => inputSigOps w total rest
    | some c => do
      let n ← spendingSigOps c.output.script i.script
      let total ← Word.u64.nat (total + n)
      inputSigOps w total rest

/-- The signature operations that an input adds by what it spends. -/
def sigOpsOf (w : WorkingSet) (i : TxIn) : Nat :=
  match w.coin? i.prevout with
  | some c => c.output.script.spendingSigOps i.script
  | none => 0

theorem inputSigOps_eq (hw : w.Tracks before after) (hafter : after.All (Coin.InRange p))
    {total : Nat} {ins : List TxIn} (hins : ∀ i ∈ ins, i.Sized)
    (h : total + totalCount (ins.map (sigOpsOf w)) ≤ 0xffffffffffffffff) :
    (inputSigOps w total ins : Checked ε Nat) = .ok (total + totalCount (ins.map (sigOpsOf w))) := by
  induction ins generalizing total with
  | nil => rfl
  | cons i rest ih =>
    obtain ⟨hi, hrest⟩ := List.forall_mem_cons.1 hins
    rw [List.map_cons, totalCount_cons] at h ⊢
    rw [inputSigOps]
    cases hc : w.coin? i.prevout with
    | none =>
      have hzero : sigOpsOf w i = 0 := by rw [sigOpsOf, hc]
      rw [hzero, Nat.zero_add] at h ⊢
      exact ih hrest h
    | some c =>
      have hn : sigOpsOf w i = c.output.script.spendingSigOps i.script := by rw [sigOpsOf, hc]
      have hscript := (hw.inRange hafter hc).script
      rw [hn] at h ⊢
      dsimp only
      rw [spendingSigOps_eq (Nat.le_trans hscript (by decide)) (Nat.le_trans hi (by decide)),
        checked_ok_bind, Word.u64_ok (by omega), checked_ok_bind, ih hrest (by omega),
        Nat.add_assoc]

/-- What the inputs of a transaction add is bounded by its size. -/
theorem spendingSigOps_le_size (hw : w.Tracks before after) (hafter : after.All (Coin.InRange p))
    {tx : Transaction} (hsize : tx.size ≤ 0xffffff) :
    w.spendingSigOps tx ≤ 0xffffff * (20 * 0xffffff) := by
  have hscripts := tx.scriptBytes_le_size
  have hcount := tx.length_inputs_le_size
  have heach : ∀ i ∈ tx.inputs, sigOpsOf w i ≤ 20 * 0xffffff := by
    intro i hi
    have hscript : i.script.bytes.length ≤ tx.size := by
      have := le_totalCount (List.mem_map_of_mem (f := fun i => i.script.bytes.length) hi)
      rw [Transaction.scriptBytes] at hscripts
      omega
    rw [sigOpsOf]
    split
    · next c hc =>
      have hcoin := (hw.inRange hafter hc).script
      have := spendingSigOps_le c.output.script i.script
      rw [Script.maxSpendableSize] at hcoin
      omega
    · exact Nat.zero_le _
  have hle := totalCount_le_mul (List.forall_mem_map.2 heach)
  rw [List.length_map] at hle
  exact Nat.le_trans hle (Nat.mul_le_mul_right _ (Nat.le_trans hcount hsize))

/-! ## Tallies -/

/-- Adds the fee of a transaction whose inputs are worth `valueIn`. -/
def addFee (p : Params) (fees : Int) (tx : Transaction) (valueIn : Int) : Checked Rejection Int := do
  let valueOut ← totalOut tx
  if valueIn < valueOut then .error (.failure .outputsAboveInputs)
  else
    let fee ← Word.i64.int (valueIn - valueOut)
    if !p.moneyRange fee then .error (.failure .feeOutOfRange)
    else
      let fees ← Word.i64.int (fees + fee)
      if !p.moneyRange fees then .error (.failure .feeOutOfRange) else .ok fees

theorem addFee_eq (hp : p.Limited) {tx : Transaction} (htx : tx.Checked p) {fees valueIn : Int}
    (hfees : 0 ≤ fees ∧ fees ≤ p.maxMoney) (hin : 0 ≤ valueIn ∧ valueIn ≤ p.maxMoney) :
    addFee p fees tx valueIn = .of (Tally.addFee p fees tx valueIn) := by
  have hmoney := hp.money'
  have hout := htx.totalOut_nonneg
  have hout' := htx.totalOut_le hp.room
  rw [addFee, totalOut_eq htx hp, checked_ok_bind, Tally.addFee]
  split
  · rfl
  · rw [Word.i64_ok (by omega) (by omega), checked_ok_bind]
    split
    · rfl
    · rw [Word.i64_ok (by omega) (by omega), checked_ok_bind]
      split
      · rfl
      · rfl

/-- Adds a transaction that spends from `w`. -/
def add (p : Params) (w : WorkingSet) (height : Nat) (t : Tally) (tx : Transaction) :
    Checked Rejection Tally := do
  let written ← writtenSigOps tx
  let sigOps ← Word.u64.nat (t.sigOps + written)
  let coinbase ← isCoinbase tx
  if coinbase then .ok ⟨t.fees, sigOps⟩
  else if !w.hasInputs tx then .error (.failure .inputsUnavailable)
  else
    let sigOps ← inputSigOps w sigOps tx.inputs
    let valueIn ← sumInputs p w height 0 tx.inputs
    let coinstake ← isCoinstake tx
    if coinstake then .ok ⟨t.fees, sigOps⟩
    else
      let fees ← addFee p t.fees tx valueIn
      .ok ⟨fees, sigOps⟩

theorem add_eq (hp : p.Limited) (hw : w.Tracks before after)
    (hafter : after.All (Coin.InRange p)) {height : Nat} {t : Tally} (ht : t.Bounded p)
    {tx : Transaction} (htx : tx.Checked p) (hsized : tx.Sized) :
    add p w height t tx = .of (t.add p w height tx) := by
  have hsize : tx.size ≤ 0xffffff := Nat.le_trans htx.size hp.transaction
  have hwritten := tx.sigOps_le_size
  have hspent := spendingSigOps_le_size hw hafter hsize
  have hcost := hp.sigOps
  have hbefore := ht.sigOps
  change totalCount (tx.inputs.map (sigOpsOf w)) ≤ _ at hspent
  rw [add, writtenSigOps_eq hsized (Nat.le_trans hsize (by decide)), checked_ok_bind,
    Word.u64_ok (by omega), checked_ok_bind, isCoinbase_eq, checked_ok_bind, Tally.add]
  dsimp only
  split
  · rfl
  split
  · rfl
  · rw [inputSigOps_eq hw hafter hsized.inputs.2 (by omega), checked_ok_bind]
    refine Checked.bind_of (sumInputs_eq hp hw hafter ⟨Int.le_refl _, hp.money⟩) fun valueIn hin => ?_
    have hvalue := WorkingSet.checkInputs_inRange hp hin
    rw [isCoinstake_eq, checked_ok_bind]
    split
    · rfl
    · exact Checked.bind_of (addFee_eq hp htx ⟨ht.nonneg, ht.fees⟩ hvalue) fun _ _ => rfl

theorem fees_inRange_of_add {height : Nat} {t t' : Tally} (ht : t.Bounded p) {tx : Transaction}
    (h : t.add p w height tx = .ok t') : 0 ≤ t'.fees ∧ t'.fees ≤ p.maxMoney := by
  obtain ⟨-, rfl⟩ | ⟨-, -, -, _, -, ⟨-, hsame⟩ | ⟨-, hfees⟩⟩ := Tally.add_cases h
  · exact ⟨ht.nonneg, ht.fees⟩
  · rw [hsame]
    exact ⟨ht.nonneg, ht.fees⟩
  · obtain ⟨-, -, -, hrange⟩ := Tally.addFee_ok hfees
    exact Params.moneyRange_iff.1 hrange

theorem sigOps_le_of_add {height : Nat} {t t' : Tally} {tx : Transaction}
    (h : t.add p w height tx = .ok t') :
    t'.sigOps ≤ t.sigOps + tx.sigOps + w.spendingSigOps tx := by
  rw [Tally.sigOps_of_add h]
  split
  · omega
  · omega

/-! ## Transactions -/

/-- No output of the transaction takes the place of a coin. -/
def overwrites (w : WorkingSet) (tx : Transaction) : Checked ε Bool := do
  let os ← outPoints tx
  .ok (os.any fun o => (w.coin? o).isSome)

/-- The checks of one transaction, and the tally with it. -/
def checkTransaction (p : Params) (height : Nat) (bip30 : Bool) (w : WorkingSet) (t : Tally)
    (tx : Transaction) : Checked Rejection Tally := do
  let overwritten ← overwrites w tx
  if bip30 && overwritten then .error (.failure .overwritesOutput)
  else
    let t ← add p w height t tx
    let weight ← Word.u64.nat (t.sigOps * p.witnessScaleFactor)
    if p.maxBlockSigOpsCost < weight then .error (.failure .tooManySigOps) else .ok t

theorem checkTransaction_eq (hp : p.Limited) (hw : w.Tracks before after)
    (hafter : after.All (Coin.InRange p)) {height : Nat} {bip30 : Bool} {t : Tally}
    (ht : t.Bounded p) {tx : Transaction} (htx : tx.Checked p) (hsized : tx.Sized) :
    checkTransaction p height bip30 w t tx
      = .of (Spending.checkTransaction p height bip30 w t tx) := by
  have hsize : tx.size ≤ 0xffffff := Nat.le_trans htx.size hp.transaction
  rw [checkTransaction, overwrites, outPoints_eq hsized, checked_ok_bind, checked_ok_bind,
    Spending.checkTransaction]
  change (if (bip30 && Spending.overwrites w tx) = true then _ else _) = _
  split
  · rfl
  · refine Checked.bind_of (add_eq hp hw hafter ht htx hsized) fun t' hadd => ?_
    have hweight : t'.sigOps * p.witnessScaleFactor ≤ 0x20000000000000 * 0xff := by
      have := sigOps_le_of_add hadd
      have := spendingSigOps_le_size hw hafter hsize
      have := tx.sigOps_le_size
      have := hp.sigOps
      have := ht.sigOps
      exact Nat.mul_le_mul (by omega) hp.witness
    rw [Word.u64_ok (by omega), checked_ok_bind]
    split
    · rfl
    · rfl

/-- A tally that passes the checks is bounded again. -/
theorem bounded_of_checkTransaction (hp : p.Limited) {height : Nat} {bip30 : Bool} {t t' : Tally}
    (ht : t.Bounded p) {tx : Transaction}
    (h : Spending.checkTransaction p height bip30 w t tx = .ok t') : t'.Bounded p := by
  obtain ⟨-, hadd, hweight⟩ := Spending.checkTransaction_ok h
  obtain ⟨hnonneg, hfees⟩ := fees_inRange_of_add ht hadd
  have hle : t'.sigOps ≤ t'.sigOps * p.witnessScaleFactor := Nat.le_mul_of_pos_right _ hp.weight
  exact ⟨hnonneg, hfees, Nat.le_trans hle hweight⟩

/-- The coins that a transaction creates in a block of a height, without those that no one can
spend. -/
def createdCoins (tx : Transaction) (height : Nat) (time : Option UInt32) :
    Checked ε (List (OutPoint × Coin)) := do
  let fromCoinbase ← isCoinbase tx
  let fromCoinstake ← isCoinstake tx
  let os ← outPoints tx
  let coins := tx.outputs.map fun output =>
    ({ height, output, fromCoinbase, fromCoinstake, time } : Coin)
  .ok ((os.zip coins).filter fun oc => !oc.2.isPrunable)

theorem createdCoins_eq {tx : Transaction} (h : tx.Sized) (height : Nat) (time : Option UInt32) :
    (createdCoins tx height time : Checked ε _) = .ok (tx.createdCoins height time) := by
  rw [createdCoins, isCoinbase_eq, checked_ok_bind, isCoinstake_eq, checked_ok_bind,
    outPoints_eq h, checked_ok_bind, Transaction.createdCoins]

/-- Spends the inputs of a transaction and adds its outputs. -/
def apply (tx : Transaction) (height : Nat) (time : Option UInt32) :
    EStateM (Trap Fault) WorkingSet Unit := do
  let coinbase ← checkStep (isCoinbase tx)
  if coinbase then pure () else plainStep (WorkingSet.spendAll tx.inputs)
  let created ← checkStep (createdCoins tx height time)
  modify fun w => created.foldl (fun w oc => w.create oc.1 oc.2) w

theorem exact_apply {tx : Transaction} (h : tx.Sized) (height : Nat) (time : Option UInt32)
    (w : WorkingSet) : Exact (apply tx height time) (WorkingSet.apply tx height time) w := by
  have hcreate := createdCoins_eq (ε := Fault) h height time
  refine exact_checkStep_bind (isCoinbase_eq tx) ?_
  unfold WorkingSet.apply
  split
  · exact exact_checkStep_bind hcreate rfl
  · exact (exact_plainStep _ _).bind fun _ _ _ => exact_checkStep_bind hcreate rfl

/-- Checks one transaction and applies it. -/
def connectTransaction (p : Params) (height : Nat) (bip30 : Bool) (time : Option UInt32)
    (t : Tally) (tx : Transaction) : EStateM (Trap Failure) WorkingSet Tally := do
  let t ← checkStep ((checkTransaction p height bip30 (← get) t tx).relabel .rejected)
  (apply tx height time).adaptExcept (Trap.map .fault)
  pure t

theorem exact_connectTransaction (hp : p.Limited) (hw : w.Tracks before after)
    (hafter : after.All (Coin.InRange p)) (height : Nat) (bip30 : Bool) (time : Option UInt32)
    {t : Tally} (ht : t.Bounded p) {tx : Transaction} (htx : tx.Checked p) (hsized : tx.Sized) :
    Exact (connectTransaction p height bip30 time t tx)
      (Spending.connectTransaction p height bip30 time t tx) w := by
  refine exact_get_bind ?_
  rw [checkTransaction_eq hp hw hafter ht htx hsized, Checked.relabel_of]
  cases Spending.checkTransaction p height bip30 w t tx with
  | error r => rfl
  | ok t' =>
    have happly := exact_apply hsized height time w
    exact exact_checkStep_bind rfl
      ((happly.adaptExcept Failure.fault).bind fun _ _ _ => exact_pure _ _)

/-- A working set, a tally and transactions that are about to be connected: the coins are in range,
the tally is bounded, and the transactions have passed their own checks and are covered. -/
structure Ready (p : Params) (before : Table OutPoint Coin) (w : WorkingSet) (t : Tally)
    (txs : List Transaction) : Prop where
  coins : ∃ after, w.Tracks before after ∧ after.All (Coin.InRange p)
  tally : t.Bounded p
  checked : ∀ tx ∈ txs, tx.Checked p
  sized : ∀ tx ∈ txs, tx.Sized
  covered : ∀ tx ∈ txs, w.Covers tx.outPoints

/-- After a transaction has been connected, the next ones are about to be. -/
theorem Ready.next (hp : p.Limited) {height : Nat} {bip30 : Bool} {time : Option UInt32}
    {t t' : Tally} {tx : Transaction} {txs : List Transaction} (h : Ready p before w t (tx :: txs))
    {w' : WorkingSet}
    (hconnect : Spending.connectTransaction p height bip30 time t tx w = .ok t' w') :
    Ready p before w' t' txs := by
  obtain ⟨⟨after, hw, hafter⟩, ht, hchecked, hsized, hcovered⟩ := h
  obtain ⟨htx, hchecked⟩ := List.forall_mem_cons.1 hchecked
  obtain ⟨hcover, hcovered⟩ := List.forall_mem_cons.1 hcovered
  obtain ⟨after', happly, htracks, hext, -⟩ := Spending.connectTransaction_ok hw hcover hconnect
  refine ⟨⟨after', htracks, Ledger.apply_all happly hafter (htx.inRange height time)⟩, ?_,
    hchecked, fun x hx => hsized x (List.mem_cons_of_mem _ hx), fun x hx => hext.covers (hcovered x hx)⟩
  exact bounded_of_checkTransaction hp ht (Spending.connectTransaction_run hconnect).1

/-- Checks and applies all transactions, and gives the fees. -/
def connect (p : Params) (height : Nat) (bip30 : Bool) (time : Option UInt32)
    (txs : List Transaction) : EStateM (Trap Failure) WorkingSet Int := do
  let t ← txs.foldlM (connectTransaction p height bip30 time) Tally.zero
  pure t.fees

/-- The run over transactions, by induction on them. -/
theorem exact_foldlM_connectTransaction (hp : p.Limited) (height : Nat) (bip30 : Bool)
    (time : Option UInt32) {t : Tally} {txs : List Transaction} (h : Ready p before w t txs) :
    Exact (txs.foldlM (connectTransaction p height bip30 time) t)
        (txs.foldlM (Spending.connectTransaction p height bip30 time) t) w
      ∧ ∀ t' w', txs.foldlM (Spending.connectTransaction p height bip30 time) t w = .ok t' w' →
        t'.Bounded p := by
  induction txs generalizing w t with
  | nil =>
    refine ⟨rfl, fun t' w' hnil => ?_⟩
    rw [List.foldlM_nil, step_pure_ok] at hnil
    exact hnil.1 ▸ h.tally
  | cons tx txs ih =>
    obtain ⟨after, hw, hafter⟩ := h.coins
    have hfirst := exact_connectTransaction hp hw hafter height bip30 time h.tally
      (h.checked tx List.mem_cons_self) (h.sized tx List.mem_cons_self)
    rw [List.foldlM_cons, List.foldlM_cons]
    refine ⟨hfirst.bind fun t₁ w₁ hconnect => (ih (h.next hp hconnect)).1, fun t' w' hall => ?_⟩
    obtain ⟨t₁, w₁, hconnect, hrest⟩ := step_bind_ok.1 hall
    exact (ih (h.next hp hconnect)).2 t' w' hrest

theorem exact_connect (hp : p.Limited) (height : Nat) (bip30 : Bool) (time : Option UInt32)
    {txs : List Transaction} (h : Ready p before w Tally.zero txs) :
    Exact (connect p height bip30 time txs) (Spending.connect p height bip30 time txs) w
      ∧ ∀ fees w', Spending.connect p height bip30 time txs w = .ok fees w' →
        0 ≤ fees ∧ fees ≤ p.maxMoney := by
  obtain ⟨hrun, hbounded⟩ := exact_foldlM_connectTransaction hp height bip30 time h
  refine ⟨hrun.bind fun _ _ _ => exact_pure _ _, fun fees w' hconnect => ?_⟩
  obtain ⟨t, w₁, hfold, hpure⟩ := step_bind_ok.1 hconnect
  rw [step_pure_ok] at hpure
  obtain ⟨rfl, -⟩ := hpure
  exact ⟨(hbounded t w₁ hfold).nonneg, (hbounded t w₁ hfold).fees⟩

/-! ## Rewards -/

/-- What a proof-of-work block may create besides its fees. -/
def workRewardAt (p : Params) (height : Nat) : Checked ε Int :=
  if p.isPremine height then .ok p.premineReward
  else if p.halvingInterval = 0 then .ok p.workReward
  else do
    let halvings ← divide height p.halvingInterval
    if 64 ≤ halvings then .ok 0
    else
      let halvings ← shiftBy 64 halvings
      .ok (p.workReward >>> halvings)

theorem workRewardAt_eq (p : Params) (height : Nat) :
    (workRewardAt p height : Checked ε Int) = .ok (p.workRewardAt height) := by
  unfold workRewardAt Params.workRewardAt
  split
  · rfl
  split
  · rfl
  · next hinterval =>
    rw [divide_ok hinterval, checked_ok_bind]
    dsimp only
    split
    · rfl
    · next hfew =>
      rw [shiftBy_ok (Nat.lt_of_not_le hfew)]
      rfl

theorem workRewardAt_inRange (hp : p.Rewarding) (height : Nat) :
    0 ≤ p.workRewardAt height ∧ p.workRewardAt height ≤ 0x7fffffffffffff := by
  cases hkind : p.isPremine height with
  | true =>
    rw [Params.workRewardAt, if_pos hkind]
    exact hp.premine
  | false =>
    obtain ⟨hlow, hhigh⟩ := Params.workRewardAt_of_not_premine hp.work.1 hkind
    exact ⟨hlow, Int.le_trans hhigh hp.work.2⟩

theorem stakeRewardAt_inRange (hp : p.Rewarding) (height : Nat) :
    0 ≤ p.stakeRewardAt height ∧ p.stakeRewardAt height ≤ 0x7fffffffffffff := by
  unfold Params.stakeRewardAt
  split
  · exact hp.premine
  · exact hp.stake

/-- The coinbase creates no more than the scheduled reward and the fees. -/
def checkWorkReward (b : Block) (p : Params) (height : Nat) (fees : Int) :
    Checked Rejection Unit := do
  let reward ← workRewardAt p height
  let coinbase ← .of b.first
  let out ← totalOut coinbase
  let most ← Word.i64.int (fees + reward)
  if most < out then .error (.failure .coinbaseOverpays) else .ok ()

theorem checkWorkReward_eq {b : Block} (hp : p.Limited) (hreward : p.Rewarding)
    (htxs : ∀ tx ∈ b.transactions, tx.Checked p) {height : Nat} {fees : Int}
    (hfees : 0 ≤ fees ∧ fees ≤ p.maxMoney) :
    checkWorkReward b p height fees = .of (b.checkWorkReward p height fees) := by
  have hmoney := hp.money'
  obtain ⟨hlow, hhigh⟩ := workRewardAt_inRange hreward height
  rw [checkWorkReward, workRewardAt_eq, checked_ok_bind]
  refine Checked.bind_of rfl fun coinbase hfirst => ?_
  obtain ⟨rest, hb⟩ := Block.first_ok hfirst
  have hmem : coinbase ∈ b.transactions := hb ▸ List.mem_cons_self
  rw [totalOut_eq (htxs coinbase hmem) hp, checked_ok_bind,
    Word.i64_ok (by omega) (by omega), checked_ok_bind, wrappedSum_eq (by omega)]
  split
  · rfl
  · rfl

end Machine

end Chainstate
