-- SUMMARY: Proof of stake on a machine: shapes, cold stakes, kernels, records and rewards.
import Chainstate.Proofs.Connect
import Chainstate.Proofs.Machine.Coins

/-!
# Proof of stake on a machine

The rules of proof of stake, in machine words. The value of a cold stake is added up before its
inputs have been checked one by one, so nothing compares the running sum with the largest amount;
it fits because the inputs are distinct and are worth no more than all coins together
(`WorkingSet.totalAmount_inputs_le_value`). Everything else is added up from sums that earlier
checks have found in range.
-/

namespace Chainstate

/-- The value of a table without negative amounts is not negative. -/
theorem Table.value_nonneg {t : Table OutPoint Coin} (h : t.Nonnegative) : 0 ≤ t.value := by
  refine totalAmount_nonneg (List.forall_mem_map.2 fun oc hoc => h oc.1 oc.2 ?_)
  exact Std.ExtTreeMap.mem_toList_iff_getElem?_eq_some.1 hoc

/-- Distinct inputs are worth no more than all coins together. -/
theorem WorkingSet.totalAmount_inputs_le_value {w : WorkingSet}
    {before after : Table OutPoint Coin} (hw : w.Tracks before after) (hafter : after.Nonnegative)
    {ins : List TxIn} (hdistinct : (ins.map TxIn.prevout).Nodup) :
    totalAmount ((ins.filterMap fun i => w.coin? i.prevout).map Coin.amount) ≤ after.value := by
  have hrest : 0 ≤ (MemoryStore.removeCoins after (ins.map TxIn.prevout)).value :=
    Table.value_nonneg (MemoryStore.all_removeCoins hafter _)
  have hle : totalAmount ((ins.filterMap fun i => w.coin? i.prevout).map Coin.amount)
      ≤ totalAmount ((ins.map TxIn.prevout).map after.valueAt) := by
    clear hrest hdistinct
    induction ins with
    | nil => exact Int.le_refl _
    | cons i ins ih =>
      have hvalue := Table.valueAt_nonneg hafter i.prevout
      rw [List.map_cons, List.map_cons, totalAmount_cons, List.filterMap_cons]
      cases hc : w.coin? i.prevout with
      | none =>
        dsimp only
        omega
      | some c =>
        have hat : after.valueAt i.prevout = c.amount := by
          rw [Table.valueAt, hw.getElem?_of_coin? hc, Option.elim_some]
        dsimp only
        rw [List.map_cons, totalAmount_cons]
        omega
  rw [Table.value_removeCoins after hdistinct] at hrest
  omega

/-- A stake that is recorded is worth an amount in range. -/
theorem Staking.recordOf_inRange {p : Params} (hp : p.Limited) {b : Block} {digest : Digest}
    {height : Nat} {previous record : StakeRecord} {w : WorkingSet} {stakeIn : Int}
    (h : recordOf p b digest height previous w = .ok (record, stakeIn)) :
    0 ≤ stakeIn ∧ stakeIn ≤ p.maxMoney := by
  cases hcoinstake : b.coinstake? with
  | some tx =>
    obtain ⟨i, k, -, hkernel, rfl, -⟩ := exists_kernel h hcoinstake
    obtain ⟨staked, target, hkernel⟩ := checkStake_ok hkernel
    exact WorkingSet.checkInputs_inRange hp hkernel.valueIn
  | none =>
    unfold recordOf at h
    simp only [hcoinstake] at h
    cases h
    exact ⟨Int.le_refl _, hp.money⟩

namespace Machine

variable {ε : Type} {p : Params} {w : WorkingSet} {before after : Table OutPoint Coin}

/-! ## Shape -/

/-- No proof-of-work block stands above the last height that allows one. -/
def checkLastWork (b : Block) (p : Params) (height : Nat) : Checked Rejection Unit := do
  let stake ← isProofOfStake b
  if !stake && !p.allowsWorkAt height then .error (.failure .workAfterLastWorkBlock) else .ok ()

theorem checkLastWork_eq (b : Block) (p : Params) (height : Nat) :
    checkLastWork b p height = .of (b.checkLastWork p height) := by
  rw [checkLastWork, isProofOfStake_eq, checked_ok_bind, Block.checkLastWork, Block.isProofOfWork]
  split
  · rfl
  · rfl

/-- A coinstake stands only in second place, and then the coinbase pays nothing and the time has no
bit of the mask. -/
def checkCoinstakeShape (b : Block) (p : Params) : Checked Rejection Unit := do
  let stake ← isProofOfStake b
  let others := if stake then b.transactions.drop 2 else b.transactions
  let second ← others.anyM isCoinstake
  if second then .error (.failure .secondCoinstake)
  else if !stake then .ok ()
  else
    let coinbase ← .of b.first
    .of (Block.checkEmptyCoinbase coinbase)
    if b.header.time &&& p.stakeTimeMask ≠ 0 then .error (.failure .timeNotMasked) else .ok ()

theorem checkCoinstakeShape_eq (b : Block) (p : Params) :
    checkCoinstakeShape b p = .of (b.checkCoinstakeShape p) := by
  rw [checkCoinstakeShape, isProofOfStake_eq, checked_ok_bind, Block.checkCoinstakeShape]
  dsimp only
  generalize (if b.isProofOfStake = true then _ else _) = others
  rw [anyM_ok fun tx _ => isCoinstake_eq tx, checked_ok_bind]
  split
  · rfl
  split
  · rfl
  · refine Checked.bind_of rfl fun coinbase _ => Checked.bind_of rfl fun _ _ => ?_
    split
    · rfl
    · rfl

/-! ## Cold staking -/

/-- All outputs return to `source`, save those that carry a key. -/
def returnTo (source : Script) : List TxOut → Checked ε Bool
  | [] => .ok true
  | o :: rest => do
    let carries ← carriesKey o.script
    if carries || o.script == source then returnTo source rest else .ok false

theorem returnTo_eq (source : Script) (os : List TxOut) :
    (returnTo source os : Checked ε _)
      = .ok (os.all fun o => o.script.carriesKey || o.script == source) := by
  induction os with
  | nil => rfl
  | cons o rest ih =>
    rw [returnTo, carriesKey_eq, checked_ok_bind, List.all_cons]
    cases o.script.carriesKey || o.script == source with
    | false => rfl
    | true => exact ih

/-- The sum of the values of the inputs that are there. -/
def valueIn (w : WorkingSet) (tx : Transaction) : Checked ε Int :=
  Word.i64.addInts 0 ((tx.inputs.filterMap fun i => w.coin? i.prevout).map Coin.amount)

theorem valueIn_eq (hw : w.Tracks before after) (hafter : after.Nonnegative)
    (hvalue : after.value ≤ 0x7fffffffffffffff) {tx : Transaction}
    (hdistinct : (tx.inputs.map TxIn.prevout).Nodup) :
    (valueIn w tx : Checked ε Int) = .ok (w.valueIn tx).toInt := by
  have hle := WorkingSet.totalAmount_inputs_le_value hw hafter hdistinct
  have hnonneg : ∀ c ∈ tx.inputs.filterMap fun i => w.coin? i.prevout, 0 ≤ c.amount := by
    intro c hc
    obtain ⟨i, -, hcoin⟩ := List.mem_filterMap.1 hc
    exact hafter i.prevout c (hw.getElem?_of_coin? hcoin)
  have hnonneg' := totalAmount_nonneg (List.forall_mem_map.2 hnonneg)
  rw [valueIn, WorkingSet.valueIn]
  generalize tx.inputs.filterMap (fun i => w.coin? i.prevout) = coins at *
  have hamounts : (coins.map fun c => c.output.value).map Int64.toInt = coins.map Coin.amount :=
    List.map_map
  rw [toInt_totalWord_of_fits (by rw [hamounts]; exact ⟨by omega, by omega⟩), hamounts,
    Word.addInts_ok (by decide) (List.forall_mem_map.2 hnonneg)
    (by rw [Int.zero_add, Word.greatest]; omega), Int.zero_add]

/-- A coinstake that spends a cold-staking coin spends only coins of one script, pays only to that
script and does not lessen the balance. -/
def checkColdStake (w : WorkingSet) (tx : Transaction) : Checked Rejection Unit := do
  let scripts ← .of (Staking.inputScripts w tx)
  let cold ← scripts.anyM isColdStaking
  if !cold then .ok ()
  else
    let source ← element scripts 0
    if scripts.any fun s => s != source then .error (.failure .coldStakeInputsDiffer)
    else
      let returned ← returnTo source (tx.outputs.drop 1)
      if !returned then .error (.failure .coldStakeOutputElsewhere)
      else
        let valueIn ← valueIn w tx
        let valueOut ← totalOut tx
        if valueOut < valueIn then .error (.failure .coldStakeShrinks) else .ok ()

theorem checkColdStake_eq (hp : p.Limited) (hw : w.Tracks before after)
    (hafter : after.Nonnegative) (hvalue : after.value ≤ 0x7fffffffffffffff) {tx : Transaction}
    (htx : tx.Checked p) : checkColdStake w tx = .of (Staking.checkColdStake w tx) := by
  refine Checked.bind_of rfl fun scripts _ => ?_
  rw [anyM_ok fun s _ => isColdStaking_eq s, checked_ok_bind]
  cases scripts with
  | nil => rfl
  | cons source rest =>
    dsimp only
    split
    · rfl
    · rw [element_ok (show (source :: rest)[0]? = some source from rfl), checked_ok_bind,
        List.any_cons, bne_self_eq_false, Bool.false_or]
      split
      · rfl
      · rw [returnTo_eq, checked_ok_bind]
        change (if (!Staking.returnsTo source tx) = true then _ else _) = _
        split
        · rfl
        · rw [valueIn_eq hw hafter hvalue htx.distinct, checked_ok_bind, totalOut_eq htx hp,
            checked_ok_bind, ← htx.toInt_totalOutWord hp.room]
          by_cases hshrinks : tx.totalOutWord < w.valueIn tx
          · rw [if_pos (Int64.lt_iff_toInt_lt.1 hshrinks), if_pos hshrinks]
            rfl
          · rw [if_neg (mt Int64.lt_iff_toInt_lt.2 hshrinks), if_neg hshrinks]
            rfl

/-! ## Kernels -/

/-- The digest of the kernel, where it meets the target weighted by the staked value. -/
def checkKernel (target : Nat) (modifier : Digest) (staked : Coin) (prevout : OutPoint)
    (time : UInt32) : Checked Rejection Digest :=
  if time < Stake.coinTime staked then .error (.failure .kernelBeforeCoins)
  else if staked.amount ≤ 0 then .error (.failure .weightlessStake)
  else do
    let proof := Stake.kernelDigest modifier (Stake.coinTime staked) prevout time
    let weight ← Word.u64.int staked.amount
    if target * weight.toNat < proof.toNat then .error (.failure .kernelAboveTarget)
    else .ok proof

theorem checkKernel_eq (target : Nat) (modifier : Digest) {staked : Coin}
    (hstaked : staked.amount ≤ 0x7fffffffffffffff) (prevout : OutPoint) (time : UInt32) :
    checkKernel target modifier staked prevout time
      = .of (Stake.checkKernel target modifier staked prevout time) := by
  unfold checkKernel Stake.checkKernel
  split
  · rfl
  split
  · rfl
  · rw [Word.int_ok (by rw [Word.least]; omega) (by rw [Word.greatest]; omega), checked_ok_bind]
    dsimp only
    split
    · rfl
    · rfl

/-- The kernel of a coinstake with the staked outpoint `prevout`. -/
def checkStake (p : Params) (header : Header) (height : Nat) (previous : StakeRecord)
    (w : WorkingSet) (coinstake : Transaction) (prevout : OutPoint) :
    Checked Rejection Staking.Kernel :=
  match w.coin? prevout with
  | none => .error (.failure .stakedCoinUnavailable)
  | some staked =>
    if height - staked.height < p.stakeMinConfirmations then .error (.failure .stakeTooRecent)
    else if header.time < Stake.coinTime staked then .error (.failure .coinstakeBeforeCoins)
    else do
      let target ← (decode header.bits).relabel fun _ => .undecodableBits
      let proof ← checkKernel target previous.modifier staked prevout header.time
      let valueIn ← sumInputs p w height 0 coinstake.inputs
      .ok ⟨proof, Stake.nextModifier (some previous.modifier) prevout.txid, valueIn⟩

theorem checkStake_eq (hp : p.Limited) (hw : w.Tracks before after)
    (hafter : after.All (Coin.InRange p)) (header : Header) (height : Nat)
    (previous : StakeRecord) (coinstake : Transaction) (prevout : OutPoint) :
    checkStake p header height previous w coinstake prevout
      = .of (Staking.checkStake p header height previous w coinstake prevout) := by
  rw [checkStake, Staking.checkStake]
  cases hstaked : w.coin? prevout with
  | none => rfl
  | some staked =>
    have hamount := (hw.inRange hafter hstaked).amount
    have hmoney := hp.money'
    dsimp only
    split
    · rfl
    split
    · rfl
    · rw [decode_eq, Checked.relabel_of]
      cases header.bits.decode with
      | error e => rfl
      | ok target =>
        refine Checked.bind_of (checkKernel_eq target previous.modifier (by omega) prevout
          header.time) fun proof _ => ?_
        exact Checked.bind_of (sumInputs_eq hp hw hafter ⟨Int.le_refl _, hp.money⟩) fun _ _ => rfl

/-- The stake record of a block with digest `digest`, and the value of its staked inputs. -/
def recordOf (p : Params) (b : Block) (digest : Digest) (height : Nat) (previous : StakeRecord)
    (w : WorkingSet) : Checked Rejection (StakeRecord × Int) := do
  let record ← stakeRecord b
  let stake ← isProofOfStake b
  if stake then
    let coinstake ← element b.transactions 1
    let first ← element coinstake.inputs 0
    let k ← checkStake p b.header height previous w coinstake first.prevout
    .ok ({ record with proof := k.proof, modifier := k.modifier }, k.valueIn)
  else
    let modifier := Stake.nextModifier (some previous.modifier) digest
    .ok ({ record with proof := digest, modifier }, 0)

theorem recordOf_eq (hp : p.Limited) (hw : w.Tracks before after)
    (hafter : after.All (Coin.InRange p)) (b : Block) (digest : Digest) (height : Nat)
    (previous : StakeRecord) :
    recordOf p b digest height previous w
      = .of (Staking.recordOf p b digest height previous w) := by
  rw [recordOf, stakeRecord_eq, checked_ok_bind, isProofOfStake_eq, checked_ok_bind,
    Staking.recordOf]
  cases htx : b.coinstake? with
  | none =>
    rw [if_neg (Bool.eq_false_iff.1 (Block.isProofOfStake_of_coinstake?_eq_none htx))]
    rfl
  | some tx =>
    obtain ⟨i, hi, hprevout⟩ := element_staked htx
    rw [if_pos (Block.isProofOfStake_of_coinstake? htx), element_coinstake htx, checked_ok_bind, hi,
      checked_ok_bind]
    dsimp only
    rw [hprevout]
    exact Checked.bind_of (checkStake_eq hp hw hafter b.header height previous tx i.prevout)
      fun _ _ => rfl

/-! ## Rewards -/

/-- The share of a reward, rounded toward zero. -/
def share (s : RewardSplit) (reward : Int) : Checked ε Int := do
  let part ← Word.i64.int (reward * s.percentage)
  divideInt part 100

/-- The share of the reward that the network claims is paid to its script. -/
def checkSplit (p : Params) (tx : Transaction) (reward : Int) : Checked Rejection Unit :=
  match p.rewardSplit with
  | none => .ok ()
  | some split => do
    let required ← share split reward
    let paid ← Word.i64.addInts 0
      ((tx.outputs.filter fun o => o.script == split.script).map TxOut.amount)
    if paid < required then .error (.failure .rewardSplitUnpaid) else .ok ()

theorem totalAmount_filter_outputs_le (outs : List TxOut) (f : TxOut → Bool)
    (h : ∀ o ∈ outs, 0 ≤ o.amount) :
    totalAmount ((outs.filter f).map TxOut.amount) ≤ totalAmount (outs.map TxOut.amount) := by
  induction outs with
  | nil => exact Int.le_refl _
  | cons o outs ih =>
    obtain ⟨ho, houts⟩ := List.forall_mem_cons.1 h
    have hle := ih houts
    rw [List.filter_cons, List.map_cons, totalAmount_cons]
    split
    · rw [List.map_cons, totalAmount_cons]
      omega
    · omega

theorem checkSplit_eq (hp : p.Limited) (hreward : p.Rewarding) {tx : Transaction}
    (htx : tx.Checked p) {reward : Int} (hlow : 0 ≤ reward) (hhigh : reward ≤ 0x7fffffffffffff) :
    checkSplit p tx reward = .of (Staking.checkSplit p tx reward) := by
  have hmoney := hp.money'
  unfold checkSplit Staking.checkSplit
  cases hsplit : p.rewardSplit with
  | none => rfl
  | some split =>
    have hpercentage := hreward.split split hsplit
    have hpart : reward * split.percentage ≤ 0x7fffffffffffff * 0xff :=
      Int.mul_le_mul hhigh (Int.ofNat_le.2 hpercentage) (Int.natCast_nonneg _) (by decide)
    have hpart' : 0 ≤ reward * split.percentage := Int.mul_nonneg hlow (Int.natCast_nonneg _)
    have hpaid := totalAmount_filter_outputs_le tx.outputs (fun o => o.script == split.script)
      htx.amount_nonneg
    have hout := htx.totalOut_le hp.room
    rw [Transaction.totalOut] at hout
    dsimp only
    rw [share, Word.i64_ok (by omega) (by omega), checked_ok_bind, divideInt_ok (by decide),
      checked_ok_bind, Word.addInts_ok (by decide)
        (List.forall_mem_map.2 fun o ho => htx.amount_nonneg o (List.mem_filter.1 ho).1)
        (by rw [Int.zero_add, Word.greatest]; omega), checked_ok_bind, Int.zero_add]
    change (if _ < split.share reward then _ else _) = _
    split
    · rfl
    · rfl

/-- The reward of the kind of the block, with the fees, bounds what the block creates. -/
def checkReward (p : Params) (b : Block) (height : Nat) (fees stakeIn : Int) :
    Checked Rejection Unit := do
  let coinbase ← .of b.first
  let paid ← totalOut coinbase
  let stake ← isProofOfStake b
  if stake then
    if paid ≠ 0 then .error (.failure .coinbasePaysBesideStake)
    else
      let reward := p.stakeRewardAt height
      let coinstake ← element b.transactions 1
      let out ← totalOut coinstake
      let gained ← Word.i64.int (out - stakeIn)
      let most ← Word.i64.int (fees + reward)
      if most < gained then .error (.failure .coinstakeOverpays)
      else checkSplit p coinstake reward
  else
    let reward ← workRewardAt p height
    let most ← Word.i64.int (fees + reward)
    if most < paid then .error (.failure .coinbaseOverpays) else checkSplit p coinbase reward

theorem checkReward_eq (hp : p.Limited) (hreward : p.Rewarding) {b : Block}
    (htxs : ∀ tx ∈ b.transactions, tx.Checked p) {height : Nat} {fees stakeIn : Int}
    (hfees : 0 ≤ fees ∧ fees ≤ p.maxMoney) (hstake : 0 ≤ stakeIn ∧ stakeIn ≤ p.maxMoney) :
    checkReward p b height fees stakeIn = .of (Staking.checkReward p b height fees stakeIn) := by
  have hmoney := hp.money'
  refine Checked.bind_of rfl fun coinbase hfirst => ?_
  obtain ⟨rest, hb⟩ := Block.first_ok hfirst
  have hcoinbase := htxs coinbase (hb ▸ List.mem_cons_self)
  rw [totalOut_eq hcoinbase hp, checked_ok_bind, isProofOfStake_eq, checked_ok_bind]
  cases htx : b.coinstake? with
  | none =>
    obtain ⟨hlow, hhigh⟩ := workRewardAt_inRange hreward height
    rw [if_neg (Bool.eq_false_iff.1 (Block.isProofOfStake_of_coinstake?_eq_none htx)),
      workRewardAt_eq, checked_ok_bind, Word.i64_ok (by omega) (by omega), checked_ok_bind]
    dsimp only
    rw [wrappedSum_eq (by omega)]
    split
    · rfl
    · exact checkSplit_eq hp hreward hcoinbase hlow hhigh
  | some tx =>
    obtain ⟨hlow, hhigh⟩ := stakeRewardAt_inRange hreward height
    obtain ⟨first, others, hb', -⟩ := Block.coinstake?_eq_some htx
    have hmem : tx ∈ b.transactions := hb' ▸ List.mem_cons_of_mem _ List.mem_cons_self
    have hout := (htxs tx hmem).totalOut_nonneg
    have hout' := (htxs tx hmem).totalOut_le hp.room
    rw [if_pos (Block.isProofOfStake_of_coinstake? htx)]
    dsimp only
    split
    · rfl
    · rw [element_coinstake htx, checked_ok_bind,
        totalOut_eq (htxs tx hmem) hp, checked_ok_bind, Word.i64_ok (by omega) (by omega),
        checked_ok_bind, Word.i64_ok (by omega) (by omega), checked_ok_bind]
      rw [wrappedSum_eq (by omega)]
      split
      · rfl
      · exact checkSplit_eq hp hreward (htxs tx hmem) hlow hhigh

end Machine

end Chainstate
