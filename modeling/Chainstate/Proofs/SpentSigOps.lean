-- SUMMARY: Signature operations: what the total that is compared with the limit adds up to.
import Chainstate.Network
import Chainstate.Proofs.Spending
import Chainstate.Script.Template

/-!
# Signature operations of spent scripts

The operations of a script count in the transaction that writes it. A redeem script is written as
data, in the input that spends its hash, so its operations count there. A spent script that hides no
other counts as well, a second time, in every transaction that spends it. The total at a transaction
is therefore that of all that has been written and hidden and a remainder, which is zero exactly
where no spent script that hides no other has an operation (`Spending.sigOps_compared`).
-/

namespace Chainstate

/-! ## Scripts -/

namespace Script

/-- The redeem script that an input shows: data at the end of an input that only pushes. -/
def redeem? (input : Script) : Option Script :=
  match input.instructions.getLast? with
  | some (.push data) => if input.isPushOnly then some ⟨data⟩ else none
  | _ => none

def redeemSigOps (input : Script) : Nat :=
  match input.redeem? with
  | some redeem => redeem.sigOps true
  | none => 0

/-- The operations that a script hides behind a hash, and that `input` shows. -/
def hiddenSigOps (s input : Script) : Nat :=
  if s.isPayToScriptHash then input.redeemSigOps else 0

/-- The operations of a script that hides no other. -/
def openSigOps (s : Script) : Nat := if s.isPayToScriptHash then 0 else s.sigOps true

/-- A push of data or of a number. -/
def pushes : Instruction → Bool
  | .push _ => true
  | .op code => code == Opcode.negate1 || Opcode.isSmallNumber code
  | .truncated => false

/-- The data of a push; a number counts as no data. -/
def pushed : Instruction → Bytes
  | .push data => data
  | .op _ => []
  | .truncated => []

theorem isPushOnly_eq (s : Script) : s.isPushOnly = s.instructions.all pushes := rfl

/-- The last push of a list that only pushes, where `redeem` has been pushed before. -/
theorem lastPush_eq (redeem : Bytes) (is : List Instruction) :
    lastPush redeem is
      = if is.all pushes then some ((is.getLast?.map pushed).getD redeem) else none := by
  induction is generalizing redeem with
  | nil => rfl
  | cons i rest ih =>
    have hlast : ((i :: rest).getLast?.map pushed).getD redeem
        = (rest.getLast?.map pushed).getD (pushed i) := by
      rw [List.getLast?_cons]
      cases rest.getLast? with
      | none => rfl
      | some last => rfl
    rw [hlast, List.all_cons]
    cases i with
    | push data => rw [lastPush, ih, pushes, pushed, Bool.true_and]
    | op code =>
      rw [lastPush, ih, pushes, pushed]
      cases code == Opcode.negate1 || Opcode.isSmallNumber code with
      | true => rw [Bool.true_and, if_pos rfl]
      | false => rw [Bool.false_and, if_neg Bool.false_ne_true, if_neg Bool.false_ne_true]
    | truncated => rfl

/-- What is counted of an input that spends a hash is the redeem script that it shows. -/
theorem redeemSigOps_eq (input : Script) :
    input.redeemSigOps = match lastPush [] input.instructions with
      | some redeem => sigOps ⟨redeem⟩ true
      | none => 0 := by
  rw [lastPush_eq, redeemSigOps, redeem?, isPushOnly_eq]
  cases input.instructions.all pushes with
  | false =>
    cases input.instructions.getLast? with
    | none => rfl
    | some i => cases i <;> rfl
  | true =>
    cases input.instructions.getLast? with
    | none => exact (sigOps_empty true).symm
    | some i =>
      cases i with
      | push data => rfl
      | op code => exact (sigOps_empty true).symm
      | truncated => exact (sigOps_empty true).symm

/-- Spending a script adds what it hides and what it writes. -/
theorem spendingSigOps_eq_add (s input : Script) :
    s.spendingSigOps input = s.hiddenSigOps input + s.openSigOps := by
  rw [spendingSigOps, hiddenSigOps, openSigOps, redeemSigOps_eq]
  cases s.isPayToScriptHash with
  | true => rfl
  | false => exact (Nat.zero_add _).symm

end Script

/-! ## Inputs -/

namespace WorkingSet

variable {w : WorkingSet} {tx : Transaction} {count : Script → Script → Nat}

/-- A count over the scripts that a transaction spends, each with the script of its input. -/
def totalSpent (w : WorkingSet) (count : Script → Script → Nat) (tx : Transaction) : Nat :=
  totalCount (tx.inputs.map fun i =>
    match w.coin? i.prevout with
    | some c => count c.output.script i.script
    | none => 0)

theorem totalSpent_add (count count' : Script → Script → Nat) :
    w.totalSpent (fun s input => count s input + count' s input) tx
      = w.totalSpent count tx + w.totalSpent count' tx := by
  unfold totalSpent
  rw [← totalCount_map_add]
  refine congrArg totalCount (List.map_congr_left fun i _ => ?_)
  cases w.coin? i.prevout with
  | none => rfl
  | some c => rfl

theorem totalSpent_eq_zero : w.totalSpent count tx = 0 ↔ ∀ i ∈ tx.inputs, ∀ c,
    w.coin? i.prevout = some c → count c.output.script i.script = 0 := by
  rw [totalSpent, totalCount_map_eq_zero]
  refine forall₂_congr fun i _ => ?_
  cases w.coin? i.prevout with
  | none => simp
  | some c => simp

end WorkingSet

/-! ## Blocks -/

namespace Spending

/-- A transaction with the coins that it finds. -/
structure Stage where
  coins : WorkingSet
  tx : Transaction

namespace Stage

/-- A count over the scripts that are spent. A coinbase spends none. -/
def spent (s : Stage) (count : Script → Script → Nat) : Nat :=
  if s.tx.isCoinbase then 0 else s.coins.totalSpent count s.tx

/-- The operations that the transaction writes, and those hidden in what it spends. -/
def sigOps (s : Stage) : Nat := s.tx.sigOps + s.spent Script.hiddenSigOps

/-- The operations of open scripts, which have counted before, where they were written. -/
def recounted (s : Stage) : Nat := s.spent fun script _ => script.openSigOps

variable {s : Stage}

theorem sigOps_add_recounted (s : Stage) :
    s.tx.sigOps + s.spent Script.spendingSigOps = s.sigOps + s.recounted := by
  rw [sigOps, recounted, spent, spent, spent]
  split
  · rfl
  · rw [Nat.add_assoc, ← WorkingSet.totalSpent_add,
      funext fun script => funext fun input => Script.spendingSigOps_eq_add script input]

theorem recounted_eq_zero : s.recounted = 0 ↔ s.tx.isCoinbase = false → ∀ i ∈ s.tx.inputs, ∀ c,
    s.coins.coin? i.prevout = some c → c.output.script.isPayToScriptHash = false →
      c.output.script.sigOps true = 0 := by
  rw [recounted, spent]
  cases s.tx.isCoinbase with
  | true => simp
  | false => simp [WorkingSet.totalSpent_eq_zero, Script.openSigOps]

end Stage

/-- The transactions of a block, each with the coins that the ones before it have left. -/
def stages (height : Nat) (time : Option UInt32) : List Transaction → WorkingSet → List Stage
  | [], _ => []
  | tx :: rest, w =>
    ⟨w, tx⟩ :: stages height time rest (endState (WorkingSet.apply tx height time w))

variable {p : Params} {height : Nat} {bip30 : Bool} {time : Option UInt32} {w w' : WorkingSet}
  {t t' : Tally} {tx : Transaction} {txs : List Transaction}

theorem sigOps_of_add (h : t.add p w height tx = .ok t') :
    t'.sigOps = t.sigOps + (Stage.sigOps ⟨w, tx⟩ + Stage.recounted ⟨w, tx⟩) := by
  rw [Tally.sigOps_of_add h, ← Stage.sigOps_add_recounted]
  rfl

/-- Transactions that are connected reach their stages, and the tally counts each. -/
theorem stages_of_connected (tx : Transaction)
    (h : txs.foldlM (connectTransaction p height bip30 time) t w = .ok t' w') :
    stages height time (txs ++ [tx]) w = stages height time txs w ++ [⟨w', tx⟩]
      ∧ t'.sigOps = t.sigOps + totalCount ((stages height time txs w).map fun s =>
        s.sigOps + s.recounted) := by
  induction txs generalizing w t with
  | nil =>
    rw [List.foldlM_nil, step_pure_ok] at h
    obtain ⟨rfl, rfl⟩ := h
    exact ⟨rfl, rfl⟩
  | cons first rest ih =>
    rw [List.foldlM_cons, step_bind_ok] at h
    obtain ⟨t₁, w₁, hfirst, hrest⟩ := h
    obtain ⟨hcheck, happly⟩ := connectTransaction_run hfirst
    obtain ⟨-, hadd, -⟩ := checkTransaction_ok hcheck
    obtain ⟨hstages, htotal⟩ := ih hrest
    rw [List.cons_append, stages, stages, happly, endState_ok, hstages]
    refine ⟨rfl, ?_⟩
    rw [htotal, sigOps_of_add hadd, List.map_cons, totalCount_cons, Nat.add_assoc]

/-- A transaction that passes all other checks is refused for its operations exactly where the total
is above the limit. -/
theorem connectTransaction_tooManySigOps (hnew : (bip30 && overwrites w tx) = false)
    (hadd : t.add p w height tx = .ok t') :
    connectTransaction p height bip30 time t tx w = .error (.rejected .tooManySigOps) w
      ↔ p.maxBlockSigOpsCost < t'.sigOps * p.witnessScaleFactor := by
  have hcheck : checkTransaction p height bip30 w t tx
      = if p.maxBlockSigOpsCost < t'.sigOps * p.witnessScaleFactor then .error .tooManySigOps
        else .ok t' := by
    rw [checkTransaction, hnew, hadd]
    rfl
  rw [connectTransaction, step_get_bind, hcheck]
  by_cases hlimit : p.maxBlockSigOpsCost < t'.sigOps * p.witnessScaleFactor
  · rw [if_pos hlimit]
    exact iff_of_true rfl hlimit
  · rw [if_neg hlimit]
    refine iff_of_false (fun h => ?_) hlimit
    -- What goes wrong in applying a transaction is a fault and no rejection.
    rcases step_bind_error.1 h with h | ⟨_, _, -, h⟩
    · unfold EStateM.adaptExcept at h
      cases happly : WorkingSet.apply tx height time w with
      | ok _ _ =>
        rw [happly] at h
        cases h
      | error _ _ =>
        rw [happly] at h
        cases h
    · cases h

/-- What is compared with the limit at a transaction, after any transactions that have been
connected to any coins. The total is what is written and what is hidden up to there, and the open
scripts that are spent, which are counted again. It is the former alone exactly where no transaction
spends an open script with an operation. -/
theorem sigOps_compared
    (hbefore : txs.foldlM (connectTransaction p height bip30 time) Tally.zero w = .ok t w')
    (hnew : (bip30 && overwrites w' tx) = false) (hadd : t.add p w' height tx = .ok t') :
    ∃ all, stages height time (txs ++ [tx]) w = all
      ∧ t'.sigOps = totalCount (all.map Stage.sigOps) + totalCount (all.map Stage.recounted)
      ∧ (connectTransaction p height bip30 time t tx w' = .error (.rejected .tooManySigOps) w'
        ↔ p.maxBlockSigOpsCost < t'.sigOps * p.witnessScaleFactor)
      ∧ (t'.sigOps = totalCount (all.map Stage.sigOps) ↔ ∀ s ∈ all, s.tx.isCoinbase = false →
        ∀ i ∈ s.tx.inputs, ∀ c, s.coins.coin? i.prevout = some c →
          c.output.script.isPayToScriptHash = false → c.output.script.sigOps true = 0) := by
  obtain ⟨hstages, hcount⟩ := stages_of_connected tx hbefore
  have htotal : t'.sigOps = totalCount ((stages height time (txs ++ [tx]) w).map Stage.sigOps)
      + totalCount ((stages height time (txs ++ [tx]) w).map Stage.recounted) := by
    rw [sigOps_of_add hadd, hcount, ← totalCount_map_add, hstages, List.map_append,
      totalCount_append, List.map_singleton, totalCount_cons, totalCount_nil, Nat.add_zero]
    change 0 + _ + _ = _
    rw [Nat.zero_add]
  refine ⟨_, rfl, htotal, connectTransaction_tooManySigOps hnew hadd, ?_⟩
  rw [htotal, Nat.add_eq_left, totalCount_map_eq_zero]
  exact forall₂_congr fun _ _ => Stage.recounted_eq_zero

end Spending

/-! ## A spent key hash -/

namespace Regtest

/-- One operation fits into a block. -/
def oneSigOp : Params := { Params.regtest with maxBlockSigOpsCost := 4 }

/-- A coin for a key, and one for the hash of a script. -/
def lockedCoins : WorkingSet :=
  let coin (script : Script) : Coin := ⟨0, ⟨10, script⟩, false, false, none⟩
  let forKey := coin (.payToKeyHash (List.replicate 20 0x11))
  let forScript := coin ⟨[Opcode.hash160, 0x14] ++ List.replicate 20 0x09 ++ [Opcode.equal]⟩
  (WorkingSet.empty.put ⟨Digest.zero, 0⟩ ⟨some forKey, some forKey⟩).put ⟨Digest.zero, 1⟩
    ⟨some forScript, some forScript⟩

def openReward : Transaction :=
  ⟨1, [⟨OutPoint.null, ⟨[0x51, 0x00]⟩, 0xffffffff⟩], [⟨5000000000, ⟨[0x51]⟩⟩], 0⟩

/-- Spends both coins, the second one by a redeem script that checks a signature. -/
def unlocking : Transaction :=
  ⟨1, [⟨⟨Digest.zero, 0⟩, ⟨[]⟩, 0xffffffff⟩,
    ⟨⟨Digest.zero, 1⟩, ⟨[0x01, Opcode.checkSig]⟩, 0xffffffff⟩], [⟨20, ⟨[0x51]⟩⟩], 0⟩

/-- The coins after the reward. -/
def rewarded : WorkingSet :=
  endState (Spending.connectTransaction oneSigOp 1 true none Tally.zero openReward lockedCoins)

set_option maxRecDepth 10000

/-- Only the redeem script counts, which fits, and the block is refused for two operations. -/
theorem sigOps_compared_unlocking :
    [openReward].foldlM (Spending.connectTransaction oneSigOp 1 true none) Tally.zero lockedCoins
      = .ok ⟨0, 0⟩ rewarded
    ∧ Tally.add oneSigOp rewarded 1 ⟨0, 0⟩ unlocking = .ok ⟨0, 2⟩
    ∧ totalCount ((Spending.stages 1 none [openReward, unlocking] lockedCoins).map
      Spending.Stage.sigOps) = 1
    ∧ Spending.connectTransaction oneSigOp 1 true none ⟨0, 0⟩ unlocking rewarded
      = .error (.rejected .tooManySigOps) rewarded := by
  have hbefore : [openReward].foldlM (Spending.connectTransaction oneSigOp 1 true none) Tally.zero
      lockedCoins = .ok ⟨0, 0⟩ rewarded := by
    rw [List.foldlM_cons, step_bind_of_ok (eq_ok_of_value? (a := ⟨0, 0⟩) (by decide +kernel))]
    rfl
  have hadd : Tally.add oneSigOp rewarded 1 ⟨0, 0⟩ unlocking = .ok ⟨0, 2⟩ := by decide +kernel
  obtain ⟨_, -, -, hlimit, -⟩ := Spending.sigOps_compared hbefore (by decide +kernel) hadd
  exact ⟨hbefore, hadd, by decide +kernel, hlimit.2 (by decide)⟩

end Regtest

end Chainstate
