-- SUMMARY: Block contents on a machine: merkle levels, sums of outputs and of signature operations.
import Chainstate.Proofs.Machine.Forks
import Chainstate.Proofs.Machine.Templates
import Chainstate.Proofs.Spending
import Chainstate.Proofs.WireForm

/-!
# Block contents on a machine

What the rules on the contents of a block compute, in machine words. The levels of a merkle tree
are read by index; outputs and signature operations are added up. The sums fit because a
transaction that passes its own checks has a bounded size and outputs in range, and because a block
has a bounded number of transactions (`Params.Limited`, `Block.Sized`).
-/

namespace Chainstate

/-- Limits of blocks and amounts that keep sums in range. -/
structure Params.Limited (p : Params) : Prop where
  transaction : p.maxTransactionSize ≤ 0xffffff
  sigOps : p.maxBlockSigOpsCost ≤ 0xffffffff
  weight : 0 < p.witnessScaleFactor
  witness : p.witnessScaleFactor ≤ 0xff
  money : 0 ≤ p.maxMoney
  money' : p.maxMoney ≤ 0x3fffffffffffffff

theorem Params.Limited.room {p : Params} (hp : p.Limited) : p.maxMoney < Transaction.maxAmount :=
  Int.lt_of_le_of_lt hp.money' (by decide)

/-! ## Sizes -/

theorem totalCount_map_le_flatMap {α : Type} (f : α → Nat) (encode : α → Bytes) (xs : List α)
    (h : ∀ x, f x ≤ (encode x).length) : totalCount (xs.map f) ≤ (xs.flatMap encode).length := by
  induction xs with
  | nil => exact Nat.le_refl _
  | cons x xs ih =>
    have := h x
    rw [List.map_cons, totalCount_cons, List.flatMap_cons, List.length_append]
    omega

theorem le_totalCount {n : Nat} {ns : List Nat} (h : n ∈ ns) : n ≤ totalCount ns := by
  induction ns with
  | nil => cases h
  | cons m ns ih =>
    rw [totalCount_cons]
    rcases List.mem_cons.1 h with rfl | h
    · exact Nat.le_add_right _ _
    · exact Nat.le_trans (ih h) (Nat.le_add_left _ _)

theorem totalCount_le_mul {ns : List Nat} {k : Nat} (h : ∀ n ∈ ns, n ≤ k) :
    totalCount ns ≤ ns.length * k := by
  induction ns with
  | nil => exact Nat.zero_le _
  | cons n ns ih =>
    obtain ⟨hn, hns⟩ := List.forall_mem_cons.1 h
    have := ih hns
    rw [totalCount_cons, List.length_cons, Nat.succ_mul]
    omega

theorem totalCount_map_mul {α : Type} (k : Nat) (f : α → Nat) (xs : List α) :
    totalCount (xs.map fun x => k * f x) = k * totalCount (xs.map f) := by
  induction xs with
  | nil => rfl
  | cons x xs ih => rw [List.map_cons, totalCount_cons, ih, List.map_cons, totalCount_cons,
      Nat.mul_add]

theorem totalCount_map_mono {α : Type} {f g : α → Nat} (xs : List α) (h : ∀ x ∈ xs, f x ≤ g x) :
    totalCount (xs.map f) ≤ totalCount (xs.map g) := by
  induction xs with
  | nil => exact Nat.le_refl _
  | cons x xs ih =>
    obtain ⟨hx, hxs⟩ := List.forall_mem_cons.1 h
    have := ih hxs
    rw [List.map_cons, totalCount_cons, List.map_cons, totalCount_cons]
    omega

namespace Transaction

/-- The number of bytes of the scripts of a transaction. -/
def scriptBytes (tx : Transaction) : Nat :=
  totalCount (tx.inputs.map fun i => i.script.bytes.length)
    + totalCount (tx.outputs.map fun o => o.script.bytes.length)

theorem scriptBytes_le_size (tx : Transaction) : tx.scriptBytes ≤ tx.size := by
  have hins := totalCount_map_le_flatMap (fun i => i.script.bytes.length) TxIn.encode tx.inputs
    (fun i => by
      simp only [TxIn.encode, VarBytes.encode, List.length_append]
      omega)
  have houts := totalCount_map_le_flatMap (fun o => o.script.bytes.length) TxOut.encode tx.outputs
    (fun o => by
      simp only [TxOut.encode, VarBytes.encode, List.length_append]
      omega)
  simp only [scriptBytes, size, encode, encodeList, List.length_append]
  omega

theorem length_inputs_le_size (tx : Transaction) : tx.inputs.length ≤ tx.size := by
  have hins := totalCount_map_le_flatMap (fun _ => 1) TxIn.encode tx.inputs
    (fun i => by
      simp only [TxIn.encode, Encode.u32, List.length_append, Bytes.length_littleEndian]
      omega)
  have hcount : totalCount (tx.inputs.map fun _ => 1) = tx.inputs.length := by
    induction tx.inputs with
    | nil => rfl
    | cons i rest ih =>
      rw [List.map_cons, totalCount_cons, List.length_cons, ih, Nat.add_comm]
  simp only [size, encode, encodeList, List.length_append]
  omega

/-- A script has no more than twenty signature operations for each of its bytes. -/
theorem sigOps_le_size (tx : Transaction) : tx.sigOps ≤ 20 * tx.size := by
  have hins := totalCount_map_mono (f := fun i : TxIn => i.script.sigOps false) tx.inputs
    (fun i _ => Machine.scriptSigOps_le i.script false)
  have houts := totalCount_map_mono (f := fun o : TxOut => o.script.sigOps false) tx.outputs
    (fun o _ => Machine.scriptSigOps_le o.script false)
  have hle := scriptBytes_le_size tx
  rw [totalCount_map_mul] at hins houts
  rw [scriptBytes] at hle
  rw [sigOps]
  omega

end Transaction

/-! ## Amounts -/

namespace Machine

variable {ε : Type} {p : Params}

/-- The sum of the outputs of a transaction. -/
def totalOut (tx : Transaction) : Checked ε Int :=
  Word.i64.addInts 0 (tx.outputs.map TxOut.amount)

theorem totalOut_eq {tx : Transaction} (h : tx.Checked p) (hp : p.Limited) :
    (totalOut tx : Checked ε Int) = .ok tx.totalOut := by
  have hle := h.totalOut_le hp.room
  have hmoney := hp.money'
  rw [Transaction.totalOut] at hle ⊢
  rw [totalOut, Word.addInts_ok (by decide) (List.forall_mem_map.2 h.amount_nonneg)
    (by rw [Int.zero_add, Word.greatest]; omega), Int.zero_add]

/-! ## Merkle trees -/

/-- The right neighbour of the node before `next`: the node itself where the level ends. -/
def neighbour (level : List Digest) (left : Digest) (next : Nat) : Checked ε Digest :=
  if next < level.length then element level next else .ok left

/-- The level above from the index `i` on, and whether it pairs two equal neighbours. `n` bounds
the pairs. -/
def nextLevel (level : List Digest) : (n i : Nat) → Checked ε (List Digest × Bool)
  | 0, _ => .ok ([], false)
  | n + 1, i =>
    if level.length ≤ i then .ok ([], false)
    else do
      let left ← element level i
      let next ← Word.u64.nat (i + 1)
      let right ← neighbour level left next
      let i ← Word.u64.nat (i + 2)
      let above ← nextLevel level n i
      .ok (MerkleTree.parent left right :: above.1,
        decide (next < level.length) && left == right || above.2)

theorem nextLevel_eq {level : List Digest} (hlevel : level.length ≤ 0xffffffff) {n i : Nat}
    (hi : i ≤ level.length + 1) (hn : level.length ≤ i + 2 * n) :
    (nextLevel level n i : Checked ε _)
      = .ok (MerkleTree.pairUp (level.drop i), MerkleTree.hasEqualPair (level.drop i)) := by
  induction n generalizing i with
  | zero =>
    rw [List.drop_eq_nil_of_le (by omega)]
    rfl
  | succ n ih =>
    rw [nextLevel]
    split
    · next hend =>
      rw [List.drop_eq_nil_of_le hend]
      rfl
    · next hmore =>
      have hlt : i < level.length := Nat.lt_of_not_le hmore
      rw [element_ok (List.getElem?_eq_getElem hlt), checked_ok_bind, Word.u64_ok (by omega),
        checked_ok_bind, neighbour, List.drop_eq_getElem_cons hlt]
      by_cases hnext : i + 1 < level.length
      · rw [if_pos hnext, element_ok (List.getElem?_eq_getElem hnext), checked_ok_bind,
          Word.u64_ok (by omega), checked_ok_bind, ih (by omega) (by omega),
          List.drop_eq_getElem_cons hnext, decide_eq_true hnext, Bool.true_and]
        rfl
      · rw [if_neg hnext, checked_ok_bind, Word.u64_ok (by omega), checked_ok_bind,
          ih (by omega) (by omega), checked_ok_bind, decide_eq_false hnext, Bool.false_and,
          Bool.false_or, List.drop_eq_nil_of_le (show level.length ≤ i + 1 by omega),
          List.drop_eq_nil_of_le (show level.length ≤ i + 2 by omega)]
        rfl

/-- The root above a level. `n` bounds the levels. -/
def climb : (n : Nat) → (mutated : Bool) → List Digest → Checked ε MerkleRoot
  | 0, mutated, level => do
    let root ← element level 0
    .ok ⟨root, mutated⟩
  | n + 1, mutated, level =>
    if 1 < level.length then do
      let _ ← Word.u64.nat (level.length + 1)
      let above ← nextLevel level level.length 0
      climb n (mutated || above.2) above.1
    else do
      let root ← element level 0
      .ok ⟨root, mutated⟩

theorem climb_eq {n : Nat} {mutated : Bool} {level : List Digest} (hne : level ≠ [])
    (hlevel : level.length ≤ 0xffffffff) (hn : level.length ≤ n + 1) :
    (climb n mutated level : Checked ε _)
      = .ok ⟨(MerkleTree.root level).root, mutated || (MerkleTree.root level).mutated⟩ := by
  induction n generalizing mutated level with
  | zero =>
    rcases level with _ | ⟨a, _ | ⟨b, rest⟩⟩
    · exact absurd rfl hne
    · rw [MerkleTree.root, Bool.or_false]
      rfl
    · rw [List.length_cons, List.length_cons] at hn
      omega
  | succ n ih =>
    rcases level with _ | ⟨a, _ | ⟨b, rest⟩⟩
    · exact absurd rfl hne
    · rw [MerkleTree.root, Bool.or_false]
      rfl
    · have hlength := MerkleTree.length_pairUp (a :: b :: rest)
      rw [List.length_cons, List.length_cons] at hlength hn hlevel
      rw [climb, if_pos (by rw [List.length_cons, List.length_cons]; omega),
        Word.u64_ok (by rw [List.length_cons, List.length_cons]; omega), checked_ok_bind,
        nextLevel_eq (show (a :: b :: rest).length ≤ _ from hlevel) (Nat.zero_le _) (by omega),
        checked_ok_bind, List.drop_zero]
      have hpaired : MerkleTree.pairUp (a :: b :: rest) ≠ [] := by
        intro hnil
        rw [hnil, List.length_nil] at hlength
        omega
      change climb n _ (MerkleTree.pairUp (a :: b :: rest)) = _
      rw [ih hpaired (by omega) (by omega), MerkleTree.root, Bool.or_assoc]

def merkleRoot (b : Block) : Checked ε MerkleRoot :=
  let ids := b.transactions.map Transaction.txid
  if ids.isEmpty then .ok ⟨Digest.zero, false⟩ else climb ids.length false ids

theorem merkleRoot_eq {b : Block} (hb : b.Sized) :
    (merkleRoot b : Checked ε _) = .ok b.merkleRoot := by
  have hlength : (b.transactions.map Transaction.txid).length ≤ 0xffffffff := by
    have := hb.transactions.1
    rw [CompactSize.maxSize] at this
    rw [List.length_map]
    omega
  unfold merkleRoot Block.merkleRoot
  dsimp only
  split
  · next hempty =>
    rw [List.isEmpty_iff.1 hempty, MerkleTree.root]
  · next hne =>
    rw [climb_eq (fun h => hne (List.isEmpty_iff.2 h)) hlength (Nat.le_succ _), Bool.false_or]

/-- The header commits to the transactions, and to no other list of them. -/
def checkMerkleRoot (b : Block) : Checked Rejection Unit := do
  let computed ← merkleRoot b
  if computed.root ≠ b.header.merkleRoot then .error (.failure .merkleRootMismatch)
  else if computed.mutated then .error (.failure .duplicateTransaction)
  else .ok ()

theorem checkMerkleRoot_eq {b : Block} (hb : b.Sized) :
    checkMerkleRoot b = .of b.checkMerkleRoot := by
  rw [checkMerkleRoot, merkleRoot_eq hb, checked_ok_bind, Block.checkMerkleRoot]
  split
  · rfl
  split
  · rfl
  · rfl

/-! ## Times and heights -/

/-- The time that lock times are compared with. -/
def lockTimeCutoff (b : Block) (flags : DeploymentFlags) (c : Chain) : Checked ε UInt32 :=
  match c.parent? with
  | some parent =>
    if flags.lockTime.medianTimePast then medianTimePast parent else .ok b.header.time
  | none => .ok b.header.time

def checkLockTimes (b : Block) (flags : DeploymentFlags) (c : Chain) : Checked Rejection Unit := do
  let cutoff ← lockTimeCutoff b flags c
  if b.transactions.all fun tx => tx.isFinal c.height cutoff.toNat then .ok ()
  else .error (.failure .nonFinalTransaction)

theorem checkLockTimes_eq (b : Block) (flags : DeploymentFlags) (c : Chain) :
    checkLockTimes b flags c = .of (b.checkLockTimes flags c) := by
  have hcutoff : (lockTimeCutoff b flags c : Checked Rejection _)
      = .ok (b.lockTimeCutoff flags c) := by
    unfold lockTimeCutoff Block.lockTimeCutoff
    cases c.parent? with
    | none => rfl
    | some parent =>
      dsimp only
      split
      · exact medianTimePast_eq parent
      · rfl
  rw [checkLockTimes, hcutoff, checked_ok_bind, Block.checkLockTimes]
  split
  · rfl
  · rfl

/-- The coinbase starts with its block's height. -/
def checkCoinbaseHeight (b : Block) (height : Nat) : Checked Rejection Unit := do
  let height ← Word.i64.int height
  let expected ← pushNumber height
  if expected.isPrefixOf b.coinbaseScript then .ok ()
  else .error (.failure .wrongCoinbaseHeight)

theorem checkCoinbaseHeight_eq (b : Block) {height : Nat} (h : height ≤ 0xffffffff) :
    checkCoinbaseHeight b height = .of (b.checkCoinbaseHeight height) := by
  rw [checkCoinbaseHeight, Word.i64_ok (by omega) (by omega), checked_ok_bind, pushNumber_eq,
    checked_ok_bind, Block.checkCoinbaseHeight]
  split
  · rfl
  · rfl

/-! ## Transactions -/

/-- The first transaction is a coinbase and no other one is. -/
def checkCoinbasePosition (b : Block) : Checked Rejection Unit :=
  match b.transactions.head? with
  | none => .error (.failure .firstNotCoinbase)
  | some first => do
    let coinbase ← isCoinbase first
    if !coinbase then .error (.failure .firstNotCoinbase)
    else
      let rest ← slice b.transactions 1 b.transactions.length
      let second ← rest.anyM isCoinbase
      if second then .error (.failure .secondCoinbase) else .ok ()

theorem checkCoinbasePosition_eq (b : Block) :
    checkCoinbasePosition b = .of b.checkCoinbasePosition := by
  rw [checkCoinbasePosition, Block.checkCoinbasePosition]
  rcases b.transactions with _ | ⟨first, rest⟩
  · rfl
  · dsimp only [List.head?_cons]
    rw [isCoinbase_eq, checked_ok_bind]
    split
    · rfl
    · rw [slice_ok (by simp) (Nat.le_refl _), checked_ok_bind, List.take_length, List.drop_one,
        List.tail_cons, anyM_ok fun tx _ => isCoinbase_eq tx, checked_ok_bind]
      split
      · rfl
      · rfl

/-- The script of a coinbase has a length between 2 and 100; other transactions refer to outputs
with all their inputs. -/
def checkPrevouts (tx : Transaction) : Checked Rejection Unit := do
  let coinbase ← isCoinbase tx
  if coinbase then
    let i ← element tx.inputs 0
    if i.script.bytes.length < 2 ∨ 100 < i.script.bytes.length then
      .error (.failure .coinbaseScriptLength)
    else .ok ()
  else if tx.inputs.any fun i => i.prevout.isNull then .error (.failure .nullPrevout)
  else .ok ()

theorem checkPrevouts_eq {tx : Transaction} (h : tx.inputs ≠ []) :
    checkPrevouts tx = .of tx.checkPrevouts := by
  rw [checkPrevouts, isCoinbase_eq, checked_ok_bind, Transaction.checkPrevouts]
  split
  · obtain ⟨i, rest, hins⟩ := List.exists_cons_of_ne_nil h
    rw [hins, element_ok (show (i :: rest)[0]? = some i from rfl), checked_ok_bind]
    dsimp only [List.head?_cons, Option.elim_some]
    split
    · rfl
    · rfl
  split
  · rfl
  · rfl

/-- What needs nothing but the transaction itself. -/
def check (p : Params) (tx : Transaction) : Checked Rejection Unit :=
  if tx.inputs.isEmpty then .error (.failure .noInputs)
  else if tx.outputs.isEmpty then .error (.failure .noOutputs)
  else if p.maxTransactionSize < tx.size then .error (.failure .oversizeTransaction)
  else do
    .of (Transaction.checkValues p 0 tx.outputs)
    if ¬(tx.inputs.map TxIn.prevout).Nodup then .error (.failure .duplicateInputs)
    else checkPrevouts tx

theorem check_eq (p : Params) (tx : Transaction) : check p tx = .of (tx.check p) := by
  rw [check, Transaction.check]
  split
  · rfl
  · next hinputs =>
    split
    · rfl
    split
    · rfl
    · refine Checked.bind_of rfl fun _ _ => ?_
      split
      · rfl
      · exact checkPrevouts_eq (fun h => hinputs (List.isEmpty_iff.2 h))

def checkTransactions (p : Params) : List Transaction → Checked Rejection Unit
  | [] => .ok ()
  | tx :: rest => do
    check p tx
    checkTransactions p rest

theorem checkTransactions_eq (p : Params) (b : Block) :
    checkTransactions p b.transactions = .of (b.checkTransactions p) := by
  rw [Block.checkTransactions]
  induction b.transactions with
  | nil => rfl
  | cons tx rest ih => exact Checked.bind_of (check_eq p tx) fun _ _ => ih

/-! ## Signature operations -/

/-- The signature operations written in the transaction itself. -/
def writtenSigOps (tx : Transaction) : Checked ε Nat := do
  let counts ← tx.inputs.mapM fun i => scriptSigOps i.script false
  let ins ← Word.u64.addNats 0 counts
  let counts ← tx.outputs.mapM fun o => scriptSigOps o.script false
  let outs ← Word.u64.addNats 0 counts
  Word.u64.nat (ins + outs)

theorem writtenSigOps_eq {tx : Transaction} (h : tx.Sized) (hsize : tx.size ≤ 0xffffffff) :
    (writtenSigOps tx : Checked ε Nat) = .ok tx.sigOps := by
  have hle := tx.sigOps_le_size
  have hscript {s : Script} (hs : s.bytes.length ≤ CompactSize.maxSize) :
      (scriptSigOps s false : Checked ε Nat) = .ok (s.sigOps false) :=
    scriptSigOps_eq (Nat.le_trans hs (by decide)) false
  rw [Transaction.sigOps] at hle ⊢
  rw [writtenSigOps, mapM_ok (fun i hi => hscript (h.inputs.2 i hi)), checked_ok_bind,
    Word.addNats_ok (by rw [Word.greatest]; omega), checked_ok_bind,
    mapM_ok (fun o ho => hscript (h.outputs.2 o ho)), checked_ok_bind,
    Word.addNats_ok (by rw [Word.greatest]; omega), checked_ok_bind, Nat.zero_add, Nat.zero_add,
    Word.u64_ok (by omega)]

def checkSigOps (b : Block) (p : Params) : Checked Rejection Unit := do
  let counts ← b.transactions.mapM writtenSigOps
  let sigOps ← Word.u64.addNats 0 counts
  let weight ← Word.u64.nat (sigOps * p.witnessScaleFactor)
  if p.maxBlockSigOpsCost < weight then .error (.failure .tooManyWrittenSigOps) else .ok ()

theorem checkSigOps_eq {b : Block} (hb : b.Sized) (hp : p.Limited)
    (hchecked : ∀ tx ∈ b.transactions, tx.Checked p) :
    checkSigOps b p = .of (b.checkSigOps p) := by
  have hsize := hp.transaction
  have hwitness := hp.witness
  have hcount := hb.transactions.1
  rw [CompactSize.maxSize] at hcount
  have htx : ∀ tx ∈ b.transactions, tx.size ≤ 0xffffff :=
    fun tx h => Nat.le_trans (hchecked tx h).size hsize
  have hle : totalCount (b.transactions.map Transaction.sigOps)
      ≤ b.transactions.length * (20 * 0xffffff) := by
    rw [← List.length_map (f := Transaction.sigOps)]
    refine totalCount_le_mul (List.forall_mem_map.2 fun tx h => ?_)
    have := tx.sigOps_le_size
    have := htx tx h
    omega
  have hweight : totalCount (b.transactions.map Transaction.sigOps) * p.witnessScaleFactor
      ≤ 0x02000000 * (20 * 0xffffff) * 0xff :=
    Nat.mul_le_mul (Nat.le_trans hle (Nat.mul_le_mul_right _ hcount)) hwitness
  rw [checkSigOps, mapM_ok (g := Transaction.sigOps) (fun tx h => writtenSigOps_eq (hb.transactions.2 tx h)
      (Nat.le_trans (htx tx h) (by decide))), checked_ok_bind,
    Word.addNats_ok (by rw [Word.greatest]; omega), checked_ok_bind, Nat.zero_add,
    Word.u64_ok (by omega), checked_ok_bind, Block.checkSigOps]
  split
  · rfl
  · rfl

end Machine

end Chainstate
