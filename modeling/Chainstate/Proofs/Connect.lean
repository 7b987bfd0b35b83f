-- SUMMARY: Connecting a block to a coin database: what the coin rules have done when they pass.
import Chainstate.Proofs.Attempt

/-!
# Connected blocks

The coin rules of both kinds of network load the coins that a block touches, connect its
transactions, check what it creates and commit. `Connected` is what all of that means for the
database kept in memory: the block stands on the stored tip, its transactions have been applied to
the coins as the ledger applies them, and the new tip and the record that leads back are stored.
-/

namespace Chainstate

theorem Chain.height_of_parent? {c parent : Chain} (h : c.parent? = some parent) :
    c.height = parent.height + 1 := by
  cases c with
  | genesis header => cases h
  | extend header p =>
    rw [parent?_extend, Option.some.injEq] at h
    rw [height_extend, h]

/-- The database `db'` is `db` with a block connected on top of its tip. The transactions were
applied with the height of the block and `time`, spent coins that were deep enough, and left
`fees`. -/
structure Connected (p : Params) (c : Chain) (b : Block) (time : Option UInt32) (fees : Int)
    (db db' : MemoryStore) : Prop where
  parent : ∃ parent, c.parent? = some parent ∧ db.tip = some ⟨parent.digest, parent.height⟩
  tip : db'.tip = some ⟨c.digest, c.height⟩
  coins : Ledger.applyAll c.height time b.transactions db.coinTable = some db'.coinTable
  undo : ∀ old, db.tip = some old → db'.undoTable
    = db.undoTable.insert c.height (UndoRecord.between old db.coinTable db'.coinTable)
  fees : fees = Ledger.fees (Ledger.payments c.height time b.transactions db.coinTable)
  solvent : ∀ pay ∈ Ledger.payments c.height time b.transactions db.coinTable, 0 ≤ pay.fee
  mature : Ledger.Mature p c.height time b.transactions db.coinTable

/-! ## Loading and committing -/

/-- The outpoints of all transactions are loaded with the block. -/
theorem Attempt.covers_outPoints {w : WorkingSet} {b : Block} (h : w.Covers (touched b)) :
    ∀ tx ∈ b.transactions, w.Covers tx.outPoints := by
  intro tx htx o ho
  exact h o (List.mem_flatMap.2 ⟨tx, htx, List.mem_append_left _ ho⟩)

/-- The coins that the database gives for some outpoints are those of its table. -/
theorem MemoryStore.tracks_of_fetch (db : MemoryStore) {os : List OutPoint} {w : WorkingSet}
    (h : WorkingSet.load ((db.fetch os).toList.map fun oc => ⟨oc.1, oc.2⟩) .empty = .ok () w) :
    w.Tracks db.coinTable db.coinTable ∧ w.Covers os := by
  have hfetched {oc : OutPoint × Option Coin} :
      oc ∈ (db.fetch os).toList ↔ oc.1 ∈ os ∧ oc.2 = db.coinTable[oc.1]? := by
    rw [Std.ExtTreeMap.mem_toList_iff_getElem?_eq_some, getElem?_fetch]
    split
    · next ho => simp [ho, eq_comm]
    · next ho => simp [ho]
  obtain ⟨htracks, hcovers⟩ := WorkingSet.tracks_of_load (t := db.coinTable) (by
    intro c hc
    obtain ⟨oc, hoc, rfl⟩ := List.mem_map.1 hc
    exact (hfetched.1 hoc).2) h
  refine ⟨htracks, fun o ho => hcovers o ?_⟩
  rw [List.map_map]
  exact List.mem_map.2 ⟨(o, db.coinTable[o]?), hfetched.2 ⟨ho, rfl⟩, rfl⟩

namespace Attempt

variable {a a' : Attempt MemoryStore}

theorem loadView_ok {u : Unit} (h : loadView a = .ok u a') :
    ∃ b parent w, a.block = some b ∧ a.chain.parent? = some parent
      ∧ a.store.tip = some ⟨parent.digest, parent.height⟩
      ∧ w.Tracks a.store.coinTable a.store.coinTable ∧ w.Covers (touched b)
      ∧ a' = { a with view := some w } := by
  simp only [loadView, step_bind_ok, step_get_ok, getBlock_ok, parentTip_ok, trust_ok] at h
  obtain ⟨b, _, ⟨hb, rfl⟩, _, _, ⟨parent, hparent, rfl, rfl⟩, _, _, ⟨rfl, rfl⟩, tip, _,
    ⟨htip, rfl⟩, h⟩ := h
  cases htip
  split at h
  · simp only [step_bind_ok, step_throw_ok, false_and, exists_false] at h
  · next htip =>
    simp only [step_bind_ok, trust_ok] at h
    obtain ⟨fetched, _, ⟨hfetched, rfl⟩, h⟩ := h
    cases hfetched
    cases hload : WorkingSet.load ((a.store.fetch (touched b)).toList.map fun oc => ⟨oc.1, oc.2⟩)
        WorkingSet.empty with
    | error f w =>
      rw [hload] at h
      exact absurd h step_throw_ok
    | ok u w =>
      rw [hload, step_set_ok] at h
      obtain ⟨htracks, hcovers⟩ := a.store.tracks_of_fetch hload
      exact ⟨b, parent, w, hb, hparent, Decidable.not_not.1 htip, htracks, hcovers, h.symm⟩

/-- A commit of a working set that tracks the coins of the database has stored the coins as they are
now. -/
theorem commit_ok {w : WorkingSet} {db db' : MemoryStore} {after : Table OutPoint Coin}
    (h : w.Tracks db.coinTable after) (hafter : after.All fun c => c.isPrunable = false)
    {old new : Tip} (hcommit : CoinStore.commit db w.changes old new (w.undo old) = .ok db') :
    db' = { db with
      tip := some new
      coinTable := after
      undoTable := db.undoTable.insert (old.height + 1)
        (UndoRecord.between old db.coinTable after) } := by
  obtain ⟨htip, -, -⟩ := MemoryStore.tip_of_commit hcommit
  have hstored := WorkingSet.commit_of_tracks h (.of_all hafter) htip new
  exact Except.ok.inj (hcommit.symm.trans hstored)

/-- A block whose transactions have been connected to loaded coins, and then committed, is
connected to the database. -/
theorem connected_of_commit {c parent : Chain} {b : Block} {time : Option UInt32} {fees : Int}
    {w w' : WorkingSet} {db db' : MemoryStore} {p : Params} {bip30 : Bool}
    (hdb : db.coinTable.All fun coin => coin.isPrunable = false)
    (hparent : c.parent? = some parent)
    (htip : db.tip = some ⟨parent.digest, parent.height⟩)
    (htracks : w.Tracks db.coinTable db.coinTable) (hcovers : w.Covers (touched b))
    (hconnect : Spending.connect p c.height bip30 time b.transactions w = .ok fees w')
    (hcommit : CoinStore.commit db w'.changes ⟨parent.digest, parent.height⟩
      ⟨c.digest, c.height⟩ (w'.undo ⟨parent.digest, parent.height⟩) = .ok db') :
    Connected p c b time fees db db' := by
  obtain ⟨after, happly, htracks', -, hfees, hsolvent, hmature⟩ :=
    Spending.connect_ok htracks (covers_outPoints hcovers) hconnect
  have hafter : after.All fun coin => coin.isPrunable = false :=
    Ledger.applyAll_all happly hdb fun _ _ _ hoc => (Transaction.mem_createdCoins hoc).2.2
  have hdb' := commit_ok htracks' hafter hcommit
  subst hdb'
  refine ⟨⟨parent, hparent, htip⟩, rfl, happly, ?_, hfees, hsolvent, hmature⟩
  intro old hold
  rw [htip, Option.some.injEq] at hold
  subst hold
  rw [Chain.height_of_parent? hparent]

end Attempt

/-! ## The record of a block -/

/-- A coinstake has a first input. -/
theorem Transaction.head?_inputs_of_isCoinstake {tx : Transaction} (h : tx.isCoinstake = true) :
    ∃ i, tx.inputs.head? = some i := by
  unfold isCoinstake at h
  split at h
  · next i rest _ _ _ hins _ => exact ⟨i, by rw [hins, List.head?_cons]⟩
  · cases h

theorem Block.coinstake?_eq_some {b : Block} {tx : Transaction} (h : b.coinstake? = some tx) :
    ∃ coinbase rest, b.transactions = coinbase :: tx :: rest ∧ tx.isCoinstake = true := by
  unfold coinstake? at h
  split at h
  · next coinbase second rest htxs =>
    split at h
    · next hcoinstake =>
      cases h
      exact ⟨coinbase, rest, htxs, hcoinstake⟩
    · cases h
  · cases h

theorem Block.isProofOfStake_of_coinstake? {b : Block} {tx : Transaction}
    (h : b.coinstake? = some tx) : b.isProofOfStake = true := by
  rw [isProofOfStake, h, Option.isSome_some]

theorem Block.isProofOfStake_of_coinstake?_eq_none {b : Block} (h : b.coinstake? = none) :
    b.isProofOfStake = false := by
  rw [isProofOfStake, h, Option.isSome_none]

/-- A record that is called for and found. -/
theorem Retarget.require_ok {lookup : StakeLookup} {d : Digest} {record : StakeRecord}
    (h : StakeLookup.require lookup d = .ok record) : lookup d = .ok (some record) := by
  obtain ⟨found, hlookup, h⟩ := check_bind_ok.1 h
  cases found with
  | none => cases h
  | some r =>
    cases h
    exact hlookup

namespace Staking

/-- A kernel that has been checked: it is that of the staked coin under the modifier before, meets
the target that the header carries, and is worth the inputs of the coinstake. -/
structure KernelOf (p : Params) (header : Header) (height : Nat) (previous : StakeRecord)
    (w : WorkingSet) (tx : Transaction) (prevout : OutPoint) (staked : Coin) (target : Nat)
    (k : Kernel) : Prop where
  found : w.coin? prevout = some staked
  decodes : header.bits.decode = .ok target
  proof : Stake.checkKernel target previous.modifier staked prevout header.time = .ok k.proof
  modifier : k.modifier = Stake.nextModifier (some previous.modifier) prevout.txid
  valueIn : w.checkInputs p tx height = .ok k.valueIn

theorem checkStake_ok {p : Params} {header : Header} {height : Nat} {previous : StakeRecord}
    {w : WorkingSet} {tx : Transaction} {prevout : OutPoint} {k : Kernel}
    (h : checkStake p header height previous w tx prevout = .ok k) :
    ∃ staked target, KernelOf p header height previous w tx prevout staked target k := by
  unfold checkStake at h
  split at h
  · cases h
  · next staked hstaked =>
    split at h
    · cases h
    · split at h
      · cases h
      · split at h
        · cases h
        · next target hdecode =>
          simp only [check_bind_ok, check_pure_ok] at h
          obtain ⟨proof, hproof, valueIn, hvalue, rfl⟩ := h
          exact ⟨staked, target, hstaked, hdecode, hproof, rfl, hvalue⟩

/-- The record of a proof-of-stake block is made of its kernel. -/
theorem exists_kernel {p : Params} {b : Block} {digest : Digest} {height : Nat}
    {previous record : StakeRecord} {w : WorkingSet} {stakeIn : Int}
    (h : recordOf p b digest height previous w = .ok (record, stakeIn)) {tx : Transaction}
    (htx : b.coinstake? = some tx) :
    ∃ i k, tx.inputs.head? = some i
      ∧ checkStake p b.header height previous w tx i.prevout = .ok k ∧ stakeIn = k.valueIn
      ∧ record.flags = (StakeRecord.ofBlock b).flags ∧ record.modifier = k.modifier
      ∧ record.proof = k.proof := by
  obtain ⟨_, _, _, hcoinstake⟩ := Block.coinstake?_eq_some htx
  obtain ⟨i, hi⟩ := Transaction.head?_inputs_of_isCoinstake hcoinstake
  have hprevout : (StakeRecord.ofBlock b).prevout = some i.prevout := by
    simp [StakeRecord.ofBlock, htx, hi]
  unfold recordOf at h
  simp only [htx, hprevout, check_bind_ok, check_pure_ok, Prod.mk.injEq] at h
  obtain ⟨k, hkernel, rfl, rfl⟩ := h
  exact ⟨i, k, hi, hkernel, rfl, rfl, rfl, rfl⟩

/-- The record of a proof-of-work block is made of its digest. -/
theorem recordOf_work {p : Params} {b : Block} {digest : Digest} {height : Nat}
    {previous record : StakeRecord} {w : WorkingSet} {stakeIn : Int}
    (h : recordOf p b digest height previous w = .ok (record, stakeIn))
    (hwork : b.coinstake? = none) :
    record.flags = (StakeRecord.ofBlock b).flags
      ∧ record.modifier = Stake.nextModifier (some previous.modifier) digest
      ∧ record.proof = digest := by
  unfold recordOf at h
  simp only [hwork] at h
  cases h
  exact ⟨rfl, rfl, rfl⟩

/-- The value of the stake is that of the coins that the coinstake spends. -/
theorem recordOf_ok {p : Params} {b : Block} {digest : Digest} {height : Nat}
    {previous record : StakeRecord} {w : WorkingSet} {before after : Table OutPoint Coin}
    (htracks : w.Tracks before after) {stakeIn : Int}
    (h : recordOf p b digest height previous w = .ok (record, stakeIn)) {tx : Transaction}
    (htx : b.coinstake? = some tx) : stakeIn = Ledger.inputValue after tx.inputs := by
  obtain ⟨i, k, -, hkernel, rfl, -⟩ := exists_kernel h htx
  obtain ⟨staked, target, hkernel⟩ := checkStake_ok hkernel
  exact (WorkingSet.checkInputs_ok htracks hkernel.valueIn).1

end Staking

/-- The record of a block on top of one whose record is `previous`, where the coins are `t`. The
modifier mixes the one before with what the block stakes, or with its digest if it stakes nothing.
The proof of a staking block is the digest of the modifier before it, the time of the staked coin
or zero, the outpoint of the coin and the time of the block; it has met the target that the block
carries, weighted by the value of the coin. -/
structure StakeRecord.Follows (previous : StakeRecord) (t : Table OutPoint Coin) (c : Chain)
    (b : Block) (record : StakeRecord) : Prop where
  kind : record.isProofOfStake = b.isProofOfStake
  work : b.isProofOfStake = false →
    record.modifier = sha256d (c.digest.bytes ++ previous.modifier.bytes)
      ∧ record.proof = c.digest
  stake : ∀ coinstake, b.coinstake? = some coinstake → ∃ i staked target,
    coinstake.inputs.head? = some i ∧ t[i.prevout]? = some staked
      ∧ b.header.bits.decode = .ok target
      ∧ record.modifier = sha256d (i.prevout.txid.bytes ++ previous.modifier.bytes)
      ∧ record.proof = sha256d (previous.modifier.bytes ++ Encode.u32 (staked.time.getD 0)
          ++ i.prevout.encode ++ Encode.u32 b.header.time)
      ∧ 0 < staked.amount ∧ record.proof.toNat ≤ target * staked.amount.toNat

theorem Stake.checkKernel_ok {target : Nat} {modifier proof : Digest} {staked : Coin}
    {prevout : OutPoint} {time : UInt32}
    (h : checkKernel target modifier staked prevout time = .ok proof) :
    proof = sha256d (modifier.bytes ++ Encode.u32 (staked.time.getD 0) ++ prevout.encode
        ++ Encode.u32 time)
      ∧ 0 < staked.amount ∧ proof.toNat ≤ target * staked.amount.toNat := by
  unfold checkKernel at h
  split at h
  · cases h
  · split at h
    · cases h
    · next hweight =>
      simp only at h
      split at h
      · cases h
      · next hbound =>
        cases h
        exact ⟨rfl, by omega, Nat.not_lt.1 hbound⟩

/-- The record that the stake rule makes follows that of the parent. -/
theorem Staking.follows_of_recordOf {p : Params} {c : Chain} {b : Block} {height : Nat}
    {previous record : StakeRecord} {w : WorkingSet} {before after : Table OutPoint Coin}
    (htracks : w.Tracks before after) {stakeIn : Int}
    (h : recordOf p b c.digest height previous w = .ok (record, stakeIn)) :
    previous.Follows after c b record := by
  cases hcoinstake : b.coinstake? with
  | none =>
    obtain ⟨hflags, hmodifier, hproof⟩ := recordOf_work h hcoinstake
    refine ⟨congrArg StakeFlags.proofOfStake hflags, fun _ => ⟨hmodifier, hproof⟩, ?_⟩
    intro tx htx
    rw [hcoinstake] at htx
    cases htx
  | some tx =>
    obtain ⟨i, k, hi, hkernel, -, hflags, hmodifier, hproof⟩ := exists_kernel h hcoinstake
    obtain ⟨staked, target, hkernel⟩ := checkStake_ok hkernel
    obtain ⟨hdigest, hweight, hbound⟩ := Stake.checkKernel_ok hkernel.proof
    refine ⟨congrArg StakeFlags.proofOfStake hflags, fun hwork => ?_, ?_⟩
    · cases hwork.symm.trans (Block.isProofOfStake_of_coinstake? hcoinstake)
    · intro tx' htx
      rw [hcoinstake] at htx
      cases htx
      rw [hproof, hmodifier]
      exact ⟨i, staked, target, hi, htracks.getElem?_of_coin? hkernel.found, hkernel.decodes,
        hkernel.modifier, hdigest, hweight, hbound⟩

/-! ## The coin rules -/

namespace Attempt

variable {a a' : Attempt MemoryStore}

/-- The coin rules of proof of work connect the block and bound its coinbase. -/
theorem runRules_work_ok {env : RuleEnv} {b : Block} (hb : a.block = some b)
    (hdb : a.store.coinTable.All fun coin => coin.isPrunable = false)
    (h : runRules env RuleSet.work.coins a = .ok () a') :
    ∃ fees, Connected env.params a.chain b none fees a.store a'.store
      ∧ b.checkWorkReward env.params a.chain.height fees = .ok () ∧ a'.committed = true
      ∧ a'.stake = a.stake := by
  simp only [RuleSet.work, runRules, step_bind_ok, step_pure_ok] at h
  obtain ⟨_, a₁, hflags, _, a₂, hload, _, a₃, hconnect, _, a₄, hcommit, -, rfl⟩ := h
  obtain ⟨flags, deployments, rfl⟩ := setFlags_ok hflags
  obtain ⟨b₁, parent, w, hb₁, hparent, htip, htracks, hcovers, rfl⟩ := loadView_ok hload
  obtain ⟨bip30, b₂, w₁, w', fees, hb₂, hw₁, hconnect, hreward, rfl⟩ := connectWork_ok hconnect
  obtain ⟨parent₁, w₂, hparent₁, hw₂, hcommit, hcommitted, hstake⟩ := commitView_ok hcommit
  simp only [hb, Option.some.injEq] at hb₁ hb₂ hw₁ hw₂ hparent hparent₁
  subst hb₁ hb₂ hw₁ hw₂
  rw [hparent, Option.some.injEq] at hparent₁
  subst hparent₁
  refine ⟨fees, ?_, hreward, hcommitted, hstake⟩
  exact connected_of_commit hdb hparent htip htracks hcovers hconnect hcommit

/-- The stake record that the rules have left, which follows the one that the cache of the engine
has of the parent. -/
def MadeRecord (env : RuleEnv) (b : Block) (a a' : Attempt MemoryStore) : Prop :=
  ∃ parent cache previous record, a.chain.parent? = some parent ∧ env.stakes = some cache
    ∧ cache.get a.store parent.digest = .ok (some previous) ∧ a'.stake = some record
    ∧ previous.Follows a.store.coinTable a.chain b record

theorem MadeRecord.isSome {env : RuleEnv} {b : Block} (h : MadeRecord env b a a') :
    a'.stake.isSome := by
  obtain ⟨_, _, _, record, -, -, -, hrecord, -⟩ := h
  rw [hrecord]
  rfl

/-- The coin rules of proof of stake connect the block, bound what it creates by the value of its
stake before the block, and leave its record. -/
theorem runRules_stake_ok {env : RuleEnv} {b : Block} (hb : a.block = some b)
    (hdb : a.store.coinTable.All fun coin => coin.isPrunable = false)
    (h : runRules env RuleSet.stake.coins a = .ok () a') :
    ∃ fees stakeIn, Connected env.params a.chain b (some b.header.time) fees a.store a'.store
      ∧ Staking.checkReward env.params b a.chain.height fees stakeIn = .ok ()
      ∧ (∀ tx, b.coinstake? = some tx → stakeIn = Ledger.inputValue a.store.coinTable tx.inputs)
      ∧ a'.committed = true ∧ MadeRecord env b a a' := by
  simp only [RuleSet.stake, runRules, step_bind_ok, step_pure_ok] at h
  obtain ⟨_, a₁, hflags, _, a₂, hload, _, a₃, hcold, _, a₄, hconnect, _, a₅, hcommit, -, rfl⟩ := h
  obtain ⟨flags, deployments, rfl⟩ := setFlags_ok hflags
  obtain ⟨b₁, parent, w, hb₁, hparent, htip, htracks, hcovers, rfl⟩ := loadView_ok hload
  have hcold := coldStaking_ok hcold
  subst hcold
  obtain ⟨bip30, b₂, parent₂, cache, w₁, w', previous, record, stakeIn, fees, hb₂, hparent₂, hcache,
    hprevious, hw₁, hrecord, hconnect, hreward, rfl⟩ := connectStake_ok hconnect
  obtain ⟨parent₁, w₂, hparent₁, hw₂, hcommit, hcommitted, hstake⟩ := commitView_ok hcommit
  simp only [hb, Option.some.injEq] at hb₁ hb₂ hw₁ hw₂ hparent hparent₁ hparent₂
  subst hb₁ hb₂ hw₁ hw₂
  rw [hparent, Option.some.injEq] at hparent₁ hparent₂
  subst hparent₁ hparent₂
  refine ⟨fees, stakeIn, ?_, hreward, ?_, hcommitted, ?_⟩
  · exact connected_of_commit hdb hparent htip htracks hcovers hconnect hcommit
  · intro tx htx
    exact Staking.recordOf_ok htracks hrecord htx
  · exact ⟨parent, cache, previous, record, hparent, hcache, Retarget.require_ok hprevious, hstake,
      Staking.follows_of_recordOf htracks hrecord⟩

end Attempt

end Chainstate
