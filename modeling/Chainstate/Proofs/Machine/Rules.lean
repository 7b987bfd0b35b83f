-- SUMMARY: Rules on a machine: each is exact where its inputs are in range and checked.
import Chainstate.Proofs.Attempt
import Chainstate.Proofs.Machine.Forks
import Chainstate.Proofs.Machine.Staking
import Chainstate.Proofs.Machine.Targets
import Chainstate.Proofs.Registration

/-!
# Rules on a machine

The rules of an attempt, in the same steps and with their arithmetic in machine words
(`Machine.runRule`). Rules of the first stages are exact at heights and on blocks that fit, save
for the count of signature operations, which relies on the check of transactions before it
(`exact_runRule`, `exact_runStage`). The rules on coins rely besides on coins in range and on
their total (`Attempt.Stocked`), and run in the order in which the networks register them
(`exact_runCoins_work`, `exact_runCoins_stake`).
-/

namespace Chainstate

namespace Machine

variable {ε σ α : Type}

/-- Steps of an attempt on a machine. -/
abbrev RuleM (σ α : Type) := EStateM (Trap Failure) (Attempt σ) α

/-! ## Access to the state -/

/-- A check whose failure rejects the block. -/
def rejecting (x : Checked Rejection α) : RuleM σ α := checkStep (x.relabel .rejected)

/-- Runs steps on the loaded coins, which keep what the steps did even where they fail. -/
def onView (x : EStateM (Trap Failure) WorkingSet α) : RuleM σ α := fun a =>
  match a.view with
  | none => .error (.failure (.fault (.ruleOrder .viewUnset))) a
  | some w =>
    match x w with
    | .ok r w => .ok r { a with view := some w }
    | .error t w => .error t { a with view := some w }

theorem exact_rejecting {x : Checked Rejection α} {y : Except Rejection α} (h : x = .of y)
    (a : Attempt σ) : Exact (rejecting x) (Attempt.check y) a := by
  subst h
  cases y with
  | ok v => rfl
  | error r => rfl

theorem exact_validating {x : Checked Failure α} {y : Except Failure α} (h : x = .of y)
    (a : Attempt σ) : Exact (checkStep x) (Attempt.validate y) a := by
  subst h
  cases y with
  | ok v => rfl
  | error e => rfl

theorem exact_onView {x : EStateM (Trap Failure) WorkingSet α} {y : WorkingM Failure α}
    {a : Attempt σ} (h : ∀ w ∈ a.view, Exact x y w) : Exact (onView x) (Attempt.onView y) a := by
  unfold Exact EStateM.adaptExcept onView Attempt.onView
  cases hview : a.view with
  | none => rfl
  | some w =>
    have hw := h w hview
    unfold Exact EStateM.adaptExcept at hw
    dsimp only
    rw [hw]
    cases y w with
    | ok v w' => rfl
    | error e w' => rfl

section Reading

variable {β : Type} {a : Attempt σ}

/-- What goes on from the block is exact where it is for the block of the attempt. -/
theorem exact_getBlock_bind {f : Block → RuleM σ β} {g : Block → Chainstate.RuleM σ β}
    (h : ∀ b ∈ a.block, Exact (f b) (g b) a) :
    Exact (plainStep Attempt.getBlock >>= f) (Attempt.getBlock >>= g) a := by
  refine (exact_plainStep _ _).bind fun b a' hrun => ?_
  obtain ⟨hb, rfl⟩ := Attempt.getBlock_ok.1 hrun
  exact h b hb

theorem exact_getFlags_bind {f : DeploymentFlags → RuleM σ β}
    {g : DeploymentFlags → Chainstate.RuleM σ β} (h : ∀ flags, Exact (f flags) (g flags) a) :
    Exact (plainStep Attempt.getFlags >>= f) (Attempt.getFlags >>= g) a := by
  refine (exact_plainStep _ _).bind fun flags a' hrun => ?_
  obtain ⟨-, rfl⟩ := Attempt.getFlags_ok.1 hrun
  exact h flags

theorem exact_getView_bind {f : WorkingSet → RuleM σ β} {g : WorkingSet → Chainstate.RuleM σ β}
    (h : ∀ w ∈ a.view, Exact (f w) (g w) a) :
    Exact (plainStep Attempt.getView >>= f) (Attempt.getView >>= g) a := by
  refine (exact_plainStep _ _).bind fun w a' hrun => ?_
  obtain ⟨hw, rfl⟩ := Attempt.getView_ok.1 hrun
  exact h w hw

end Reading

/-! ## Rules -/

def setFlags (env : RuleEnv) : RuleM σ Unit := do
  let a ← get
  let (flags, deployments) ← checkStep (flags a.deployments env.params a.chain)
  set { a with flags := some flags, deployments }

/-- The outpoints that a block touches: its own outputs and what it spends. -/
def touched (b : Block) : Checked ε (List OutPoint) := do
  let os ← b.transactions.mapM fun tx => do
    let own ← outPoints tx
    let coinbase ← isCoinbase tx
    .ok (own ++ if coinbase then [] else tx.inputs.map TxIn.prevout)
  .ok os.flatten

def loadView [CoinStore σ] : RuleM σ Unit := do
  let b ← plainStep Attempt.getBlock
  let expected ← plainStep Attempt.parentTip
  let a ← get
  let tip ← plainStep (Attempt.trust (CoinStore.tip? a.store))
  if tip ≠ some expected then
    throw (.failure (.fault (.tipMismatch expected.digest (tip.map Tip.digest))))
  else
    let os ← checkStep (touched b)
    let fetched ← plainStep (Attempt.trust (CoinStore.fetch a.store os))
    match WorkingSet.load (fetched.toList.map fun oc => ⟨oc.1, oc.2⟩) WorkingSet.empty with
    | .error f _ => throw (.failure (.fault f))
    | .ok _ w => set { a with view := some w }

def connectWork (env : RuleEnv) : RuleM σ Unit := do
  let flags ← plainStep Attempt.getFlags
  let b ← plainStep Attempt.getBlock
  let height := (← get).chain.height
  let fees ← onView (connect env.params height flags.enforceBip30 none b.transactions)
  rejecting (checkWorkReward b env.params height fees)

def coldStaking : RuleM σ Unit := do
  let flags ← plainStep Attempt.getFlags
  if !flags.coldStakingActive then pure ()
  else
    let b ← plainStep Attempt.getBlock
    let stake ← checkStep (isProofOfStake b)
    if !stake then pure ()
    else
      let coinstake ← checkStep (element b.transactions 1)
      let w ← plainStep Attempt.getView
      rejecting (checkColdStake w coinstake)

def kindDifficulty [CoinStore σ] (env : RuleEnv) : RuleM σ Unit := do
  let b ← plainStep Attempt.getBlock
  let a ← get
  match a.chain.parent? with
  | none => pure ()
  | some prev =>
    let cache ← plainStep (Attempt.stakeCache env)
    checkStep (checkKindDifficulty b env.params a.chain (cache.get a.store) prev)

def connectStake [CoinStore σ] (env : RuleEnv) : RuleM σ Unit := do
  let flags ← plainStep Attempt.getFlags
  let b ← plainStep Attempt.getBlock
  let prev ← plainStep Attempt.parentTip
  let cache ← plainStep (Attempt.stakeCache env)
  let a ← get
  let previous ← plainStep
    (Attempt.trust (Retarget.StakeLookup.require (cache.get a.store) prev.digest))
  let w ← plainStep Attempt.getView
  let height := a.chain.height
  let (record, stakeIn) ← rejecting (recordOf env.params b a.chain.digest height previous w)
  let fees ← onView (connect env.params height flags.enforceBip30 (some b.header.time)
    b.transactions)
  rejecting (checkReward env.params b height fees stakeIn)
  modify fun a => { a with stake := some record }

/-- The undo record is stored under the height above the old tip. -/
def commitView [CoinStore σ] : RuleM σ Unit := do
  let a ← get
  if a.committed then plainStep (Attempt.order .committedTwice)
  else
    let old ← plainStep Attempt.parentTip
    let w ← plainStep Attempt.getView
    let new : Tip := ⟨a.chain.digest, a.chain.height⟩
    modify fun a => { a with view := none }
    let _ ← checkStep (Word.u32.nat (old.height + 1))
    let store ← plainStep
      (Attempt.trust (CoinStore.commit a.store w.changes old new (w.undo old)))
    modify fun a => { a with store, committed := true }

/-- What a rule does. The rules that are not listed only compare. -/
def runRule [CoinStore σ] (env : RuleEnv) : RuleId → RuleM σ Unit
  | .headerTime => do rejecting (checkTime env.params env.now (← get).chain)
  | .workDifficulty => do checkStep (checkWork env.params (← get).chain)
  | .merkleRoot => do rejecting (checkMerkleRoot (← plainStep Attempt.getBlock))
  | .blockSignature => do
    let b ← plainStep Attempt.getBlock
    let signed ← checkStep (isSigned b)
    if signed then pure () else throw (.failure (.rejected .badBlockSignature))
  | .contentFlags => setFlags env
  | .lockTimes => do
    let flags ← plainStep Attempt.getFlags
    let b ← plainStep Attempt.getBlock
    rejecting (checkLockTimes b flags (← get).chain)
  | .coinbaseHeight => do
    let flags ← plainStep Attempt.getFlags
    if flags.enforceBip34 then
      let b ← plainStep Attempt.getBlock
      rejecting (checkCoinbaseHeight b (← get).chain.height)
    else pure ()
  | .coinbasePosition => do rejecting (checkCoinbasePosition (← plainStep Attempt.getBlock))
  | .transactions => do
    let b ← plainStep Attempt.getBlock
    rejecting (checkTransactions env.params b.transactions)
  | .writtenSigOps => do rejecting (checkSigOps (← plainStep Attempt.getBlock) env.params)
  | .lastWorkBlock => do
    let b ← plainStep Attempt.getBlock
    rejecting (checkLastWork b env.params (← get).chain.height)
  | .coinstakeShape => do
    rejecting (checkCoinstakeShape (← plainStep Attempt.getBlock) env.params)
  | .kindDifficulty => kindDifficulty env
  | .coinFlags => setFlags env
  | .loadView => loadView
  | .connectWork => connectWork env
  | .coldStaking => coldStaking
  | .connectStake => connectStake env
  | .commitView => commitView
  | id => plainStep (id.run env)

/-- Runs rules one after the other until one fails. -/
def runRules [CoinStore σ] (env : RuleEnv) : List RuleId → RuleM σ Unit
  | [] => pure ()
  | id :: rest => do
    runRule env id
    runRules env rest

/-! ## Rules of the first stages -/

section Exactness

variable {env : RuleEnv} {a : Attempt σ}

theorem exact_setFlags (hp : env.params.Signalled) (h : a.chain.height ≤ 0xffffffff) :
    Exact (setFlags env) (Attempt.setFlags env) a := by
  refine exact_get_bind ?_
  exact exact_checkStep_bind (flags_eq a.deployments hp h) rfl

variable [CoinStore σ]

theorem exact_kindDifficulty (hp : env.params.Averaged) :
    Exact (kindDifficulty env) (Attempt.kindDifficulty env) a := by
  refine exact_getBlock_bind fun b _ => exact_get_bind ?_
  cases a.chain.parent? with
  | none => rfl
  | some prev =>
    refine (exact_plainStep _ _).bind fun cache _ _ => ?_
    exact exact_validating (checkKindDifficulty_eq b hp _ _ _) _

/-- An attempt that a machine can check: its height is a word, its block fits into its encoding,
and the transactions have been checked where that is needed. -/
structure Fits (p : Params) (id : RuleId) (a : Attempt σ) : Prop where
  height : a.chain.height ≤ 0xffffffff
  sized : ∀ b ∈ a.block, b.Sized
  checked : id = .writtenSigOps → ∀ b ∈ a.block, ∀ tx ∈ b.transactions, tx.Checked p

/-- Rules that touch no coins are exact. -/
theorem exact_runRule (hpaced : env.params.Paced) (hsignalled : env.params.Signalled)
    (hlimited : env.params.Limited) {id : RuleId} (hid : id.stage ≠ .coins)
    (haveraged : id = .kindDifficulty → env.params.Averaged) (h : Fits env.params id a) :
    Exact (runRule env id) (id.run env) a := by
  have hblock : ∀ {f : Block → Checked Rejection Unit} {g : Block → Except Rejection Unit},
      (∀ b ∈ a.block, f b = .of (g b)) →
      Exact (plainStep Attempt.getBlock >>= fun b => rejecting (f b))
        (Attempt.getBlock >>= fun b => Attempt.check (g b)) a :=
    fun hfg => exact_getBlock_bind fun b hb => exact_rejecting (hfg b hb) a
  cases id with
  | headerTime => exact exact_get_bind (exact_rejecting (checkTime_eq hpaced env.now a.chain) a)
  | workDifficulty => exact exact_get_bind (exact_validating (checkWork_eq hpaced h.height) a)
  | headerVersion | blockSize => exact exact_plainStep _ _
  | merkleRoot => exact hblock fun b hb => checkMerkleRoot_eq (h.sized b hb)
  | blockSignature =>
    refine exact_getBlock_bind fun b _ => exact_checkStep_bind (isSigned_eq b) ?_
    split
    · rfl
    · rfl
  | contentFlags => exact exact_setFlags hsignalled h.height
  | lockTimes =>
    refine exact_getFlags_bind fun flags => exact_getBlock_bind fun b _ => ?_
    exact exact_get_bind (exact_rejecting (checkLockTimes_eq b flags a.chain) a)
  | coinbaseHeight =>
    refine exact_getFlags_bind fun flags => ?_
    split
    · refine exact_getBlock_bind fun b _ => ?_
      exact exact_get_bind (exact_rejecting (checkCoinbaseHeight_eq b h.height) a)
    · rfl
  | coinbasePosition => exact hblock fun b _ => checkCoinbasePosition_eq b
  | transactions => exact hblock fun b _ => checkTransactions_eq env.params b
  | writtenSigOps =>
    exact hblock fun b hb => checkSigOps_eq (h.sized b hb) hlimited (h.checked rfl b hb)
  | lastWorkBlock =>
    refine exact_getBlock_bind fun b _ => exact_get_bind ?_
    exact exact_rejecting (checkLastWork_eq b env.params a.chain.height) a
  | coinstakeShape => exact hblock fun b _ => checkCoinstakeShape_eq b env.params
  | kindDifficulty => exact exact_kindDifficulty (haveraged rfl)
  | coinFlags | loadView | connectWork | coldStaking | connectStake | commitView =>
    exact absurd rfl hid

/-! ## Runs of the first stages -/

/-- A run is exact where each rule is at the attempt that the rules before it have left. -/
theorem exact_runRules {rules : List RuleId}
    (h : ∀ before id after a', rules = before ++ id :: after →
      Chainstate.runRules env before a = .ok () a' → Exact (runRule env id) (id.run env) a') :
    Exact (runRules env rules) (Chainstate.runRules env rules) a := by
  induction rules generalizing a with
  | nil => rfl
  | cons first rest ih =>
    refine (h [] first rest a rfl rfl).bind fun _ a₁ hfirst => ih ?_
    rintro before id after a' rfl hbefore
    exact h (first :: before) id after a' rfl (step_bind_ok.2 ⟨(), a₁, hfirst, hbefore⟩)

/-- Rules that a machine can run in their order: they touch no coins, and the transactions are
checked before their signature operations are counted. -/
structure Staged (p : Params) (rules : List RuleId) : Prop where
  early : ∀ id ∈ rules, id.stage ≠ .coins
  checked : RuleSet.givesFirst (· == .writtenSigOps) (· == .transactions) false rules = true
  averaged : .kindDifficulty ∈ rules → p.Averaged

theorem exact_runStage (hpaced : env.params.Paced) (hsignalled : env.params.Signalled)
    (hlimited : env.params.Limited) {rules : List RuleId} (hrules : Staged env.params rules)
    (hheight : a.chain.height ≤ 0xffffffff) (hsized : ∀ b ∈ a.block, b.Sized) :
    Exact (runRules env rules) (Chainstate.runRules env rules) a := by
  refine exact_runRules fun before id after a' hsplit hbefore => ?_
  have hmem : ∀ x ∈ before, x ∈ rules := fun x hx => hsplit ▸ List.mem_append_left _ hx
  have hid : id ∈ rules := hsplit ▸ List.mem_append_right _ List.mem_cons_self
  have hcommit : RuleId.commitView ∉ before := fun hin => hrules.early _ (hmem _ hin) rfl
  have hframed := (Attempt.keeps_runRules env hcommit).of_ok (Attempt.Framed.refl a) hbefore
  refine exact_runRule hpaced hsignalled hlimited (hrules.early id hid)
    (fun hkind => hrules.averaged (hkind ▸ hid)) ⟨?_, ?_, ?_⟩
  · rw [hframed.chain]
    exact hheight
  · rw [hframed.block]
    exact hsized
  · rintro rfl b hb
    rw [hframed.block] at hb
    have hfirst := hrules.checked
    rw [hsplit] at hfirst
    rcases RuleSet.givesFirst_split hfirst rfl with hgiven | ⟨x, hx, hgives⟩
    · cases hgiven
    · rw [beq_iff_eq] at hgives
      subst hgives
      obtain ⟨a₁, a₂, hframed₁, hpassed⟩ :=
        Attempt.runRules_ok_of_mem (Attempt.Framed.refl a) hcommit hbefore hx
      obtain ⟨⟨b', hb', hcheck⟩, -⟩ := Attempt.blockRule_ok.1 hpassed
      rw [hframed₁.block, hb, Option.some.injEq] at hb'
      subst hb'
      exact Block.checked_of_checkTransactions hcheck

end Exactness

/-! ## Rules on coins -/

section Coins

variable {env : RuleEnv} {a a' : Attempt MemoryStore}

/-- An attempt on a database of coins in range: its height is a word, its block fits into its
encoding and has been checked, and what is loaded are the coins that the block touches. -/
structure Stocked (p : Params) (a : Attempt MemoryStore) : Prop where
  height : a.chain.height ≤ 0xffffffff
  sized : ∀ b ∈ a.block, b.Sized
  checked : ∀ b ∈ a.block, ∀ tx ∈ b.transactions, tx.Checked p
  coins : a.store.coinTable.All (Coin.InRange p)
  loaded : ∀ w ∈ a.view, w.Tracks a.store.coinTable a.store.coinTable
    ∧ ∀ b ∈ a.block, w.Covers (Attempt.touched b)

theorem Stocked.setFlags {p : Params} (h : Stocked p a)
    (hrun : Attempt.setFlags env a = .ok () a') : Stocked p a' := by
  obtain ⟨flags, deployments, rfl⟩ := Attempt.setFlags_ok hrun
  exact ⟨h.height, h.sized, h.checked, h.coins, h.loaded⟩

theorem Stocked.loadView {p : Params} (h : Stocked p a)
    (hrun : Attempt.loadView a = .ok () a') : Stocked p a' := by
  obtain ⟨b, parent, w, hb, -, -, htracks, hcovers, rfl⟩ := Attempt.loadView_ok hrun
  refine ⟨h.height, h.sized, h.checked, h.coins, ?_⟩
  intro w' hw'
  cases hw'
  refine ⟨htracks, fun b' hb' => ?_⟩
  change a.block = some b' at hb'
  rw [hb, Option.some.injEq] at hb'
  exact hb' ▸ hcovers

/-- The transactions of a checked block are about to be connected to the loaded coins. -/
theorem Stocked.ready {p : Params} (hp : p.Limited) (h : Stocked p a) {b : Block}
    (hb : b ∈ a.block) {w : WorkingSet} (hw : w ∈ a.view) :
    Ready p a.store.coinTable w Tally.zero b.transactions :=
  ⟨⟨_, (h.loaded w hw).1, h.coins⟩, Tally.bounded_zero hp, h.checked b hb,
    (h.sized b hb).transactions.2, Attempt.covers_outPoints ((h.loaded w hw).2 b hb)⟩

theorem touched_eq {b : Block} (hb : b.Sized) :
    (touched b : Checked ε _) = .ok (Attempt.touched b) := by
  rw [touched, mapM_ok fun tx htx => by
    rw [outPoints_eq (hb.transactions.2 tx htx), checked_ok_bind, isCoinbase_eq, checked_ok_bind],
    checked_ok_bind, Attempt.touched, List.flatMap_def]

theorem exact_loadView (h : ∀ b ∈ a.block, b.Sized) : Exact loadView Attempt.loadView a := by
  refine exact_getBlock_bind fun b hb => ?_
  refine (exact_plainStep _ _).bind fun expected a₁ _ => exact_get_bind ?_
  refine (exact_plainStep _ _).bind fun tip a₂ _ => ?_
  split
  · rfl
  · refine exact_checkStep_bind (touched_eq (h b hb)) ?_
    refine (exact_plainStep _ _).bind fun fetched a₃ _ => ?_
    cases WorkingSet.load (fetched.toList.map fun oc => ⟨oc.1, oc.2⟩) WorkingSet.empty with
    | ok _ w => rfl
    | error f w => rfl

theorem exact_connectWork (hlimited : env.params.Limited) (hrewarding : env.params.Rewarding)
    (h : Stocked env.params a) : Exact (connectWork env) (Attempt.connectWork env) a := by
  refine exact_getFlags_bind fun flags => exact_getBlock_bind fun b hb => ?_
  have hconnect (w : WorkingSet) (hw : w ∈ a.view) :=
    exact_connect hlimited a.chain.height flags.enforceBip30 none (h.ready hlimited hb hw)
  refine exact_get_bind ((exact_onView fun w hw => (hconnect w hw).1).bind fun fees a' hrun => ?_)
  obtain ⟨w, w', hw, hfees, rfl⟩ := Attempt.onView_ok.1 hrun
  exact exact_rejecting
    (checkWorkReward_eq hlimited hrewarding (h.checked b hb) ((hconnect w hw).2 fees w' hfees)) _

/-- The value of a cold stake is added up without checks, so this relies on the value of all coins
to be a word. -/
theorem exact_coldStaking (hlimited : env.params.Limited) (h : Stocked env.params a)
    (hvalue : a.store.coinTable.value ≤ 0x7fffffffffffffff) :
    Exact coldStaking Attempt.coldStaking a := by
  refine exact_getFlags_bind fun flags => ?_
  split
  · rfl
  · refine exact_getBlock_bind fun b hb => ?_
    refine exact_checkStep_bind (isProofOfStake_eq b) ?_
    cases htx : b.coinstake? with
    | none =>
      rw [Block.isProofOfStake_of_coinstake?_eq_none htx]
      rfl
    | some tx =>
      obtain ⟨coinbase, rest, htxs, -⟩ := Block.coinstake?_eq_some htx
      have hmem : tx ∈ b.transactions := htxs ▸ List.mem_cons_of_mem _ List.mem_cons_self
      rw [Block.isProofOfStake_of_coinstake? htx]
      refine exact_checkStep_bind (element_coinstake htx) ?_
      refine exact_getView_bind fun w hw => ?_
      exact exact_rejecting (checkColdStake_eq hlimited (h.loaded w hw).1
        (fun o c hc => (h.coins o c hc).nonneg) hvalue (h.checked b hb tx hmem)) a

theorem exact_connectStake (hlimited : env.params.Limited) (hrewarding : env.params.Rewarding)
    (h : Stocked env.params a) : Exact (connectStake env) (Attempt.connectStake env) a := by
  refine exact_getFlags_bind fun flags => exact_getBlock_bind fun b hb => ?_
  refine (exact_plainStep _ _).bind fun prev a' hprev => ?_
  obtain ⟨parent, -, -, rfl⟩ := Attempt.parentTip_ok.1 hprev
  refine (exact_plainStep _ _).bind fun cache a' hcache => exact_get_bind ?_
  obtain ⟨-, rfl⟩ := Attempt.stakeCache_ok.1 hcache
  refine (exact_plainStep _ _).bind fun previous a' hprevious => ?_
  obtain ⟨-, rfl⟩ := Attempt.trust_ok.1 hprevious
  refine exact_getView_bind fun w hw => ?_
  refine (exact_rejecting (recordOf_eq hlimited (h.loaded w hw).1 h.coins b a.chain.digest
    a.chain.height previous) a).bind fun made a' hmade => ?_
  obtain ⟨record, stakeIn⟩ := made
  obtain ⟨hrecord, rfl⟩ := Attempt.check_ok.1 hmade
  have hconnect (w : WorkingSet) (hw : w ∈ a.view) :=
    exact_connect hlimited a.chain.height flags.enforceBip30 (some b.header.time)
      (h.ready hlimited hb hw)
  refine (exact_onView fun w hw => (hconnect w hw).1).bind fun fees a' hrun => ?_
  obtain ⟨w₁, w', hw₁, hfees, rfl⟩ := Attempt.onView_ok.1 hrun
  refine (exact_rejecting (checkReward_eq hlimited hrewarding (h.checked b hb)
    ((hconnect w₁ hw₁).2 fees w' hfees) (Staking.recordOf_inRange hlimited hrecord)) _).bind
      fun _ _ _ => ?_
  rfl

theorem exact_commitView (h : a.chain.height ≤ 0xffffffff) :
    Exact commitView Attempt.commitView a := by
  refine exact_get_bind ?_
  split
  · rfl
  · refine (exact_plainStep _ _).bind fun old a' hold => ?_
    obtain ⟨parent, hparent, rfl, rfl⟩ := Attempt.parentTip_ok.1 hold
    have hheight := Chain.height_of_parent? hparent
    refine (exact_plainStep _ _).bind fun w a' _ => ?_
    refine Exact.bind (x := modify _) rfl fun _ a' _ => ?_
    refine exact_checkStep_bind (Word.u32_ok (show parent.height + 1 ≤ 0xffffffff by omega)) ?_
    refine (exact_plainStep _ _).bind fun store a' _ => ?_
    rfl

/-! ## Runs of the coin rules -/

theorem exact_runCoins_work (hsignalled : env.params.Signalled) (hlimited : env.params.Limited)
    (hrewarding : env.params.Rewarding) (h : Stocked env.params a) :
    Exact (runRules env RuleSet.work.coins) (Chainstate.runRules env RuleSet.work.coins) a := by
  refine (exact_setFlags hsignalled h.height).bind fun _ a₁ hflags => ?_
  have h₁ := h.setFlags hflags
  refine (exact_loadView h₁.sized).bind fun _ a₂ hload => ?_
  have h₂ := h₁.loadView hload
  refine (exact_connectWork hlimited hrewarding h₂).bind fun _ a₃ hconnect => ?_
  have h₃ : a₃.chain.height ≤ 0xffffffff := by
    rw [((Attempt.keeps_connectWork env).of_ok (Attempt.Framed.refl a₂) hconnect).chain]
    exact h₂.height
  exact (exact_commitView h₃).bind fun _ _ _ => exact_pure _ _

theorem exact_runCoins_stake (hsignalled : env.params.Signalled) (hlimited : env.params.Limited)
    (hrewarding : env.params.Rewarding) (h : Stocked env.params a)
    (hvalue : a.store.coinTable.value ≤ 0x7fffffffffffffff) :
    Exact (runRules env RuleSet.stake.coins) (Chainstate.runRules env RuleSet.stake.coins) a := by
  refine (exact_setFlags hsignalled h.height).bind fun _ a₁ hflags => ?_
  have h₁ := h.setFlags hflags
  refine (exact_loadView h₁.sized).bind fun _ a₂ hload => ?_
  have h₂ := h₁.loadView hload
  have hstore : a₂.store = a.store := by
    have hframed := (Attempt.keeps_setFlags env).of_ok (Attempt.Framed.refl a) hflags
    exact (Attempt.keeps_loadView.of_ok hframed hload).store
  refine (exact_coldStaking hlimited h₂ (hstore ▸ hvalue)).bind fun _ a₃ hcold => ?_
  obtain rfl := Attempt.coldStaking_ok hcold
  refine (exact_connectStake hlimited hrewarding h₂).bind fun _ a₄ hconnect => ?_
  have h₄ : a₄.chain.height ≤ 0xffffffff := by
    rw [((Attempt.keeps_connectStake env).of_ok (Attempt.Framed.refl a₃) hconnect).chain]
    exact h₂.height
  exact (exact_commitView h₄).bind fun _ _ _ => exact_pure _ _

end Coins

end Machine

end Chainstate
