-- SUMMARY: The engine on a machine: stages, the write-back of stake records, and whole validations.
import Chainstate.Proofs.Issuance
import Chainstate.Proofs.Machine.Rules
import Chainstate.Proofs.StakeCache

/-!
# The engine on a machine

Validation in machine words: the stages run their rules on a machine, and the cache of stake
records adds up heights when it drops what it has written. A validation is exact on an engine of a
network whose parameters fit and whose coins, supply and cached heights do (`exact_validateBlock`).
-/

namespace Chainstate

/-! ## Bounds -/

/-- Blocks of interest are below this height; there is room above it for the window of the stake
cache. -/
def Chain.heightLimit : Nat := 0xffffffff - 5001

/-- The records of the cache are those of blocks below the limit. -/
def StakeCache.Low (cache : StakeCache) : Prop :=
  cache.entries.All fun e => e.height < Chain.heightLimit

/-- The networks that a machine can run: parameters that fit into its words, and rules in an order
in which each finds checked what it relies on. -/
structure Network.Fits (net : Network) : Prop where
  rules : Engine.BuiltIn net
  paced : net.params.Paced
  signalled : net.params.Signalled
  limited : net.params.Limited
  rewarding : net.params.Rewarding
  scarce : net.rules = RuleSet.stake → net.params.Scarce
  header : Machine.Staged net.params net.rules.header
  contents : Machine.Staged net.params (net.rules.integrity ++ net.rules.contents)

/-- The states of an engine that a machine can go on from: coins and cached heights in range, and
on networks of proof of stake the value of all coins. -/
structure Engine.Fits (e : Engine MemoryStore) : Prop where
  coins : e.store.coinTable.All (Coin.InRange e.network.params)
  value : e.network.rules = RuleSet.stake → e.store.coinTable.value ≤ 0x7fffffffffffffff
  stakes : ∀ cache ∈ e.stakes, cache.Low

theorem Engine.Fits.of_quiet {e e' : Engine MemoryStore} (h : e.Fits) (hquiet : Quiet e e') :
    e'.Fits := by
  refine ⟨?_, ?_, ?_⟩
  · rw [hquiet.store, hquiet.network]
    exact h.coins
  · rw [hquiet.store, hquiet.network]
    exact h.value
  · rw [hquiet.stakes]
    exact h.stakes

/-- A table is what its list of entries makes. -/
theorem Table.ofList_toList {κ ν : Type} [Ord κ] [Std.TransOrd κ] [Std.LawfulEqOrd κ]
    [DecidableEq κ] (t : Table κ ν) : Std.ExtTreeMap.ofList t.toList compare = t := by
  apply Std.ExtTreeMap.ext_getElem?
  intro k
  cases hk : t[k]? with
  | some v =>
    exact Std.ExtTreeMap.getElem?_ofList_of_mem Std.ReflCmp.compare_self
      Std.ExtTreeMap.distinct_keys_toList (Std.ExtTreeMap.mem_toList_iff_getElem?_eq_some.2 hk)
  | none =>
    refine Std.ExtTreeMap.getElem?_ofList_of_contains_eq_false ?_
    rw [Std.ExtTreeMap.map_fst_toList_eq_keys]
    simpa using hk

namespace Machine

variable {ε σ α : Type}

/-! ## The stake cache -/

/-- Whether an entry is kept where the highest one is at the height `top`. -/
def isKept (genesis : Digest) (top : Nat) (d : Digest) (e : StakeEntry) : Checked ε Bool :=
  if d == genesis || !e.stored then .ok true
  else do
    let reach ← Word.u32.nat (e.height + StakeCache.window)
    .ok (decide (top ≤ reach))

/-- The entries that are kept. -/
def kept (genesis : Digest) (top : Nat) :
    List (Digest × StakeEntry) → Checked ε (List (Digest × StakeEntry))
  | [] => .ok []
  | de :: rest => do
    let keep ← isKept genesis top de.1 de.2
    let rest ← kept genesis top rest
    .ok (if keep then de :: rest else rest)

/-- Drops written records that are far below the highest one, and counts them. -/
def evict (cache : StakeCache) : Checked ε StakeCache := do
  let entries ← kept cache.genesis cache.top cache.entries.toList
  let entries : Table Digest StakeEntry := .ofList entries compare
  let _ ← Word.u64.sub cache.size entries.size
  .ok { cache with entries }

theorem kept_eq (genesis : Digest) (top : Nat) {des : List (Digest × StakeEntry)}
    (h : ∀ de ∈ des, de.2.height < Chain.heightLimit) :
    (kept genesis top des : Checked ε _) = .ok (des.filter fun de =>
      de.1 == genesis || !de.2.stored || decide (top ≤ de.2.height + StakeCache.window)) := by
  induction des with
  | nil => rfl
  | cons de rest ih =>
    obtain ⟨hde, hrest⟩ := List.forall_mem_cons.1 h
    have hreach : de.2.height + StakeCache.window ≤ 0xffffffff := by
      rw [Chain.heightLimit] at hde
      rw [StakeCache.window]
      omega
    have hkept : (isKept genesis top de.1 de.2 : Checked ε Bool) = .ok
        (de.1 == genesis || !de.2.stored || decide (top ≤ de.2.height + StakeCache.window)) := by
      unfold isKept
      split
      · next heasy => rw [heasy, Bool.true_or]
      · next heasy =>
        rw [Word.u32_ok hreach, Bool.eq_false_iff.2 heasy, Bool.false_or]
        rfl
    rw [kept, hkept, checked_ok_bind, ih hrest, checked_ok_bind, List.filter_cons]

theorem evict_eq {cache : StakeCache} (h : cache.Low) :
    (evict cache : Checked ε StakeCache) = .ok cache.evict := by
  have hlow : ∀ de ∈ cache.entries.toList, de.2.height < Chain.heightLimit := fun de hde =>
    h de.1 de.2 (Std.ExtTreeMap.mem_toList_iff_getElem?_eq_some.1 hde)
  have hentries := Table.ofList_toList cache.evict.entries
  rw [StakeCache.evict, Std.ExtTreeMap.toList_filter] at hentries
  rw [evict, kept_eq _ _ hlow, checked_ok_bind, hentries]
  dsimp only
  rw [StakeCache.size, Word.sub_ok Std.ExtTreeMap.size_filter_le_size]
  rfl

/-- Writes the unwritten records. -/
def flush [CoinStore σ] (cache : StakeCache) (db : σ) (force : Bool) :
    Checked Fault (StakeCache × σ) := do
  let pending := cache.unwritten
  if pending.isEmpty || (!force && decide (pending.length < StakeCache.flushThreshold)) then
    .ok (cache, db)
  else
    let db ← .of (CoinStore.putStakes db (pending.map fun e => (e.1, e.2.record)))
    let cache ← evict cache.markStored
    .ok (cache, db)

end Machine

namespace StakeCache

variable {cache : StakeCache}

theorem low_ofGenesis (genesis : Digest) : (ofGenesis genesis).Low :=
  (Table.all_empty _).insert genesis (by decide)

theorem Low.set (h : cache.Low) {c : Chain} (hc : c.height < Chain.heightLimit)
    (record : StakeRecord) : (cache.set c record).Low :=
  Table.All.insert h c.digest hc

theorem Low.markStored (h : cache.Low) : cache.markStored.Low := by
  intro d e he
  rw [getElem?_markStored, Option.map_eq_some_iff] at he
  obtain ⟨e₀, he₀, rfl⟩ := he
  exact h d e₀ he₀

theorem Low.evict (h : cache.Low) : cache.evict.Low := by
  intro d e he
  rw [getElem?_evict, Option.filter_eq_some_iff] at he
  exact h d e he.1

theorem Low.flush {σ : Type} [CoinStore σ] (h : cache.Low) {db : σ} {force : Bool}
    {cache' : StakeCache} {db' : σ} (hflush : cache.flush db force = .ok (cache', db')) :
    cache'.Low := by
  unfold StakeCache.flush at hflush
  dsimp only at hflush
  split at hflush
  · cases hflush
    exact h
  · obtain ⟨db₁, -, hrest⟩ := check_bind_ok.1 hflush
    cases hrest
    exact h.markStored.evict

/-- Loading enters records of the chain, whether it succeeds or fails. -/
theorem Low.load {db : MemoryStore} (tip : Nat) {c : Chain} (hc : c.height < Chain.heightLimit)
    (h : cache.Low) : (endState (loadBelow db tip c cache)).Low := by
  induction c generalizing cache with
  | genesis header => exact h
  | extend header parent ih =>
    have hparent : parent.height < Chain.heightLimit := Nat.lt_of_succ_lt hc
    rw [loadBelow_extend]
    split
    · exact h
    · split
      · exact ih hparent h
      · split
        · exact h
        · exact ih hparent (Table.All.insert h _ hc)

end StakeCache

namespace Machine

variable {ε σ α : Type}

theorem flush_eq [CoinStore σ] {cache : StakeCache} (h : cache.Low) (db : σ) (force : Bool) :
    flush cache db force = .of (cache.flush db force) := by
  unfold flush StakeCache.flush
  dsimp only
  split
  · rfl
  · refine Checked.bind_of rfl fun db' _ => ?_
    rw [evict_eq h.markStored]
    rfl

/-! ## Stages -/

/-- Validations on a machine. -/
abbrev EngineM (σ α : Type) := EStateM (Trap Failure) (Engine σ) α

section Definitions

variable [CoinStore σ]

/-- Runs rules on a fresh attempt, and gives the attempt as they have left it. -/
def attempt (now : UInt32) (c : Chain) (b : Option Block) (rules : List RuleId) :
    EngineM σ (Attempt σ) := fun e =>
  let env : RuleEnv := { params := e.network.params, now, stakes := e.stakes }
  match runRules env rules (Attempt.start c b e.store e.deployments) with
  | .ok _ a => .ok a { e with store := a.store, deployments := a.deployments }
  | .error t a => .error t { e with store := a.store, deployments := a.deployments }

def validateHeader (now : UInt32) (c : Chain) : EngineM σ Unit := do
  let _ ← attempt now c none (← get).network.rules.header

def validateContents (now : UInt32) (c : Chain) (b : Block) : EngineM σ Unit := do
  let rules := (← get).network.rules
  let _ ← attempt now c (some b) (rules.integrity ++ rules.contents)

/-- Writes unwritten stake records to the database. -/
def flushStakes (force : Bool) : EngineM σ Unit := do
  let e ← get
  match e.stakes with
  | none => pure ()
  | some cache =>
    let (cache, store) ← checkStep ((flush cache e.store force).relabel .fault)
    set { e with stakes := some cache, store }

/-- Remembers the stake record of a committed block. -/
def recordStake (c : Chain) (record : Option StakeRecord) : EngineM σ Unit := do
  let e ← get
  match e.stakes, record with
  | none, _ => pure ()
  | some _, none => throw (.failure (.fault (.ruleOrder .noStakeRecord)))
  | some cache, some record =>
    set { e with stakes := some (cache.set c record) }
    flushStakes false

/-- Checks a block against the coins and commits it. -/
def validateCoins (now : UInt32) (c : Chain) (b : Block) : EngineM σ Unit := do
  let a ← attempt now c (some b) (← get).network.rules.coins
  if !a.committed then throw (.failure (.fault (.ruleOrder .noCommit)))
  else recordStake c a.stake

/-- Runs all stages and commits the block. -/
def validateBlock (now : UInt32) (c : Chain) (b : Block) : EngineM σ Unit := do
  validateHeader now c
  validateContents now c b
  validateCoins now c b

end Definitions

/-! ## Exact stages -/

section Stages

variable [CoinStore σ] {now : UInt32} {c : Chain} {b : Block} {e : Engine σ}

theorem exact_attempt {block : Option Block} {rules : List RuleId}
    (h : Exact (runRules ⟨e.network.params, now, e.stakes⟩ rules)
      (Chainstate.runRules ⟨e.network.params, now, e.stakes⟩ rules)
      (Attempt.start c block e.store e.deployments)) :
    Exact (attempt now c block rules) (Engine.attempt now c block rules) e := by
  unfold Exact EStateM.adaptExcept attempt Engine.attempt
  unfold Exact EStateM.adaptExcept at h
  dsimp only
  rw [h]
  cases Chainstate.runRules ⟨e.network.params, now, e.stakes⟩ rules
    (Attempt.start c block e.store e.deployments) with
  | ok u a => rfl
  | error f a => rfl

theorem exact_validateHeader (hnet : e.network.Fits) (hc : c.height ≤ 0xffffffff) :
    Exact (validateHeader now c) (Engine.validateHeader now c) e := by
  refine exact_get_bind ((exact_attempt ?_).bind fun _ _ _ => exact_pure _ _)
  refine exact_runStage hnet.paced hnet.signalled hnet.limited hnet.header hc ?_
  intro b hb
  cases hb

theorem exact_validateContents (hnet : e.network.Fits) (hc : c.height ≤ 0xffffffff)
    (hb : b.Sized) : Exact (validateContents now c b) (Engine.validateContents now c b) e := by
  refine exact_get_bind ((exact_attempt ?_).bind fun _ _ _ => exact_pure _ _)
  refine exact_runStage hnet.paced hnet.signalled hnet.limited hnet.contents hc ?_
  intro b' hb'
  cases hb'
  exact hb

theorem exact_recordStake (he : ∀ cache ∈ e.stakes, cache.Low) (hc : c.height < Chain.heightLimit)
    (record : Option StakeRecord) :
    Exact (recordStake c record) (Engine.recordStake c record) e := by
  obtain ⟨network, store, stakes, deployments⟩ := e
  refine exact_get_bind ?_
  cases stakes with
  | none => rfl
  | some cache =>
    cases record with
    | none => rfl
    | some record =>
      refine Exact.bind (x := set _) rfl fun _ e' hset => ?_
      obtain rfl := step_set_ok.1 hset
      have hlow := (he cache rfl).set hc record
      unfold Exact flushStakes Engine.maintain Engine.flushStakes EStateM.adaptExcept
      rw [step_get_bind, step_get_bind]
      dsimp only
      rw [flush_eq hlow, Checked.relabel_of]
      cases (cache.set c record).flush store false with
      | ok written => rfl
      | error f => rfl

end Stages

/-! ## Exact validations -/

section Validation

variable {now : UInt32} {c : Chain} {b : Block} {e : Engine MemoryStore}

theorem exact_validateCoins (hnet : e.network.Fits) (he : e.Fits)
    (hc : c.height < Chain.heightLimit) (hb : b.Sized)
    (hchecked : ∀ tx ∈ b.transactions, tx.Checked e.network.params) :
    Exact (validateCoins now c b) (Engine.validateCoins now c b) e := by
  have hheight : c.height ≤ 0xffffffff := by
    rw [Chain.heightLimit] at hc
    omega
  have hstocked : Stocked e.network.params
      (Attempt.start c (some b) e.store e.deployments) := by
    refine ⟨hheight, ?_, ?_, he.coins, ?_⟩
    · rintro _ ⟨⟩
      exact hb
    · rintro _ ⟨⟩
      exact hchecked
    · intro w hw
      cases hw
  have hrules : Exact (runRules ⟨e.network.params, now, e.stakes⟩ e.network.rules.coins)
      (Chainstate.runRules ⟨e.network.params, now, e.stakes⟩ e.network.rules.coins)
      (Attempt.start c (some b) e.store e.deployments) := by
    rcases hnet.rules with hwork | hstake
    · rw [hwork]
      exact exact_runCoins_work hnet.signalled hnet.limited hnet.rewarding hstocked
    · rw [hstake]
      exact exact_runCoins_stake hnet.signalled hnet.limited hnet.rewarding hstocked
        (he.value hstake)
  refine exact_get_bind ((exact_attempt hrules).bind fun a e' hrun => ?_)
  obtain ⟨-, rfl⟩ := Engine.attempt_ok hrun
  split
  · rfl
  · exact exact_recordStake (e := { e with store := a.store, deployments := a.deployments })
      he.stakes hc a.stake

/-- Every validation of a block that fits, below the limit of heights, ends on a machine as it ends
in exact arithmetic. -/
theorem exact_validateBlock (hnet : e.network.Fits) (he : e.Fits)
    (hc : c.height < Chain.heightLimit) (hb : b.Sized) :
    Exact (validateBlock now c b) (Engine.validateBlock now c b) e := by
  have hheight : c.height ≤ 0xffffffff := by
    rw [Chain.heightLimit] at hc
    omega
  refine (exact_validateHeader hnet hheight).bind fun _ e₁ hheader => ?_
  have hquiet₁ := Engine.quiet_validateHeader now c hnet.rules.commitsLast
  rw [hheader, endState_ok] at hquiet₁
  have hnet₁ : e₁.network.Fits := hquiet₁.network ▸ hnet
  refine (exact_validateContents hnet₁ hheight hb).bind fun _ e₂ hcontents => ?_
  have hquiet₂ := Engine.quiet_validateContents now c b hnet₁.rules.commitsLast
  rw [hcontents, endState_ok] at hquiet₂
  have hnet₂ : e₂.network.Fits := hquiet₂.network ▸ hnet₁
  have hadmitted := Engine.validateContents_admits hnet₁.rules hcontents
  rw [← hquiet₂.network] at hadmitted
  exact exact_validateCoins hnet₂ ((he.of_quiet hquiet₁).of_quiet hquiet₂) hc hb
    (Block.checked_of_checkTransactions hadmitted.transactions)

end Validation

end Machine

end Chainstate
