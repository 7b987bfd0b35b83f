-- SUMMARY: The built-in networks on a machine: no validation is stopped by its arithmetic.
import Chainstate.Proofs.Machine.Engine

/-!
# The built-in networks on a machine

What a machine relies on holds of every state that requests lead to: coins of an admitted ledger
are in range, the supply of a network of proof of stake is bounded by its rewards and so by the
height of its tip (`Params.rewards_le`), and the stake cache has only records of blocks that
requests have named. The parameters of the built-in networks fit by computation. So a validation
ends on a machine as it ends in exact arithmetic (`Session.validateBlock_machine`).
-/

namespace Chainstate

/-! ## Supply -/

namespace Params

variable {p : Params}

theorem rewardAt_le (hp : p.Rewarding) (hscarce : p.Scarce) (b : Block) {height : Nat}
    (h : p.isPremine height = false) : b.rewardAt p height ≤ 0x3fffffff := by
  unfold Block.rewardAt
  split
  · rw [stakeRewardAt, if_neg (by rw [h]; decide)]
    exact hscarce.stake
  · exact Int.le_trans (workRewardAt_of_not_premine hp.work.1 h).2 hscarce.work

theorem rewardAt_premine (b : Block) {height : Nat} (h : p.isPremine height = true) :
    b.rewardAt p height = p.premineReward := by
  unfold Block.rewardAt stakeRewardAt workRewardAt
  rw [if_pos h, if_pos h, ite_self]

/-- The premine is granted once, and every other block adds a small reward. -/
theorem rewards_le (hp : p.Rewarding) (hscarce : p.Scarce) (blocks : List (Chain × Block)) :
    p.rewards blocks ≤ 0x3fffffff * blocks.length
      + (if p.premineHeight ≤ blocks.length then p.premineReward else 0) := by
  obtain ⟨hpremine, -⟩ := hp.premine
  induction blocks with
  | nil =>
    rw [rewards]
    split
    · simpa using hpremine
    · simp
  | cons cb older ih =>
    obtain ⟨c, b⟩ := cb
    rw [rewards, List.length_cons]
    cases hkind : p.isPremine (older.length + 1) with
    | true =>
      rw [rewardAt_premine b hkind]
      rw [isPremine, Bool.and_eq_true, beq_iff_eq] at hkind
      rw [if_neg (by omega)] at ih
      rw [if_pos (by omega)]
      omega
    | false =>
      have hreward := rewardAt_le hp hscarce b hkind
      split at ih
      · rw [if_pos (by omega)]
        omega
      · split
        · omega
        · omega

end Params

namespace Ledger

variable {net : Network} {blocks : List (Chain × Block)} {t : Table OutPoint Coin}

/-- The coins of a valid ledger are in range. -/
theorem coins_inRange (hvalid : Valid net blocks) (h : coins net blocks = some t) :
    t.All (Coin.InRange net.params) := by
  induction blocks generalizing t with
  | nil =>
    cases h
    exact Table.all_empty _
  | cons cb older ih =>
    obtain ⟨c, b⟩ := cb
    obtain ⟨⟨db, db', -, -, hadmitted⟩, hvalid⟩ := hvalid
    obtain ⟨before, hbefore, happly⟩ := coins_cons_eq_some h
    refine applyAll_all happly (ih hvalid hbefore) fun tx htx => ?_
    exact (Block.checked_of_checkTransactions hadmitted.contents.transactions tx htx).inRange _ _

/-- The newest block of a valid ledger is as high as there are blocks. -/
theorem length_lt_of_valid (hvalid : Valid net blocks) {limit : Nat} (hlimit : 0 < limit)
    (h : ∀ cb ∈ blocks, cb.1.height < limit) : blocks.length < limit := by
  cases blocks with
  | nil => exact hlimit
  | cons cb older =>
    obtain ⟨c, b⟩ := cb
    obtain ⟨⟨db, db', hdb, hdb', hadmitted⟩, -⟩ := hvalid
    obtain ⟨fees, hconnected⟩ := connected_of_admitted hadmitted.coins
    have hheight := hdb.height_eq hconnected
    have hlt := h (c, b) List.mem_cons_self
    rw [List.length_cons, ← hheight]
    exact hlt

end Ledger

/-! ## Cached heights -/

namespace Engine

/-- The engine has cached only records of blocks below the limit. -/
def Low (e : Engine MemoryStore) : Prop := ∀ cache ∈ e.stakes, cache.Low

theorem preserves_low_attempt (now : UInt32) (c : Chain) (b : Option Block)
    (rules : List RuleId) : Preserves Low (attempt now c b rules) := by
  intro e he
  cases hrun : attempt now c b rules e with
  | ok a e' =>
    obtain ⟨-, rfl⟩ := attempt_ok hrun
    exact he
  | error f e' =>
    obtain ⟨a, -, rfl⟩ := attempt_error hrun
    exact he

theorem preserves_low_flushStakes (force : Bool) : Preserves Low (flushStakes force) := by
  rintro ⟨network, store, stakes, deployments⟩ he
  cases stakes with
  | none => exact he
  | some cache =>
    unfold flushStakes
    rw [step_get_bind]
    dsimp only
    cases hflush : cache.flush store force with
    | error f => exact he
    | ok written =>
      obtain ⟨cache', store'⟩ := written
      rintro _ ⟨⟩
      exact (he cache rfl).flush hflush

theorem preserves_low_recordStake {c : Chain} (hc : c.height < Chain.heightLimit)
    (record : Option StakeRecord) : Preserves Low (recordStake c record) := by
  rintro ⟨network, store, stakes, deployments⟩ he
  cases stakes with
  | none => exact he
  | some cache =>
    cases record with
    | none => exact he
    | some record =>
      have hset : Low ⟨network, store, some (cache.set c record), deployments⟩ := by
        rintro _ ⟨⟩
        exact (he cache rfl).set hc record
      exact ((preserves_low_flushStakes false).adaptExcept Failure.fault) _ hset

theorem preserves_low_validateBlock (now : UInt32) {c : Chain} (hc : c.height < Chain.heightLimit)
    (b : Block) : Preserves Low (validateBlock now c b) := by
  have hstage (block : Option Block) (rules : Engine MemoryStore → List RuleId) :
      Preserves Low (get >>= fun e => attempt now c block (rules e) >>= fun _ => pure ()) :=
    fun e he => ((preserves_low_attempt now c block (rules e)).bind fun _ => preserves_pure ()) e he
  refine (hstage none _).bind fun _ => (hstage (some b) _).bind fun _ => ?_
  intro e he
  refine ((preserves_low_attempt now c (some b) e.network.rules.coins).bind fun a => ?_) e he
  split
  · exact fun _ h => h
  · exact preserves_low_recordStake hc a.stake

theorem preserves_low_loadStakes {c : Chain} (hc : c.height < Chain.heightLimit) :
    Preserves Low (loadStakes c) := by
  rintro ⟨network, store, stakes, deployments⟩ he
  cases stakes with
  | none => exact he
  | some cache =>
    have hload : (endState (StakeCache.loadBelow store c.height c cache)).Low :=
      (he cache rfl).load c.height hc
    unfold loadStakes StakeCache.load
    dsimp only
    cases hrun : StakeCache.loadBelow store c.height c cache with
    | ok u cache' =>
      rw [hrun] at hload
      rintro _ ⟨⟩
      exact hload
    | error f cache' =>
      rw [hrun] at hload
      rintro _ ⟨⟩
      exact hload

theorem low_opened (net : Network) : (opened net).Low := by
  have hstart : (ofStore net MemoryStore.empty).Low := by
    unfold ofStore Low
    split
    · rintro _ ⟨⟩
      exact StakeCache.low_ofGenesis _
    · rintro _ ⟨⟩
  exact hstart

end Engine

namespace Request

/-- The chains whose blocks a request can bring into the database or into the stake cache. -/
def chains : Request → List Chain
  | .validate _ c _ => [c]
  | .reorganize _ _ branch => branch.map Prod.fst
  | .loadStakes c => [c]
  | .rewind | .flush => []

theorem mem_chains_of_mem_blocks {r : Request} {cb : Chain × Block} (h : cb ∈ r.blocks) :
    cb.1 ∈ r.chains := by
  cases r with
  | validate now c b =>
    rw [List.mem_singleton.1 h]
    exact List.mem_cons_self
  | reorganize now old branch => exact List.mem_map_of_mem h
  | rewind | flush | loadStakes c => cases h

end Request

namespace Session

/-- The engine of the session has cached only records of blocks below the limit. -/
def Low (s : Session) : Prop := s.engine.Low

theorem preserves_low_onEngine {ε α : Type} {x : EStateM ε (Engine MemoryStore) α}
    (hx : Preserves Engine.Low x) : Preserves Low (onEngine x) := by
  intro s hs
  rw [endState_onEngine]
  exact hx s.engine hs

theorem preserves_low_validateBlock (now : UInt32) {c : Chain} (hc : c.height < Chain.heightLimit)
    (b : Block) : Preserves Low (validateBlock now c b) :=
  (preserves_low_onEngine (Engine.preserves_low_validateBlock now hc b)).bind fun _ _ hs => hs

theorem preserves_low_rewind : Preserves Low rewind := by
  refine (preserves_low_onEngine fun e he => ?_).bind fun _ _ hs => hs
  cases hrewind : MemoryStore.rewind e.store with
  | ok out =>
    rw [Engine.rewind_ok hrewind]
    exact he
  | error f =>
    rw [Engine.rewind_error hrewind]
    exact he

theorem low_start (net : Network) : (start net).Low := Engine.low_opened net

theorem low_perform {r : Request} (hr : ∀ c ∈ r.chains, c.height < Chain.heightLimit)
    {s : Session} (hs : s.Low) : (s.perform r).Low := by
  cases r with
  | validate now c b =>
    exact preserves_low_validateBlock now (hr c List.mem_cons_self) b s hs
  | rewind => exact preserves_low_rewind s hs
  | reorganize now old branch =>
    refine preserves_reorganize preserves_low_rewind (fun cb hcb => ?_) old s hs
    exact preserves_low_validateBlock now (hr cb.1 (List.mem_map_of_mem hcb)) cb.2
  | flush => exact preserves_low_onEngine (Engine.preserves_low_flushStakes true) s hs
  | loadStakes c =>
    exact preserves_low_onEngine (Engine.preserves_low_loadStakes (hr c List.mem_cons_self)) s hs

end Session

/-! ## The built-in networks -/

namespace Machine

variable {p : Params}

theorem staged_header_work : Staged p RuleSet.work.header :=
  ⟨by decide, rfl, fun h => absurd h (by decide)⟩

theorem staged_contents_work : Staged p (RuleSet.work.integrity ++ RuleSet.work.contents) :=
  ⟨by decide, rfl, fun h => absurd h (by decide)⟩

theorem staged_header_stake : Staged p RuleSet.stake.header :=
  ⟨by decide, rfl, fun h => absurd h (by decide)⟩

theorem staged_contents_stake (h : p.Averaged) :
    Staged p (RuleSet.stake.integrity ++ RuleSet.stake.contents) :=
  ⟨by decide, rfl, fun _ => h⟩

end Machine

/-- Every network that has a name fits into machine words. -/
theorem Network.fits_of_ofName? {name : String} {net : Network} (h : ofName? name = some net) :
    net.Fits := by
  unfold ofName? at h
  split at h
  all_goals cases h
  all_goals
    refine ⟨?_, ⟨by decide, by decide, by decide, by decide, by decide⟩,
      ⟨by decide, by decide, ?_⟩,
      ⟨by decide, by decide, by decide, by decide, by decide, by decide⟩,
      ⟨by decide, by decide, by decide, by rintro _ ⟨⟩⟩, ?_, ?_, ?_⟩
  all_goals first
    | exact .inl rfl
    | exact .inr rfl
    | exact Machine.staged_header_work
    | exact Machine.staged_contents_work
    | exact Machine.staged_header_stake
    | exact Machine.staged_contents_stake ⟨by decide, by decide, by decide, by decide⟩
    | exact fun hstake => absurd hstake Engine.work_ne_stake
    | exact fun _ => ⟨by decide, by decide⟩
    | (intro id f hf; cases id <;> cases hf <;> decide)

namespace Session

variable {net : Network}

/-- The session keeps a ledger of blocks below the limit, and has cached only records of such. -/
structure Bounded (net : Network) (s : Session) : Prop where
  inv : s.Inv net fun cb => cb.1.height < Chain.heightLimit
  low : s.Low

theorem bounded_perform (hnet : Engine.BuiltIn net) {r : Request}
    (hr : ∀ c ∈ r.chains, c.height < Chain.heightLimit) {s : Session} (hs : s.Bounded net) :
    (s.perform r).Bounded net :=
  ⟨inv_perform hnet (fun cb hcb => hr cb.1 (Request.mem_chains_of_mem_blocks hcb)) hs.inv,
    low_perform hr hs.low⟩

theorem bounded_run (hnet : Engine.BuiltIn net) {requests : List Request}
    (h : ∀ r ∈ requests, ∀ c ∈ r.chains, c.height < Chain.heightLimit) :
    (run net requests).Bounded net :=
  List.foldlRecOn requests perform ⟨inv_start net _, low_start net⟩ fun _ hs r hr =>
    bounded_perform hnet (h r hr) hs

/-- A bounded session of a network that fits has an engine that a machine can go on from. -/
theorem Bounded.fits (hnet : net.Fits) {s : Session} (hs : s.Bounded net) :
    s.engine.network = net ∧ s.engine.Fits := by
  obtain ⟨blocks, hkeeps, hblocks⟩ := hs.inv
  refine ⟨hkeeps.network, ?_, ?_, hs.low⟩
  · rw [hkeeps.network]
    exact Ledger.coins_inRange hkeeps.valid hkeeps.holds.coins
  · rw [hkeeps.network]
    intro hstake
    have hvalue := Ledger.value_le_stake hstake hkeeps.valid hkeeps.holds.coins
    have hrewards := Params.rewards_le hnet.rewarding (hnet.scarce hstake) blocks
    have hlength := Ledger.length_lt_of_valid hkeeps.valid (by decide) hblocks
    have hpremine := hnet.rewarding.premine
    rw [Chain.heightLimit] at hlength
    split at hrewards
    · omega
    · omega

/-- On every built-in network, after any requests about blocks below the limit of heights, the
validation of a block below it whose lists and scripts fit into their encoding ends on a machine as
it ends in exact arithmetic, accepted or refused, and is never stopped: no integer leaves its type,
nothing is divided by zero, no index is out of range and no bounds are inverted. -/
theorem validateBlock_machine {name : String} (hname : Network.ofName? name = some net)
    {requests : List Request}
    (hrequests : ∀ r ∈ requests, ∀ c ∈ r.chains, c.height < Chain.heightLimit) (now : UInt32)
    {c : Chain} (hc : c.height < Chain.heightLimit) {b : Block} (hb : b.Sized) :
    Machine.validateBlock now c b (run net requests).engine
        = (Engine.validateBlock now c b).adaptExcept Trap.failure (run net requests).engine
      ∧ ∀ f e', Machine.validateBlock now c b (run net requests).engine
        ≠ .error (.arithmetic f) e' := by
  have hnet := Network.fits_of_ofName? hname
  obtain ⟨hnetwork, hfits⟩ := (bounded_run hnet.rules hrequests).fits hnet
  have hexact : Machine.validateBlock now c b (run net requests).engine
      = (Engine.validateBlock now c b).adaptExcept Trap.failure (run net requests).engine :=
    Machine.exact_validateBlock (hnetwork.symm ▸ hnet) hfits hc hb
  refine ⟨hexact, fun f e' => ?_⟩
  rw [hexact]
  unfold EStateM.adaptExcept
  cases Engine.validateBlock now c b (run net requests).engine with
  | ok u e => rintro ⟨⟩
  | error g e => rintro ⟨⟩

end Session

namespace StakeRegtest

/-- The block is connected and taken back. -/
def detour : List Request := requests ++ [.rewind]

theorem block_sized : block.Sized := by
  have hin : ∀ i ∈ Regtest.coinbase.inputs, i.Sized :=
    List.forall_mem_singleton.2 (show 2 ≤ CompactSize.maxSize by decide)
  have hout : ∀ o ∈ [(⟨400000000, ⟨[0x51]⟩⟩ : TxOut)], o.Sized :=
    List.forall_mem_singleton.2 (show 1 ≤ CompactSize.maxSize by decide)
  exact ⟨⟨by decide, List.forall_mem_singleton.2 ⟨⟨by decide, hin⟩, by decide, hout⟩⟩, by decide⟩

set_option maxRecDepth 10000

/-- The block is connected once more, on a machine as in exact arithmetic. -/
theorem validateBlock_machine_detour :
    Network.ofName? "stake-regtest" = some Network.stakeRegtest
    ∧ (∀ r ∈ detour, ∀ c ∈ r.chains, c.height < Chain.heightLimit)
    ∧ (Chain.extend block.header Network.stakeRegtest.genesisChain).height < Chain.heightLimit
    ∧ block.Sized
    ∧ succeeded (Engine.validateBlock 2000000000
      (.extend block.header Network.stakeRegtest.genesisChain) block
      (Session.run Network.stakeRegtest detour).engine) = true
    ∧ Machine.validateBlock 2000000000 (.extend block.header Network.stakeRegtest.genesisChain)
        block (Session.run Network.stakeRegtest detour).engine
      = (Engine.validateBlock 2000000000
          (.extend block.header Network.stakeRegtest.genesisChain) block).adaptExcept
          Trap.failure (Session.run Network.stakeRegtest detour).engine
    ∧ ∀ f e', Machine.validateBlock 2000000000
        (.extend block.header Network.stakeRegtest.genesisChain) block
        (Session.run Network.stakeRegtest detour).engine ≠ .error (.arithmetic f) e' := by
  have hrequests : ∀ r ∈ detour, ∀ c ∈ r.chains, c.height < Chain.heightLimit := by
    intro r hr c hc
    rcases List.mem_append.1 hr with hr | hr
    · rw [List.mem_singleton.1 hr] at hc
      rw [List.mem_singleton.1 hc]
      decide
    · rw [List.mem_singleton.1 hr] at hc
      cases hc
  have hname : Network.ofName? "stake-regtest" = some Network.stakeRegtest := rfl
  exact ⟨hname, hrequests, by decide, block_sized, by decide +kernel,
    Session.validateBlock_machine hname hrequests 2000000000 (by decide) block_sized⟩

end StakeRegtest

end Chainstate
