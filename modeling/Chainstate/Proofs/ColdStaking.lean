-- SUMMARY: Cold staking: where the coins of a cold-staking script go in a block that the rule passes.
import Chainstate.Proofs.Connect
import Chainstate.Proofs.Templates

/-!
# Cold staking

A coinstake that spends a coin of a cold-staking script spends coins of that script alone, and each
of its outputs but the empty first one either returns to the script or carries a key. The rule
compares what is spent with the total of all outputs, each added up in words
(`Staking.checkColdStake_ok`). Where words can hold both sums, it bounds what returns to the script
and what is left on carriers of keys together (`Staking.totalOut_of_returnsTo`). What returns is
bounded by itself where the carriers of keys hold no value; where they hold value, the staking key
can destroy it, since no one can spend such an output.
-/

namespace Chainstate

/-! ## Scripts -/

namespace Script

theorem carriesKey_of_isColdStaking {s : Script} (h : s.isColdStaking = true) :
    s.carriesKey = false := by
  rw [← Bool.not_eq_true]
  intro hcarries
  have hsame : Template.coldStaking = .keyCarrier := Template.eq_of_accepts h hcarries
  cases hsame

theorem bytes_ne_nil_of_isColdStaking {s : Script} (h : s.isColdStaking = true) :
    s.bytes ≠ [] := by
  intro hnil
  simp [isColdStaking, coldStakingKeys?, hnil] at h

end Script

/-! ## Outputs -/

namespace Transaction

/-- What the transaction pays to a script. -/
def paidTo (tx : Transaction) (s : Script) : Int :=
  totalAmount ((tx.outputs.filter fun o => o.script == s).map TxOut.amount)

/-- What the transaction leaves on outputs that carry a key, which no one can spend. -/
def leftOnCarriers (tx : Transaction) : Int :=
  totalAmount ((tx.outputs.filter fun o => o.script.carriesKey).map TxOut.amount)

theorem leftOnCarriers_eq_zero {tx : Transaction}
    (h : ∀ o ∈ tx.outputs, o.script.carriesKey = true → o.value = 0) : tx.leftOnCarriers = 0 := by
  unfold leftOnCarriers
  generalize tx.outputs = outs at h
  induction outs with
  | nil => rfl
  | cons o rest ih =>
    obtain ⟨ho, hrest⟩ := List.forall_mem_cons.1 h
    cases hkey : o.script.carriesKey with
    | false => simp [hkey, ih hrest]
    | true => simp [hkey, ih hrest, TxOut.amount, ho hkey]

end Transaction

/-- Outputs that are empty, carry a key or pay to a cold-staking script are worth what the latter
two kinds are worth. -/
theorem totalAmount_outputs_of_returns {source : Script} (hsource : source.isColdStaking = true)
    {outs : List TxOut}
    (h : ∀ o ∈ outs, o.isEmpty = true ∨ o.script.carriesKey = true ∨ o.script = source) :
    totalAmount (outs.map TxOut.amount)
      = totalAmount ((outs.filter fun o => o.script == source).map TxOut.amount)
        + totalAmount ((outs.filter fun o => o.script.carriesKey).map TxOut.amount) := by
  induction outs with
  | nil => rfl
  | cons o rest ih =>
    obtain ⟨ho, hrest⟩ := List.forall_mem_cons.1 h
    have ih := ih hrest
    have hcarries := Script.carriesKey_of_isColdStaking hsource
    obtain hempty | hkey | hsame := ho
    · simp only [TxOut.isEmpty, Bool.and_eq_true, beq_iff_eq, List.isEmpty_iff] at hempty
      have hne : o.script ≠ source := by
        rintro rfl
        exact Script.bytes_ne_nil_of_isColdStaking hsource hempty.2
      have hnone : o.script.carriesKey = false := by
        simp [Script.carriesKey, Script.carriedKey?, hempty.2]
      have hzero : o.amount = 0 := by rw [TxOut.amount, hempty.1]; rfl
      simp [hne, hnone, hzero, ih]
    · have hne : o.script ≠ source := by
        rintro rfl
        rw [hcarries] at hkey
        cases hkey
      simp [hne, hkey, ih, Int.add_left_comm]
    · subst hsame
      simp [hcarries, ih, Int.add_assoc]

namespace Staking

variable {w : WorkingSet} {tx : Transaction}

theorem returnsTo_iff {source : Script} :
    returnsTo source tx = true
      ↔ ∀ o ∈ tx.outputs.drop 1, o.script.carriesKey = true ∨ o.script = source := by
  simp [returnsTo]

/-- The outputs of a coinstake that returns to a cold-staking script are worth what they pay to
the script and leave on carriers of keys. -/
theorem totalOut_of_returnsTo {source : Script} (hsource : source.isColdStaking = true)
    (hstake : tx.isCoinstake = true) (h : returnsTo source tx = true) :
    tx.totalOut = tx.paidTo source + tx.leftOnCarriers := by
  apply totalAmount_outputs_of_returns hsource
  unfold Transaction.isCoinstake at hstake
  split at hstake
  · next o o' rest _ houtputs =>
    rw [returnsTo_iff, houtputs] at h
    rw [houtputs]
    refine List.forall_mem_cons.2 ⟨.inl (Bool.and_eq_true_iff.1 hstake).2, fun x hx => ?_⟩
    exact .inr (h x hx)
  · cases hstake

/-! ## Inputs -/

/-- The scripts of the inputs are read where a coin stands under each of them. -/
theorem inputScripts_ok {scripts : List Script} :
    inputScripts w tx = .ok scripts
      ↔ ∃ coins : List Coin, tx.inputs.map (fun i => w.coin? i.prevout) = coins.map some
        ∧ scripts = coins.map fun c => c.output.script := by
  unfold inputScripts
  induction tx.inputs generalizing scripts with
  | nil =>
    rw [List.mapM_nil, check_pure_ok]
    constructor
    · rintro rfl
      exact ⟨[], rfl, rfl⟩
    · rintro ⟨coins, hcoins, rfl⟩
      rw [List.map_eq_nil_iff.1 hcoins.symm, List.map_nil]
  | cons i rest ih =>
    simp only [List.mapM_cons, check_bind_ok, check_pure_ok, ih]
    constructor
    · rintro ⟨s, hs, _, ⟨coins, hcoins, rfl⟩, rfl⟩
      split at hs
      · next c hc =>
        cases hs
        exact ⟨c :: coins, by simp [hc, hcoins], rfl⟩
      · cases hs
    · rintro ⟨coins, hcoins, rfl⟩
      cases coins with
      | nil => cases hcoins
      | cons c coins =>
        obtain ⟨hc, hcoins⟩ := List.cons_eq_cons.1 hcoins
        exact ⟨c.output.script, by simp [hc], _, ⟨coins, hcoins, rfl⟩, rfl⟩

theorem valueIn_of_coins {coins : List Coin}
    (h : tx.inputs.map (fun i => w.coin? i.prevout) = coins.map some) :
    w.valueIn tx = totalWord (coins.map fun c => c.output.value) := by
  unfold WorkingSet.valueIn
  have hcoins := congrArg (List.filterMap id) h
  rw [List.filterMap_map, List.filterMap_map] at hcoins
  simpa using congrArg (fun coins => totalWord (coins.map fun c => c.output.value)) hcoins

/-- Sums of words compare as the amounts do where words can hold these. -/
theorem totalWord_le_totalOutWord {coins : List Coin}
    (hin : FitsWord (totalAmount (coins.map Coin.amount))) (hout : FitsWord tx.totalOut) :
    totalWord (coins.map fun c => c.output.value) ≤ tx.totalOutWord
      ↔ totalAmount (coins.map Coin.amount) ≤ tx.totalOut := by
  have hamounts : (coins.map fun c => c.output.value).map Int64.toInt = coins.map Coin.amount :=
    List.map_map
  rw [← hamounts] at hin ⊢
  rw [Int64.le_iff_toInt_le, toInt_totalWord_of_fits hin, Transaction.toInt_totalOutWord hout]

/-! ## The check -/

theorem refuse_ok {c : Prop} [Decidable c] {r : Rejection} {x : Except Rejection Unit} :
    (if c then throw r else x) = .ok () ↔ ¬c ∧ x = .ok () := by
  by_cases hc : c
  · simp [hc, throw, throwThe, MonadExceptOf.throw]
  · simp [hc]

/-- What the check asks of inputs with coins under all of them, one of a cold-staking script. -/
theorem checkColdStake_of_coins {coins : List Coin} {coin : Coin}
    (h : tx.inputs.map (fun i => w.coin? i.prevout) = coins.map some) (hmem : coin ∈ coins)
    (hcold : coin.output.script.isColdStaking = true) :
    checkColdStake w tx = .ok ()
      ↔ (∀ c ∈ coins, c.output.script = coin.output.script)
        ∧ returnsTo coin.output.script tx = true ∧ w.valueIn tx ≤ tx.totalOutWord := by
  have hscripts := inputScripts_ok.2 ⟨coins, h, rfl⟩
  have hany : ((coins.map fun c => c.output.script).any Script.isColdStaking) = true :=
    List.any_eq_true.2 ⟨_, List.mem_map_of_mem hmem, hcold⟩
  cases coins with
  | nil => cases hmem
  | cons first rest =>
    -- The check compares with the script of the first input, which need not be the given one.
    have hcheck : checkColdStake w tx = .ok ()
        ↔ (∀ c ∈ rest, c.output.script = first.output.script)
          ∧ returnsTo first.output.script tx = true ∧ w.valueIn tx ≤ tx.totalOutWord := by
      unfold checkColdStake
      rw [hscripts]
      rw [List.map_cons] at hany
      simp only [List.map_cons, check_bind_ok, Except.ok.injEq, exists_eq_left', hany,
        Bool.not_true, Bool.false_eq_true, if_false, refuse_ok]
      simp
    rw [hcheck]
    constructor
    · rintro ⟨hrest, hreturns, hvalue⟩
      have hall : ∀ c ∈ first :: rest, c.output.script = first.output.script :=
        List.forall_mem_cons.2 ⟨rfl, hrest⟩
      rw [hall coin hmem]
      exact ⟨hall, hreturns, hvalue⟩
    · rintro ⟨hall, hreturns, hvalue⟩
      obtain ⟨hfirst, hrest⟩ := List.forall_mem_cons.1 hall
      rw [hfirst]
      exact ⟨hrest, hreturns, hvalue⟩

/-- A transaction with an input from a cold-staking script passes exactly where all its inputs are
coins of that script, its outputs return to it or carry keys, and the sum of its outputs is that of
its inputs or more, in words. -/
theorem checkColdStake_ok {i : TxIn} {coin : Coin} (hi : i ∈ tx.inputs)
    (hcoin : w.coin? i.prevout = some coin) (hcold : coin.output.script.isColdStaking = true) :
    checkColdStake w tx = .ok ()
      ↔ ∃ coins : List Coin, tx.inputs.map (fun i => w.coin? i.prevout) = coins.map some
        ∧ (∀ c ∈ coins, c.output.script = coin.output.script)
        ∧ returnsTo coin.output.script tx = true
        ∧ totalWord (coins.map fun c => c.output.value) ≤ tx.totalOutWord := by
  have hmem {coins : List Coin}
      (h : tx.inputs.map (fun i => w.coin? i.prevout) = coins.map some) : coin ∈ coins := by
    have hsome : some coin ∈ coins.map some := by
      rw [← h, ← hcoin]
      exact List.mem_map_of_mem hi
    simpa using hsome
  constructor
  · intro hcheck
    obtain ⟨scripts, hscripts, -⟩ := check_bind_ok.1 hcheck
    obtain ⟨coins, hcoins, -⟩ := inputScripts_ok.1 hscripts
    obtain ⟨hall, hreturns, hvalue⟩ :=
      (checkColdStake_of_coins hcoins (hmem hcoins) hcold).1 hcheck
    rw [valueIn_of_coins hcoins] at hvalue
    exact ⟨coins, hcoins, hall, hreturns, hvalue⟩
  · rintro ⟨coins, hcoins, hall, hreturns, hvalue⟩
    rw [checkColdStake_of_coins hcoins (hmem hcoins) hcold, valueIn_of_coins hcoins]
    exact ⟨hall, hreturns, hvalue⟩

end Staking

/-! ## The rule -/

namespace Attempt

variable {σ : Type} {a a' : Attempt σ}

/-- Where the fork is active, the rule checks the coinstake of its block. -/
theorem checkColdStake_of_coldStaking {u : Unit} {flags : DeploymentFlags} {b : Block}
    {tx : Transaction} {w : WorkingSet} (h : coldStaking a = .ok u a')
    (hflags : a.flags = some flags) (hactive : flags.coldStakingActive = true)
    (hblock : a.block = some b) (hstake : b.coinstake? = some tx) (hview : a.view = some w) :
    Staking.checkColdStake w tx = .ok () := by
  simp only [coldStaking, step_bind_ok, getFlags_ok, hflags, Option.some.injEq] at h
  obtain ⟨_, _, ⟨rfl, rfl⟩, h⟩ := h
  simp only [hactive, Bool.not_true, Bool.false_eq_true, if_false, step_bind_ok, getBlock_ok,
    hblock, Option.some.injEq] at h
  obtain ⟨_, _, ⟨rfl, rfl⟩, h⟩ := h
  simp only [hstake, step_bind_ok, getView_ok, hview, Option.some.injEq, check_ok] at h
  obtain ⟨_, _, ⟨rfl, rfl⟩, hcheck, -⟩ := h
  exact hcheck

end Attempt

namespace RuleId

/-- The cold-staking rule keeps the coins of a cold-staking script together: a coinstake that
spends one of them spends nothing else, pays to the script or to carriers of keys alone, and pays
at least what it spends, by sums of words. Where words can hold these sums, the script and the
carriers of keys get at least what was spent from the script, and the script gets it alone where
the carriers of keys hold no value. -/
theorem coldStaking_returns {σ : Type} [CoinStore σ] {env : RuleEnv} {a a' : Attempt σ}
    {flags : DeploymentFlags} {b : Block} {tx : Transaction} {w : WorkingSet} {i : TxIn}
    {coin : Coin} (h : coldStaking.run env a = .ok () a')
    (hflags : a.flags = some flags) (hactive : flags.coldStakingActive = true)
    (hblock : a.block = some b) (hstake : b.coinstake? = some tx) (hview : a.view = some w)
    (hi : i ∈ tx.inputs) (hcoin : w.coin? i.prevout = some coin)
    (hcold : coin.output.script.isColdStaking = true) :
    ∃ coins : List Coin, tx.inputs.map (fun i => w.coin? i.prevout) = coins.map some
      ∧ (∀ c ∈ coins, c.output.script = coin.output.script)
      ∧ (∀ o ∈ tx.outputs.drop 1,
          o.script.carriesKey = true ∨ o.script = coin.output.script)
      ∧ totalWord (coins.map fun c => c.output.value)
        ≤ totalWord (tx.outputs.map TxOut.value)
      ∧ (FitsWord (totalAmount (coins.map Coin.amount)) → FitsWord tx.totalOut →
          totalAmount (coins.map Coin.amount)
            ≤ tx.paidTo coin.output.script + tx.leftOnCarriers
          ∧ ((∀ o ∈ tx.outputs, o.script.carriesKey = true → o.value = 0) →
              totalAmount (coins.map Coin.amount) ≤ tx.paidTo coin.output.script)) := by
  have hcheck := Attempt.checkColdStake_of_coldStaking h hflags hactive hblock hstake hview
  obtain ⟨_, _, _, hshape⟩ := Block.coinstake?_eq_some hstake
  obtain ⟨coins, hcoins, hsame, hreturns, hwords⟩ :=
    (Staking.checkColdStake_ok hi hcoin hcold).1 hcheck
  refine ⟨coins, hcoins, hsame, Staking.returnsTo_iff.1 hreturns, hwords, fun hin hout => ?_⟩
  have hvalue := (Staking.totalWord_le_totalOutWord hin hout).1 hwords
  rw [Staking.totalOut_of_returnsTo hcold hshape hreturns] at hvalue
  refine ⟨hvalue, fun hzero => ?_⟩
  rw [Transaction.leftOnCarriers_eq_zero hzero, Int.add_zero] at hvalue
  exact hvalue

end RuleId

namespace StakeRegtest

/-- A cold-staking script with its two keys. -/
def coldScript : Script := .coldStaking (List.replicate 20 0x11) (List.replicate 20 0x22)

/-- A coin of the script, the input that spends it, and a working set with the coin. -/
def coldCoin : Coin := ⟨1, ⟨10, coldScript⟩, false, false, none⟩

def coldInput : TxIn := ⟨⟨⟨List.replicate 32 8, rfl⟩, 0⟩, ⟨[]⟩, 0xffffffff⟩

def coldView : WorkingSet := WorkingSet.empty.put coldInput.prevout ⟨some coldCoin, some coldCoin⟩

/-- A coinstake that spends the coin and pays its whole value to a carrier of a key. -/
def burn : Transaction :=
  ⟨1, [coldInput], [⟨0, ⟨[]⟩⟩, ⟨10, .dataCarrier (List.replicate 33 2)⟩], 0⟩

def burnBlock : Block :=
  { Network.stakeRegtest.genesis with transactions :=
      Network.stakeRegtest.genesis.transactions ++ [burn] }

def burning : Attempt MemoryStore where
  chain := Network.stakeRegtest.genesisChain
  block := some burnBlock
  flags := some ⟨.ofBits 1, .ofBits 0, true, false, true⟩
  view := some coldView
  stake := none
  committed := false
  store := MemoryStore.empty
  deployments := DeploymentCache.empty

set_option maxRecDepth 10000

/-- The rule passes a coinstake that leaves nothing to the script: the whole value of the coin is
on a carrier of a key. -/
theorem coldStaking_returns_burn : coldCoin.amount = 10 ∧ burn.paidTo coldScript = 0
    ∧ FitsWord burn.totalOut
    ∧ ∃ coins : List Coin, burn.inputs.map (fun i => coldView.coin? i.prevout) = coins.map some
      ∧ (∀ c ∈ coins, c.output.script = coldScript)
      ∧ (∀ o ∈ burn.outputs.drop 1, o.script.carriesKey = true ∨ o.script = coldScript)
      ∧ totalWord (coins.map fun c => c.output.value) ≤ totalWord (burn.outputs.map TxOut.value)
      ∧ (FitsWord (totalAmount (coins.map Coin.amount)) → FitsWord burn.totalOut →
          totalAmount (coins.map Coin.amount) ≤ burn.paidTo coldScript + burn.leftOnCarriers
          ∧ ((∀ o ∈ burn.outputs, o.script.carriesKey = true → o.value = 0) →
              totalAmount (coins.map Coin.amount) ≤ burn.paidTo coldScript)) := by
  have hrun : RuleId.coldStaking.run ⟨Network.stakeRegtest.params, 0, none⟩ burning
      = .ok () burning := rfl
  have hstake : burnBlock.coinstake? = some burn := by decide +kernel
  have hcoin : coldView.coin? coldInput.prevout = some coldCoin := by decide +kernel
  exact ⟨rfl, by decide +kernel, by decide +kernel, RuleId.coldStaking_returns hrun rfl rfl rfl
    hstake rfl (List.mem_singleton.2 rfl) hcoin (by decide +kernel)⟩

end StakeRegtest

end Chainstate
