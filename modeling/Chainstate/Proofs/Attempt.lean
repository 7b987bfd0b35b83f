-- SUMMARY: Attempts: which rules leave the database alone, and what a passed rule says.
import Chainstate.Proofs.Spending
import Chainstate.Validation.Attempt

/-!
# Attempts

Every rule but `commitView` keeps the chain, the block, the database and the mark of a commit,
whether it passes or fails; `Attempt.Keeps` is closed under the steps that rules are made of, so
this is one walk through each rule. `commitView` either fails and changes none of them or commits
the loaded coins. The other lemmas say what follows from a rule that has passed.
-/

namespace Chainstate

namespace Attempt

variable {σ α β : Type}

/-! ## Frames -/

/-- Two attempts at the same block on the same database, with the same mark of a commit. -/
structure Framed (a a' : Attempt σ) : Prop where
  chain : a'.chain = a.chain
  block : a'.block = a.block
  committed : a'.committed = a.committed
  store : a'.store = a.store

theorem Framed.refl (a : Attempt σ) : Framed a a := ⟨rfl, rfl, rfl, rfl⟩

theorem Framed.trans {a a₁ a₂ : Attempt σ} (h : Framed a a₁) (h' : Framed a₁ a₂) : Framed a a₂ :=
  ⟨h'.chain.trans h.chain, h'.block.trans h.block, h'.committed.trans h.committed,
    h'.store.trans h.store⟩

/-- The steps stay in the frame of `a₀`, whether they succeed or fail. -/
def Keeps (a₀ : Attempt σ) (x : RuleM σ α) : Prop := ∀ a, Framed a₀ a → Framed a₀ (endState (x a))

theorem Keeps.of_ok {a₀ a a' : Attempt σ} {x : RuleM σ α} (h : Keeps a₀ x) (ha : Framed a₀ a)
    {v : α} (hx : x a = .ok v a') : Framed a₀ a' := by
  have hend := h a ha
  rw [hx] at hend
  exact hend

theorem Keeps.of_error {a₀ a a' : Attempt σ} {x : RuleM σ α} (h : Keeps a₀ x) (ha : Framed a₀ a)
    {f : Failure} (hx : x a = .error f a') : Framed a₀ a' := by
  have hend := h a ha
  rw [hx] at hend
  exact hend

variable {a₀ : Attempt σ}

theorem Keeps.bind {x : RuleM σ α} {f : α → RuleM σ β} (hx : Keeps a₀ x)
    (hf : ∀ v, Keeps a₀ (f v)) : Keeps a₀ (x >>= f) := by
  intro a ha
  rw [endState_bind]
  cases hrun : x a with
  | ok v a₁ => exact hf v a₁ (hx.of_ok ha hrun)
  | error e a₁ => exact hx.of_error ha hrun

/-- Steps that go on from the current attempt may rely on its frame. -/
theorem keeps_get_bind {f : Attempt σ → RuleM σ β} (hf : ∀ a, Framed a₀ a → Keeps a₀ (f a)) :
    Keeps a₀ (get >>= f) := fun a ha => hf a ha a ha

theorem keeps_pure (v : α) : Keeps a₀ (pure v) := fun _ ha => ha

theorem keeps_throw (e : Failure) : Keeps a₀ (throw e : RuleM σ α) := fun _ ha => ha

theorem keeps_set {a : Attempt σ} (h : Framed a₀ a) : Keeps a₀ (set a : RuleM σ PUnit) :=
  fun _ _ => h

theorem keeps_order (f : OrderFault) : Keeps a₀ (order f : RuleM σ α) := keeps_throw _

theorem keeps_check (x : Except Rejection α) : Keeps a₀ (check x : RuleM σ α) := by
  cases x with
  | ok v => exact keeps_pure v
  | error r => exact keeps_throw _

theorem keeps_trust (x : Except Fault α) : Keeps a₀ (trust x : RuleM σ α) := by
  cases x with
  | ok v => exact keeps_pure v
  | error f => exact keeps_throw _

theorem keeps_validate (x : Except Failure α) : Keeps a₀ (validate x : RuleM σ α) := by
  cases x with
  | ok v => exact keeps_pure v
  | error e => exact keeps_throw _

theorem keeps_getBlock : Keeps a₀ (getBlock : RuleM σ Block) := by
  refine keeps_get_bind fun a _ => ?_
  split
  · exact keeps_pure _
  · exact keeps_order _

theorem keeps_getFlags : Keeps a₀ (getFlags : RuleM σ DeploymentFlags) := by
  refine keeps_get_bind fun a _ => ?_
  split
  · exact keeps_pure _
  · exact keeps_order _

theorem keeps_getView : Keeps a₀ (getView : RuleM σ WorkingSet) := by
  refine keeps_get_bind fun a _ => ?_
  split
  · exact keeps_pure _
  · exact keeps_order _

theorem keeps_parentTip : Keeps a₀ (parentTip : RuleM σ Tip) := by
  refine keeps_get_bind fun a _ => ?_
  split
  · exact keeps_pure _
  · exact keeps_order _

theorem keeps_stakeCache (env : RuleEnv) : Keeps a₀ (stakeCache env : RuleM σ StakeCache) := by
  unfold stakeCache
  split
  · exact keeps_pure _
  · exact keeps_order _

theorem keeps_onView (x : WorkingM Failure α) : Keeps a₀ (onView x : RuleM σ α) := by
  intro a ha
  unfold onView
  cases a.view with
  | none => exact ha
  | some w =>
    simp only
    cases x w with
    | ok v w₁ => exact ⟨ha.chain, ha.block, ha.committed, ha.store⟩
    | error e w₁ => exact ⟨ha.chain, ha.block, ha.committed, ha.store⟩

/-! ## Rules that keep the frame -/

theorem keeps_setFlags (env : RuleEnv) : Keeps a₀ (setFlags env : RuleM σ Unit) :=
  keeps_get_bind fun _ ha => keeps_set ⟨ha.chain, ha.block, ha.committed, ha.store⟩

variable [CoinStore σ]

theorem keeps_loadView : Keeps a₀ (loadView : RuleM σ Unit) := by
  refine Keeps.bind keeps_getBlock fun b => Keeps.bind keeps_parentTip fun expected => ?_
  refine keeps_get_bind fun a ha => Keeps.bind (keeps_trust _) fun tip => ?_
  split
  · exact keeps_throw _
  · refine Keeps.bind (keeps_trust _) fun fetched => ?_
    split
    · exact keeps_throw _
    · exact keeps_set ⟨ha.chain, ha.block, ha.committed, ha.store⟩

omit [CoinStore σ] in
theorem keeps_connectWork (env : RuleEnv) : Keeps a₀ (connectWork env : RuleM σ Unit) := by
  refine Keeps.bind keeps_getFlags fun flags => Keeps.bind keeps_getBlock fun b => ?_
  refine keeps_get_bind fun a _ => Keeps.bind (keeps_onView _) fun fees => ?_
  exact keeps_check _

omit [CoinStore σ] in
theorem keeps_coldStaking : Keeps a₀ (coldStaking : RuleM σ Unit) := by
  refine Keeps.bind keeps_getFlags fun flags => ?_
  split
  · exact keeps_pure _
  · refine Keeps.bind keeps_getBlock fun b => ?_
    split
    · exact keeps_pure _
    · exact Keeps.bind keeps_getView fun w => keeps_check _

theorem keeps_kindDifficulty (env : RuleEnv) : Keeps a₀ (kindDifficulty env : RuleM σ Unit) := by
  refine Keeps.bind keeps_getBlock fun b => keeps_get_bind fun a _ => ?_
  split
  · exact keeps_pure _
  · exact Keeps.bind (keeps_stakeCache env) fun cache => keeps_validate _

theorem keeps_connectStake (env : RuleEnv) : Keeps a₀ (connectStake env : RuleM σ Unit) := by
  refine Keeps.bind keeps_getFlags fun flags => Keeps.bind keeps_getBlock fun b => ?_
  refine Keeps.bind keeps_parentTip fun prev => Keeps.bind (keeps_stakeCache env) fun cache => ?_
  refine keeps_get_bind fun a _ => Keeps.bind (keeps_trust _) fun previous => ?_
  refine Keeps.bind keeps_getView fun w => Keeps.bind (keeps_check _) fun r => ?_
  refine Keeps.bind (keeps_onView _) fun fees => Keeps.bind (keeps_check _) fun _ => ?_
  exact fun _ ha => ⟨ha.chain, ha.block, ha.committed, ha.store⟩

/-- Only the commit touches the database. -/
theorem keeps_run (env : RuleEnv) {id : RuleId} (h : id ≠ .commitView) :
    Keeps a₀ (id.run env : RuleM σ Unit) := by
  cases id with
  | headerTime | headerVersion => exact keeps_get_bind fun _ _ => keeps_check _
  | workDifficulty => exact keeps_get_bind fun _ _ => keeps_validate _
  | merkleRoot | blockSize | coinbasePosition | transactions | writtenSigOps | coinstakeShape =>
    exact Keeps.bind keeps_getBlock fun _ => keeps_check _
  | blockSignature =>
    refine Keeps.bind keeps_getBlock fun b => ?_
    split
    · exact keeps_pure _
    · exact keeps_throw _
  | contentFlags | coinFlags => exact keeps_setFlags env
  | lockTimes =>
    refine Keeps.bind keeps_getFlags fun flags => Keeps.bind keeps_getBlock fun b => ?_
    exact keeps_get_bind fun _ _ => keeps_check _
  | coinbaseHeight =>
    refine Keeps.bind keeps_getFlags fun flags => ?_
    split
    · exact Keeps.bind keeps_getBlock fun b => keeps_get_bind fun _ _ => keeps_check _
    · exact keeps_pure _
  | lastWorkBlock =>
    exact Keeps.bind keeps_getBlock fun b => keeps_get_bind fun _ _ => keeps_check _
  | kindDifficulty => exact keeps_kindDifficulty env
  | loadView => exact keeps_loadView
  | connectWork => exact keeps_connectWork env
  | coldStaking => exact keeps_coldStaking
  | connectStake => exact keeps_connectStake env
  | commitView => exact absurd rfl h

theorem keeps_runRules (env : RuleEnv) {rules : List RuleId} (h : .commitView ∉ rules) :
    Keeps a₀ (runRules env rules : RuleM σ Unit) := by
  induction rules with
  | nil => exact keeps_pure _
  | cons id rules ih =>
    rw [List.mem_cons, not_or] at h
    exact Keeps.bind (keeps_run env (Ne.symm h.1)) fun _ => ih h.2

/-! ## What passed steps say -/

section Passed

omit [CoinStore σ]

variable {a a' : Attempt σ}

theorem order_ok {f : OrderFault} {v : α} : ¬ (order f : RuleM σ α) a = .ok v a' := step_throw_ok

theorem check_ok {x : Except Rejection α} {v : α} :
    (check x : RuleM σ α) a = .ok v a' ↔ x = .ok v ∧ a = a' := by
  cases x with
  | ok u =>
    rw [check, step_pure_ok, Except.ok.injEq]
  | error r => simp [check]

theorem trust_ok {x : Except Fault α} {v : α} :
    (trust x : RuleM σ α) a = .ok v a' ↔ x = .ok v ∧ a = a' := by
  cases x with
  | ok u =>
    rw [trust, step_pure_ok, Except.ok.injEq]
  | error f => simp [trust]

theorem validate_ok {x : Except Failure α} {v : α} :
    (validate x : RuleM σ α) a = .ok v a' ↔ x = .ok v ∧ a = a' := by
  cases x with
  | ok u =>
    rw [validate, step_pure_ok, Except.ok.injEq]
  | error f => simp [validate]

theorem getBlock_ok {b : Block} : getBlock a = .ok b a' ↔ a.block = some b ∧ a = a' := by
  obtain ⟨chain, block, flags, view, stake, committed, store, deployments⟩ := a
  cases block with
  | none => exact ⟨fun h => absurd h order_ok, fun h => nomatch h.1⟩
  | some u => exact step_pure_ok.trans (by simp)

theorem getFlags_ok {f : DeploymentFlags} :
    getFlags a = .ok f a' ↔ a.flags = some f ∧ a = a' := by
  obtain ⟨chain, block, flags, view, stake, committed, store, deployments⟩ := a
  cases flags with
  | none => exact ⟨fun h => absurd h order_ok, fun h => nomatch h.1⟩
  | some u => exact step_pure_ok.trans (by simp)

theorem getView_ok {w : WorkingSet} : getView a = .ok w a' ↔ a.view = some w ∧ a = a' := by
  obtain ⟨chain, block, flags, view, stake, committed, store, deployments⟩ := a
  cases view with
  | none => exact ⟨fun h => absurd h order_ok, fun h => nomatch h.1⟩
  | some u => exact step_pure_ok.trans (by simp)

theorem parentTip_ok {t : Tip} :
    parentTip a = .ok t a'
      ↔ ∃ parent, a.chain.parent? = some parent ∧ ⟨parent.digest, parent.height⟩ = t ∧ a = a' := by
  unfold parentTip
  simp only [step_bind_ok, step_get_ok]
  constructor
  · rintro ⟨_, _, ⟨rfl, rfl⟩, h⟩
    cases hparent : a.chain.parent? with
    | none =>
      rw [hparent] at h
      exact absurd h order_ok
    | some parent =>
      rw [hparent, step_pure_ok] at h
      exact ⟨parent, rfl, h⟩
  · rintro ⟨parent, hparent, rfl, rfl⟩
    refine ⟨a, a, ⟨rfl, rfl⟩, ?_⟩
    rw [hparent, step_pure_ok]
    exact ⟨rfl, rfl⟩

theorem stakeCache_ok {env : RuleEnv} {cache : StakeCache} :
    stakeCache env a = .ok cache a' ↔ env.stakes = some cache ∧ a = a' := by
  unfold stakeCache
  cases env.stakes with
  | none => simp [order_ok]
  | some u => simp

theorem onView_ok {x : WorkingM Failure α} {v : α} :
    onView x a = .ok v a'
      ↔ ∃ w w', a.view = some w ∧ x w = .ok v w' ∧ { a with view := some w' } = a' := by
  unfold onView
  cases a.view with
  | none => simp [order_ok]
  | some w =>
    simp only [Option.some.injEq]
    cases hx : x w with
    | ok u w₁ => simp [hx, and_assoc]
    | error e w₁ => simp [hx]

/-- A rule that checks the block alone passes where the block passes. -/
theorem blockRule_ok {f : Block → Except Rejection Unit} {u : Unit} :
    (getBlock >>= fun b => check (f b) : RuleM σ Unit) a = .ok u a'
      ↔ (∃ b, a.block = some b ∧ f b = .ok ()) ∧ a = a' := by
  simp only [step_bind_ok, getBlock_ok, check_ok]
  constructor
  · rintro ⟨b, _, ⟨hb, rfl⟩, hf, rfl⟩
    exact ⟨⟨b, hb, hf⟩, rfl⟩
  · rintro ⟨⟨b, hb, hf⟩, rfl⟩
    exact ⟨b, a, ⟨hb, rfl⟩, hf, rfl⟩

theorem setFlags_ok {env : RuleEnv} {u : Unit} (h : setFlags env a = .ok u a') :
    ∃ flags deployments, a' = { a with flags := some flags, deployments } := by
  simp only [setFlags, step_bind_ok, step_get_ok, step_set_ok] at h
  obtain ⟨_, _, ⟨rfl, rfl⟩, rfl⟩ := h
  exact ⟨_, _, rfl⟩

/-- The work rule has connected the loaded coins and bounded the coinbase. -/
theorem connectWork_ok {env : RuleEnv} {u : Unit} (h : connectWork env a = .ok u a') :
    ∃ bip30 b w w' fees, a.block = some b ∧ a.view = some w
      ∧ Spending.connect env.params a.chain.height bip30 none b.transactions w = .ok fees w'
      ∧ b.checkWorkReward env.params a.chain.height fees = .ok ()
      ∧ a' = { a with view := some w' } := by
  simp only [connectWork, step_bind_ok, step_get_ok, getFlags_ok, getBlock_ok, onView_ok,
    check_ok] at h
  obtain ⟨flags, _, ⟨-, rfl⟩, b, _, ⟨hb, rfl⟩, _, _, ⟨rfl, rfl⟩, fees, _,
    ⟨w, w', hw, hconnect, rfl⟩, hreward, rfl⟩ := h
  exact ⟨flags.enforceBip30, b, w, w', fees, hb, hw, hconnect, hreward, rfl⟩

theorem coldStaking_ok {u : Unit} (h : coldStaking a = .ok u a') : a' = a := by
  simp only [coldStaking, step_bind_ok, getFlags_ok] at h
  obtain ⟨flags, _, ⟨-, rfl⟩, h⟩ := h
  split at h
  · exact (step_pure_ok.1 h).2.symm
  · simp only [step_bind_ok, getBlock_ok] at h
    obtain ⟨b, _, ⟨-, rfl⟩, h⟩ := h
    cases hcoinstake : b.coinstake? with
    | none =>
      rw [hcoinstake] at h
      exact (step_pure_ok.1 h).2.symm
    | some tx =>
      rw [hcoinstake] at h
      simp only [step_bind_ok, getView_ok, check_ok] at h
      obtain ⟨w, _, ⟨-, rfl⟩, -, rfl⟩ := h
      rfl

/-- The block carries the target of its kind, on the records that the rule has found. -/
theorem kindDifficulty_ok [CoinStore σ] {env : RuleEnv} {u : Unit}
    (h : kindDifficulty env a = .ok u a') :
    (∃ b, a.block = some b ∧ ∀ prev, a.chain.parent? = some prev → ∃ cache, env.stakes = some cache
      ∧ b.checkKindDifficulty env.params a.chain (cache.get a.store) prev = .ok ()) ∧ a = a' := by
  simp only [kindDifficulty, step_bind_ok, getBlock_ok, step_get_ok] at h
  obtain ⟨b, _, ⟨hb, rfl⟩, _, _, ⟨rfl, rfl⟩, h⟩ := h
  cases hparent : a.chain.parent? with
  | none =>
    rw [hparent] at h
    refine ⟨⟨b, hb, ?_⟩, (step_pure_ok.1 h).2⟩
    rintro _ ⟨⟩
  | some prev =>
    rw [hparent] at h
    simp only [step_bind_ok, stakeCache_ok, validate_ok] at h
    obtain ⟨cache, _, ⟨hcache, rfl⟩, hcheck, rfl⟩ := h
    refine ⟨⟨b, hb, ?_⟩, rfl⟩
    rintro _ ⟨⟩
    exact ⟨cache, hcache, hcheck⟩

/-- The stake rule has made the record of the block from the parent's record and the coins as they
were loaded, connected them and bounded what the block creates. -/
theorem connectStake_ok [CoinStore σ] {env : RuleEnv} {u : Unit}
    (h : connectStake env a = .ok u a') :
    ∃ bip30 b parent cache w w' previous record stakeIn fees, a.block = some b
      ∧ a.chain.parent? = some parent ∧ env.stakes = some cache
      ∧ Retarget.StakeLookup.require (cache.get a.store) parent.digest = .ok previous
      ∧ a.view = some w
      ∧ Staking.recordOf env.params b a.chain.digest a.chain.height previous w
        = .ok (record, stakeIn)
      ∧ Spending.connect env.params a.chain.height bip30 (some b.header.time) b.transactions w
        = .ok fees w'
      ∧ Staking.checkReward env.params b a.chain.height fees stakeIn = .ok ()
      ∧ a' = { a with view := some w', stake := some record } := by
  simp only [connectStake, step_bind_ok, getFlags_ok, getBlock_ok, parentTip_ok,
    stakeCache_ok] at h
  obtain ⟨flags, _, ⟨-, rfl⟩, b, _, ⟨hb, rfl⟩, prev, _, ⟨parent, hparent, rfl, rfl⟩, cache, _,
    ⟨hcache, rfl⟩, h⟩ := h
  simp only [step_get_ok, trust_ok, getView_ok] at h
  obtain ⟨_, _, ⟨rfl, rfl⟩, previous, _, ⟨hprevious, rfl⟩, w, _, ⟨hw, rfl⟩, h⟩ := h
  simp only [check_ok, onView_ok, step_modify_ok] at h
  obtain ⟨⟨record, stakeIn⟩, _, ⟨hrecord, rfl⟩, fees, _, ⟨w₁, w', hw₁, hconnect, rfl⟩, _, _,
    ⟨hreward, rfl⟩, rfl⟩ := h
  rw [hw] at hw₁
  cases hw₁
  exact ⟨flags.enforceBip30, b, parent, cache, w, w', previous, record, stakeIn, fees, hb, hparent,
    hcache, hprevious, hw, hrecord, hconnect, hreward, rfl⟩

/-- The commit has written the changes of the loaded coins on top of the parent's tip. -/
theorem commitView_ok [CoinStore σ] {u : Unit} (h : commitView a = .ok u a') :
    ∃ parent w, a.chain.parent? = some parent ∧ a.view = some w
      ∧ CoinStore.commit a.store w.changes ⟨parent.digest, parent.height⟩
          ⟨a.chain.digest, a.chain.height⟩ (w.undo ⟨parent.digest, parent.height⟩) = .ok a'.store
      ∧ a'.committed = true ∧ a'.stake = a.stake := by
  simp only [commitView, step_bind_ok, step_get_ok] at h
  obtain ⟨_, _, ⟨rfl, rfl⟩, h⟩ := h
  split at h
  · exact absurd h order_ok
  · simp only [step_bind_ok, step_modify_ok, parentTip_ok, getView_ok, trust_ok] at h
    obtain ⟨old, _, ⟨parent, hparent, rfl, rfl⟩, w, _, ⟨hw, rfl⟩, _, _, rfl, store, _,
      ⟨hcommit, rfl⟩, rfl⟩ := h
    exact ⟨parent, w, hparent, hw, hcommit, rfl, rfl⟩

/-- A commit that fails leaves the database as it was: nothing can go wrong once it is written. -/
theorem commitView_error [CoinStore σ] {f : Failure} (h : commitView a = .error f a') :
    Framed a a' := by
  have hrefl := Framed.refl a
  unfold commitView at h
  rcases step_bind_error.1 h with h | ⟨_, _, hget, h⟩
  · cases h
  obtain ⟨rfl, rfl⟩ := step_get_ok.1 hget
  split at h
  · exact (keeps_order _).of_error hrefl h
  rcases step_bind_error.1 h with h | ⟨old, a₁, hold, h⟩
  · exact keeps_parentTip.of_error hrefl h
  have h₁ := keeps_parentTip.of_ok hrefl hold
  rcases step_bind_error.1 h with h | ⟨w, a₂, hview, h⟩
  · exact keeps_getView.of_error h₁ h
  have h₂ := keeps_getView.of_ok h₁ hview
  rcases step_bind_error.1 h with h | ⟨_, a₃, hclear, h⟩
  · cases h
  have h₃ : Framed a a₃ := by
    rw [← step_modify_ok.1 hclear]
    exact ⟨h₂.chain, h₂.block, h₂.committed, h₂.store⟩
  rcases step_bind_error.1 h with h | ⟨store, a₄, _, h⟩
  · exact (keeps_trust _).of_error h₃ h
  · cases h

end Passed

end Attempt

/-- Whether the rule only checks, and sets nothing for the rules after it. -/
def RuleId.onlyChecks : RuleId → Bool
  | contentFlags | coinFlags | loadView | connectWork | connectStake | commitView => false
  | _ => true

namespace Attempt

variable {σ : Type} [CoinStore σ] {a₀ a a' : Attempt σ}

theorem run_of_onlyChecks {env : RuleEnv} {id : RuleId} (hid : id.onlyChecks = true)
    (h : id.run env a = .ok () a') : a' = a := by
  cases id with
  | headerTime | headerVersion =>
    simp only [RuleId.run, step_bind_ok, step_get_ok, check_ok] at h
    obtain ⟨_, _, ⟨rfl, rfl⟩, -, rfl⟩ := h
    rfl
  | workDifficulty =>
    simp only [RuleId.run, step_bind_ok, step_get_ok, validate_ok] at h
    obtain ⟨_, _, ⟨rfl, rfl⟩, -, rfl⟩ := h
    rfl
  | merkleRoot | blockSize | coinbasePosition | transactions | writtenSigOps | coinstakeShape =>
    exact (blockRule_ok.1 h).2.symm
  | blockSignature =>
    simp only [RuleId.run, step_bind_ok, getBlock_ok] at h
    obtain ⟨b, _, ⟨-, rfl⟩, h⟩ := h
    split at h
    · exact (step_pure_ok.1 h).2.symm
    · exact absurd h step_throw_ok
  | lockTimes =>
    simp only [RuleId.run, step_bind_ok, getFlags_ok, getBlock_ok, step_get_ok, check_ok] at h
    obtain ⟨_, _, ⟨-, rfl⟩, _, _, ⟨-, rfl⟩, _, _, ⟨rfl, rfl⟩, -, rfl⟩ := h
    rfl
  | coinbaseHeight =>
    simp only [RuleId.run, step_bind_ok, getFlags_ok] at h
    obtain ⟨flags, _, ⟨-, rfl⟩, h⟩ := h
    split at h
    · simp only [step_bind_ok, getBlock_ok, step_get_ok, check_ok] at h
      obtain ⟨_, _, ⟨-, rfl⟩, _, _, ⟨rfl, rfl⟩, -, rfl⟩ := h
      rfl
    · exact (step_pure_ok.1 h).2.symm
  | lastWorkBlock =>
    simp only [RuleId.run, step_bind_ok, getBlock_ok, step_get_ok, check_ok] at h
    obtain ⟨_, _, ⟨-, rfl⟩, _, _, ⟨rfl, rfl⟩, -, rfl⟩ := h
    rfl
  | kindDifficulty => exact (kindDifficulty_ok h).2.symm
  | coldStaking => exact coldStaking_ok h
  | contentFlags | coinFlags | loadView | connectWork | connectStake | commitView => cases hid

/-! ## Runs of rules -/

/-- A run of rules that fails has passed the rules before the one at which it fails. -/
theorem runRules_error {env : RuleEnv} {rules : List RuleId} {f : Failure}
    (h : runRules env rules a = .error f a') :
    ∃ before id after a₁, rules = before ++ id :: after ∧ runRules env before a = .ok () a₁
      ∧ id.run env a₁ = .error f a' := by
  induction rules generalizing a with
  | nil => cases h
  | cons first rest ih =>
    rcases step_bind_error.1 h with hfirst | ⟨_, a₁, hfirst, hrest⟩
    · exact ⟨[], first, rest, a, rfl, rfl, hfirst⟩
    · obtain ⟨before, id, after, a₂, rfl, hbefore, hid⟩ := ih hrest
      exact ⟨first :: before, id, after, a₂, rfl, step_bind_ok.2 ⟨(), a₁, hfirst, hbefore⟩, hid⟩

theorem runRules_append (env : RuleEnv) (xs ys : List RuleId) :
    (runRules env (xs ++ ys) : RuleM σ Unit) = runRules env xs >>= fun _ => runRules env ys := by
  induction xs with
  | nil => rfl
  | cons x xs ih =>
    rw [List.cons_append, runRules, runRules, ih, step_bind_assoc]

/-- Every rule of a list that was run through without a commit has passed on the same block and
database. -/
theorem runRules_ok_of_mem {env : RuleEnv} {rules : List RuleId} {a a' : Attempt σ}
    (ha : Framed a₀ a) (hrules : .commitView ∉ rules) (h : runRules env rules a = .ok () a')
    {id : RuleId} (hid : id ∈ rules) : ∃ a₁ a₂, Framed a₀ a₁ ∧ id.run env a₁ = .ok () a₂ := by
  induction rules generalizing a with
  | nil => cases hid
  | cons first rest ih =>
    rw [List.mem_cons, not_or] at hrules
    obtain ⟨_, a₁, hfirst, hrest⟩ := step_bind_ok.1 h
    rcases List.mem_cons.1 hid with rfl | hid
    · exact ⟨a, a₁, ha, hfirst⟩
    · have ha₁ := (keeps_run env (Ne.symm hrules.1)).of_ok ha hfirst
      exact ih ha₁ hrules.2 hrest hid

/-- The height in the coinbase has been checked where BIP34 is in force: the rule reads the flags
that have just been set, and nothing between changes them. -/
theorem coinbaseHeight_of_runRules {env : RuleEnv} {before after : List RuleId}
    (hbefore : .commitView ∉ before) {b : Block} (hblock : a.block = some b)
    (h : runRules env (before ++ .contentFlags :: .lockTimes :: .coinbaseHeight :: after) a
      = .ok () a') (hheight : env.params.bip34Height ≤ a.chain.height) :
    b.checkCoinbaseHeight a.chain.height = .ok () := by
  rw [runRules_append] at h
  obtain ⟨_, a₁, hpassed, h⟩ := step_bind_ok.1 h
  have hframed := (keeps_runRules env hbefore).of_ok (Framed.refl a) hpassed
  simp only [runRules, step_bind_ok] at h
  obtain ⟨_, a₂, hflags, _, a₃, hlockTimes, _, a₄, hcheck, -⟩ := h
  have hsame := run_of_onlyChecks rfl hlockTimes
  subst hsame
  simp only [RuleId.run, setFlags, step_bind_ok, step_get_ok, step_set_ok] at hflags
  obtain ⟨_, _, ⟨rfl, rfl⟩, rfl⟩ := hflags
  simp only [RuleId.run, step_bind_ok, getFlags_ok, Option.some.injEq] at hcheck
  obtain ⟨flags, _, ⟨rfl, rfl⟩, hcheck⟩ := hcheck
  rw [hframed.chain, DeploymentCache.enforceBip34_flags, decide_eq_true hheight, if_pos rfl]
    at hcheck
  simp only [step_bind_ok, getBlock_ok, step_get_ok, check_ok] at hcheck
  obtain ⟨b', _, ⟨hb', rfl⟩, _, _, ⟨rfl, rfl⟩, hcheck, -⟩ := hcheck
  rw [hframed.block, hblock, Option.some.injEq] at hb'
  rw [hb']
  exact hcheck

/-- Rules that end with the commit change nothing in the database where one of them fails. -/
theorem runRules_commit_error {env : RuleEnv} {rules : List RuleId} {a a' : Attempt σ}
    (ha : Framed a₀ a) (hrules : .commitView ∉ rules) {f : Failure}
    (h : runRules env (rules ++ [.commitView]) a = .error f a') : Framed a₀ a' := by
  induction rules generalizing a with
  | nil =>
    rcases step_bind_error.1 h with h | ⟨_, _, _, h⟩
    · exact ha.trans (commitView_error h)
    · cases h
  | cons first rest ih =>
    rw [List.mem_cons, not_or] at hrules
    have hkeeps : Keeps a₀ (first.run env : RuleM σ Unit) := keeps_run env (Ne.symm hrules.1)
    rcases step_bind_error.1 h with h | ⟨_, a₁, hfirst, h⟩
    · exact hkeeps.of_error ha h
    · exact ih (hkeeps.of_ok ha hfirst) hrules.2 h

end Attempt

/-! ## Passed checks of difficulty -/

theorem Chain.checkProofOfWork_ok {c : Chain} (h : c.checkProofOfWork = .ok ()) :
    ∃ target, c.header.bits.decode = .ok target ∧ Target.isMetBy target c.digest = true := by
  unfold checkProofOfWork at h
  split at h
  · cases h
  · next target hdecode =>
    split at h
    · next hmet => exact ⟨target, hdecode, hmet⟩
    · cases h

theorem Chain.checkWork_ok {p : Params} {c : Chain} (h : c.checkWork p = .ok ()) :
    (∃ target, Retarget.workTarget p c = .ok target
      ∧ c.header.bits = CompactTarget.ofTarget target) ∧ c.checkProofOfWork = .ok () := by
  unfold checkWork at h
  split at h
  · cases h
  · next target htarget =>
    split at h
    · cases h
    · next hbits => exact ⟨⟨target, htarget, not_not.1 hbits⟩, check_mapError_ok.1 h⟩

theorem Block.checkKindDifficulty_ok {b : Block} {p : Params} {c prev : Chain}
    {lookup : Retarget.StakeLookup} (h : b.checkKindDifficulty p c lookup prev = .ok ()) :
    (∃ target, Retarget.kindTarget lookup p prev b.isProofOfStake = .ok target
      ∧ b.header.bits = CompactTarget.ofTarget target)
      ∧ (b.isProofOfStake = false → c.checkProofOfWork = .ok ()) := by
  unfold checkKindDifficulty at h
  split at h
  · cases h
  · next target htarget =>
    split at h
    · cases h
    · next hbits =>
      refine ⟨⟨target, htarget, not_not.1 hbits⟩, ?_⟩
      intro hwork
      rw [hwork, if_neg Bool.false_ne_true] at h
      exact check_mapError_ok.1 h

end Chainstate
