-- SUMMARY: Lockstep: engines that differ in nothing but their caches judge every block alike.
import Chainstate.Proofs.Acceptance
import Chainstate.Proofs.DeploymentCache

/-!
# Lockstep

Two engines of one network that hold the same ledger can differ in the deployment states that they
remember, in where their stake records are, and in the records of blocks that are not below the one
to be judged. `Attempt.Twin` and `Engine.Twin` relate such attempts and engines. Every rule gives
the same result on twins and leaves twins behind, so the same is true of a whole validation
(`Engine.Twin.validateBlock`).
-/

namespace Chainstate

/-! ## Runs with the same result -/

/-- Two runs with the same result, in related states. -/
def Alike {ε σ α : Type} (R : σ → σ → Prop) (r r' : EStateM.Result ε σ α) : Prop :=
  match r, r' with
  | .ok v s, .ok v' s' => v = v' ∧ R s s'
  | .error e s, .error e' s' => e = e' ∧ R s s'
  | _, _ => False

section Alike

variable {ε ε' σ α β : Type} {R : σ → σ → Prop}

theorem Alike.bind {x y : EStateM ε σ α} {f g : α → EStateM ε σ β} {s s' : σ}
    (hx : Alike R (x s) (y s'))
    (hf : ∀ v s₁ s₁', x s = .ok v s₁ → y s' = .ok v s₁' → R s₁ s₁' → Alike R (f v s₁) (g v s₁')) :
    Alike R ((x >>= f) s) ((y >>= g) s') := by
  change Alike R (EStateM.bind x f s) (EStateM.bind y g s')
  unfold EStateM.bind
  cases hrun : x s with
  | ok v s₁ =>
    cases hrun' : y s' with
    | ok v' s₁' =>
      rw [hrun, hrun'] at hx
      obtain ⟨rfl, hR⟩ := hx
      exact hf v s₁ s₁' hrun hrun' hR
    | error e' s₁' =>
      rw [hrun, hrun'] at hx
      exact hx.elim
  | error e s₁ =>
    cases hrun' : y s' with
    | ok v' s₁' =>
      rw [hrun, hrun'] at hx
      exact hx.elim
    | error e' s₁' =>
      rw [hrun, hrun'] at hx
      exact hx

theorem alike_get_bind {f g : σ → EStateM ε σ β} {s s' : σ} (h : Alike R (f s s) (g s' s')) :
    Alike R ((get >>= f) s) ((get >>= g) s') := h

theorem alike_pure (v : α) {s s' : σ} (h : R s s') :
    Alike R ((pure v : EStateM ε σ α) s) ((pure v : EStateM ε σ α) s') := ⟨rfl, h⟩

theorem alike_throw (e : ε) {s s' : σ} (h : R s s') :
    Alike R ((throw e : EStateM ε σ α) s) ((throw e : EStateM ε σ α) s') := ⟨rfl, h⟩

theorem Alike.ok_left {r r' : EStateM.Result ε σ α} (h : Alike R r r') {v : α} {s : σ}
    (hr : r = .ok v s) : ∃ s', r' = .ok v s' ∧ R s s' := by
  subst hr
  cases r' with
  | ok v' s' =>
    obtain ⟨rfl, hR⟩ := h
    exact ⟨s', rfl, hR⟩
  | error e' s' => exact h.elim

theorem Alike.error_left {r r' : EStateM.Result ε σ α} (h : Alike R r r') {e : ε} {s : σ}
    (hr : r = .error e s) : ∃ s', r' = .error e s' ∧ R s s' := by
  subst hr
  cases r' with
  | ok v' s' => exact h.elim
  | error e' s' =>
    obtain ⟨rfl, hR⟩ := h
    exact ⟨s', rfl, hR⟩

end Alike

/-! ## Lookups -/

namespace Retarget

/-- The nearest block of a kind depends on the records of the chain alone. -/
theorem lastOfKind_congr {lookup lookup' : StakeLookup} (stake : Bool) {c : Chain}
    (h : ∀ x ∈ c.ancestors, lookup' x.digest = lookup x.digest) :
    lastOfKind lookup' stake c = lastOfKind lookup stake c := by
  induction c with
  | genesis header => simp only [lastOfKind, StakeLookup.require, h _ (Chain.self_mem_ancestors _)]
  | extend header parent ih =>
    have hparent := ih fun x hx => h x (List.mem_cons_of_mem _ hx)
    simp only [lastOfKind, StakeLookup.require, h _ (Chain.self_mem_ancestors _), hparent]

theorem lastOfKind_mem {lookup : StakeLookup} {stake : Bool} {c x : Chain}
    (h : lastOfKind lookup stake c = .ok x) : x ∈ c.ancestors := by
  induction c with
  | genesis header =>
    obtain ⟨_, -, h⟩ := check_bind_ok.1 h
    cases h
    exact Chain.self_mem_ancestors _
  | extend header parent ih =>
    obtain ⟨r, -, h⟩ := check_bind_ok.1 h
    split at h
    · cases h
      exact Chain.self_mem_ancestors _
    · exact List.mem_cons_of_mem _ (ih h)

/-- So does the target of a kind. -/
theorem kindTarget_congr {lookup lookup' : StakeLookup} (p : Params) {prev : Chain} (stake : Bool)
    (h : ∀ x ∈ prev.ancestors, lookup' x.digest = lookup x.digest) :
    kindTarget lookup' p prev stake = kindTarget lookup p prev stake := by
  simp only [kindTarget, lastOfKind_congr stake h]
  cases hlast : lastOfKind lookup stake prev with
  | error f => rfl
  | ok last =>
    cases last with
    | genesis header => rfl
    | extend header below =>
      have hbelow : ∀ x ∈ below.ancestors, lookup' x.digest = lookup x.digest := fun x hx =>
        h x (Chain.ancestors_trans (lastOfKind_mem hlast) (List.mem_cons_of_mem _ hx))
      change (lastOfKind lookup' stake below >>= _) = (lastOfKind lookup stake below >>= _)
      rw [lastOfKind_congr stake hbelow]

end Retarget

/-! ## Attempts -/

/-- Environments of one network at one time, which both keep stake records or both do not. -/
structure RuleEnv.Twin (env env' : RuleEnv) : Prop where
  params : env'.params = env.params
  now : env'.now = env.now
  stakes : env'.stakes.isSome = env.stakes.isSome

namespace Attempt

/-- Two attempts at one block of an index, on the same ledger. Their deployment caches agree with
the index, and their stake records with each other as far as they are below the block. -/
structure Twin (index : ChainIndex) (env env' : RuleEnv) (a a' : Attempt MemoryStore) : Prop where
  chain : a'.chain = a.chain
  block : a'.block = a.block
  flags : a'.flags = a.flags
  view : a'.view = a.view
  stake : a'.stake = a.stake
  committed : a'.committed = a.committed
  ledger : SameLedger a.store a'.store
  known : a.chain ∈ index
  deployments : a.deployments.Agrees env.params index
  deployments' : a'.deployments.Agrees env.params index
  records : ∀ x ∈ a.chain.lower, env'.record? a'.store x.digest = env.record? a.store x.digest

section Steps

variable {α : Type} {R : Attempt MemoryStore → Attempt MemoryStore → Prop}
  {a a' : Attempt MemoryStore}

theorem alike_check (x : Except Rejection α) (h : R a a') : Alike R (check x a) (check x a') := by
  cases x with
  | ok v => exact alike_pure v h
  | error r => exact alike_throw _ h

theorem alike_trust {x y : Except Fault α} (heq : y = x) (h : R a a') :
    Alike R (trust x a) (trust y a') := by
  subst heq
  cases y with
  | ok v => exact alike_pure v h
  | error f => exact alike_throw _ h

theorem alike_validate {x y : Except Failure α} (heq : y = x) (h : R a a') :
    Alike R (validate x a) (validate y a') := by
  subst heq
  cases y with
  | ok v => exact alike_pure v h
  | error f => exact alike_throw _ h

end Steps

variable {index : ChainIndex} {env env' : RuleEnv} {a a' : Attempt MemoryStore}

theorem Twin.getBlock (h : Twin index env env' a a') :
    Alike (Twin index env env') (getBlock a) (getBlock a') := by
  refine alike_get_bind ?_
  rw [h.block]
  cases a.block with
  | some b => exact alike_pure b h
  | none => exact alike_throw _ h

theorem Twin.getFlags (h : Twin index env env' a a') :
    Alike (Twin index env env') (getFlags a) (getFlags a') := by
  refine alike_get_bind ?_
  rw [h.flags]
  cases a.flags with
  | some f => exact alike_pure f h
  | none => exact alike_throw _ h

theorem Twin.getView (h : Twin index env env' a a') :
    Alike (Twin index env env') (getView a) (getView a') := by
  refine alike_get_bind ?_
  rw [h.view]
  cases a.view with
  | some w => exact alike_pure w h
  | none => exact alike_throw _ h

theorem Twin.parentTip (h : Twin index env env' a a') :
    Alike (Twin index env env') (parentTip a) (parentTip a') := by
  refine alike_get_bind ?_
  rw [h.chain]
  cases a.chain.parent? with
  | some parent => exact alike_pure _ h
  | none => exact alike_throw _ h

/-- Steps on the loaded coins. -/
theorem Twin.onView {α : Type} (h : Twin index env env' a a') (x : WorkingM Failure α) :
    Alike (Twin index env env') (onView x a) (onView x a') := by
  unfold Attempt.onView
  rw [h.view]
  cases a.view with
  | none => exact alike_throw _ h
  | some w =>
    cases hx : x w with
    | ok v w' =>
      simp only [hx]
      exact ⟨rfl, { h with view := rfl }⟩
    | error e w' =>
      simp only [hx]
      exact ⟨rfl, { h with view := rfl }⟩

/-! ## Rules in lockstep -/

theorem Twin.setFlags {genesis : Header} (hindex : ChainIndex.Grown genesis index)
    (henv : env.Twin env') (h : Twin index env env' a a') :
    Alike (Twin index env env') (setFlags env a) (setFlags env' a') := by
  obtain ⟨hflags, hagrees⟩ := DeploymentCache.flags_agrees hindex h.deployments h.known
  obtain ⟨hflags', hagrees'⟩ := DeploymentCache.flags_agrees hindex h.deployments' h.known
  refine alike_get_bind ?_
  simp only [henv.params, h.chain]
  refine ⟨rfl, { h with
    chain := rfl, flags := ?_, deployments := hagrees, deployments' := hagrees' }⟩
  exact congrArg some (hflags'.trans hflags.symm)

theorem Twin.loadView (h : Twin index env env' a a') :
    Alike (Twin index env env') (loadView a) (loadView a') := by
  refine Alike.bind h.getBlock fun b a₁ a₁' _ _ h₁ => ?_
  refine Alike.bind h₁.parentTip fun expected a₂ a₂' _ _ h₂ => ?_
  refine alike_get_bind (Alike.bind (alike_trust ?_ h₂) fun tip a₃ a₃' _ _ h₃ => ?_)
  · exact congrArg Except.ok h₂.ledger.tip
  · split
    · exact Alike.bind (alike_throw _ h₃) fun _ _ _ hrun => absurd hrun step_throw_ok
    · refine Alike.bind (alike_trust ?_ h₃) fun fetched a₄ a₄' _ _ h₄ => ?_
      · change Except.ok (a₂'.store.fetch (touched b)) = Except.ok (a₂.store.fetch (touched b))
        rw [MemoryStore.fetch, MemoryStore.fetch, h₂.ledger.coins]
      · cases WorkingSet.load (fetched.toList.map fun oc => ⟨oc.1, oc.2⟩) WorkingSet.empty with
        | ok u w => exact ⟨rfl, { h₂ with view := rfl }⟩
        | error f w => exact alike_throw _ h₄

theorem Twin.connectWork (henv : env.Twin env') (h : Twin index env env' a a') :
    Alike (Twin index env env') (connectWork env a) (connectWork env' a') := by
  refine Alike.bind h.getFlags fun flags a₁ a₁' _ _ h₁ => ?_
  refine Alike.bind h₁.getBlock fun b a₂ a₂' _ _ h₂ => alike_get_bind ?_
  simp only [henv.params, h₂.chain]
  exact Alike.bind (h₂.onView _) fun fees a₃ a₃' _ _ h₃ => alike_check _ h₃

theorem Twin.coldStaking (h : Twin index env env' a a') :
    Alike (Twin index env env') (coldStaking a) (coldStaking a') := by
  refine Alike.bind h.getFlags fun flags a₁ a₁' _ _ h₁ => ?_
  split
  · exact alike_pure _ h₁
  · refine Alike.bind h₁.getBlock fun b a₂ a₂' _ _ h₂ => ?_
    cases b.coinstake? with
    | none => exact alike_pure _ h₂
    | some coinstake =>
      exact Alike.bind h₂.getView fun w a₃ a₃' _ _ h₃ => alike_check _ h₃

/-- Where one of two environments keeps stake records the other does. -/
theorem Twin.stakeCaches (henv : env.Twin env') :
    env.stakes = none ∧ env'.stakes = none
      ∨ ∃ cache cache', env.stakes = some cache ∧ env'.stakes = some cache' := by
  have hsome := henv.stakes
  cases hcache : env.stakes with
  | none =>
    rw [hcache, Option.isSome_none, Option.isSome_eq_false_iff, Option.isNone_iff_eq_none] at hsome
    exact .inl ⟨rfl, hsome⟩
  | some cache =>
    rw [hcache] at hsome
    obtain ⟨cache', hcache'⟩ := Option.isSome_iff_exists.1 hsome
    exact .inr ⟨cache, cache', rfl, hcache'⟩

theorem stakeCache_none {env : RuleEnv} (h : env.stakes = none) (a : Attempt MemoryStore) :
    stakeCache env a = .error (.fault (.ruleOrder .noStakeChain)) a := by
  unfold stakeCache
  rw [h]
  rfl

/-- The records that both find of the blocks below theirs. -/
theorem Twin.get_eq (h : Twin index env env' a a') {cache cache' : StakeCache}
    (hcache : env.stakes = some cache) (hcache' : env'.stakes = some cache') :
    ∀ x ∈ a.chain.lower, cache'.get a'.store x.digest = cache.get a.store x.digest := by
  intro x hx
  have hrecords := h.records x hx
  rw [RuleEnv.record?, RuleEnv.record?, hcache, hcache'] at hrecords
  rw [StakeCache.get_memory, StakeCache.get_memory]
  exact congrArg Except.ok hrecords

theorem Twin.kindDifficulty (henv : env.Twin env') (h : Twin index env env' a a') :
    Alike (Twin index env env') (kindDifficulty env a) (kindDifficulty env' a') := by
  refine Alike.bind h.getBlock fun b a₁ a₁' _ _ h₁ => alike_get_bind ?_
  rw [h₁.chain]
  cases hparent : a₁.chain.parent? with
  | none => exact alike_pure _ h₁
  | some prev =>
    rcases Twin.stakeCaches henv with ⟨hnone, hnone'⟩ | ⟨cache, cache', hcache, hcache'⟩
    · refine Alike.bind ?_ fun cache a₂ a₂' hrun _ _ => ?_
      · rw [stakeCache_none hnone, stakeCache_none hnone']
        exact ⟨rfl, h₁⟩
      · rw [stakeCache_none hnone] at hrun
        cases hrun
    · simp only
      rw [step_bind_of_ok (stakeCache_ok.2 ⟨hcache, rfl⟩),
        step_bind_of_ok (stakeCache_ok.2 ⟨hcache', rfl⟩)]
      refine alike_validate ?_ h₁
      have hrecords := h₁.get_eq hcache hcache'
      rw [Chain.lower_of_parent? hparent] at hrecords
      simp only [Block.checkKindDifficulty, henv.params, Retarget.kindTarget_congr _ _ hrecords]

theorem Twin.connectStake (henv : env.Twin env') (h : Twin index env env' a a') :
    Alike (Twin index env env') (connectStake env a) (connectStake env' a') := by
  refine Alike.bind h.getFlags fun flags a₁ a₁' _ _ h₁ => ?_
  refine Alike.bind h₁.getBlock fun b a₂ a₂' _ _ h₂ => ?_
  refine Alike.bind h₂.parentTip fun prev a₃ a₃' hprev _ h₃ => ?_
  obtain ⟨parent, hparent, rfl, rfl⟩ := parentTip_ok.1 hprev
  rcases Twin.stakeCaches henv with ⟨hnone, hnone'⟩ | ⟨cache, cache', hcache, hcache'⟩
  · refine Alike.bind ?_ fun cache a₄ a₄' hrun _ _ => ?_
    · rw [stakeCache_none hnone, stakeCache_none hnone']
      exact ⟨rfl, h₃⟩
    · rw [stakeCache_none hnone] at hrun
      cases hrun
  · rw [step_bind_of_ok (stakeCache_ok.2 ⟨hcache, rfl⟩),
      step_bind_of_ok (stakeCache_ok.2 ⟨hcache', rfl⟩)]
    refine alike_get_bind (Alike.bind (alike_trust ?_ h₃) fun previous a₄ a₄' _ _ h₄ => ?_)
    · have hbelow : parent ∈ a₂.chain.lower := by
        rw [Chain.lower_of_parent? hparent]
        exact parent.self_mem_ancestors
      simp only [Retarget.StakeLookup.require, h₃.get_eq hcache hcache' parent hbelow]
    · refine Alike.bind h₄.getView fun w a₅ a₅' _ _ h₅ => ?_
      simp only [henv.params, h₃.chain]
      refine Alike.bind (alike_check _ h₅) fun r a₆ a₆' _ _ h₆ => ?_
      refine Alike.bind (h₆.onView _) fun fees a₇ a₇' _ _ h₇ => ?_
      refine Alike.bind (alike_check _ h₇) fun _ a₈ a₈' _ _ h₈ => ?_
      exact ⟨rfl, { h₈ with stake := rfl }⟩

theorem Twin.commitView (h : Twin index env env' a a') :
    Alike (Twin index env env') (commitView a) (commitView a') := by
  refine alike_get_bind ?_
  rw [h.committed]
  split
  · exact alike_throw _ h
  · refine Alike.bind h.parentTip fun old a₁ a₁' hold hold' h₁ => ?_
    obtain ⟨-, -, -, rfl⟩ := parentTip_ok.1 hold
    obtain ⟨-, -, -, rfl⟩ := parentTip_ok.1 hold'
    refine Alike.bind h₁.getView fun w a₂ a₂' hw hw' h₂ => ?_
    obtain ⟨-, rfl⟩ := getView_ok.1 hw
    obtain ⟨-, rfl⟩ := getView_ok.1 hw'
    have hclear : Twin index env env' { a with view := none } { a' with view := none } :=
      { h with view := rfl }
    simp only [h.chain]
    generalize (⟨a.chain.digest, a.chain.height⟩ : Tip) = new
    change Alike _ ((trust (MemoryStore.commit a.store w.changes old new (w.undo old)) >>= _)
        { a with view := none })
      ((trust (MemoryStore.commit a'.store w.changes old new (w.undo old)) >>= _)
        { a' with view := none })
    by_cases htip : a.store.tip = some old
    · have htip' := h.ledger.tip.trans htip
      simp only [MemoryStore.commit, Tip.check, if_pos htip, if_pos htip']
      refine ⟨rfl, { hclear with committed := rfl, ledger := ⟨rfl, ?_, ?_⟩, records := ?_ }⟩
      · change MemoryStore.addCoins (MemoryStore.removeCoins a'.store.coinTable _) _
          = MemoryStore.addCoins (MemoryStore.removeCoins a.store.coinTable _) _
        rw [h.ledger.coins]
      · change a'.store.undoTable.insert _ _ = a.store.undoTable.insert _ _
        rw [h.ledger.undo]
      · exact h.records
    · simp only [MemoryStore.commit, Tip.check, if_neg htip, h.ledger.tip]
      exact ⟨rfl, hclear⟩

theorem Twin.run {genesis : Header} (hindex : ChainIndex.Grown genesis index)
    (henv : env.Twin env') (id : RuleId) (h : Twin index env env' a a') :
    Alike (Twin index env env') (id.run env a) (id.run env' a') := by
  cases id with
  | headerTime =>
    refine alike_get_bind ?_
    rw [h.chain, henv.params, henv.now]
    exact alike_check _ h
  | headerVersion =>
    refine alike_get_bind ?_
    rw [h.chain, henv.params]
    exact alike_check _ h
  | workDifficulty =>
    refine alike_get_bind (alike_validate ?_ h)
    rw [h.chain, henv.params]
  | merkleRoot | coinbasePosition =>
    exact Alike.bind h.getBlock fun b a₁ a₁' _ _ h₁ => alike_check _ h₁
  | blockSize | transactions | writtenSigOps | coinstakeShape =>
    refine Alike.bind h.getBlock fun b a₁ a₁' _ _ h₁ => ?_
    rw [henv.params]
    exact alike_check _ h₁
  | blockSignature =>
    refine Alike.bind h.getBlock fun b a₁ a₁' _ _ h₁ => ?_
    split
    · exact alike_pure _ h₁
    · exact alike_throw _ h₁
  | contentFlags | coinFlags => exact h.setFlags hindex henv
  | lockTimes =>
    refine Alike.bind h.getFlags fun flags a₁ a₁' _ _ h₁ => ?_
    refine Alike.bind h₁.getBlock fun b a₂ a₂' _ _ h₂ => alike_get_bind ?_
    rw [h₂.chain]
    exact alike_check _ h₂
  | coinbaseHeight =>
    refine Alike.bind h.getFlags fun flags a₁ a₁' _ _ h₁ => ?_
    split
    · refine Alike.bind h₁.getBlock fun b a₂ a₂' _ _ h₂ => alike_get_bind ?_
      rw [h₂.chain]
      exact alike_check _ h₂
    · exact alike_pure _ h₁
  | lastWorkBlock =>
    refine Alike.bind h.getBlock fun b a₁ a₁' _ _ h₁ => alike_get_bind ?_
    rw [h₁.chain, henv.params]
    exact alike_check _ h₁
  | kindDifficulty => exact h.kindDifficulty henv
  | loadView => exact h.loadView
  | connectWork => exact h.connectWork henv
  | coldStaking => exact h.coldStaking
  | connectStake => exact h.connectStake henv
  | commitView => exact h.commitView

theorem Twin.runRules {genesis : Header} (hindex : ChainIndex.Grown genesis index)
    (henv : env.Twin env') (ids : List RuleId) (h : Twin index env env' a a') :
    Alike (Twin index env env') (runRules env ids a) (runRules env' ids a') := by
  induction ids generalizing a a' with
  | nil => exact alike_pure _ h
  | cons id rest ih =>
    exact Alike.bind (h.run hindex henv id) fun _ a₁ a₁' _ _ h₁ => ih h₁

/-- No rule touches the stored stake records, whether it passes or fails. -/
theorem records_run (env : RuleEnv) (id : RuleId) (a : Attempt MemoryStore) :
    (endState (id.run env a)).store.stakeTable = a.store.stakeTable := by
  by_cases hid : id = .commitView
  · subst hid
    change (endState (Attempt.commitView a)).store.stakeTable = _
    cases hrun : Attempt.commitView a with
    | ok u a' =>
      obtain ⟨_, _, -, -, hcommit, -, -⟩ := commitView_ok hrun
      exact (MemoryStore.tip_of_commit hcommit).2.2
    | error f a' => exact congrArg MemoryStore.stakeTable (commitView_error hrun).store
  · have hframe : Framed a (endState (id.run env a)) := keeps_run env hid a (Framed.refl a)
    rw [hframe.store]

theorem records_runRules (env : RuleEnv) (ids : List RuleId) (a : Attempt MemoryStore) :
    (endState (Chainstate.runRules env ids a)).store.stakeTable = a.store.stakeTable := by
  induction ids generalizing a with
  | nil => rfl
  | cons id rest ih =>
    have hid := records_run env id a
    rw [Chainstate.runRules, endState_bind]
    cases hrun : id.run env a with
    | ok u a₁ =>
      rw [hrun, endState_ok] at hid
      exact (ih a₁).trans hid
    | error f a₁ =>
      rw [hrun, endState_error] at hid
      exact hid

end Attempt

/-! ## Engines in lockstep -/

namespace Engine

/-- The caches of an engine hold what they should: a record that counts as stored is in the
database, and the deployment states are those of the chains of the index. -/
structure Faithful (index : ChainIndex) (e : Engine MemoryStore) : Prop where
  records : e.Backed
  deployments : e.deployments.Agrees e.network.params index

/-- Two engines of one network on the same ledger, with faithful caches, which find the same stake
records of some chains. -/
structure Twin (index : ChainIndex) (chains : List Chain) (e e' : Engine MemoryStore) : Prop
    extends SameKind e e' where
  ledger : SameLedger e.store e'.store
  faithful : e.Faithful index
  faithful' : e'.Faithful index
  records : ∀ x ∈ chains, e'.record? x.digest = e.record? x.digest

variable {genesis : Header} {index : ChainIndex} {chains : List Chain} {e e' : Engine MemoryStore}
  {c : Chain} {b : Block}

theorem Faithful.twin (h : e.Faithful index) (chains : List Chain) : Twin index chains e e :=
  ⟨SameKind.refl e, SameLedger.refl _, h, h, fun _ _ => rfl⟩

/-- What an attempt leaves of an engine with faithful caches. -/
theorem Faithful.of_attempt (h : e.Faithful index) {a : Attempt MemoryStore}
    (hrecords : a.store.stakeTable = e.store.stakeTable)
    (hdeployments : a.deployments.Agrees e.network.params index) :
    Faithful index { e with store := a.store, deployments := a.deployments }
      ∧ ∀ d, record? { e with store := a.store, deployments := a.deployments } d = e.record? d := by
  have hsame : Backed { e with store := a.store, deployments := a.deployments } ∧ _ :=
    h.records.congr rfl rfl hrecords
  exact ⟨⟨hsame.1, hdeployments⟩, hsame.2⟩

/-- An attempt at the same block goes the same way on twins. -/
theorem Twin.attempt (hindex : ChainIndex.Grown genesis index) (hc : c ∈ index)
    (h : Twin index c.lower e e') (now : UInt32) (b : Option Block) (rules : List RuleId) :
    (∃ f e₁ e₁', attempt now c b rules e = .error f e₁ ∧ attempt now c b rules e' = .error f e₁'
      ∧ Twin index c.lower e₁ e₁')
    ∨ ∃ a a' e₁ e₁', attempt now c b rules e = .ok a e₁ ∧ attempt now c b rules e' = .ok a' e₁'
      ∧ a'.stake = a.stake ∧ a'.committed = a.committed ∧ Twin index c.lower e₁ e₁' := by
  have henv : RuleEnv.Twin ⟨e.network.params, now, e.stakes⟩ ⟨e'.network.params, now, e'.stakes⟩ :=
    ⟨congrArg Network.params h.network, rfl, h.stakes⟩
  have hstart : Attempt.Twin index ⟨e.network.params, now, e.stakes⟩
      ⟨e'.network.params, now, e'.stakes⟩ (Attempt.start c b e.store e.deployments)
      (Attempt.start c b e'.store e'.deployments) := by
    have hdeployments' := h.faithful'.deployments
    rw [h.network] at hdeployments'
    exact ⟨rfl, rfl, rfl, rfl, rfl, rfl, h.ledger, hc, h.faithful.deployments, hdeployments',
      h.records⟩
  have hrun := hstart.runRules hindex henv rules
  have hrecords := Attempt.records_runRules ⟨e.network.params, now, e.stakes⟩ rules
    (Attempt.start c b e.store e.deployments)
  have hrecords' := Attempt.records_runRules ⟨e'.network.params, now, e'.stakes⟩ rules
    (Attempt.start c b e'.store e'.deployments)
  -- Whatever the results are, the attempts end as twins, and so do the engines.
  have hend {a a' : Attempt MemoryStore} (hrecords : a.store.stakeTable = e.store.stakeTable)
      (hrecords' : a'.store.stakeTable = e'.store.stakeTable)
      (ha : Attempt.Twin index ⟨e.network.params, now, e.stakes⟩
        ⟨e'.network.params, now, e'.stakes⟩ a a') :
      Twin index c.lower { e with store := a.store, deployments := a.deployments }
        { e' with store := a'.store, deployments := a'.deployments } := by
    obtain ⟨hfaithful, hsame⟩ := h.faithful.of_attempt hrecords ha.deployments
    obtain ⟨hfaithful', hsame'⟩ := h.faithful'.of_attempt hrecords' (by
      rw [h.network]
      exact ha.deployments')
    refine ⟨⟨h.network, h.stakes⟩, ha.ledger, hfaithful, hfaithful', fun x hx => ?_⟩
    rw [hsame, hsame']
    exact h.records x hx
  unfold Engine.attempt
  cases hleft : Chainstate.runRules ⟨e.network.params, now, e.stakes⟩ rules
      (Attempt.start c b e.store e.deployments) with
  | error f a =>
    obtain ⟨a', hright, ha⟩ := hrun.error_left hleft
    rw [hleft] at hrecords
    rw [hright] at hrecords'
    simp only [hleft, hright]
    exact .inl ⟨f, _, _, rfl, rfl, hend hrecords hrecords' ha⟩
  | ok u a =>
    obtain ⟨a', hright, ha⟩ := hrun.ok_left hleft
    rw [hleft] at hrecords
    rw [hright] at hrecords'
    simp only [hleft, hright]
    exact .inr ⟨a, a', _, _, rfl, rfl, ha.stake, ha.committed, hend hrecords hrecords' ha⟩

/-- So does an attempt that is dropped. -/
theorem Twin.attempt_drop (hindex : ChainIndex.Grown genesis index) (hc : c ∈ index)
    (h : Twin index c.lower e e') (now : UInt32) (b : Option Block) (rules : List RuleId) :
    Alike (Twin index c.lower) ((Engine.attempt now c b rules >>= fun _ => pure ()) e)
      ((Engine.attempt now c b rules >>= fun _ => pure ()) e') := by
  rcases h.attempt hindex hc now b rules with
    ⟨f, e₁, e₁', hrun, hrun', h₁⟩ | ⟨a, a', e₁, e₁', hrun, hrun', -, -, h₁⟩
  · rw [step_bind_error.2 (.inl hrun), step_bind_error.2 (.inl hrun')]
    exact ⟨rfl, h₁⟩
  · rw [step_bind_of_ok hrun, step_bind_of_ok hrun']
    exact alike_pure _ h₁

theorem Twin.validateHeader (hindex : ChainIndex.Grown genesis index) (hc : c ∈ index)
    (h : Twin index c.lower e e') (now : UInt32) :
    Alike (Twin index c.lower) (validateHeader now c e) (validateHeader now c e') := by
  refine alike_get_bind ?_
  rw [h.network]
  exact h.attempt_drop hindex hc now none _

theorem Twin.validateContents (hindex : ChainIndex.Grown genesis index) (hc : c ∈ index)
    (h : Twin index c.lower e e') (now : UInt32) (b : Block) :
    Alike (Twin index c.lower) (validateContents now c b e) (validateContents now c b e') := by
  refine alike_get_bind ?_
  rw [h.network]
  exact h.attempt_drop hindex hc now (some b) _

/-- Remembering a record fails for both or for none, and afterwards both find it. -/
theorem Twin.recordStake (hc : c.digest ≠ e.network.genesisDigest) (h : Twin index chains e e')
    (record : Option StakeRecord) :
    (∃ f, recordStake c record e = .error f e ∧ recordStake c record e' = .error f e')
      ∨ ∃ e₁ e₁', recordStake c record e = .ok () e₁ ∧ recordStake c record e' = .ok () e₁'
        ∧ Twin index (c :: chains) e₁ e₁' := by
  have hstakes := h.stakes
  cases hrun : Engine.recordStake c record e with
  | error f e₁ =>
    obtain ⟨rfl, rfl, hsome, rfl⟩ := recordStake_error hrun
    rw [hsome] at hstakes
    cases hrun' : Engine.recordStake c none e' with
    | error f' e₁' =>
      obtain ⟨rfl, rfl, -, -⟩ := recordStake_error hrun'
      exact .inl ⟨_, rfl, rfl⟩
    | ok u e₁' =>
      have hrecord := isSome_of_recordStake hrun' hstakes
      cases hrecord
  | ok u e₁ =>
    cases hrun' : Engine.recordStake c record e' with
    | error f' e₁' =>
      obtain ⟨-, -, hsome, rfl⟩ := recordStake_error hrun'
      rw [hstakes] at hsome
      have hrecord := isSome_of_recordStake hrun hsome
      cases hrecord
    | ok u' e₁' =>
      have hc' : c.digest ≠ e'.network.genesisDigest := by
        rw [h.network]
        exact hc
      obtain ⟨hkind, hledger, hbacked, hstates, hfound⟩ := h.faithful.records.recordStake hc hrun
      obtain ⟨hkind', hledger', hbacked', hstates', hfound'⟩ :=
        h.faithful'.records.recordStake hc' hrun'
      refine .inr ⟨e₁, e₁', rfl, rfl, ⟨?_, ?_⟩, ?_, ⟨hbacked, ?_⟩, ⟨hbacked', ?_⟩, ?_⟩
      · rw [hkind.network, hkind'.network, h.network]
      · rw [hkind.stakes, hkind'.stakes, hstakes]
      · exact (hledger.symm.trans h.ledger).trans hledger'
      · rw [hstates, hkind.network]
        exact h.faithful.deployments
      · rw [hstates', hkind'.network]
        exact h.faithful'.deployments
      · intro x hx
        rw [hfound, hfound', hstakes]
        by_cases hkey : e.stakes.isSome ∧ c.digest = x.digest
        · rw [if_pos hkey, if_pos hkey]
        · rw [if_neg hkey, if_neg hkey]
          rcases List.mem_cons.1 hx with rfl | hx
          · -- Neither engine keeps records.
            have hnone : e.stakes = none := by simpa using hkey
            rw [hnone, Option.isSome_none, Option.isSome_eq_false_iff,
              Option.isNone_iff_eq_none] at hstakes
            rw [record?_of_none hnone, record?_of_none hstakes]
          · exact h.records x hx

/-- Two validations of a block with the same result, in twins. If the block is accepted both find
the same record of it. -/
inductive SameVerdict (index : ChainIndex) (c : Chain)
    (r r' : EStateM.Result Failure (Engine MemoryStore) Unit) : Prop where
  | accepted (e e' : Engine MemoryStore) : r = .ok () e → r' = .ok () e' →
    Twin index c.ancestors e e' → SameVerdict index c r r'
  | refused (f : Failure) (e e' : Engine MemoryStore) : r = .error f e → r' = .error f e' →
    Twin index c.lower e e' → SameVerdict index c r r'

/-- Two verdicts that are the same as a third one are the same, and leave the same ledger. -/
theorem SameVerdict.alike {index' : ChainIndex} {r r₁ r₂ : EStateM.Result Failure _ Unit}
    (h₁ : SameVerdict index c r r₁) (h₂ : SameVerdict index' c r r₂) :
    Alike (fun e₁ e₂ => SameLedger e₁.store e₂.store) r₁ r₂ := by
  cases h₁ with
  | accepted e e₁ hr hr₁ htwin₁ =>
    subst hr hr₁
    cases h₂ with
    | accepted _ e₂ hr hr₂ htwin₂ =>
      cases hr
      subst hr₂
      exact ⟨rfl, htwin₁.ledger.symm.trans htwin₂.ledger⟩
    | refused f _ e₂ hr => cases hr
  | refused f e e₁ hr hr₁ htwin₁ =>
    subst hr hr₁
    cases h₂ with
    | accepted _ e₂ hr => cases hr
    | refused _ _ e₂ hr hr₂ htwin₂ =>
      cases hr
      subst hr₂
      exact ⟨rfl, htwin₁.ledger.symm.trans htwin₂.ledger⟩

/-- Verdicts are the same after steps that go the same way. -/
theorem SameVerdict.bind {x : EngineM MemoryStore Unit} {f : Unit → EngineM MemoryStore Unit}
    (hx : Alike (Twin index c.lower) (x e) (x e'))
    (hf : ∀ e₁ e₁', x e = .ok () e₁ → Twin index c.lower e₁ e₁' →
      SameVerdict index c (f () e₁) (f () e₁')) :
    SameVerdict index c ((x >>= f) e) ((x >>= f) e') := by
  cases hrun : x e with
  | ok u e₁ =>
    obtain ⟨e₁', hrun', h₁⟩ := hx.ok_left hrun
    rw [step_bind_of_ok hrun, step_bind_of_ok hrun']
    exact hf e₁ e₁' hrun h₁
  | error g e₁ =>
    obtain ⟨e₁', hrun', h₁⟩ := hx.error_left hrun
    exact .refused g e₁ e₁' (step_bind_error.2 (.inl hrun)) (step_bind_error.2 (.inl hrun')) h₁

variable {net : Network}

theorem Twin.validateCoins (hindex : ChainIndex.Grown net.genesis.header index) (hc : c ∈ index)
    (hnet : e.network = net) (hrules : net.rules.Ordered) (h : Twin index c.lower e e')
    (now : UInt32) (b : Block) :
    SameVerdict index c (validateCoins now c b e) (validateCoins now c b e') := by
  rcases h.attempt hindex hc now (some b) e.network.rules.coins with
    ⟨f, e₁, e₁', hrun, hrun', h₁⟩ | ⟨a, a', e₁, e₁', hrun, hrun', hstake, hcommitted, h₁⟩
  · rw [← h.network] at hrun'
    refine .refused f e₁ e₁' ?_ ?_ h₁
    · rw [Engine.validateCoins, step_get_bind]
      exact step_bind_error.2 (.inl hrun)
    · rw [Engine.validateCoins, step_get_bind]
      exact step_bind_error.2 (.inl hrun')
  · have hcoins := validateCoins_eq hrun
    rw [← h.network] at hrun'
    have hcoins' := validateCoins_eq hrun'
    rw [hcommitted, hstake] at hcoins'
    rw [hcoins, hcoins']
    subst hnet
    rcases attempt_coins hrules hrun with ⟨huncommitted, -⟩ | ⟨hdone, hcommit⟩
    · rw [huncommitted]
      exact .refused _ e₁ e₁' rfl rfl h₁
    · have hfresh : c.digest ≠ e₁.network.genesisDigest := by
        obtain ⟨parent, hparent⟩ := Option.ne_none_iff_exists'.1 hcommit.parent
        rw [hcommit.network]
        exact hindex.digest_ne_genesis hc hparent
      rw [hdone]
      rcases h₁.recordStake hfresh a.stake with
        ⟨f, hrecord, hrecord'⟩ | ⟨e₂, e₂', hrecord, hrecord', h₂⟩
      · exact .refused f e₁ e₁' hrecord hrecord' h₁
      · refine .accepted e₂ e₂' hrecord hrecord' ?_
        rw [Chain.ancestors_eq_cons]
        exact h₂

/-- Twins judge every block of the index alike. -/
theorem Twin.validateBlock (hindex : ChainIndex.Grown net.genesis.header index) (hc : c ∈ index)
    (hnet : e.network = net) (hrules : net.rules.Ordered) (h : Twin index c.lower e e')
    (now : UInt32) (b : Block) :
    SameVerdict index c (validateBlock now c b e) (validateBlock now c b e') := by
  refine SameVerdict.bind (h.validateHeader hindex hc now) fun e₁ e₁' hheader h₁ => ?_
  refine SameVerdict.bind (h₁.validateContents hindex hc now b) fun e₂ e₂' hcontents h₂ => ?_
  obtain ⟨_, hattempt₁⟩ := attempt_drop_ok.1 hheader
  obtain ⟨_, hattempt₂⟩ := attempt_drop_ok.1 hcontents
  have hnet₂ := (attempt_network hattempt₂).trans ((attempt_network hattempt₁).trans hnet)
  exact h₂.validateCoins hindex hc hnet₂ hrules now b

end Engine

end Chainstate
