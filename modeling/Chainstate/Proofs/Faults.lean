-- SUMMARY: Faults of rules: every fault that a rule can end in, with what must have gone before it.
import Chainstate.Proofs.KindTarget
import Chainstate.Proofs.WorkTarget

/-!
# Faults of rules

A rule that fails rejects the block or ends in a fault. `Attempt.Explains` lists the faults with
their causes: something that the rule needs has not been set, the database is not at the parent of
the block, a transaction spends an output twice, or the headers and stake records below the block
are not what accepted blocks leave. `RuleId.run_explained` says that there are no others, so ruling
out a fault means ruling out its cause.
-/

namespace Chainstate

/-! ## Spending -/

namespace WorkingSet

theorem spendAll_failsIn {E : Fault → Prop} (hmissing : ∀ o, E (.missingOutput o))
    (hspent : ∀ o, E (.doubleSpend o)) (ins : List TxIn) (w : WorkingSet) :
    FailsIn E (spendAll ins w) := by
  induction ins generalizing w with
  | nil => exact failsIn_pure _ _
  | cons i ins ih =>
    refine FailsIn.bind ?_ fun _ w₁ _ => ih w₁
    unfold spend
    rw [step_get_bind]
    cases w.slots[i.prevout]? with
    | none => exact failsIn_throw (hmissing _) _
    | some s =>
      cases hcurrent : s.current with
      | none =>
        simp only [hcurrent, Option.isNone_none, if_true]
        exact failsIn_throw (hspent _) _
      | some c =>
        simp only [hcurrent, Option.isNone_some, Bool.false_eq_true, if_false]
        exact fun _ _ h => nomatch h

/-- An output that is there can be spent, and other outputs stay as they are. -/
theorem spend_of_coin? {w : WorkingSet} {o : OutPoint} (h : (w.coin? o).isSome) :
    ∃ w', spend o w = .ok () w' ∧ ∀ o', o ≠ o' → w'.coin? o' = w.coin? o' := by
  obtain ⟨c, hc⟩ := Option.isSome_iff_exists.1 h
  obtain ⟨s, hs, hcurrent⟩ := Option.bind_eq_some_iff.1 hc
  refine ⟨w.put o { s with current := none }, ?_, ?_⟩
  · unfold spend
    rw [step_get_bind]
    simp only [hs, hcurrent, Option.isNone_some, Bool.false_eq_true, if_false]
    rfl
  · intro o' hne
    rw [coin?, coin?, put, Table.getElem?_insert, if_neg hne]

/-- Distinct outputs that are all there can be spent one after the other. -/
theorem spendAll_of_nodup {ins : List TxIn} {w : WorkingSet}
    (hnodup : (ins.map TxIn.prevout).Nodup) (hthere : ∀ i ∈ ins, (w.coin? i.prevout).isSome) :
    ∃ w', spendAll ins w = .ok () w' := by
  induction ins generalizing w with
  | nil => exact ⟨w, rfl⟩
  | cons i ins ih =>
    obtain ⟨hfresh, hnodup⟩ := List.nodup_cons.1 hnodup
    obtain ⟨w₁, hspend, hsame⟩ := spend_of_coin? (hthere i List.mem_cons_self)
    obtain ⟨w', hrest⟩ := ih (w := w₁) hnodup (by
      intro j hj
      rw [hsame]
      · exact hthere j (List.mem_cons_of_mem _ hj)
      · intro heq
        exact hfresh (List.mem_map.2 ⟨j, hj, heq.symm⟩))
    refine ⟨w', ?_⟩
    rw [spendAll, step_bind_of_ok hspend]
    exact hrest

end WorkingSet

namespace Tally

/-- A transaction that is added is a coinbase, or all that it spends is there. -/
theorem hasInputs_of_add {p : Params} {w : WorkingSet} {height : Nat} {t t' : Tally}
    {tx : Transaction} (h : t.add p w height tx = .ok t') :
    tx.isCoinbase = true ∨ w.hasInputs tx = true := by
  obtain ⟨hcoinbase, -⟩ | ⟨-, hinputs, -⟩ := add_cases h
  · exact .inl hcoinbase
  · exact .inr hinputs

end Tally

namespace Spending

/-- Connecting transactions fails with a rejection, or where one of them spends an output twice. -/
theorem connect_failsIn {E : Failure → Prop} (hreject : ∀ r, E (.rejected r)) {p : Params}
    {height : Nat} {bip30 : Bool} {time : Option UInt32} {txs : List Transaction}
    (hspend : ∀ tx ∈ txs, ¬(tx.inputs.map TxIn.prevout).Nodup →
      ∀ o, E (.fault (.missingOutput o)) ∧ E (.fault (.doubleSpend o))) (w : WorkingSet) :
    FailsIn E (connect p height bip30 time txs w) := by
  refine FailsIn.bind ?_ fun t w' _ => failsIn_pure _ _
  generalize Tally.zero = t
  induction txs generalizing t w with
  | nil => exact failsIn_pure _ _
  | cons tx txs ih =>
    rw [List.foldlM_cons]
    refine FailsIn.bind ?_ fun t₁ w₁ _ =>
      ih (fun x hx => hspend x (List.mem_cons_of_mem _ hx)) w₁ t₁
    unfold connectTransaction
    rw [step_get_bind]
    cases hcheck : checkTransaction p height bip30 w t tx with
    | error r => exact failsIn_throw (hreject r) _
    | ok t₁ =>
      refine FailsIn.bind ?_ fun _ w₁ _ => failsIn_pure _ _
      obtain ⟨-, hadd, -⟩ := checkTransaction_ok hcheck
      have hinputs := Tally.hasInputs_of_add hadd
      unfold WorkingSet.apply
      cases hcoinbase : tx.isCoinbase with
      | true =>
        simp only [if_true]
        exact fun _ _ h => nomatch h
      | false =>
        simp only [hcoinbase, Bool.false_eq_true, false_or, if_false] at hinputs ⊢
        by_cases hnodup : (tx.inputs.map TxIn.prevout).Nodup
        · obtain ⟨w', hrun⟩ := WorkingSet.spendAll_of_nodup hnodup (List.all_eq_true.1 hinputs)
          refine FailsIn.adaptExcept (E := fun _ => False) ?_ fun _ h => h.elim
          rw [step_bind_of_ok hrun]
          exact fun _ _ h => nomatch h
        · have hfaults := hspend tx List.mem_cons_self hnodup
          refine FailsIn.adaptExcept (E := fun f => E (.fault f)) ?_ fun _ h => h
          refine FailsIn.bind ?_ fun _ _ _ _ _ h => nomatch h
          exact WorkingSet.spendAll_failsIn (fun o => (hfaults o).1) (fun o => (hfaults o).2) _ _

end Spending

/-! ## Loading -/

/-- The coins that the database gives are entered without fail: they stand under distinct
outpoints. -/
theorem WorkingSet.load_of_nodup {cs : List CoinChange} {w : WorkingSet}
    (hnodup : (cs.map CoinChange.outpoint).Nodup) (hnew : ∀ c ∈ cs, c.outpoint ∉ w.slots) :
    ∃ w', load cs w = .ok () w' := by
  induction cs generalizing w with
  | nil => exact ⟨w, rfl⟩
  | cons c cs ih =>
    obtain ⟨hfresh, hnodup⟩ := List.nodup_cons.1 hnodup
    have hc : ¬ w.slots.contains c.outpoint = true := by
      rw [Std.ExtTreeMap.contains_iff_mem]
      exact hnew c List.mem_cons_self
    obtain ⟨w', hrest⟩ := ih (w := w.put c.outpoint ⟨c.coin, c.coin⟩) hnodup (by
      intro d hd hmem
      rw [put, Std.ExtTreeMap.mem_iff_isSome_getElem?, Table.getElem?_insert, if_neg] at hmem
      · exact hnew d (List.mem_cons_of_mem _ hd) (Std.ExtTreeMap.mem_iff_isSome_getElem?.2 hmem)
      · intro heq
        exact hfresh (List.mem_map.2 ⟨d, hd, heq.symm⟩))
    refine ⟨w', ?_⟩
    rw [load, step_get_bind, if_neg hc]
    exact hrest

theorem MemoryStore.exists_load (db : MemoryStore) (os : List OutPoint) :
    ∃ w, WorkingSet.load ((db.fetch os).toList.map fun oc => ⟨oc.1, oc.2⟩) WorkingSet.empty
      = .ok () w := by
  apply WorkingSet.load_of_nodup
  · rw [List.map_map]
    change ((db.fetch os).toList.map Prod.fst).Nodup
    rw [Std.ExtTreeMap.map_fst_toList_eq_keys]
    exact (db.fetch os).nodup_keys
  · intro c _ hmem
    simp [WorkingSet.empty] at hmem

/-! ## Targets -/

namespace Retarget

theorem storedTarget_error {h : Header} {f : Fault} (hf : storedTarget h = .error f) :
    ∃ e, h.bits.decode = .error e ∧ f = .corruption (.headerBits e) := by
  unfold storedTarget at hf
  cases hdecode : h.bits.decode with
  | ok t =>
    rw [hdecode] at hf
    cases hf
  | error e =>
    rw [hdecode] at hf
    cases hf
    exact ⟨e, rfl, rfl⟩

/-- The target of a proof-of-work header is known unless the bits of a header below it do not
decode. -/
theorem workTarget_error {p : Params} {c : Chain} {f : Fault} (h : workTarget p c = .error f) :
    ∃ parent x e, c.parent? = some parent ∧ x ∈ parent.ancestors ∧ x.header.bits.decode = .error e
      ∧ f = .corruption (.headerBits e) := by
  have hbelow {parent x : Chain} (hx : x ∈ parent.ancestors)
      (hf : storedTarget x.header = .error f) :
      ∃ x e, x ∈ parent.ancestors ∧ x.header.bits.decode = .error e
        ∧ f = .corruption (.headerBits e) := by
    obtain ⟨e, hdecode, hfault⟩ := storedTarget_error hf
    exact ⟨x, e, hx, hdecode, hfault⟩
  cases c with
  | genesis header => cases h
  | extend header parent =>
    refine ⟨parent, ?_⟩
    suffices hcause : ∃ x e, x ∈ parent.ancestors ∧ x.header.bits.decode = .error e
        ∧ f = .corruption (.headerBits e) by
      obtain ⟨x, e, hx, hdecode, hfault⟩ := hcause
      exact ⟨x, e, rfl, hx, hdecode, hfault⟩
    rw [workTarget] at h
    split at h
    · split at h
      · exact hbelow parent.self_mem_ancestors h
      · split at h
        · cases h
        · exact hbelow (nearestRegular_lastRegular p parent).mem h
    · next hboundary =>
      -- An interval that ends here is not empty, so its first header is an ancestor.
      have hinterval : 0 < p.workInterval := by
        rcases Nat.eq_zero_or_pos p.workInterval with hzero | hpos
        · rw [hzero, Nat.mod_zero] at hboundary
          omega
        · exact hpos
      have hle : parent.height + 1 - p.workInterval ≤ parent.height := by omega
      obtain ⟨first, hfirst⟩ := Chain.exists_ancestor? hle
      simp only [hfirst] at h
      unfold nextInterval at h
      cases hstored : storedTarget parent.header with
      | error g =>
        rw [hstored] at h
        cases h
        exact hbelow parent.self_mem_ancestors hstored
      | ok target =>
        rw [hstored] at h
        change (if p.noRetargeting then pure target else _) = _ at h
        split at h
        · cases h
        · cases h

/-- The nearest block of a kind is found unless a record is missing. -/
theorem lastOfKind_cases (record : Digest → Option StakeRecord) (stake : Bool) (c : Chain) :
    (∃ x ∈ c.ancestors, lastOfKind (fun d => .ok (record d)) stake c = .ok x)
      ∨ ∃ x ∈ c.ancestors, record x.digest = none
        ∧ lastOfKind (fun d => .ok (record d)) stake c = .error (.missingStake x.digest) := by
  induction c with
  | genesis header =>
    cases hrecord : record (Chain.genesis header).digest with
    | none =>
      refine .inr ⟨_, Chain.self_mem_ancestors _, hrecord, ?_⟩
      simp only [lastOfKind, StakeLookup.require, hrecord]
      rfl
    | some r =>
      exact .inl ⟨_, Chain.self_mem_ancestors _, lastOfKind_genesis (congrArg _ hrecord)⟩
  | extend header parent ih =>
    cases hrecord : record (Chain.extend header parent).digest with
    | none =>
      refine .inr ⟨_, Chain.self_mem_ancestors _, hrecord, ?_⟩
      simp only [lastOfKind, StakeLookup.require, hrecord]
      rfl
    | some r =>
      rw [lastOfKind_extend (congrArg _ hrecord)]
      split
      · exact .inl ⟨_, Chain.self_mem_ancestors _, rfl⟩
      · rcases ih with ⟨x, hx, hlast⟩ | ⟨x, hx, hnone, hlast⟩
        · exact .inl ⟨x, List.mem_cons_of_mem _ hx, hlast⟩
        · exact .inr ⟨x, List.mem_cons_of_mem _ hx, hnone, hlast⟩

/-- The target of a kind of blocks is known unless, below the block, a record is missing or the
bits of a header do not decode. -/
theorem kindTarget_error {record : Digest → Option StakeRecord} {p : Params} {prev : Chain}
    {stake : Bool} {f : Fault} (h : kindTarget (fun d => .ok (record d)) p prev stake = .error f) :
    ∃ x ∈ prev.ancestors, (record x.digest = none ∧ f = .missingStake x.digest)
      ∨ ∃ e, x.header.bits.decode = .error e ∧ f = .corruption (.headerBits e) := by
  unfold kindTarget at h
  simp only at h
  rcases lastOfKind_cases record stake prev with ⟨last, hlast, hfound⟩ | ⟨x, hx, hnone, hfound⟩
  · rw [hfound] at h
    cases last with
    | genesis header => cases h
    | extend header below =>
      change (lastOfKind (fun d => .ok (record d)) stake below >>= _) = _ at h
      have hbelow : ∀ x ∈ below.ancestors, x ∈ prev.ancestors := fun x hx =>
        Chain.ancestors_trans hlast (List.mem_cons_of_mem _ hx)
      rcases lastOfKind_cases record stake below with ⟨early, _, hfound⟩ | ⟨x, hx, hnone, hfound⟩
      · rw [hfound] at h
        cases early with
        | genesis header => cases h
        | extend earlier rest =>
          change (storedTarget header >>= _) = _ at h
          cases hstored : storedTarget header with
          | error g =>
            rw [hstored] at h
            cases h
            obtain ⟨e, hdecode, hfault⟩ := storedTarget_error hstored
            exact ⟨_, hlast, .inr ⟨e, hdecode, hfault⟩⟩
          | ok target =>
            rw [hstored] at h
            cases h
      · rw [hfound] at h
        cases h
        exact ⟨x, hbelow x hx, .inl ⟨hnone, rfl⟩⟩
  · rw [hfound] at h
    cases h
    exact ⟨x, hx, .inl ⟨hnone, rfl⟩⟩

end Retarget

/-! ## Causes -/

namespace RuleId

def setsFlags : RuleId → Bool
  | contentFlags | coinFlags => true
  | _ => false

/-- Whether the rule reads the deployment flags. -/
def needsFlags : RuleId → Bool
  | lockTimes | coinbaseHeight | connectWork | coldStaking | connectStake => true
  | _ => false

/-- Whether the rule reads stake records. -/
def needsStakes : RuleId → Bool
  | kindDifficulty | connectStake => true
  | _ => false

end RuleId

/-- The record that a rule finds of a block. -/
def RuleEnv.record? (env : RuleEnv) (db : MemoryStore) (d : Digest) : Option StakeRecord :=
  env.stakes.bind fun cache => cache.record? db d

namespace Attempt

/-- The faults in which a rule can end that runs on an attempt, each with its cause. -/
inductive Explains (env : RuleEnv) (a : Attempt MemoryStore) (id : RuleId) : Fault → Prop where
  | noBlock : id.stage ≠ .header → a.block = none → Explains env a id (.ruleOrder .noBlock)
  | flagsUnset : id.needsFlags = true → a.flags = none →
    Explains env a id (.ruleOrder .flagsUnset)
  | viewUnset : id.needsView = true → a.view = none → Explains env a id (.ruleOrder .viewUnset)
  | genesisCommitted : a.chain.parent? = none → Explains env a id (.ruleOrder .genesisCommitted)
  | committedTwice : a.committed = true → Explains env a id (.ruleOrder .committedTwice)
  | noStakeChain : id.needsStakes = true → env.stakes = none →
    Explains env a id (.ruleOrder .noStakeChain)
  | tipMismatch (parent : Chain) : a.chain.parent? = some parent →
    a.store.tip ≠ some ⟨parent.digest, parent.height⟩ →
    Explains env a id (.tipMismatch parent.digest (a.store.tip.map Tip.digest))
  | missingOutput (b : Block) (tx : Transaction) (o : OutPoint) : id.needsView = true →
    a.block = some b → tx ∈ b.transactions → ¬(tx.inputs.map TxIn.prevout).Nodup →
    Explains env a id (.missingOutput o)
  | doubleSpend (b : Block) (tx : Transaction) (o : OutPoint) : id.needsView = true →
    a.block = some b → tx ∈ b.transactions → ¬(tx.inputs.map TxIn.prevout).Nodup →
    Explains env a id (.doubleSpend o)
  | missingStake (parent x : Chain) : env.stakes.isSome → a.chain.parent? = some parent →
    x ∈ parent.ancestors → env.record? a.store x.digest = none →
    Explains env a id (.missingStake x.digest)
  | headerBits (parent x : Chain) (e : CompactError) : a.chain.parent? = some parent →
    x ∈ parent.ancestors → x.header.bits.decode = .error e →
    Explains env a id (.corruption (.headerBits e))

/-- A rejection needs no explanation. -/
def Explained (env : RuleEnv) (a : Attempt MemoryStore) (id : RuleId) : Failure → Prop
  | .rejected _ => True
  | .fault f => Explains env a id f

variable {env : RuleEnv} {a : Attempt MemoryStore} {id : RuleId}

section Steps

variable {α : Type} {E : Failure → Prop}

theorem failsIn_check (hreject : ∀ r, E (.rejected r)) (x : Except Rejection α)
    (a : Attempt MemoryStore) : FailsIn E ((check x : RuleM MemoryStore α) a) := by
  cases x with
  | ok v => exact failsIn_ok v a
  | error r => exact failsIn_throw (hreject r) a

theorem failsIn_getBlock (h : a.block = none → E (.fault (.ruleOrder .noBlock))) :
    FailsIn E (getBlock a) := by
  refine FailsIn.bind (fun _ _ h => nomatch h) ?_
  rintro _ _ ⟨⟩
  cases hb : a.block with
  | some b => exact failsIn_pure _ _
  | none => exact failsIn_throw (h hb) _

theorem failsIn_getFlags (h : a.flags = none → E (.fault (.ruleOrder .flagsUnset))) :
    FailsIn E (getFlags a) := by
  refine FailsIn.bind (fun _ _ h => nomatch h) ?_
  rintro _ _ ⟨⟩
  cases hf : a.flags with
  | some f => exact failsIn_pure _ _
  | none => exact failsIn_throw (h hf) _

theorem failsIn_getView (h : a.view = none → E (.fault (.ruleOrder .viewUnset))) :
    FailsIn E (getView a) := by
  refine FailsIn.bind (fun _ _ h => nomatch h) ?_
  rintro _ _ ⟨⟩
  cases hw : a.view with
  | some w => exact failsIn_pure _ _
  | none => exact failsIn_throw (h hw) _

theorem failsIn_parentTip (h : a.chain.parent? = none → E (.fault (.ruleOrder .genesisCommitted))) :
    FailsIn E (parentTip a) := by
  refine FailsIn.bind (fun _ _ h => nomatch h) ?_
  rintro _ _ ⟨⟩
  cases hparent : a.chain.parent? with
  | some parent => exact failsIn_pure _ _
  | none => exact failsIn_throw (h hparent) _

theorem failsIn_stakeCache (h : env.stakes = none → E (.fault (.ruleOrder .noStakeChain))) :
    FailsIn E (stakeCache env a) := by
  unfold stakeCache
  cases hstakes : env.stakes with
  | some cache => exact failsIn_pure _ _
  | none => exact failsIn_throw (h hstakes) _

/-- Connecting transactions on the loaded coins. -/
theorem failsIn_onView (h : a.view = none → E (.fault (.ruleOrder .viewUnset)))
    {x : WorkingM Failure α} (hx : ∀ w, FailsIn E (x w)) : FailsIn E (onView x a) := by
  unfold onView
  cases hw : a.view with
  | none => exact failsIn_throw (h hw) _
  | some w =>
    have hxw := hx w
    intro f a' hrun
    simp only at hrun
    cases hrun' : x w with
    | ok v w' =>
      rw [hrun'] at hrun
      cases hrun
    | error e w' =>
      rw [hrun'] at hrun
      cases hrun
      exact hxw _ w' hrun'

end Steps

/-! ## Rules -/

theorem explained_rejected (r : Rejection) : Explained env a id (.rejected r) := trivial

theorem explained_setFlags : FailsIn (Explained env a id) (setFlags env a) := fun _ _ h => nomatch h

theorem explained_loadView : FailsIn (Explained env a .loadView) (loadView a) := by
  refine FailsIn.bind (failsIn_getBlock (.noBlock nofun)) fun b a₁ hb => ?_
  obtain ⟨-, rfl⟩ := getBlock_ok.1 hb
  refine FailsIn.bind (failsIn_parentTip .genesisCommitted) fun t a₂ ht => ?_
  obtain ⟨parent, hparent, rfl, rfl⟩ := parentTip_ok.1 ht
  refine failsIn_get_bind (FailsIn.bind (failsIn_ok a.store.tip a) ?_)
  rintro _ _ ⟨⟩
  split
  · next htip =>
    refine FailsIn.bind (failsIn_throw ?_ _) fun _ _ h => absurd h step_throw_ok
    exact .tipMismatch parent hparent htip
  · refine FailsIn.bind (failsIn_ok (a.store.fetch (touched b)) a) ?_
    rintro _ _ ⟨⟩
    obtain ⟨w, hload⟩ := a.store.exists_load (touched b)
    simp only [hload]
    exact fun _ _ h => nomatch h

theorem explained_connectWork : FailsIn (Explained env a .connectWork) (connectWork env a) := by
  refine FailsIn.bind (failsIn_getFlags (.flagsUnset rfl)) fun flags a₁ hflags => ?_
  obtain ⟨-, rfl⟩ := getFlags_ok.1 hflags
  refine FailsIn.bind (failsIn_getBlock (.noBlock nofun)) fun b a₂ hblock => ?_
  obtain ⟨hb, rfl⟩ := getBlock_ok.1 hblock
  refine failsIn_get_bind (FailsIn.bind ?_ fun fees a₃ _ => failsIn_check explained_rejected _ _)
  refine failsIn_onView (.viewUnset rfl) fun w => ?_
  refine Spending.connect_failsIn explained_rejected ?_ w
  intro tx htx hdup o
  exact ⟨.missingOutput b tx o rfl hb htx hdup, .doubleSpend b tx o rfl hb htx hdup⟩

theorem explained_coldStaking : FailsIn (Explained env a .coldStaking) (coldStaking a) := by
  refine FailsIn.bind (failsIn_getFlags (.flagsUnset rfl)) fun flags a₁ hflags => ?_
  obtain ⟨-, rfl⟩ := getFlags_ok.1 hflags
  split
  · exact failsIn_pure _ _
  · refine FailsIn.bind (failsIn_getBlock (.noBlock nofun)) fun b a₂ hb => ?_
    obtain ⟨-, rfl⟩ := getBlock_ok.1 hb
    cases b.coinstake? with
    | none => exact failsIn_pure _ _
    | some coinstake =>
      refine FailsIn.bind (failsIn_getView (.viewUnset rfl)) fun w a₃ _ => ?_
      exact failsIn_check explained_rejected _ _

theorem explained_kindDifficulty :
    FailsIn (Explained env a .kindDifficulty) (kindDifficulty env a) := by
  refine FailsIn.bind (failsIn_getBlock (.noBlock nofun)) fun b a₁ hb => ?_
  obtain ⟨-, rfl⟩ := getBlock_ok.1 hb
  refine failsIn_get_bind ?_
  cases hparent : a.chain.parent? with
  | none => exact failsIn_pure _ _
  | some prev =>
    refine FailsIn.bind (failsIn_stakeCache (.noStakeChain rfl)) fun cache a₂ hrun => ?_
    obtain ⟨hcache, rfl⟩ := stakeCache_ok.1 hrun
    have hlookup : cache.get a.store = fun d => .ok (cache.record? a.store d) :=
      funext (cache.get_memory a.store)
    rw [hlookup]
    unfold Block.checkKindDifficulty
    cases htarget : Retarget.kindTarget (fun d => .ok (cache.record? a.store d)) env.params prev
        b.isProofOfStake with
    | error f =>
      refine failsIn_throw ?_ _
      obtain ⟨x, hx, ⟨hnone, rfl⟩ | ⟨e, hdecode, rfl⟩⟩ := Retarget.kindTarget_error htarget
      · refine .missingStake prev x (by rw [hcache]; rfl) hparent hx ?_
        rw [RuleEnv.record?, hcache]
        exact hnone
      · exact .headerBits prev x e hparent hx hdecode
    | ok target =>
      simp only
      split
      · exact failsIn_throw trivial _
      · split
        · exact failsIn_pure _ _
        · cases a.chain.checkProofOfWork with
          | ok u => exact failsIn_pure _ _
          | error r => exact failsIn_throw trivial _

theorem explained_connectStake :
    FailsIn (Explained env a .connectStake) (connectStake env a) := by
  refine FailsIn.bind (failsIn_getFlags (.flagsUnset rfl)) fun flags a₁ hflags => ?_
  obtain ⟨-, rfl⟩ := getFlags_ok.1 hflags
  refine FailsIn.bind (failsIn_getBlock (.noBlock nofun)) fun b a₂ hblock => ?_
  obtain ⟨hb, rfl⟩ := getBlock_ok.1 hblock
  refine FailsIn.bind (failsIn_parentTip .genesisCommitted) fun prev a₃ hprev => ?_
  obtain ⟨parent, hparent, rfl, rfl⟩ := parentTip_ok.1 hprev
  refine FailsIn.bind (failsIn_stakeCache (.noStakeChain rfl)) fun cache a₄ hrun => ?_
  obtain ⟨hcache, rfl⟩ := stakeCache_ok.1 hrun
  refine failsIn_get_bind (FailsIn.bind ?_ fun previous a₅ hprevious => ?_)
  · unfold Retarget.StakeLookup.require
    simp only [StakeCache.get_memory]
    cases hrecord : cache.record? a.store parent.digest with
    | some r => exact failsIn_pure _ _
    | none =>
      refine failsIn_throw ?_ _
      refine .missingStake parent parent (by rw [hcache]; rfl) hparent parent.self_mem_ancestors ?_
      rw [RuleEnv.record?, hcache]
      exact hrecord
  · obtain ⟨-, rfl⟩ := trust_ok.1 hprevious
    refine FailsIn.bind (failsIn_getView (.viewUnset rfl)) fun w a₆ hw => ?_
    obtain ⟨-, rfl⟩ := getView_ok.1 hw
    refine FailsIn.bind (failsIn_check explained_rejected _ _) fun r a₇ hr => ?_
    obtain ⟨-, rfl⟩ := check_ok.1 hr
    refine FailsIn.bind ?_ fun fees a₈ _ => ?_
    · refine failsIn_onView (.viewUnset rfl) fun w => ?_
      refine Spending.connect_failsIn explained_rejected ?_ w
      intro tx htx hdup o
      exact ⟨.missingOutput b tx o rfl hb htx hdup, .doubleSpend b tx o rfl hb htx hdup⟩
    · refine FailsIn.bind (failsIn_check explained_rejected _ _) fun _ a₉ _ => ?_
      exact fun _ _ h => nomatch h

theorem explained_commitView : FailsIn (Explained env a .commitView) (commitView a) := by
  unfold commitView
  rw [step_get_bind]
  cases hcommitted : a.committed with
  | true => exact failsIn_throw (.committedTwice hcommitted) _
  | false =>
    refine FailsIn.bind (failsIn_parentTip .genesisCommitted) fun old a₁ hold => ?_
    obtain ⟨parent, hparent, rfl, rfl⟩ := parentTip_ok.1 hold
    refine FailsIn.bind (failsIn_getView (.viewUnset rfl)) fun w a₂ hw => ?_
    obtain ⟨-, rfl⟩ := getView_ok.1 hw
    refine FailsIn.bind (fun _ _ h => nomatch h) fun _ a₃ _ => ?_
    refine FailsIn.bind ?_ fun store a₄ _ _ _ h => nomatch h
    change FailsIn _ (trust (MemoryStore.commit a.store w.changes _ _ _) _)
    unfold MemoryStore.commit Tip.check
    split
    · exact failsIn_pure _ _
    · next htip => exact failsIn_throw (.tipMismatch parent hparent htip) _

end Attempt

open Attempt in
/-- A rule that ends in a fault has a cause for it. -/
theorem RuleId.run_explained (env : RuleEnv) (id : RuleId) (a : Attempt MemoryStore) :
    FailsIn (Explained env a id) (id.run env a) := by
  have hblock {id : RuleId} {f : Block → Except Rejection Unit} (hid : id.stage ≠ .header) :
      FailsIn (Explained env a id) ((getBlock >>= fun b => check (f b)) a) :=
    FailsIn.bind (failsIn_getBlock (.noBlock hid)) fun b _ _ => failsIn_check explained_rejected _ _
  cases id with
  | headerTime | headerVersion => exact failsIn_get_bind (failsIn_check explained_rejected _ _)
  | workDifficulty =>
    refine failsIn_get_bind ?_
    unfold Chain.checkWork
    cases htarget : Retarget.workTarget env.params a.chain with
    | error f =>
      obtain ⟨parent, x, e, hparent, hx, hdecode, rfl⟩ := Retarget.workTarget_error htarget
      exact failsIn_throw (.headerBits parent x e hparent hx hdecode) _
    | ok target =>
      simp only
      split
      · exact failsIn_throw trivial _
      · cases a.chain.checkProofOfWork with
        | ok u => exact failsIn_pure _ _
        | error r => exact failsIn_throw trivial _
  | merkleRoot | blockSize | coinbasePosition | transactions | writtenSigOps | coinstakeShape =>
    exact hblock nofun
  | blockSignature =>
    refine FailsIn.bind (failsIn_getBlock (.noBlock nofun)) fun b a₁ _ => ?_
    split
    · exact failsIn_pure _ _
    · exact failsIn_throw trivial _
  | contentFlags | coinFlags => exact explained_setFlags
  | lockTimes =>
    refine FailsIn.bind (failsIn_getFlags (.flagsUnset rfl)) fun flags a₁ hflags => ?_
    obtain ⟨-, rfl⟩ := getFlags_ok.1 hflags
    refine FailsIn.bind (failsIn_getBlock (.noBlock nofun)) fun b a₂ _ => ?_
    exact failsIn_get_bind (failsIn_check explained_rejected _ _)
  | coinbaseHeight =>
    refine FailsIn.bind (failsIn_getFlags (.flagsUnset rfl)) fun flags a₁ hflags => ?_
    obtain ⟨-, rfl⟩ := getFlags_ok.1 hflags
    split
    · refine FailsIn.bind (failsIn_getBlock (.noBlock nofun)) fun b a₂ _ => ?_
      exact failsIn_get_bind (failsIn_check explained_rejected _ _)
    · exact failsIn_pure _ _
  | lastWorkBlock =>
    refine FailsIn.bind (failsIn_getBlock (.noBlock nofun)) fun b a₁ _ => ?_
    exact failsIn_get_bind (failsIn_check explained_rejected _ _)
  | kindDifficulty => exact explained_kindDifficulty
  | loadView => exact explained_loadView
  | connectWork => exact explained_connectWork
  | coldStaking => exact explained_coldStaking
  | connectStake => exact explained_connectStake
  | commitView => exact explained_commitView

end Chainstate
