-- SUMMARY: Engine operations: which leave the database alone and what an accepted block means.
import Chainstate.Engine
import Chainstate.Proofs.Connect

/-!
# Engine operations

The header and content stages change nothing but the cache of deployment states. The coin stage
either fails without touching the tip, the coins or the undo records, or connects the block. One
failure comes after the commit: an engine that keeps stake records and whose rules make none
(`validateBlock_outcome`).
-/

namespace Chainstate

namespace Engine

variable {σ : Type} [CoinStore σ]

/-! ## Stages that only read -/

/-- Two engines with the same network, database and stake cache. -/
structure Quiet (e e' : Engine σ) : Prop where
  network : e'.network = e.network
  store : e'.store = e.store
  stakes : e'.stakes = e.stakes

omit [CoinStore σ] in
theorem Quiet.trans {e e₁ e₂ : Engine σ} (h : Quiet e e₁) (h' : Quiet e₁ e₂) : Quiet e e₂ :=
  ⟨h'.network.trans h.network, h'.store.trans h.store, h'.stakes.trans h.stakes⟩

theorem attempt_ok {now : UInt32} {c : Chain} {b : Option Block} {rules : List RuleId}
    {e e' : Engine σ} {a : Attempt σ} (h : attempt now c b rules e = .ok a e') :
    runRules ⟨e.network.params, now, e.stakes⟩ rules (Attempt.start c b e.store e.deployments)
        = .ok () a
      ∧ e' = { e with store := a.store, deployments := a.deployments } := by
  unfold attempt at h
  cases hrun : runRules ⟨e.network.params, now, e.stakes⟩ rules
      (Attempt.start c b e.store e.deployments) with
  | ok u a₁ =>
    simp only [hrun] at h
    cases h
    exact ⟨rfl, rfl⟩
  | error f a₁ =>
    simp only [hrun] at h
    cases h

theorem attempt_error {now : UInt32} {c : Chain} {b : Option Block} {rules : List RuleId}
    {e e' : Engine σ} {f : Failure} (h : attempt now c b rules e = .error f e') :
    ∃ a : Attempt σ, runRules ⟨e.network.params, now, e.stakes⟩ rules
        (Attempt.start c b e.store e.deployments) = .error f a
      ∧ e' = { e with store := a.store, deployments := a.deployments } := by
  unfold attempt at h
  cases hrun : runRules ⟨e.network.params, now, e.stakes⟩ rules
      (Attempt.start c b e.store e.deployments) with
  | ok u a₁ =>
    simp only [hrun] at h
    cases h
  | error f₁ a₁ =>
    simp only [hrun] at h
    cases h
    exact ⟨a₁, rfl, rfl⟩

/-- An attempt without a commit leaves the engine's database alone. -/
theorem quiet_attempt (now : UInt32) (c : Chain) (b : Option Block) {rules : List RuleId}
    (hrules : .commitView ∉ rules) (e : Engine σ) :
    Quiet e (endState (attempt now c b rules e)) := by
  have hkeeps : Attempt.Keeps (Attempt.start c b e.store e.deployments)
      (runRules ⟨e.network.params, now, e.stakes⟩ rules) := Attempt.keeps_runRules _ hrules
  cases hrun : attempt now c b rules e with
  | ok a e' =>
    obtain ⟨hpassed, rfl⟩ := attempt_ok hrun
    exact ⟨rfl, (hkeeps.of_ok (Attempt.Framed.refl _) hpassed).store, rfl⟩
  | error f e' =>
    obtain ⟨a, hfailed, rfl⟩ := attempt_error hrun
    exact ⟨rfl, (hkeeps.of_error (Attempt.Framed.refl _) hfailed).store, rfl⟩

/-- So does one whose attempt is dropped, as the first stages drop it. -/
theorem quiet_attempt_drop (now : UInt32) (c : Chain) (b : Option Block) {rules : List RuleId}
    (hrules : .commitView ∉ rules) (e : Engine σ) :
    Quiet e (endState ((attempt now c b rules >>= fun _ => pure ()) e)) := by
  have hquiet := quiet_attempt now c b hrules e
  rw [endState_bind]
  cases hrun : attempt now c b rules e with
  | ok a e' =>
    rw [hrun] at hquiet
    exact hquiet
  | error f e' =>
    rw [hrun] at hquiet
    exact hquiet

/-- No stage but the last one has a commit among its rules. -/
structure CommitsLast (rules : RuleSet) : Prop where
  header : .commitView ∉ rules.header
  contents : .commitView ∉ rules.integrity ++ rules.contents

theorem commitsLast_work : CommitsLast RuleSet.work := ⟨by decide, by decide⟩

theorem commitsLast_stake : CommitsLast RuleSet.stake := ⟨by decide, by decide⟩

theorem quiet_validateHeader (now : UInt32) (c : Chain) {e : Engine σ}
    (h : CommitsLast e.network.rules) : Quiet e (endState (validateHeader now c e)) :=
  quiet_attempt_drop now c none h.header e

theorem quiet_validateContents (now : UInt32) (c : Chain) (b : Block) {e : Engine σ}
    (h : CommitsLast e.network.rules) : Quiet e (endState (validateContents now c b e)) :=
  quiet_attempt_drop now c (some b) h.contents e

/-- The integrity and content rules run on one attempt. -/
theorem validateContents_passed {now : UInt32} {c : Chain} {b : Block} {e e' : Engine σ}
    (h : validateContents now c b e = .ok () e') :
    ∃ a : Attempt σ, runRules ⟨e.network.params, now, e.stakes⟩
      (e.network.rules.integrity ++ e.network.rules.contents)
      (Attempt.start c (some b) e.store e.deployments) = .ok () a := by
  change (attempt now c (some b) (e.network.rules.integrity ++ e.network.rules.contents)
    >>= fun _ => pure ()) e = .ok () e' at h
  obtain ⟨a, e₁, hattempt, -⟩ := step_bind_ok.1 h
  exact ⟨a, (attempt_ok hattempt).1⟩

/-- A block whose contents are valid has passed every rule of the integrity and content stages. -/
theorem validateContents_ok {now : UInt32} {c : Chain} {b : Block} {e e' : Engine σ}
    (hlast : CommitsLast e.network.rules) (h : validateContents now c b e = .ok () e')
    {id : RuleId} (hid : id ∈ e.network.rules.integrity ++ e.network.rules.contents) :
    ∃ a₁ a₂ : Attempt σ, a₁.chain = c ∧ a₁.block = some b
      ∧ id.run ⟨e.network.params, now, e.stakes⟩ a₁ = .ok () a₂ := by
  obtain ⟨a, hpassed⟩ := validateContents_passed h
  obtain ⟨a₁, a₂, hframed, hrun⟩ :=
    Attempt.runRules_ok_of_mem (Attempt.Framed.refl _) hlast.contents hpassed hid
  exact ⟨a₁, a₂, hframed.chain, hframed.block, hrun⟩

end Engine

/-! ## The database kept in memory -/

/-- Two databases with the same tip, coins and undo records; stake records may differ. -/
structure SameLedger (db db' : MemoryStore) : Prop where
  tip : db'.tip = db.tip
  coins : db'.coinTable = db.coinTable
  undo : db'.undoTable = db.undoTable

theorem SameLedger.refl (db : MemoryStore) : SameLedger db db := ⟨rfl, rfl, rfl⟩

theorem SameLedger.symm {db db' : MemoryStore} (h : SameLedger db db') : SameLedger db' db :=
  ⟨h.tip.symm, h.coins.symm, h.undo.symm⟩

theorem SameLedger.trans {db db₁ db₂ : MemoryStore} (h : SameLedger db db₁)
    (h' : SameLedger db₁ db₂) : SameLedger db db₂ :=
  ⟨h'.tip.trans h.tip, h'.coins.trans h.coins, h'.undo.trans h.undo⟩

/-- Writing stake records later does not disconnect a block. -/
theorem Connected.of_sameLedger {p : Params} {c : Chain} {b : Block} {time : Option UInt32}
    {fees : Int} {db db₁ db₂ : MemoryStore} (h : Connected p c b time fees db db₁)
    (hsame : SameLedger db₁ db₂) : Connected p c b time fees db db₂ := by
  refine ⟨h.parent, hsame.tip.trans h.tip, ?_, ?_, h.fees, h.solvent, h.mature⟩
  · rw [hsame.coins]
    exact h.coins
  · rw [hsame.coins, hsame.undo]
    exact h.undo

/-- Flushing writes nothing but stake records, and on a database in memory it cannot fail. -/
theorem StakeCache.flush_memory (cache : StakeCache) (db : MemoryStore) (force : Bool) :
    ∃ cache' db', cache.flush db force = .ok (cache', db') ∧ SameLedger db db' := by
  unfold flush
  simp only
  split
  · exact ⟨cache, db, rfl, SameLedger.refl db⟩
  · exact ⟨_, _, rfl, ⟨rfl, rfl, rfl⟩⟩

namespace Engine

/-- What an operation on an engine with a database in memory never changes: the network, and
whether stake records are kept. -/
structure SameKind (e e' : Engine MemoryStore) : Prop where
  network : e'.network = e.network
  stakes : e'.stakes.isSome = e.stakes.isSome

theorem SameKind.refl (e : Engine MemoryStore) : SameKind e e := ⟨rfl, rfl⟩

theorem SameKind.trans {e e₁ e₂ : Engine MemoryStore} (h : SameKind e e₁) (h' : SameKind e₁ e₂) :
    SameKind e e₂ := ⟨h'.network.trans h.network, h'.stakes.trans h.stakes⟩

theorem Quiet.sameKind {e e' : Engine MemoryStore} (h : Quiet e e') : SameKind e e' :=
  ⟨h.network, by rw [h.stakes]⟩

theorem Quiet.sameLedger {e e' : Engine MemoryStore} (h : Quiet e e') :
    SameLedger e.store e'.store := by
  rw [h.store]
  exact SameLedger.refl _

/-- Flushing the stake cache of an engine always succeeds and leaves the ledger alone. -/
theorem flushStakes_memory (force : Bool) (e : Engine MemoryStore) :
    ∃ e', flushStakes force e = .ok () e' ∧ SameKind e e' ∧ SameLedger e.store e'.store := by
  cases hstakes : e.stakes with
  | none =>
    refine ⟨e, ?_, SameKind.refl e, SameLedger.refl _⟩
    simp only [flushStakes, step_bind_ok, step_get_ok]
    refine ⟨e, e, ⟨rfl, rfl⟩, ?_⟩
    rw [hstakes, step_pure_ok]
    exact ⟨rfl, rfl⟩
  | some cache =>
    obtain ⟨cache', db', hflush, hsame⟩ := cache.flush_memory e.store force
    refine ⟨{ e with stakes := some cache', store := db' }, ?_, ⟨rfl, by rw [hstakes]; rfl⟩, hsame⟩
    simp only [flushStakes, step_bind_ok, step_get_ok]
    refine ⟨e, e, ⟨rfl, rfl⟩, ?_⟩
    rw [hstakes]
    simp only [hflush, lift, step_bind_ok, step_pure_ok, step_set_ok]
    exact ⟨(cache', db'), e, ⟨rfl, rfl⟩, rfl⟩

theorem rewind_ok {e : Engine MemoryStore} {t : Tip} {db : MemoryStore}
    (h : MemoryStore.rewind e.store = .ok (t, db)) : rewind e = .ok t { e with store := db } := by
  rw [rewind, step_get_bind]
  change (lift (MemoryStore.rewind e.store) >>= _) e = _
  rw [h]
  rfl

theorem rewind_error {e : Engine MemoryStore} {f : Fault}
    (h : MemoryStore.rewind e.store = .error f) : rewind e = .error f e := by
  rw [rewind, step_get_bind]
  change (lift (MemoryStore.rewind e.store) >>= _) e = _
  rw [h]
  rfl

/-- Remembering the stake record of a block leaves the ledger alone, and fails exactly where a
record is called for and there is none. -/
theorem recordStake_memory (c : Chain) (record : Option StakeRecord) (e : Engine MemoryStore) :
    SameKind e (endState (recordStake c record e))
      ∧ SameLedger e.store (endState (recordStake c record e)).store
      ∧ (∀ e', recordStake c record e = .ok () e' → e.stakes.isSome = false ∨ record.isSome)
      ∧ ∀ f e', recordStake c record e = .error f e' → e.stakes.isSome ∧ record = none := by
  obtain ⟨network, store, stakes, deployments⟩ := e
  cases stakes with
  | none =>
    exact ⟨SameKind.refl _, SameLedger.refl _, fun _ _ => .inl rfl, fun _ _ h => nomatch h⟩
  | some cache =>
    cases record with
    | none =>
      exact ⟨SameKind.refl _, SameLedger.refl _, (fun _ h => nomatch h), fun _ _ _ => ⟨rfl, rfl⟩⟩
    | some record =>
      obtain ⟨e', hflush, hkind, hsame⟩ :=
        flushStakes_memory false ⟨network, store, some (cache.set c record), deployments⟩
      have hrun : recordStake c (some record) ⟨network, store, some cache, deployments⟩
          = .ok () e' := by
        change (flushStakes false).adaptExcept Failure.fault _ = _
        rw [step_adaptExcept_ok]
        exact hflush
      rw [hrun, endState_ok]
      exact ⟨⟨hkind.network, hkind.stakes⟩, hsame, fun _ _ => .inr rfl, fun _ _ h => nomatch h⟩

/-! ## Blocks -/

/-- The coin rules of a network have connected a block on top of `db` and bounded what it
creates: its coinbase, or its coinstake beyond the value that was staked. -/
def CoinsAdmitted (net : Network) (c : Chain) (b : Block) (db db' : MemoryStore) : Prop :=
  (net.rules = RuleSet.work ∧ ∃ fees, Connected net.params c b none fees db db'
    ∧ b.checkWorkReward net.params c.height fees = .ok ())
  ∨ (net.rules = RuleSet.stake
    ∧ ∃ fees stakeIn, Connected net.params c b (some b.header.time) fees db db'
    ∧ Staking.checkReward net.params b c.height fees stakeIn = .ok ()
    ∧ ∀ tx, b.coinstake? = some tx → stakeIn = Ledger.inputValue db.coinTable tx.inputs)

theorem CoinsAdmitted.of_sameLedger {net : Network} {c : Chain} {b : Block}
    {db db₁ db₂ : MemoryStore} (h : CoinsAdmitted net c b db db₁) (hsame : SameLedger db₁ db₂) :
    CoinsAdmitted net c b db db₂ := by
  rcases h with ⟨hrules, fees, hconnected, hreward⟩ | ⟨hrules, fees, stakeIn, hconnected, hreward⟩
  · exact .inl ⟨hrules, fees, hconnected.of_sameLedger hsame, hreward⟩
  · exact .inr ⟨hrules, fees, stakeIn, hconnected.of_sameLedger hsame, hreward⟩

/-- The networks of this development: their rules are those of proof of work or of stake. -/
def BuiltIn (net : Network) : Prop := net.rules = RuleSet.work ∨ net.rules = RuleSet.stake

theorem work_ne_stake : RuleSet.work ≠ RuleSet.stake := by decide

theorem BuiltIn.commitsLast {net : Network} (h : BuiltIn net) : CommitsLast net.rules := by
  rcases h with h | h
  · rw [h]
    exact commitsLast_work
  · rw [h]
    exact commitsLast_stake

/-- The engine keeps stake records only where the rules of its network make them. -/
def Coherent (e : Engine MemoryStore) : Prop :=
  e.network.rules = RuleSet.stake ∨ e.network.rules = RuleSet.work ∧ e.stakes.isSome = false

variable {net : Network} {now : UInt32} {c : Chain} {b : Block}

/-- Coin rules that pass admit the block, and those of proof of stake leave its record. -/
theorem runCoins_ok (hnet : BuiltIn net) {env : RuleEnv} (henv : env.params = net.params)
    {a a' : Attempt MemoryStore} (hchain : a.chain = c) (hblock : a.block = some b)
    (hdb : a.store.coinTable.All fun coin => coin.isPrunable = false)
    (h : runRules env net.rules.coins a = .ok () a') :
    CoinsAdmitted net c b a.store a'.store ∧ a'.committed = true
      ∧ (net.rules = RuleSet.work ∧ a'.stake = a.stake
        ∨ net.rules = RuleSet.stake ∧ a'.stake.isSome) := by
  subst hchain
  rcases hnet with hrules | hrules
  · rw [hrules] at h
    obtain ⟨fees, hconnected, hreward, hcommitted, hrecord⟩ :=
      Attempt.runRules_work_ok hblock hdb h
    rw [henv] at hconnected hreward
    exact ⟨.inl ⟨hrules, fees, hconnected, hreward⟩, hcommitted, .inl ⟨hrules, hrecord⟩⟩
  · rw [hrules] at h
    obtain ⟨fees, stakeIn, hconnected, hreward, hstake, hcommitted, hmade⟩ :=
      Attempt.runRules_stake_ok hblock hdb h
    rw [henv] at hconnected hreward
    exact ⟨.inr ⟨hrules, fees, stakeIn, hconnected, hreward, hstake⟩, hcommitted,
      .inr ⟨hrules, hmade.isSome⟩⟩

/-- Coin rules that fail have not touched the database. -/
theorem runCoins_error (hnet : BuiltIn net) {env : RuleEnv} {a a' : Attempt MemoryStore}
    {f : Failure} (h : runRules env net.rules.coins a = .error f a') : a'.store = a.store := by
  rcases hnet with hrules | hrules
  · rw [hrules] at h
    have hpre : RuleId.commitView ∉ [RuleId.coinFlags, .loadView, .connectWork] := by decide
    exact (Attempt.runRules_commit_error (Attempt.Framed.refl a) hpre h).store
  · rw [hrules] at h
    have hpre : RuleId.commitView ∉ [RuleId.coinFlags, .loadView, .coldStaking, .connectStake] := by
      decide
    exact (Attempt.runRules_commit_error (Attempt.Framed.refl a) hpre h).store

/-- The coin stage of a coherent engine admits the block, or fails and leaves the ledger alone. One
that is not coherent never succeeds, and may fail after it has admitted the block. -/
theorem validateCoins_outcome (now : UInt32) (c : Chain) (b : Block) {e : Engine MemoryStore}
    (hnet : BuiltIn e.network)
    (hdb : e.store.coinTable.All fun coin => coin.isPrunable = false) :
    SameKind e (endState (validateCoins now c b e))
      ∧ (∀ e', validateCoins now c b e = .ok () e' →
        CoinsAdmitted e.network c b e.store e'.store ∧ e.Coherent)
      ∧ (∀ f e', validateCoins now c b e = .error f e' → SameLedger e.store e'.store
        ∨ CoinsAdmitted e.network c b e.store e'.store ∧ ¬e.Coherent) := by
  cases hrun : attempt now c (some b) e.network.rules.coins e with
  | error f e₁ =>
    obtain ⟨a, hfailed, rfl⟩ := attempt_error hrun
    have hstore := runCoins_error hnet hfailed
    have hcoins : validateCoins now c b e
        = .error f { e with store := a.store, deployments := a.deployments } := by
      rw [validateCoins, step_get_bind]
      exact step_bind_error.2 (.inl hrun)
    rw [hcoins]
    refine ⟨⟨rfl, rfl⟩, (fun _ h => nomatch h), ?_⟩
    rintro _ _ ⟨⟩
    left
    change SameLedger e.store a.store
    rw [hstore]
    exact SameLedger.refl _
  | ok a e₁ =>
    obtain ⟨hpassed, rfl⟩ := attempt_ok hrun
    obtain ⟨hadmitted, hcommitted, hkind⟩ := runCoins_ok hnet rfl rfl rfl hdb hpassed
    have hcoins : validateCoins now c b e
        = recordStake c a.stake { e with store := a.store, deployments := a.deployments } := by
      rw [validateCoins, step_get_bind, step_bind_of_ok hrun, hcommitted]
      rfl
    obtain ⟨hsame, hledger, hok, herror⟩ := recordStake_memory c a.stake
      { e with store := a.store, deployments := a.deployments }
    rw [hcoins]
    refine ⟨⟨hsame.network, hsame.stakes⟩, ?_, ?_⟩
    · intro e' he'
      have hrecord := hok e' he'
      rw [he', endState_ok] at hledger
      refine ⟨hadmitted.of_sameLedger hledger, ?_⟩
      rcases hkind with ⟨hwork, hnone⟩ | ⟨hstake, -⟩
      · rcases hrecord with hstakes | hrecord
        · exact .inr ⟨hwork, hstakes⟩
        · rw [hnone] at hrecord
          cases hrecord
      · exact .inl hstake
    · intro f e' he'
      obtain ⟨hstakes, hnone⟩ := herror f e' he'
      rw [he', endState_error] at hledger
      refine .inr ⟨hadmitted.of_sameLedger hledger, ?_⟩
      rcases hkind with ⟨hwork, -⟩ | ⟨-, hrecord⟩
      · rintro (hstake | ⟨-, hplain⟩)
        · exact work_ne_stake (hwork.symm.trans hstake)
        · exact Bool.false_ne_true (hplain.symm.trans hstakes)
      · rw [hnone] at hrecord
        cases hrecord

/-- What the content rules of a network have checked of a block. -/
structure ContentsAdmitted (net : Network) (c : Chain) (b : Block) : Prop where
  merkleRoot : b.checkMerkleRoot = .ok ()
  coinbase : b.checkCoinbasePosition = .ok ()
  transactions : b.checkTransactions net.params = .ok ()
  shape : net.rules = RuleSet.stake → b.checkCoinstakeShape net.params = .ok ()
  height : net.params.bip34Height ≤ c.height → b.checkCoinbaseHeight c.height = .ok ()
  difficulty : net.rules = RuleSet.stake → ∀ prev, c.parent? = some prev →
    ∃ lookup, b.checkKindDifficulty net.params c lookup prev = .ok ()

/-- A rule that checks the block alone has checked the block of the attempt. -/
theorem passed_of_blockRule {σ : Type} {f : Block → Except Rejection Unit} {a a' : Attempt σ}
    (hblock : a.block = some b)
    (h : (Attempt.getBlock >>= fun b => Attempt.check (f b) : RuleM σ Unit) a = .ok () a') :
    f b = .ok () := by
  obtain ⟨⟨b₁, hb₁, hf⟩, -⟩ := Attempt.blockRule_ok.1 h
  rw [hblock, Option.some.injEq] at hb₁
  rw [hb₁]
  exact hf

/-- A block whose contents are valid starts with its height where BIP34 is in force. -/
theorem checkCoinbaseHeight_of_validateContents {σ : Type} [CoinStore σ] {e e' : Engine σ}
    (hnet : BuiltIn e.network) (h : validateContents now c b e = .ok () e')
    (hheight : e.network.params.bip34Height ≤ c.height) :
    b.checkCoinbaseHeight c.height = .ok () := by
  obtain ⟨before, after, hrules, hbefore⟩ : ∃ before after,
      e.network.rules.integrity ++ e.network.rules.contents
        = before ++ .contentFlags :: .lockTimes :: .coinbaseHeight :: after
      ∧ .commitView ∉ before := by
    rcases hnet with hrules | hrules
    · rw [hrules]
      exact ⟨[.merkleRoot], _, rfl, by decide⟩
    · rw [hrules]
      exact ⟨[.merkleRoot, .blockSignature], _, rfl, by decide⟩
  obtain ⟨a, hpassed⟩ := validateContents_passed h
  rw [hrules] at hpassed
  exact Attempt.coinbaseHeight_of_runRules hbefore rfl hpassed hheight

theorem validateContents_admits {σ : Type} [CoinStore σ] {e e' : Engine σ}
    (hnet : BuiltIn e.network) (h : validateContents now c b e = .ok () e') :
    ContentsAdmitted e.network c b := by
  have hrun (id : RuleId) (hid : id ∈ e.network.rules.integrity ++ e.network.rules.contents) :=
    validateContents_ok hnet.commitsLast h hid
  have hshared : ∀ id ∈ [RuleId.merkleRoot, .coinbasePosition, .transactions],
      id ∈ e.network.rules.integrity ++ e.network.rules.contents := by
    rcases hnet with hrules | hrules
    · rw [hrules]
      decide
    · rw [hrules]
      decide
  refine ⟨?_, ?_, ?_, ?_, ?_, ?_⟩
  · obtain ⟨a₁, a₂, -, hblock, hpassed⟩ := hrun .merkleRoot (hshared _ (by decide))
    exact passed_of_blockRule hblock hpassed
  · obtain ⟨a₁, a₂, -, hblock, hpassed⟩ := hrun .coinbasePosition (hshared _ (by decide))
    exact passed_of_blockRule hblock hpassed
  · obtain ⟨a₁, a₂, -, hblock, hpassed⟩ := hrun .transactions (hshared _ (by decide))
    exact passed_of_blockRule hblock hpassed
  · intro hstake
    have hid : RuleId.coinstakeShape ∈ e.network.rules.integrity ++ e.network.rules.contents := by
      rw [hstake]
      decide
    obtain ⟨a₁, a₂, -, hblock, hpassed⟩ := hrun .coinstakeShape hid
    exact passed_of_blockRule hblock hpassed
  · exact checkCoinbaseHeight_of_validateContents hnet h
  · intro hstake prev hparent
    have hid : RuleId.kindDifficulty ∈ e.network.rules.integrity ++ e.network.rules.contents := by
      rw [hstake]
      decide
    obtain ⟨a₁, a₂, hchain, hblock, hpassed⟩ := hrun .kindDifficulty hid
    obtain ⟨⟨b', hb', hcheck⟩, -⟩ := Attempt.kindDifficulty_ok hpassed
    rw [hblock, Option.some.injEq] at hb'
    rw [hchain] at hcheck
    obtain ⟨cache, -, hcheck⟩ := hcheck prev hparent
    rw [hb']
    exact ⟨_, hcheck⟩

/-- The contents of an accepted block have been checked, whatever database the engine has. -/
theorem contentsAdmitted_of_validateBlock {σ : Type} [CoinStore σ] {e e' : Engine σ}
    (hnet : BuiltIn e.network) (h : validateBlock now c b e = .ok () e') :
    ContentsAdmitted e.network c b := by
  obtain ⟨_, e₁, hheader, h⟩ := step_bind_ok.1 h
  obtain ⟨_, e₂, hcontents, -⟩ := step_bind_ok.1 h
  have hquiet := quiet_validateHeader now c hnet.commitsLast
  rw [hheader, endState_ok] at hquiet
  have hnet₁ : BuiltIn e₁.network := by
    rw [hquiet.network]
    exact hnet
  rw [← hquiet.network]
  exact validateContents_admits hnet₁ hcontents

/-- A block has passed all checks of a network and stands on top of `db` in `db'`. -/
structure Admitted (net : Network) (c : Chain) (b : Block) (db db' : MemoryStore) : Prop where
  contents : ContentsAdmitted net c b
  coins : CoinsAdmitted net c b db db'

/-- Validation by a coherent engine admits the block, or fails and leaves the ledger alone. An
engine that is not coherent accepts no block, and may fail after it has admitted one. -/
theorem validateBlock_outcome (now : UInt32) (c : Chain) (b : Block) {e : Engine MemoryStore}
    (hnet : BuiltIn e.network)
    (hdb : e.store.coinTable.All fun coin => coin.isPrunable = false) :
    SameKind e (endState (validateBlock now c b e))
      ∧ (∀ e', validateBlock now c b e = .ok () e' →
        Admitted e.network c b e.store e'.store ∧ e.Coherent)
      ∧ (∀ f e', validateBlock now c b e = .error f e' → SameLedger e.store e'.store
        ∨ Admitted e.network c b e.store e'.store ∧ ¬e.Coherent) := by
  have hheader := quiet_validateHeader now c hnet.commitsLast
  cases hrun₁ : validateHeader now c e with
  | error f e₁ =>
    rw [hrun₁, endState_error] at hheader
    have hblock : validateBlock now c b e = .error f e₁ := step_bind_error.2 (.inl hrun₁)
    rw [hblock]
    refine ⟨hheader.sameKind, (fun _ h => nomatch h), ?_⟩
    rintro _ _ ⟨⟩
    exact .inl hheader.sameLedger
  | ok u e₁ =>
    rw [hrun₁, endState_ok] at hheader
    have hnet₁ : BuiltIn e₁.network := by
      rw [hheader.network]
      exact hnet
    have hcontents := quiet_validateContents now c b hnet₁.commitsLast
    cases hrun₂ : validateContents now c b e₁ with
    | error f e₂ =>
      rw [hrun₂, endState_error] at hcontents
      have hquiet := hheader.trans hcontents
      have hblock : validateBlock now c b e = .error f e₂ := by
        rw [validateBlock, step_bind_of_ok hrun₁]
        exact step_bind_error.2 (.inl hrun₂)
      rw [hblock]
      refine ⟨hquiet.sameKind, (fun _ h => nomatch h), ?_⟩
      rintro _ _ ⟨⟩
      exact .inl hquiet.sameLedger
    | ok u e₂ =>
      rw [hrun₂, endState_ok] at hcontents
      have hquiet := hheader.trans hcontents
      have hblock : validateBlock now c b e = validateCoins now c b e₂ := by
        rw [validateBlock, step_bind_of_ok hrun₁, step_bind_of_ok hrun₂]
      have hadmitted := validateContents_admits hnet₁ hrun₂
      rw [hheader.network] at hadmitted
      have hnet₂ : BuiltIn e₂.network := by
        rw [hquiet.network]
        exact hnet
      have hdb₂ : e₂.store.coinTable.All fun coin => coin.isPrunable = false := by
        rw [hquiet.store]
        exact hdb
      obtain ⟨hkind, hok, herror⟩ := validateCoins_outcome now c b hnet₂ hdb₂
      rw [Coherent, hquiet.network, hquiet.store, hquiet.stakes] at hok herror
      rw [hblock]
      refine ⟨hquiet.sameKind.trans hkind, ?_, ?_⟩
      · intro e' he'
        obtain ⟨hcoins, hcoherent⟩ := hok e' he'
        exact ⟨⟨hadmitted, hcoins⟩, hcoherent⟩
      · intro f e' he'
        rcases herror f e' he' with hsame | ⟨hcoins, hincoherent⟩
        · exact .inl hsame
        · exact .inr ⟨⟨hadmitted, hcoins⟩, hincoherent⟩

end Engine

end Chainstate
