-- SUMMARY: Rejections: with complete rules every block on the stored tip is accepted or rejected.
import Chainstate.Proofs.History

/-!
# Rejections

A rule that ends in a fault has a cause for it (`RuleId.run_explained`). Here the causes are ruled
out for the blocks that extend the tip of an engine. Some by the registration: complete rules set
the flags and load the coins before they are read, refuse a transaction that spends an output twice
before its inputs are spent, and commit (`RuleSet.Complete`). The others by the blocks below: the
engine has the record of each of them, and the bits of each header decode, since a block whose bits
do not is never accepted (`Engine.hasTarget_of_validateBlock`). So the validation of such a block
ends in its acceptance or in a rejection (`Session.rejected_of_history`).
-/

namespace Chainstate

def Failure.IsRejection (f : Failure) : Prop := ∃ r, f = .rejected r

/-- The bits of the last header decode. -/
def Chain.HasTarget (c : Chain) : Prop := ∃ target, c.header.bits.decode = .ok target

theorem Chain.hasTarget_of_isOk {c : Chain} (h : c.header.bits.decode.isOk = true) :
    c.HasTarget := by
  cases hdecode : c.header.bits.decode with
  | ok target => exact ⟨target, hdecode⟩
  | error e =>
    rw [hdecode] at h
    cases h

theorem Chain.hasTarget_of_checkProofOfWork {c : Chain} (h : c.checkProofOfWork = .ok ()) :
    c.HasTarget := by
  obtain ⟨target, hdecode, -⟩ := checkProofOfWork_ok h
  exact ⟨target, hdecode⟩

/-! ## Complete rules -/

namespace RuleSet

/-- Rules that can run in their order: the flags are set and the coins are loaded before a rule
reads them, and nothing runs after a commit. -/
structure Runnable (ids : List RuleId) : Prop where
  commitsLast : commitsLast ids = true
  loadsFirst : loadsFirst false ids = true
  flagsFirst : givesFirst RuleId.needsFlags RuleId.setsFlags false ids = true

/-- Runnable rules that check what the rules of later stages and of later blocks rely on: that no
output is spent twice, and that the bits of the header decode. -/
structure Complete (rules : RuleSet) : Prop where
  header : Runnable rules.header
  contents : Runnable (rules.integrity ++ rules.contents)
  coins : Runnable rules.coins
  inputs : .transactions ∈ rules.integrity ++ rules.contents
  target : .workDifficulty ∈ rules.header
    ∨ .kindDifficulty ∈ rules.integrity ++ rules.contents ∧ .connectStake ∈ rules.coins
  commits : .commitView ∈ rules.coins

theorem complete_work : Complete work :=
  ⟨⟨rfl, rfl, rfl⟩, ⟨rfl, rfl, rfl⟩, ⟨rfl, rfl, rfl⟩, by decide, .inl (by decide), by decide⟩

theorem complete_stake : Complete stake :=
  ⟨⟨rfl, rfl, rfl⟩, ⟨rfl, rfl, rfl⟩, ⟨rfl, rfl, rfl⟩, by decide, .inr (by decide), by decide⟩

end RuleSet

namespace Network

variable {net : Network}

/-- The network has complete rules, keeps stake records where one of them reads them, and starts
with a header whose bits decode. -/
structure Complete (net : Network) : Prop extends Sound net where
  rules : net.rules.Complete
  stakes : ∀ id ∈ net.rules.header ++ (net.rules.integrity ++ net.rules.contents)
    ++ net.rules.coins, id.needsStakes = true → net.params.isProofOfStake = true
  genesis : net.genesisChain.HasTarget

/-- Every network that has a name is complete. -/
theorem complete_of_ofName? {name : String} (h : ofName? name = some net) : net.Complete := by
  have hsound := sound_of_ofName? h
  have hwork : ∀ id ∈ RuleSet.work.header ++ (RuleSet.work.integrity ++ RuleSet.work.contents)
      ++ RuleSet.work.coins, id.needsStakes = false := by decide
  unfold ofName? at h
  split at h
  all_goals cases h
  all_goals first
    | exact ⟨hsound, RuleSet.complete_work,
        fun id hid hneeds => absurd hneeds (by rw [hwork id hid]; decide),
        Chain.hasTarget_of_isOk (by decide)⟩
    | exact ⟨hsound, RuleSet.complete_stake, fun _ _ _ => rfl, Chain.hasTarget_of_isOk (by decide)⟩

end Network

/-! ## Runs of rules -/

/-- No transaction of the block spends an output twice. -/
def Block.SpendsOnce (b : Block) : Prop :=
  ∀ tx ∈ b.transactions, (tx.inputs.map TxIn.prevout).Nodup

namespace Attempt

/-- The attempt extends the tip of its database, on headers whose bits decode and on blocks whose
records are there. -/
structure Grounded (prev : Chain) (env : RuleEnv) (a : Attempt MemoryStore) : Prop where
  parent : a.chain.parent? = some prev
  tip : a.store.tip = some ⟨prev.digest, prev.height⟩
  uncommitted : a.committed = false
  targets : ∀ x ∈ prev.ancestors, x.HasTarget
  records : env.stakes.isSome → ∀ x ∈ prev.ancestors, (env.record? a.store x.digest).isSome

variable {prev : Chain} {env : RuleEnv} {a a' : Attempt MemoryStore} {id : RuleId}

theorem Grounded.of_framed (h : Grounded prev env a) (hframe : Framed a a') :
    Grounded prev env a' := by
  refine ⟨?_, ?_, hframe.committed.trans h.uncommitted, h.targets, ?_⟩
  · rw [hframe.chain]
    exact h.parent
  · rw [hframe.store]
    exact h.tip
  · rw [hframe.store]
    exact h.records

/-- A rule that finds set what it reads, on inputs that are spent once, can only reject. -/
theorem Grounded.isRejection (h : Grounded prev env a)
    (hblock : id.stage ≠ .header → a.block ≠ none) (hflags : id.needsFlags = true → a.flags ≠ none)
    (hview : id.needsView = true → a.view ≠ none)
    (hstakes : id.needsStakes = true → env.stakes ≠ none)
    (hinputs : id.needsView = true → ∀ b, a.block = some b → b.SpendsOnce) {f : Failure}
    (hf : Explained env a id f) : f.IsRejection := by
  cases f with
  | rejected r => exact ⟨r, rfl⟩
  | fault f =>
    exfalso
    cases hf with
    | noBlock hstage hnone => exact hblock hstage hnone
    | flagsUnset hneeds hnone => exact hflags hneeds hnone
    | viewUnset hneeds hnone => exact hview hneeds hnone
    | noStakeChain hneeds hnone => exact hstakes hneeds hnone
    | genesisCommitted hnone =>
      rw [h.parent] at hnone
      cases hnone
    | committedTwice hcommitted =>
      rw [h.uncommitted] at hcommitted
      cases hcommitted
    | tipMismatch prev' hparent hother =>
      rw [h.parent, Option.some.injEq] at hparent
      subst hparent
      exact hother h.tip
    | missingOutput b tx o hneeds hb htx hdup => exact hdup (hinputs hneeds b hb tx htx)
    | doubleSpend b tx o hneeds hb htx hdup => exact hdup (hinputs hneeds b hb tx htx)
    | missingStake prev' x hsome hparent hx hnone =>
      rw [h.parent, Option.some.injEq] at hparent
      subst hparent
      have hthere := h.records hsome x hx
      rw [hnone] at hthere
      cases hthere
    | headerBits prev' x e hparent hx herror =>
      rw [h.parent, Option.some.injEq] at hparent
      subst hparent
      obtain ⟨target, hdecode⟩ := h.targets x hx
      rw [hdecode] at herror
      cases herror

/-- Runnable rules can only reject. -/
theorem Grounded.runRules_failsIn (h : Grounded prev env a) {ids : List RuleId}
    (hruns : RuleSet.Runnable ids) (hblock : a.block = none → ∀ id ∈ ids, id.stage = .header)
    (hstakes : ∀ id ∈ ids, id.needsStakes = true → env.stakes ≠ none)
    (hinputs : ∀ id ∈ ids, id.needsView = true → ∀ b, a.block = some b → b.SpendsOnce) :
    FailsIn Failure.IsRejection (runRules env ids a) := by
  intro f a' hfails
  obtain ⟨before, id, after, a₁, rfl, hbefore, hrun⟩ := runRules_error hfails
  have hpassed := passed_runRules (RuleSet.commitsLast_split hruns.commitsLast) hbefore
  have hid : id ∈ before ++ id :: after := List.mem_append_right _ List.mem_cons_self
  refine (h.of_framed hpassed.toFramed).isRejection ?_ ?_ ?_ (hstakes id hid) ?_
    (id.run_explained env a₁ f a' hrun)
  · intro hstage
    rw [hpassed.block]
    exact fun hnone => hstage (hblock hnone id hid)
  · intro hneeds
    rcases RuleSet.givesFirst_split hruns.flagsFirst hneeds with hgiven | hset
    · cases hgiven
    · exact Option.isSome_iff_ne_none.1 (hpassed.flags (.inr hset))
  · intro hneeds
    have hloaded := RuleSet.loadsFirst_split hruns.loadsFirst hneeds
    exact Option.isSome_iff_ne_none.1 (hpassed.view (.inr hloaded))
  · rw [hpassed.block]
    exact hinputs id hid

end Attempt

theorem RuleId.stage_of_needsView {id : RuleId} (h : id.needsView = true) : id.stage = .coins := by
  cases id <;> first | rfl | cases h

/-! ## Validations -/

namespace Engine

/-- The engine of a network stands on headers whose bits decode and on blocks whose records are
there. -/
structure Grounded (net : Network) (prev : Chain) (e : Engine MemoryStore) : Prop where
  network : e.network = net
  stakes : e.stakes.isSome = net.params.isProofOfStake
  tip : e.store.tip = some ⟨prev.digest, prev.height⟩
  targets : ∀ x ∈ prev.ancestors, x.HasTarget
  records : e.stakes.isSome → ∀ x ∈ prev.ancestors, (e.record? x.digest).isSome

variable {net : Network} {prev c : Chain} {e e' : Engine MemoryStore} {now : UInt32} {b : Block}

theorem Grounded.of_quiet (h : e.Grounded net prev) (hquiet : Quiet e e') :
    e'.Grounded net prev := by
  refine ⟨hquiet.network.trans h.network, ?_, ?_, h.targets, ?_⟩
  · rw [hquiet.stakes]
    exact h.stakes
  · rw [hquiet.store]
    exact h.tip
  · unfold record?
    rw [hquiet.stakes, hquiet.store]
    exact h.records

/-- A stage whose rules are runnable can only reject. -/
theorem Grounded.attempt_failsIn (h : e.Grounded net prev) (hparent : c.parent? = some prev)
    {b : Option Block} {ids : List RuleId} (hruns : RuleSet.Runnable ids)
    (hblock : b = none → ∀ id ∈ ids, id.stage = .header)
    (hstakes : ∀ id ∈ ids, id.needsStakes = true → net.params.isProofOfStake = true)
    (hinputs : ∀ id ∈ ids, id.needsView = true → ∀ b', b = some b' → b'.SpendsOnce) :
    FailsIn Failure.IsRejection (attempt now c b ids e) := by
  intro f e' hfails
  obtain ⟨a, hrun, -⟩ := attempt_error hfails
  have hgrounded : Attempt.Grounded prev ⟨e.network.params, now, e.stakes⟩
      (Attempt.start c b e.store e.deployments) :=
    ⟨hparent, h.tip, rfl, h.targets, h.records⟩
  refine hgrounded.runRules_failsIn hruns hblock ?_ hinputs f a hrun
  intro id hid hneeds
  rw [← Option.isSome_iff_ne_none, h.stakes]
  exact hstakes id hid hneeds

theorem Grounded.validateHeader_failsIn (hnet : net.Complete) (h : e.Grounded net prev)
    (hparent : c.parent? = some prev) : FailsIn Failure.IsRejection (validateHeader now c e) := by
  have hnetwork := h.network
  subst hnetwork
  refine FailsIn.bind (x := attempt now c none e.network.rules.header) ?_ fun _ _ _ =>
    failsIn_pure _ _
  refine h.attempt_failsIn hparent hnet.rules.header (fun _ => hnet.ordered.header) ?_ nofun
  exact fun id hid => hnet.stakes id (List.mem_append_left _ (List.mem_append_left _ hid))

theorem Grounded.validateContents_failsIn (hnet : net.Complete) (h : e.Grounded net prev)
    (hparent : c.parent? = some prev) :
    FailsIn Failure.IsRejection (validateContents now c b e) := by
  have hnetwork := h.network
  subst hnetwork
  refine FailsIn.bind
    (x := attempt now c (some b) (e.network.rules.integrity ++ e.network.rules.contents)) ?_
    fun _ _ _ => failsIn_pure _ _
  refine h.attempt_failsIn hparent hnet.rules.contents nofun ?_ ?_
  · exact fun id hid => hnet.stakes id (List.mem_append_left _ (List.mem_append_right _ hid))
  · intro id hid hneeds
    have hstage := RuleId.stage_of_needsView hneeds
    refine absurd hid (hnet.ordered.contents_notMem ?_ ?_)
    · rw [hstage]
      decide
    · rw [hstage]
      decide

/-- What the coin rules rely on has been checked before they run. -/
theorem spendsOnce_of_validateContents (hrules : e.network.rules.Ordered)
    (hinputs : .transactions ∈ e.network.rules.integrity ++ e.network.rules.contents)
    (h : validateContents now c b e = .ok () e') : b.SpendsOnce := by
  obtain ⟨a₁, a₂, -, hblock, hpassed⟩ := validateContents_ok hrules.quiet h hinputs
  intro tx htx
  have hcheck := passed_of_blockRule hblock hpassed
  exact (Block.checked_of_checkTransactions hcheck tx htx).distinct

/-- Once the contents are valid the coin stage can only reject: what is left after its rules cannot
fail, as they have committed the block and made its record. -/
theorem Grounded.validateCoins_failsIn (hnet : net.Complete) (h : e.Grounded net prev)
    (hparent : c.parent? = some prev) (hinputs : b.SpendsOnce) :
    FailsIn Failure.IsRejection (validateCoins now c b e) := by
  have hnetwork := h.network
  subst hnetwork
  have hattempt : FailsIn Failure.IsRejection
      (attempt now c (some b) e.network.rules.coins e) := by
    refine h.attempt_failsIn hparent hnet.rules.coins nofun ?_ ?_
    · exact fun id hid => hnet.stakes id (List.mem_append_right _ hid)
    · rintro _ _ _ _ ⟨⟩
      exact hinputs
  intro f e' hfails
  cases hrun : attempt now c (some b) e.network.rules.coins e with
  | error g e₁ =>
    rw [validateCoins, step_get_bind] at hfails
    rcases step_bind_error.1 hfails with hfails | ⟨a, e₂, hok, -⟩
    · exact hattempt f e' hfails
    · rw [hrun] at hok
      cases hok
  | ok a e₁ =>
    rw [validateCoins_eq hrun] at hfails
    rcases attempt_coins hnet.ordered hrun with ⟨-, hnone, -⟩ | ⟨hcommitted, hdone⟩
    · exact absurd hnet.rules.commits hnone
    · rw [if_pos hcommitted] at hfails
      obtain ⟨-, -, hstakes, hnone⟩ := recordStake_error hfails
      rw [hdone.stakes, h.stakes] at hstakes
      have hmade := hdone.made (hnet.records hstakes)
      rw [hnone] at hmade
      cases hmade

/-- A block on the tip of such an engine is accepted or rejected. -/
theorem Grounded.validateBlock_failsIn (hnet : net.Complete) (h : e.Grounded net prev)
    (hparent : c.parent? = some prev) (now : UInt32) (b : Block) :
    FailsIn Failure.IsRejection (validateBlock now c b e) := by
  have hlast := hnet.ordered.quiet
  refine FailsIn.bind (h.validateHeader_failsIn hnet hparent) fun _ e₁ hheader => ?_
  have hquiet₁ := quiet_validateHeader now c (e := e) (by rw [h.network]; exact hlast)
  rw [hheader, endState_ok] at hquiet₁
  have h₁ := h.of_quiet hquiet₁
  refine FailsIn.bind (h₁.validateContents_failsIn hnet hparent) fun _ e₂ hcontents => ?_
  have hquiet₂ := quiet_validateContents now c b (e := e₁) (by rw [h₁.network]; exact hlast)
  rw [hcontents, endState_ok] at hquiet₂
  refine (h₁.of_quiet hquiet₂).validateCoins_failsIn hnet hparent ?_
  refine spendsOnce_of_validateContents ?_ ?_ hcontents
  · rw [h₁.network]
    exact hnet.ordered
  · rw [h₁.network]
    exact hnet.rules.inputs

/-! ## Accepted headers -/

/-- A coin rule other than the commit has passed where the coin stage has. -/
theorem coinRule_ok (hrules : e.network.rules.Ordered) {a : Attempt MemoryStore}
    (h : attempt now c (some b) e.network.rules.coins e = .ok a e') {id : RuleId}
    (hid : id ∈ e.network.rules.coins) (hne : id ≠ .commitView) :
    ∃ a₁ a₂ : Attempt MemoryStore, a₁.block = some b
      ∧ id.run ⟨e.network.params, now, e.stakes⟩ a₁ = .ok () a₂ := by
  obtain ⟨hpassed, -⟩ := attempt_ok h
  obtain ⟨before, a', hbefore, hmem, hrun⟩ : ∃ before a', .commitView ∉ before ∧ id ∈ before
      ∧ runRules ⟨e.network.params, now, e.stakes⟩ before
        (Attempt.start c (some b) e.store e.deployments) = .ok () a' := by
    rcases RuleSet.commitsLast_cases hrules.commitsLast with hnone | ⟨before, hsplit, hbefore⟩
    · exact ⟨_, a, hnone, hid, hpassed⟩
    · rw [hsplit, Attempt.runRules_append] at hpassed
      obtain ⟨_, a₁, hrun, -⟩ := step_bind_ok.1 hpassed
      rw [hsplit, List.mem_append, List.mem_singleton] at hid
      exact ⟨before, a₁, hbefore, hid.resolve_right hne, hrun⟩
  obtain ⟨a₁, a₂, hframe, hok⟩ :=
    Attempt.runRules_ok_of_mem (Attempt.Framed.refl _) hbefore hrun hmem
  exact ⟨a₁, a₂, hframe.block, hok⟩

/-- The bits of an accepted header decode: the rules of proof of work decode them, or those of proof
of stake decode the bits of the block's own header. -/
theorem hasTarget_of_validateBlock (hrules : e.network.rules.Ordered)
    (hcomplete : e.network.rules.Complete) (hparent : c.parent? = some prev)
    (hown : c.header = b.header) (h : validateBlock now c b e = .ok () e') : c.HasTarget := by
  obtain ⟨a₁, e₁, a₂, e₂, a₃, e₃, hattempt₁, hattempt₂, hattempt₃, -, -⟩ := validateBlock_ok.1 h
  rcases hcomplete.target with hwork | ⟨hkind, hstake⟩
  · obtain ⟨hpassed, -⟩ := attempt_ok hattempt₁
    obtain ⟨a, a', hframe, hrun⟩ := Attempt.runRules_ok_of_mem (Attempt.Framed.refl _)
      hrules.quiet.header hpassed hwork
    change Attempt.validate (a.chain.checkWork e.network.params) a = .ok () a' at hrun
    rw [hframe.chain, Attempt.validate_ok] at hrun
    exact Chain.hasTarget_of_checkProofOfWork (Chain.checkWork_ok hrun.1).2
  · obtain ⟨hpassed, -⟩ := attempt_ok hattempt₂
    obtain ⟨a, a', hframe, hrun⟩ := Attempt.runRules_ok_of_mem (Attempt.Framed.refl _)
      hrules.quiet.contents hpassed hkind
    obtain ⟨⟨b', hb', hcheck⟩, -⟩ := Attempt.kindDifficulty_ok hrun
    rw [hframe.block] at hb'
    cases hb'
    rw [hframe.chain] at hcheck
    obtain ⟨cache, -, hcheck⟩ := hcheck prev hparent
    cases hcoinstake : b.coinstake? with
    | none =>
      exact Chain.hasTarget_of_checkProofOfWork ((Block.checkKindDifficulty_ok hcheck).2
        (Block.isProofOfStake_of_coinstake?_eq_none hcoinstake))
    | some tx =>
      have hnetwork := (attempt_network hattempt₂).trans (attempt_network hattempt₁)
      rw [← hnetwork] at hrules hstake hattempt₃
      obtain ⟨a₄, a₅, hb, hrun⟩ := coinRule_ok hrules hattempt₃ hstake (by decide)
      obtain ⟨_, b'', _, _, w, _, _, record, stakeIn, _, hb'', -, -, -, -, hrecord, -⟩ :=
        Attempt.connectStake_ok hrun
      rw [hb] at hb''
      cases hb''
      obtain ⟨_, k, -, hkernel, -⟩ := Staking.exists_kernel hrecord hcoinstake
      obtain ⟨staked, target, hkernel⟩ := Staking.checkStake_ok hkernel
      rw [Chain.HasTarget, hown]
      exact ⟨target, hkernel.decodes⟩

end Engine

/-! ## Blocks on the tip -/

namespace Engine

variable {net : Network} {index : ChainIndex} {blocks : List (Chain × Block)}
  {e : Engine MemoryStore}

/-- The bits of the headers decode on which an engine stands that has accepted blocks with their own
headers. -/
theorem Replay.targets (hindex : ChainIndex.Grown net.genesis.header index) (hnet : net.Complete)
    (h : Replay net blocks e) (hknown : ∀ cb ∈ blocks, cb.1 ∈ index)
    (hown : ∀ cb ∈ blocks, cb.1.header = cb.2.header) :
    ∀ x ∈ (net.top blocks).ancestors, x.HasTarget := by
  induction h with
  | opened =>
    intro x hx
    rw [List.mem_singleton.1 hx]
    exact hnet.genesis
  | @accept _ r _ now c b hreplay haccepts ih =>
    obtain ⟨hc, hbelow⟩ := List.forall_mem_cons.1 hknown
    obtain ⟨hheader, hown⟩ := List.forall_mem_cons.1 hown
    have hstands := hreplay.stands hindex hnet.toSound hbelow
    obtain ⟨hparent, -, -⟩ := hstands.accept hindex hnet.toSound hc haccepts
    have hrules := hnet.ordered
    have hcomplete := hnet.rules
    rw [← hstands.network] at hrules hcomplete
    intro x hx
    change x ∈ c.ancestors at hx
    rw [Chain.ancestors_eq_cons, Chain.lower_of_parent? hparent] at hx
    rcases List.mem_cons.1 hx with rfl | hx
    · exact hasTarget_of_validateBlock hrules hcomplete hparent hheader haccepts
    · exact ih hbelow hown x hx

theorem Settled.grounded (hindex : ChainIndex.Grown net.genesis.header index)
    (hnet : net.Complete) (h : Settled net index blocks e)
    (hown : ∀ cb ∈ blocks, cb.1.header = cb.2.header) : e.Grounded net (net.top blocks) := by
  have hstands := h.stands hindex hnet.toSound
  obtain ⟨r, hreplay, -⟩ := h.replay
  exact ⟨hstands.network, hstands.stakes, hstands.tip, hreplay.targets hindex hnet h.known hown,
    hstands.records⟩

end Engine

namespace Session

variable {net : Network} {index : ChainIndex}

/-- What holds of the blocks that are asked to be validated holds of those that are connected. -/
theorem forall_connected_history (hindex : ChainIndex.Grown net.genesis.header index)
    (hnet : net.Sound) {P : Chain × Block → Prop} {events : List Event}
    (hevents : ∀ ev ∈ events, ev.Within index) (hP : ∀ ev ∈ events, ∀ cb ∈ ev.blocks, P cb) :
    ∀ cb ∈ (history net events).connected, P cb := by
  let I (s : Session) : Prop := s.Settled net index ∧ ∀ cb ∈ s.connected, P cb
  have hstart : I (start net) :=
    ⟨Engine.settled_opened hindex, fun _ hcb => absurd hcb List.not_mem_nil⟩
  refine (history_induction (I := I) hstart fun ev hev s hs => ?_).2
  refine ⟨settled_handle hindex hnet (hevents ev hev) hs.1, ?_⟩
  cases ev with
  | request r =>
    exact forall_connected_perform hindex hnet (hevents _ hev)
      (fun _ _ cb hcb _ _ _ _ => hP _ hev cb hcb) hs.1 hs.2
  | restart => exact hs.2

/-- Whatever an engine has gone through with blocks under their own headers, a block that extends
its tip is accepted or rejected: the validation does not end in a fault. -/
theorem rejected_of_history (hnet : net.Complete)
    (hindex : ChainIndex.Grown net.genesis.header index) {events : List Event}
    (hevents : ∀ ev ∈ events, ev.Within index)
    (hown : ∀ ev ∈ events, ∀ cb ∈ ev.blocks, cb.1.header = cb.2.header) {c : Chain} (hc : c ∈ index)
    (htip : (history net events).engine.store.tip.map Tip.digest = c.parent?.map Chain.digest)
    (now : UInt32) (b : Block) :
    (∃ e, Engine.validateBlock now c b (history net events).engine = .ok () e)
      ∨ ∃ r e, Engine.validateBlock now c b (history net events).engine
        = .error (.rejected r) e := by
  have hs := settled_history hindex hnet.toSound hevents
  have hparent := (hs.stands hindex hnet.toSound).parent_of_tip hindex hc htip
  have hgrounded := Engine.Settled.grounded hindex hnet hs
    (forall_connected_history hindex hnet.toSound hevents hown)
  cases hrun : Engine.validateBlock now c b (history net events).engine with
  | ok u e => exact .inl ⟨e, rfl⟩
  | error f e =>
    obtain ⟨r, rfl⟩ := hgrounded.validateBlock_failsIn hnet hparent now b f e hrun
    exact .inr ⟨r, e, rfl⟩

end Session

namespace Regtest

set_option maxRecDepth 10000

/-- After the detour the block is accepted or rejected. -/
theorem rejected_of_history_detour :
    Network.regtest.Complete
    ∧ (∀ ev ∈ detour, ∀ cb ∈ ev.blocks, cb.1.header = cb.2.header)
    ∧ (Session.history Network.regtest detour).engine.store.tip.map Tip.digest
      = chain.parent?.map Chain.digest
    ∧ ((∃ e, Engine.validateBlock 2000000000 chain block
        (Session.history Network.regtest detour).engine = .ok () e)
      ∨ ∃ r e, Engine.validateBlock 2000000000 chain block
        (Session.history Network.regtest detour).engine = .error (.rejected r) e) := by
  obtain ⟨index, hindex, hchain, hrival⟩ := exists_index
  have hcomplete : Network.regtest.Complete :=
    Network.complete_of_ofName? (show Network.ofName? "regtest" = some _ from rfl)
  have hwithin : ∀ ev ∈ detour, ev.Within index := forall_blocks_detour hrival hchain
  have hown : ∀ ev ∈ detour, ∀ cb ∈ ev.blocks, cb.1.header = cb.2.header :=
    forall_blocks_detour rfl rfl
  have htip : (Session.history Network.regtest detour).engine.store.tip.map Tip.digest
      = chain.parent?.map Chain.digest := by
    have hs := Session.settled_history hindex hcomplete.toSound hwithin
    rw [(hs.stands hindex hcomplete.toSound).tip, connected_detour]
    rfl
  refine ⟨hcomplete, hown, htip, ?_⟩
  exact Session.rejected_of_history hcomplete hindex hwithin hown hchain htip 2000000000 block

end Regtest

end Chainstate
