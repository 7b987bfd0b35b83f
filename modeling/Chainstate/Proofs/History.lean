-- SUMMARY: Histories: of all that an engine has gone through only the connected blocks can be seen.
import Chainstate.Proofs.Lockstep

/-!
# Histories

`Engine.Replay` holds of the engines that have been opened, have accepted some blocks and have done
nothing else. Blocks determine such an engine (`Engine.Replay.unique`). Any other engine with the
same connected blocks is a twin of it (`Engine.Settled`): refused blocks, rewinds, flushes, loaded
records and restarts leave nothing behind that a rule reads. So two engines with the same connected
blocks give the same verdict on the next one, whatever they have gone through
(`Session.verdict_of_connected`).
-/

namespace Chainstate

/-! ## Networks -/

/-- The rules of the network have been registered, and they make the stake records that its
parameters call for. -/
structure Network.Sound (net : Network) : Prop where
  registered : ∃ ids, RuleSet.build ids = .ok net.rules
  records : net.params.isProofOfStake = true → .connectStake ∈ net.rules.coins

namespace Network

variable {net : Network}

theorem Sound.ordered (h : net.Sound) : net.rules.Ordered := by
  obtain ⟨ids, hids⟩ := h.registered
  exact RuleSet.ordered_of_build hids

theorem sound_of_coherent (h : net.Coherent) : net.Sound := by
  rcases h with hrules | ⟨hrules, hstake⟩
  · refine ⟨⟨RuleSet.stakeRules, ?_⟩, fun _ => ?_⟩
    · rw [hrules]
      rfl
    · rw [hrules]
      decide
  · refine ⟨⟨RuleSet.workRules, ?_⟩, fun hcalls => ?_⟩
    · rw [hrules]
      rfl
    · rw [hstake] at hcalls
      cases hcalls

/-- Every network that has a name is sound. -/
theorem sound_of_ofName? {name : String} (h : ofName? name = some net) : net.Sound := by
  apply sound_of_coherent
  unfold ofName? at h
  split at h
  all_goals first
    | cases h
      first
        | exact .inl rfl
        | exact .inr ⟨rfl, rfl⟩
    | cases h

/-- The chain of the newest of some connected blocks; the genesis where there are none. -/
def top (net : Network) : List (Chain × Block) → Chain
  | [] => net.genesisChain
  | (c, _) :: _ => c

end Network

namespace Engine

/-! ## Engines that have only accepted blocks -/

/-- The engine has been opened, has accepted some blocks, of which the newest comes first, and has
done nothing else. -/
inductive Replay (net : Network) : List (Chain × Block) → Engine MemoryStore → Prop where
  | opened : Replay net [] (opened net)
  | accept {blocks : List (Chain × Block)} {e e' : Engine MemoryStore} {now : UInt32} {c : Chain}
    {b : Block} : Replay net blocks e → validateBlock now c b e = .ok () e' →
    Replay net ((c, b) :: blocks) e'

/-- What holds of an engine that stands on some blocks. -/
structure Stands (net : Network) (index : ChainIndex) (blocks : List (Chain × Block))
    (e : Engine MemoryStore) : Prop where
  network : e.network = net
  stakes : e.stakes.isSome = net.params.isProofOfStake
  faithful : e.Faithful index
  known : net.top blocks ∈ index
  height : (net.top blocks).height = blocks.length
  tip : e.store.tip = some ⟨(net.top blocks).digest, (net.top blocks).height⟩
  spendable : e.store.coinTable.All fun coin => coin.isPrunable = false
  undo : ∀ height : Nat, height = 0 ∨ blocks.length < height → e.store.undoTable[height]? = none
  records : e.stakes.isSome → ∀ x ∈ (net.top blocks).ancestors, (e.record? x.digest).isSome

variable {net : Network} {index : ChainIndex} {blocks : List (Chain × Block)}
  {e e' r : Engine MemoryStore} {now : UInt32} {c : Chain} {b : Block}

theorem Stands.makesRecords (h : Stands net index blocks e) (hnet : net.Sound) :
    e.MakesRecords := by
  rw [MakesRecords, h.stakes, h.network]
  exact hnet.records

/-- A chain of the index that the database takes for its tip is the newest of the blocks. -/
theorem Stands.eq_top (h : Stands net index blocks e) (hc : c ∈ index) {t : Tip}
    (htip : e.store.tip = some t) (hdigest : c.digest = t.digest) : c = net.top blocks := by
  rw [h.tip, Option.some.injEq] at htip
  subst htip
  exact ChainIndex.eq_of_digest_eq hc h.known hdigest

/-- A chain of the index whose parent is the stored tip extends the newest of the blocks. -/
theorem Stands.parent_of_tip (hindex : ChainIndex.Grown net.genesis.header index)
    (h : Stands net index blocks e) (hc : c ∈ index)
    (htip : e.store.tip.map Tip.digest = c.parent?.map Chain.digest) :
    c.parent? = some (net.top blocks) := by
  rw [h.tip, Option.map_some, eq_comm, Option.map_eq_some_iff] at htip
  obtain ⟨parent, hparent, hdigest⟩ := htip
  rw [← h.eq_top (hindex.parent_mem hc hparent) h.tip hdigest]
  exact hparent

theorem stands_opened (hindex : ChainIndex.Grown net.genesis.header index) :
    Stands net index [] (opened net) := by
  have hstakes : (opened net).stakes.isSome = net.params.isProofOfStake := by
    change (ofStore net MemoryStore.empty).stakes.isSome = _
    unfold ofStore
    simp only
    cases net.params.isProofOfStake with
    | true => rfl
    | false => rfl
  obtain ⟨hbacked, -⟩ : (opened net).Backed ∧ _ :=
    (backed_ofStore net MemoryStore.empty).congr rfl rfl rfl
  refine ⟨rfl, hstakes, ⟨hbacked, DeploymentCache.agrees_empty _ _⟩, hindex.genesis_mem, rfl, rfl,
    Table.all_empty _, ?_, ?_⟩
  · intro height _
    change (∅ : Table Nat UndoRecord)[height]? = none
    simp
  · intro hsome x hx
    rw [List.mem_singleton.1 hx]
    obtain ⟨cache, hcache⟩ := Option.isSome_iff_exists.1 hsome
    obtain ⟨hgenesis, hcached⟩ := hbacked cache hcache
    rw [record?_of_stakes hcache]
    change (cache.record? _ net.genesisDigest).isSome
    rw [← show cache.genesis = net.genesisDigest from hgenesis, hcached.record?_genesis]
    rfl

/-- Validation keeps the caches of an engine faithful. -/
theorem Faithful.validateBlock (hindex : ChainIndex.Grown net.genesis.header index)
    (hnet : net.Sound) (hnetwork : e.network = net) (h : e.Faithful index) (hc : c ∈ index)
    (now : UInt32) (b : Block) : (endState (validateBlock now c b e)).Faithful index := by
  have hself := h.twin c.lower
  cases hself.validateBlock hindex hc hnetwork hnet.ordered now b with
  | accepted e₁ _ hrun _ htwin =>
    rw [hrun]
    exact htwin.faithful
  | refused f e₁ _ hrun _ htwin =>
    rw [hrun]
    exact htwin.faithful

/-- A block that is accepted on top of some blocks stands on the newest of them. -/
theorem Stands.accept (hindex : ChainIndex.Grown net.genesis.header index) (hnet : net.Sound)
    (h : Stands net index blocks e) (hc : c ∈ index) (hrun : validateBlock now c b e = .ok () e') :
    c.parent? = some (net.top blocks) ∧ Extends c e e'
      ∧ Stands net index ((c, b) :: blocks) e' := by
  have hrules : e.network.rules.Ordered := by
    rw [h.network]
    exact hnet.ordered
  have hfresh : c.parent? ≠ none → c.digest ≠ e.network.genesisDigest := by
    intro hparent
    obtain ⟨parent, hparent⟩ := Option.ne_none_iff_exists'.1 hparent
    rw [h.network]
    exact hindex.digest_ne_genesis hc hparent
  have hextends := extends_of_validateBlock hrules h.faithful.records hfresh hrun
  have hadvanced := hextends.advanced h.spendable
  have hparent : c.parent? = some (net.top blocks) := by
    obtain ⟨parent, hparent, htip⟩ := hadvanced.parent
    rw [← h.eq_top (hindex.parent_mem hc hparent) htip rfl]
    exact hparent
  have hheight : c.height = blocks.length + 1 := by
    rw [Chain.height_of_parent? hparent, h.height]
  have hfaithful := h.faithful.validateBlock hindex hnet h.network hc now b
  rw [hrun, endState_ok] at hfaithful
  refine ⟨hparent, hextends, hextends.network.trans h.network, hextends.stakes.trans h.stakes,
    hfaithful, hc, hheight, hadvanced.tip, hadvanced.spendable, ?_, ?_⟩
  · intro height hother
    rw [List.length_cons] at hother
    rw [hadvanced.undo _ h.tip, Table.getElem?_insert, if_neg (by omega)]
    exact h.undo height (by omega)
  · intro hstakes x hx
    rw [hextends.stakes] at hstakes
    change x ∈ c.ancestors at hx
    rw [Chain.ancestors_eq_cons] at hx
    rcases List.mem_cons.1 hx with rfl | hbelow
    · exact hextends.made hstakes
    · rw [hextends.records _ (hindex.digest_ne_of_mem_lower hc hbelow)]
      rw [Chain.lower_of_parent? hparent] at hbelow
      exact h.records hstakes x hbelow

theorem Replay.stands (hindex : ChainIndex.Grown net.genesis.header index) (hnet : net.Sound)
    (h : Replay net blocks e) (hblocks : ∀ cb ∈ blocks, cb.1 ∈ index) :
    Stands net index blocks e := by
  induction h with
  | opened => exact stands_opened hindex
  | accept _ hrun ih =>
    obtain ⟨hc, holder⟩ := List.forall_mem_cons.1 hblocks
    exact ((ih holder).accept hindex hnet hc hrun).2.2

/-- Blocks determine the engine that has accepted them and has done nothing else, whatever the times
were at which it has accepted them. -/
theorem Replay.unique (hindex : ChainIndex.Grown net.genesis.header index) (hnet : net.Sound)
    (hblocks : ∀ cb ∈ blocks, cb.1 ∈ index) (h : Replay net blocks e) (h' : Replay net blocks e') :
    e' = e := by
  induction h generalizing e' with
  | opened =>
    cases h'
    rfl
  | accept hreplay hrun ih =>
    cases h' with
    | accept hreplay' hrun' =>
      obtain ⟨-, holder⟩ := List.forall_mem_cons.1 hblocks
      have hsame := ih holder hreplay'
      subst hsame
      have hrules := hnet.ordered
      rw [← (hreplay.stands hindex hnet holder).network] at hrules
      have htime := timely_of_validateBlock hrules hrun'
      have hagain := validateBlock_clock hrules htime hrun
      rw [hrun'] at hagain
      cases hagain
      rfl

/-! ## Settled engines -/

/-- A new engine on the database of one that has written its stake records. -/
def restart (e : Engine MemoryStore) : Engine MemoryStore :=
  ofStore e.network (endState (flush e)).store

/-- The engine is a twin of one that has accepted the blocks and has done nothing else: whatever it
has gone through, the rules see nothing of it but the blocks. -/
structure Settled (net : Network) (index : ChainIndex) (blocks : List (Chain × Block))
    (e : Engine MemoryStore) : Prop where
  known : ∀ cb ∈ blocks, cb.1 ∈ index
  replay : ∃ r, Replay net blocks r ∧ Twin index (net.top blocks).ancestors r e

theorem settled_opened (hindex : ChainIndex.Grown net.genesis.header index) :
    Settled net index [] (opened net) :=
  ⟨fun _ hcb => absurd hcb List.not_mem_nil, opened net, .opened,
    (stands_opened hindex).faithful.twin _⟩

/-- A change that no rule can see keeps an engine a twin. -/
theorem Twin.of_sameRecords {chains : List Chain} (h : Twin index chains r e)
    (hsame : SameRecords e e') (hdeployments : e'.deployments.Agrees e'.network.params index) :
    Twin index chains r e' :=
  ⟨h.toSameKind.trans hsame.toSameKind, h.ledger.trans hsame.ledger, h.faithful,
    ⟨hsame.backed, hdeployments⟩, fun x hx => (hsame.records _).trans (h.records x hx)⟩

theorem Settled.of_sameRecords (h : Settled net index blocks e) (hsame : SameRecords e e')
    (hdeployments : e'.deployments.Agrees e'.network.params index) :
    Settled net index blocks e' := by
  obtain ⟨r, hreplay, htwin⟩ := h.replay
  exact ⟨h.known, r, hreplay, htwin.of_sameRecords hsame hdeployments⟩

section

variable (hindex : ChainIndex.Grown net.genesis.header index) (hnet : net.Sound)

include hindex hnet

/-- A settled engine stands on its blocks. -/
theorem Settled.stands (h : Settled net index blocks e) : Stands net index blocks e := by
  obtain ⟨r, hreplay, htwin⟩ := h.replay
  have hstands := hreplay.stands hindex hnet h.known
  refine ⟨htwin.network.trans hstands.network, htwin.stakes.trans hstands.stakes, htwin.faithful',
    hstands.known, hstands.height, htwin.ledger.tip.trans hstands.tip, ?_, ?_, ?_⟩
  · rw [htwin.ledger.coins]
    exact hstands.spendable
  · rw [htwin.ledger.undo]
    exact hstands.undo
  · intro hstakes x hx
    rw [htwin.stakes] at hstakes
    rw [htwin.records x hx]
    exact hstands.records hstakes x hx

/-- An accepted block is added to the blocks. -/
theorem Settled.accept (h : Settled net index blocks e) (hc : c ∈ index)
    (hrun : validateBlock now c b e = .ok () e') :
    c.parent? = some (net.top blocks) ∧ Settled net index ((c, b) :: blocks) e' := by
  obtain ⟨hparent, -, -⟩ := (h.stands hindex hnet).accept hindex hnet hc hrun
  obtain ⟨r, hreplay, htwin⟩ := h.replay
  have hstands := hreplay.stands hindex hnet h.known
  rw [← Chain.lower_of_parent? hparent] at htwin
  refine ⟨hparent, List.forall_mem_cons.2 ⟨hc, h.known⟩, ?_⟩
  cases htwin.validateBlock hindex hc hstands.network hnet.ordered now b with
  | accepted r' e₁ haccepts hrun₁ htwin' =>
    rw [hrun] at hrun₁
    cases hrun₁
    exact ⟨r', .accept hreplay haccepts, htwin'⟩
  | refused f r' e₁ _ hrun₁ _ =>
    rw [hrun] at hrun₁
    cases hrun₁

/-- A refused block leaves the blocks as they are. -/
theorem Settled.refuse (h : Settled net index blocks e) (hc : c ∈ index) {f : Failure}
    (hrun : validateBlock now c b e = .error f e') : Settled net index blocks e' := by
  have hstands := h.stands hindex hnet
  have hrules : e.network.rules.Ordered := by
    rw [hstands.network]
    exact hnet.ordered
  have hquiet := quiet_of_validateBlock_error hrules (hstands.makesRecords hnet) hrun
  have hfaithful := hstands.faithful.validateBlock hindex hnet hstands.network hc now b
  rw [hrun, endState_error] at hfaithful
  obtain ⟨-, hrecords⟩ := hstands.faithful.records.congr hquiet.network hquiet.stakes
    (congrArg _ hquiet.store)
  exact h.of_sameRecords ⟨hquiet.sameKind, hquiet.sameLedger, hfaithful.records, hrecords⟩
    hfaithful.deployments

/-- A rewind takes the newest block away. -/
theorem Settled.rewind {older : List (Chain × Block)}
    (h : Settled net index ((c, b) :: older) e) :
    ∃ t e', Engine.rewind e = .ok t e' ∧ Settled net index older e' := by
  obtain ⟨hc, holder⟩ := List.forall_mem_cons.1 h.known
  obtain ⟨r, hreplay, htwin⟩ := h.replay
  cases hreplay with
  | @accept _ r₀ _ now _ _ hreplay₀ haccepts =>
    have hstands₀ := hreplay₀.stands hindex hnet holder
    obtain ⟨hparent, hextends, -⟩ := hstands₀.accept hindex hnet hc haccepts
    have hadvanced := (hextends.advanced hstands₀.spendable).of_sameLedger htwin.ledger
    have hheight : c.height = older.length + 1 := by
      rw [Chain.height_of_parent? hparent, hstands₀.height]
    obtain ⟨parent, db, -, hrewind, hledger, hrecords⟩ :=
      hadvanced.rewind (hstands₀.undo c.height (.inr (by omega)))
    obtain ⟨hbacked, hfound⟩ : Backed { e with store := db } ∧ _ :=
      htwin.faithful'.records.congr rfl rfl hrecords
    refine ⟨_, _, Engine.rewind_ok hrewind, holder, r₀, hreplay₀, ?_⟩
    refine ⟨⟨htwin.network.trans hextends.network, htwin.stakes.trans hextends.stakes⟩, hledger,
      hstands₀.faithful, ⟨hbacked, htwin.faithful'.deployments⟩, fun x hx => ?_⟩
    -- The records below the block are those of the twin, which has not changed them since.
    rw [← Chain.lower_of_parent? hparent] at hx
    have hbelow : x ∈ c.ancestors := by
      rw [Chain.ancestors_eq_cons]
      exact List.mem_cons_of_mem _ hx
    rw [hfound, htwin.records x hbelow, hextends.records _ (hindex.digest_ne_of_mem_lower hc hx)]

/-- Nothing can be taken back from an engine that has connected nothing. -/
theorem Settled.rewind_nil (h : Settled net index [] e) : ∃ f, Engine.rewind e = .error f e := by
  have hstands := h.stands hindex hnet
  have htip : e.store.tip = some ⟨net.genesisDigest, 0⟩ := hstands.tip
  refine ⟨.missingUndo 0, Engine.rewind_error ?_⟩
  unfold MemoryStore.rewind
  simp only [htip, hstands.undo 0 (.inl rfl)]

/-- Flushing can be seen by no rule. -/
theorem Settled.flush (h : Settled net index blocks e) :
    Settled net index blocks (endState (Engine.flush e)) := by
  have hstands := h.stands hindex hnet
  obtain ⟨e', hflush, hsame, hdeployments, -⟩ := hstands.faithful.records.flushStakes true
  have hrun : Engine.flush e = .ok () e' := hflush
  rw [hrun]
  refine h.of_sameRecords hsame ?_
  rw [endState_ok, hdeployments, hsame.network]
  exact hstands.faithful.deployments

/-- Nor can loading. -/
theorem Settled.loadStakes (h : Settled net index blocks e) (c : Chain) :
    Settled net index blocks (endState (Engine.loadStakes c e)) := by
  have hstands := h.stands hindex hnet
  obtain ⟨hsame, hdeployments⟩ := hstands.faithful.records.loadStakes c
  refine h.of_sameRecords hsame ?_
  rw [hdeployments, hsame.network]
  exact hstands.faithful.deployments

/-- Nor can a restart. -/
theorem Settled.restart (h : Settled net index blocks e) : Settled net index blocks e.restart := by
  have hstands := h.stands hindex hnet
  obtain ⟨e', hflush, hsame, -, hwritten⟩ := hstands.faithful.records.flushStakes true
  have hstakes : e'.stakes.isSome = e'.network.params.isProofOfStake := by
    rw [hsame.stakes, hstands.stakes, hsame.network, hstands.network]
  have hrestart : e.restart = ofStore e'.network e'.store := by
    have hrun : Engine.flush e = .ok () e' := hflush
    rw [Engine.restart, hrun, hsame.network]
    rfl
  obtain ⟨r, hreplay, htwin⟩ := h.replay
  refine ⟨h.known, r, hreplay, ?_⟩
  rw [hrestart]
  have hreopened := hsame.backed.reopened (hwritten rfl) hstakes
  have hall : SameRecords e (ofStore e'.network e'.store) :=
    ⟨hsame.toSameKind.trans hreopened.toSameKind, hsame.ledger.trans hreopened.ledger,
      hreopened.backed, fun d => (hreopened.records d).trans (hsame.records d)⟩
  exact htwin.of_sameRecords hall (DeploymentCache.agrees_empty _ _)

end

end Engine

/-! ## Events -/

/-- What an engine can go through: a request, or its end, after which a new engine takes over its
database. -/
inductive Event where
  | request (r : Request)
  | restart

namespace Event

/-- The blocks that an event asks to validate. -/
def blocks : Event → List (Chain × Block)
  | .request r => r.blocks
  | .restart => []

/-- The time at which an event asks to validate blocks. -/
def clock? : Event → Option UInt32
  | .request r => r.clock?
  | .restart => none

/-- The headers of the blocks are in the index. -/
def Within (index : ChainIndex) (ev : Event) : Prop := ∀ cb ∈ ev.blocks, cb.1 ∈ index

end Event

namespace Session

def handle (s : Session) : Event → Session
  | .request r => s.perform r
  | .restart => { s with engine := s.engine.restart }

/-- The session after a sequence of events. -/
def history (net : Network) (events : List Event) : Session := events.foldl handle (start net)

variable {net : Network} {index : ChainIndex} {s : Session}

theorem history_concat (net : Network) (events : List Event) (ev : Event) :
    history net (events ++ [ev]) = (history net events).handle ev := by
  rw [history, List.foldl_append]
  rfl

/-- What holds at the start and is kept by every event holds after all of them. -/
theorem history_induction {I : Session → Prop} {events : List Event} (hstart : I (start net))
    (hstep : ∀ ev ∈ events, ∀ s, I s → I (s.handle ev)) : I (history net events) :=
  List.foldlRecOn events handle hstart fun s hs ev hev => hstep ev hev s hs

/-- A new engine on the database holds what the old one held. -/
theorem inv_restart {P : Chain × Block → Prop} (hs : s.Inv net P) :
    (s.handle .restart).Inv net P := by
  obtain ⟨blocks, hs, hblocks⟩ := hs
  obtain ⟨e, hflush, -, hledger⟩ := Engine.flushStakes_memory true s.engine
  have hrun : Engine.flush s.engine = .ok () e := hflush
  have hrestart : s.engine.restart = Engine.ofStore net e.store := by
    rw [Engine.restart, hrun, hs.network]
    rfl
  refine ⟨blocks, ⟨?_, ?_, ?_, hs.valid, hs.connected, hs.stuck⟩, hblocks⟩
  · rw [handle, hrestart]
    rfl
  · rw [handle, hrestart]
    exact Engine.isSome_stakes_ofStore net e.store
  · rw [handle, hrestart]
    exact hs.holds.of_sameLedger hledger

/-- Whatever an engine goes through, its database holds the ledger of blocks that it was asked to
validate. -/
theorem inv_history (hnet : Engine.BuiltIn net) {P : Chain × Block → Prop} {events : List Event}
    (h : ∀ ev ∈ events, ∀ cb ∈ ev.blocks, P cb) : (history net events).Inv net P := by
  refine history_induction (inv_start net P) fun ev hev s hs => ?_
  cases ev with
  | request r => exact inv_perform hnet (h _ hev) hs
  | restart => exact inv_restart hs

/-- The engine of the session is settled on the connected blocks. -/
def Settled (net : Network) (index : ChainIndex) (s : Session) : Prop :=
  Engine.Settled net index s.connected s.engine

section

variable (hindex : ChainIndex.Grown net.genesis.header index) (hnet : net.Sound)

include hindex hnet

theorem settled_validateBlock (now : UInt32) {c : Chain} (hc : c ∈ index) (b : Block) :
    Preserves (Settled net index) (validateBlock now c b) := by
  intro s hs
  cases hrun : Engine.validateBlock now c b s.engine with
  | ok u e =>
    rw [validateBlock_of_ok hrun]
    exact (Engine.Settled.accept hindex hnet hs hc hrun).2
  | error f e =>
    rw [validateBlock_of_error hrun]
    exact Engine.Settled.refuse hindex hnet hs hc hrun

theorem settled_rewind : Preserves (Settled net index) rewind := by
  rintro ⟨e, connected⟩ hs
  cases connected with
  | nil =>
    obtain ⟨f, hrun⟩ := Engine.Settled.rewind_nil hindex hnet hs
    rw [rewind_of_error hrun]
    exact hs
  | cons cb older =>
    obtain ⟨t, e', hrun, hsettled⟩ := Engine.Settled.rewind hindex hnet hs
    rw [rewind_of_ok hrun]
    exact hsettled

theorem settled_flush : Preserves (Settled net index) (onEngine Engine.flush) := by
  intro s hs
  rw [endState_onEngine]
  exact Engine.Settled.flush hindex hnet hs

theorem settled_loadStakes (c : Chain) :
    Preserves (Settled net index) (onEngine (Engine.loadStakes c)) := by
  intro s hs
  rw [endState_onEngine]
  exact Engine.Settled.loadStakes hindex hnet hs c

/-- What every operation of a settled session keeps, a request keeps. -/
theorem perform_of_settled {Q : Session → Prop} {r : Request} (hr : ∀ cb ∈ r.blocks, cb.1 ∈ index)
    (hvalidate : ∀ now, r.clock? = some now → ∀ cb ∈ r.blocks, ∀ s : Session,
      s.Settled net index → Q s → Q (endState (validateBlock now cb.1 cb.2 s)))
    (hrewind : ∀ s : Session, s.Settled net index → Q s → Q (endState (rewind s)))
    (hflush : ∀ s : Session, Q s → Q (endState (onEngine Engine.flush s)))
    (hload : ∀ c, ∀ s : Session, Q s → Q (endState (onEngine (Engine.loadStakes c) s)))
    (hs : s.Settled net index) (hkept : Q s) : Q (s.perform r) := by
  let I (s : Session) : Prop := s.Settled net index ∧ Q s
  have hstart : I s := ⟨hs, hkept⟩
  refine (preserves_perform (I := I) ?_ ?_ ?_ ?_ hstart).2
  · intro now hnow cb hcb s hs
    exact ⟨settled_validateBlock hindex hnet now (hr cb hcb) cb.2 s hs.1,
      hvalidate now hnow cb hcb s hs.1 hs.2⟩
  · exact fun s hs => ⟨settled_rewind hindex hnet s hs.1, hrewind s hs.1 hs.2⟩
  · exact fun s hs => ⟨settled_flush hindex hnet s hs.1, hflush s hs.2⟩
  · exact fun c s hs => ⟨settled_loadStakes hindex hnet c s hs.1, hload c s hs.2⟩

/-- What holds of the connected blocks, and of every block that a request connects, holds of the
connected blocks after the request. -/
theorem forall_connected_perform {P : Chain × Block → Prop} {r : Request}
    (hr : ∀ cb ∈ r.blocks, cb.1 ∈ index)
    (haccept : ∀ now, r.clock? = some now → ∀ cb ∈ r.blocks, ∀ s : Session, ∀ e,
      s.Settled net index → Engine.validateBlock now cb.1 cb.2 s.engine = .ok () e → P cb)
    (hs : s.Settled net index) (hconnected : ∀ cb ∈ s.connected, P cb) :
    ∀ cb ∈ (s.perform r).connected, P cb := by
  refine perform_of_settled hindex hnet (Q := fun s => ∀ cb ∈ s.connected, P cb) hr ?_ ?_ ?_ ?_ hs
    hconnected
  · intro now hnow cb hcb s hs hconnected
    cases hrun : Engine.validateBlock now cb.1 cb.2 s.engine with
    | ok u e =>
      rw [validateBlock_of_ok hrun]
      exact List.forall_mem_cons.2 ⟨haccept now hnow cb hcb s e hs hrun, hconnected⟩
    | error f e =>
      rw [validateBlock_of_error hrun]
      exact hconnected
  · intro s _ hconnected
    cases hrun : Engine.rewind s.engine with
    | ok t e =>
      rw [rewind_of_ok hrun]
      exact fun cb hcb => hconnected cb (List.mem_of_mem_tail hcb)
    | error f e =>
      rw [rewind_of_error hrun]
      exact hconnected
  · intro s hconnected
    rw [endState_onEngine]
    exact hconnected
  · intro c s hconnected
    rw [endState_onEngine]
    exact hconnected

theorem settled_handle {ev : Event} (hev : ev.Within index) (hs : s.Settled net index) :
    (s.handle ev).Settled net index := by
  cases ev with
  | request r =>
    exact preserves_perform
      (fun now _ cb hcb => settled_validateBlock hindex hnet now (hev cb hcb) cb.2)
      (settled_rewind hindex hnet) (settled_flush hindex hnet) (settled_loadStakes hindex hnet) hs
  | restart => exact Engine.Settled.restart hindex hnet hs

/-- Whatever an engine goes through, it is settled on the blocks that are connected. -/
theorem settled_history {events : List Event} (hevents : ∀ ev ∈ events, ev.Within index) :
    (history net events).Settled net index :=
  history_induction (Engine.settled_opened hindex) fun ev hev _ hs =>
    settled_handle hindex hnet (hevents ev hev) hs

end

/-! ## Verdicts -/

/-- Two engines of a network with the same connected blocks, whatever else they have gone through,
give the same verdict on a block that extends the tip, with the same error if they refuse it, and
have the same tip, coins and undo records afterwards. -/
theorem verdict_of_connected (hnet : net.Sound) {index' : ChainIndex}
    (hindex : ChainIndex.Grown net.genesis.header index)
    (hindex' : ChainIndex.Grown net.genesis.header index') {events events' : List Event}
    (hevents : ∀ ev ∈ events, ev.Within index) (hevents' : ∀ ev ∈ events', ev.Within index')
    (hconnected : (history net events').connected = (history net events).connected) {c : Chain}
    (hc : c ∈ index) (hc' : c ∈ index')
    (htip : (history net events).engine.store.tip.map Tip.digest = c.parent?.map Chain.digest)
    (now : UInt32) (b : Block) :
    Alike (fun e e' => SameLedger e.store e'.store)
      (Engine.validateBlock now c b (history net events).engine)
      (Engine.validateBlock now c b (history net events').engine) := by
  have hs := settled_history hindex hnet hevents
  have hs' := settled_history hindex' hnet hevents'
  have hstands := hs.stands hindex hnet
  obtain ⟨r, hreplay, htwin⟩ := hs.replay
  obtain ⟨r', hreplay', htwin'⟩ := hs'.replay
  -- Both engines are twins of the one that has done nothing but accept the blocks.
  rw [hconnected] at hreplay' htwin'
  have hsame := hreplay.unique hindex hnet hs.known hreplay'
  subst hsame
  have hnetwork := (hreplay.stands hindex hnet hs.known).network
  rw [← Chain.lower_of_parent? (hstands.parent_of_tip hindex hc htip)] at htwin htwin'
  exact (htwin.validateBlock hindex hc hnetwork hnet.ordered now b).alike
    (htwin'.validateBlock hindex' hc' hnetwork hnet.ordered now b)

end Session

/-! ## A block that has been taken back -/

namespace Regtest

set_option maxRecDepth 10000

/-- Another block on top of the genesis. -/
def rival : Block :=
  Block.withMerkleRoot
    ⟨⟨1, Network.regtest.genesisDigest, Digest.zero, 1296689203, ⟨0x207fffff⟩, 0⟩, [coinbase], []⟩

def rivalChain : Chain := .extend rival.header Network.regtest.genesisChain

/-- The rival is accepted and taken back, the block is refused for its time, and the engine is
restarted. -/
def detour : List Event :=
  [.request (.validate 2000000000 rivalChain rival), .request .rewind,
    .request (.validate 0 chain block), .restart]

theorem forall_blocks_detour {P : Chain × Block → Prop} (hrival : P (rivalChain, rival))
    (hblock : P (chain, block)) : ∀ ev ∈ detour, ∀ cb ∈ ev.blocks, P cb := by
  intro ev hev cb hcb
  simp only [detour, List.mem_cons, List.not_mem_nil, or_false] at hev
  rcases hev with rfl | rfl | rfl | rfl
  · rw [List.mem_singleton.1 hcb]
    exact hrival
  · cases hcb
  · rw [List.mem_singleton.1 hcb]
    exact hblock
  · cases hcb

theorem connected_detour : (Session.history Network.regtest detour).connected = [] :=
  List.eq_nil_of_length_eq_zero (by decide +kernel)

/-- An index that the genesis grows into has both blocks. -/
theorem exists_index : ∃ index, ChainIndex.Grown Network.regtest.genesis.header index
    ∧ chain ∈ index ∧ rivalChain ∈ index := by
  have hdigests : Network.regtest.genesis.header.digest ≠ block.header.digest
      ∧ Network.regtest.genesis.header.digest ≠ rival.header.digest
      ∧ block.header.digest ≠ rival.header.digest := by decide +kernel
  obtain ⟨hblock, hrival, hdistinct⟩ := hdigests
  have hnew {d : Digest} (hne : Network.regtest.genesis.header.digest ≠ d) :
      (ChainIndex.ofGenesis Network.regtest.genesis.header).find? d = none := by
    rw [ChainIndex.find?, ChainIndex.ofGenesis, Table.getElem?_insert]
    refine (if_neg hne).trans ?_
    simp
  obtain ⟨index₁, hgrown₁, hchain₁, hkept₁, hsame₁⟩ := ChainIndex.Grown.genesis.exists_extend
    (ChainIndex.Grown.genesis).genesis_mem rfl (hnew hblock)
  obtain ⟨index₂, hgrown₂, hrival₂, hkept₂, -⟩ := hgrown₁.exists_extend
    (hkept₁ _ (ChainIndex.Grown.genesis).genesis_mem) rfl
    ((hsame₁ _ hdistinct).trans (hnew hrival))
  exact ⟨index₂, hgrown₂, hkept₂ _ hchain₁, hrival₂⟩

/-- After the detour the block gets the verdict that a new engine gives. -/
theorem verdict_of_connected_detour : Network.regtest.Sound
    ∧ (Session.history Network.regtest detour).connected
      = (Session.history Network.regtest []).connected
    ∧ Alike (fun e e' => SameLedger e.store e'.store)
      (Engine.validateBlock 2000000000 chain block (Session.history Network.regtest []).engine)
      (Engine.validateBlock 2000000000 chain block
        (Session.history Network.regtest detour).engine) := by
  obtain ⟨index, hindex, hchain, hrival⟩ := exists_index
  have hsound : Network.regtest.Sound := Network.sound_of_coherent (.inr ⟨rfl, rfl⟩)
  refine ⟨hsound, connected_detour, ?_⟩
  exact Session.verdict_of_connected hsound hindex hindex (fun _ h => absurd h List.not_mem_nil)
    (forall_blocks_detour hrival hchain) connected_detour hchain hchain rfl 2000000000 block

end Regtest

end Chainstate
