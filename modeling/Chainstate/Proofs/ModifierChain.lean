-- SUMMARY: The stake records of connected blocks: each follows the one below, few are unwritten.
import Chainstate.Proofs.Reorganization
import Chainstate.Proofs.Uniqueness
import Mathlib.Data.List.Perm.Basic

/-!
# The chain of stake modifiers

The record of an accepted block follows that of its parent (`StakeRecord.Follows`): its modifier
mixes the parent's modifier, and its kernel is one under that modifier, on a coin that the blocks
below have left unspent. An engine that has only accepted blocks finds such a record of each of them
(`Engine.Replay.records_follow`), and so does every engine with the same connected blocks.

Each operation that leaves a record unwritten ends with a flush, so fewer records than the threshold
are ever missing from the database (`Engine.FewUnwritten`).
-/

namespace Chainstate

/-! ## One block -/

namespace Engine

variable {net : Network} {index : ChainIndex} {blocks : List (Chain × Block)}
  {e e' r : Engine MemoryStore} {now : UInt32} {c : Chain} {b : Block}

/-- The record of an accepted block follows the one that the engine found of its parent. -/
theorem follows_of_validateBlock (hrules : e.network.rules = RuleSet.stake)
    (hordered : e.network.rules.Ordered) (hbacked : e.Backed)
    (hc : c.parent? ≠ none → c.digest ≠ e.network.genesisDigest)
    (hdb : e.store.coinTable.All fun coin => coin.isPrunable = false)
    (h : validateBlock now c b e = .ok () e') :
    ∃ parent previous record, c.parent? = some parent
      ∧ e.record? parent.digest = some previous ∧ e'.record? c.digest = some record
      ∧ previous.Follows e.store.coinTable c b record := by
  obtain ⟨a, e₂, e₃, hquiet, hattempt, hdone, hremembered⟩ := committed_of_validateBlock hordered h
  obtain ⟨hpassed, -⟩ := attempt_ok hattempt
  rw [hrules] at hpassed
  rw [← hquiet.store] at hdb
  obtain ⟨-, -, -, -, -, -, parent, cache, previous, record, hparent, hcache, hprevious, hrecord,
    hfollows⟩ := Attempt.runRules_stake_ok rfl hdb hpassed
  -- The rules have seen the records of `e`, and what they have made is what is found of the block.
  have hstakes : e.stakes = some cache := hquiet.stakes.symm.trans hcache
  obtain ⟨hbacked₃, -⟩ := hdone.congr hquiet hbacked
  have hc₃ : c.digest ≠ e₃.network.genesisDigest := by
    rw [hdone.network, hquiet.network]
    exact hc hdone.parent
  obtain ⟨-, -, -, -, hrecords⟩ := hbacked₃.recordStake hc₃ hremembered
  have hsome : e₃.stakes.isSome := by rw [hdone.stakes, hquiet.stakes, hstakes]; rfl
  refine ⟨parent, previous, record, hparent, ?_, ?_, ?_⟩
  · rw [record?_of_stakes hstakes, ← hquiet.store]
    change cache.get e₂.store parent.digest = _ at hprevious
    rw [StakeCache.get_memory, Except.ok.injEq] at hprevious
    exact hprevious
  · rw [hrecords, if_pos ⟨hsome, rfl⟩]
    exact hrecord
  · rw [← hquiet.store]
    exact hfollows

/-! ## Accepted blocks -/

/-- The database of an engine that has only accepted blocks holds their ledger. -/
theorem Replay.holds (hnet : BuiltIn net) (h : Replay net blocks e) :
    e.network = net ∧ Ledger.Holds net blocks e.store := by
  induction h with
  | opened =>
    refine ⟨rfl, rfl, rfl, fun height => ?_⟩
    change (∅ : Table Nat UndoRecord)[height]? = none
    simp
  | @accept blocks e e' now c b _ hrun ih =>
    obtain ⟨hnetwork, hholds⟩ := ih
    subst hnetwork
    obtain ⟨hkind, hok, -⟩ :=
      validateBlock_outcome now c b hnet (Ledger.coins_spendable hholds.coins)
    rw [hrun, endState_ok] at hkind
    exact ⟨hkind.network, Ledger.holds_of_admitted hholds (hok e' hrun).1⟩

/-- The records that an engine finds of its blocks and of those below them: each follows the one
below, on the coins of the ledger below. -/
def RecordsFollow (net : Network) (blocks : List (Chain × Block)) (e : Engine MemoryStore) : Prop :=
  ∀ newer c b older, blocks = newer ++ (c, b) :: older →
    ∃ t previous record, Ledger.coins net older = some t
      ∧ e.record? (net.top older).digest = some previous ∧ e.record? c.digest = some record
      ∧ previous.Follows t c b record

section

variable (hindex : ChainIndex.Grown net.genesis.header index) (hnet : net.Sound)

include hindex hnet

/-- Connected blocks and the blocks below them lie below the newest. -/
theorem Replay.mem_ancestors {newer older : List (Chain × Block)}
    (h : Replay net (newer ++ (c, b) :: older) r)
    (hknown : ∀ cb ∈ newer ++ (c, b) :: older, cb.1 ∈ index) :
    c ∈ (net.top (newer ++ (c, b) :: older)).ancestors
      ∧ net.top older ∈ (net.top (newer ++ (c, b) :: older)).ancestors := by
  have hsplit : newer ++ (c, b) :: older = (newer ++ [(c, b)]) ++ older := by simp
  refine ⟨(h.linked hindex hnet hknown).2, ?_⟩
  rw [hsplit] at h hknown ⊢
  exact (h.linked hindex hnet hknown).2

theorem Replay.records_follow (hrules : net.rules = RuleSet.stake) (h : Replay net blocks e)
    (hknown : ∀ cb ∈ blocks, cb.1 ∈ index) : RecordsFollow net blocks e := by
  induction h with
  | opened =>
    intro newer c b older heq
    exact absurd heq (by simp)
  | @accept blocks e e' now c b hreplay hrun ih =>
    obtain ⟨hc, hbelow⟩ := List.forall_mem_cons.1 hknown
    have hstands := hreplay.stands hindex hnet hbelow
    obtain ⟨hparent, hextends, -⟩ := hstands.accept hindex hnet hc hrun
    have hkept : ∀ x ∈ (net.top blocks).ancestors, e'.record? x.digest = e.record? x.digest := by
      intro x hx
      rw [← Chain.lower_of_parent? hparent] at hx
      exact hextends.records _ (hindex.digest_ne_of_mem_lower hc hx)
    intro newer c' b' older heq
    cases newer with
    | nil =>
      cases heq
      obtain ⟨-, hholds⟩ := hreplay.holds (.inr hrules)
      have hfresh : c.parent? ≠ none → c.digest ≠ e.network.genesisDigest := by
        intro _
        rw [hstands.network]
        exact hindex.digest_ne_genesis hc hparent
      obtain ⟨parent, previous, record, hparent', hprevious, hrecord, hfollows⟩ :=
        follows_of_validateBlock (by rw [hstands.network]; exact hrules)
          (by rw [hstands.network]; exact hnet.ordered) hstands.faithful.records hfresh
          hstands.spendable hrun
      rw [hparent, Option.some.injEq] at hparent'
      subst hparent'
      refine ⟨_, previous, record, hholds.coins, ?_, hrecord, hfollows⟩
      rw [hkept _ (Chain.self_mem_ancestors _)]
      exact hprevious
    | cons cb newer =>
      cases heq
      obtain ⟨t, previous, record, ht, hprevious, hrecord, hfollows⟩ :=
        ih hbelow newer c' b' older rfl
      obtain ⟨hmem, hmem'⟩ := hreplay.mem_ancestors hindex hnet hbelow
      exact ⟨t, previous, record, ht, (hkept _ hmem').trans hprevious, (hkept _ hmem).trans hrecord,
        hfollows⟩

/-- Every engine with the same connected blocks finds the same records. -/
theorem Settled.records_follow (hrules : net.rules = RuleSet.stake)
    (h : Settled net index blocks e) : RecordsFollow net blocks e := by
  obtain ⟨r, hreplay, htwin⟩ := h.replay
  intro newer c b older heq
  have hknown := h.known
  subst heq
  obtain ⟨t, previous, record, ht, hprevious, hrecord, hfollows⟩ :=
    hreplay.records_follow hindex hnet hrules hknown newer c b older rfl
  obtain ⟨hmem, hmem'⟩ := hreplay.mem_ancestors hindex hnet hknown
  exact ⟨t, previous, record, ht, (htwin.records _ hmem').trans hprevious,
    (htwin.records _ hmem).trans hrecord, hfollows⟩

/-- No two connected blocks have one digest, and none has that of the genesis. -/
theorem Replay.nodup_digests (h : Replay net blocks r) (hknown : ∀ cb ∈ blocks, cb.1 ∈ index) :
    (blocks.map fun cb => cb.1.digest).Nodup
      ∧ ∀ cb ∈ blocks, cb.1.digest ≠ net.genesisDigest := by
  induction h with
  | opened => exact ⟨List.nodup_nil, fun _ hcb => absurd hcb List.not_mem_nil⟩
  | @accept blocks e e' now c b hreplay hrun ih =>
    obtain ⟨hc, hbelow⟩ := List.forall_mem_cons.1 hknown
    obtain ⟨hnodup, hgenesis⟩ := ih hbelow
    obtain ⟨hparent, -, -⟩ := (hreplay.stands hindex hnet hbelow).accept hindex hnet hc hrun
    refine ⟨List.nodup_cons.2 ⟨?_, hnodup⟩,
      List.forall_mem_cons.2 ⟨hindex.digest_ne_genesis hc hparent, hgenesis⟩⟩
    intro hmem
    obtain ⟨⟨c', b'⟩, hcb, heq⟩ := List.mem_map.1 hmem
    obtain ⟨newer, older, rfl⟩ := List.append_of_mem hcb
    obtain ⟨hancestor, -⟩ := hreplay.mem_ancestors hindex hnet hbelow
    rw [← Chain.lower_of_parent? hparent] at hancestor
    exact hindex.digest_ne_of_mem_lower hc hancestor heq.symm

end

end Engine

/-! ## Unwritten records -/

namespace StakeCache

/-- Caches with the same unwritten entries list them alike. -/
theorem unwritten_congr {cache cache' : StakeCache}
    (h : ∀ (d : Digest) (e : StakeEntry), e.stored = false →
      (cache'.entries[d]? = some e ↔ cache.entries[d]? = some e)) :
    cache'.unwritten = cache.unwritten := by
  have hsorted : ∀ cache : StakeCache,
      cache.unwritten.Pairwise fun a b => compare a.1 b.1 = .lt :=
    fun cache => cache.entries.ordered_keys_toList.sublist List.filter_sublist
  refine Table.eq_of_sorted Prod.fst (hsorted cache') (hsorted cache) ?_
  rintro ⟨d, e⟩
  rw [mem_unwritten, mem_unwritten, and_congr_left_iff]
  exact h d e

theorem unwritten_ofGenesis (genesis : Digest) : (ofGenesis genesis).unwritten = [] := by
  rw [List.eq_nil_iff_forall_not_mem]
  rintro ⟨d, e⟩ hmem
  obtain ⟨he, hunwritten⟩ := mem_unwritten.1 hmem
  rw [ofGenesis, Table.getElem?_insert] at he
  split at he
  · cases he
    cases hunwritten
  · simp at he

/-- A flush writes everything, or leaves fewer records unwritten than it tolerates. -/
theorem length_unwritten_flush {cache cache' : StakeCache} {db db' : MemoryStore} {force : Bool}
    (h : cache.flush db force = .ok (cache', db')) :
    cache'.unwritten.length < flushThreshold := by
  unfold flush at h
  simp only at h
  split at h
  · next hskip =>
    cases h
    rw [Bool.or_eq_true, Bool.and_eq_true, decide_eq_true_eq, List.isEmpty_iff] at hskip
    rcases hskip with hempty | ⟨-, hfew⟩
    · rw [hempty]
      decide
    · exact hfew
  · obtain ⟨-, -, -⟩ := check_bind_ok.1 h
    cases h
    have hempty : cache.markStored.evict.unwritten = [] := by
      rw [List.eq_nil_iff_forall_not_mem]
      rintro ⟨d, e⟩ hmem
      obtain ⟨he, hunwritten⟩ := mem_unwritten.1 hmem
      obtain ⟨e₀, -, rfl⟩ := getElem?_markStored_evict he
      cases hunwritten
    rw [hempty]
    decide

theorem unwritten_enter {cache : StakeCache} {c : Chain} (hnew : cache.entries[c.digest]? = none)
    (r : StakeRecord) : (cache.enter c r).unwritten = cache.unwritten := by
  refine unwritten_congr fun d e hunwritten => ?_
  rw [enter, Table.getElem?_insert]
  by_cases heq : c.digest = d
  · rw [if_pos heq, ← heq, hnew]
    constructor
    · rintro ⟨⟩
      cases hunwritten
    · rintro ⟨⟩
  · rw [if_neg heq]

/-- Loading enters no unwritten record. -/
theorem unwritten_loadBelow (cache : StakeCache) (db : MemoryStore) (tip : Nat) (c : Chain) :
    (endState (loadBelow db tip c cache)).unwritten = cache.unwritten := by
  induction c generalizing cache with
  | genesis header => rfl
  | extend header parent ih =>
    rw [loadBelow_extend]
    split
    · rfl
    · split
      · exact ih cache
      · next hcontains =>
        have hnew : cache.entries[header.digest]? = none := by simpa using hcontains
        cases db.stakeTable[header.digest]? with
        | none => rfl
        | some record =>
          exact (ih _).trans (unwritten_enter (c := .extend header parent) hnew record)

/-- A record that the database does not have is in the cache, unwritten. -/
theorem Backed.mem_unwritten_of_ne {cache : StakeCache} {db : MemoryStore} (h : cache.Backed db)
    {d : Digest} (hd : d ≠ cache.genesis) (hne : db.stakeTable[d]? ≠ cache.record? db d) :
    d ∈ cache.unwritten.map Prod.fst := by
  rw [record?] at hne
  cases hentry : cache.entries[d]? with
  | none =>
    rw [hentry] at hne
    exact absurd rfl hne
  | some e =>
    rw [hentry] at hne
    have hunwritten : e.stored = false := by
      rw [← Bool.not_eq_true]
      intro hstored
      exact hne (h.stored d e hentry hstored hd)
    exact List.mem_map.2 ⟨(d, e), mem_unwritten.2 ⟨hentry, hunwritten⟩, rfl⟩

theorem Backed.length_filter_le {cache : StakeCache} {db : MemoryStore} (h : cache.Backed db)
    {ds : List Digest} (hnodup : ds.Nodup) (hds : ∀ d ∈ ds, d ≠ cache.genesis) :
    (ds.filter fun d => db.stakeTable[d]? ≠ cache.record? db d).length
      ≤ cache.unwritten.length := by
  have hsub : (ds.filter fun d => db.stakeTable[d]? ≠ cache.record? db d)
      ⊆ cache.unwritten.map Prod.fst := by
    intro d hd
    obtain ⟨hmem, hne⟩ := List.mem_filter.1 hd
    exact h.mem_unwritten_of_ne (hds d hmem) (of_decide_eq_true hne)
  have hle := (List.subperm_of_subset (hnodup.filter _) hsub).length_le
  rw [List.length_map] at hle
  exact hle

end StakeCache

namespace Engine

/-- Fewer records than the cache tolerates are not in the database yet. -/
def FewUnwritten (e : Engine MemoryStore) : Prop :=
  ∀ cache, e.stakes = some cache → cache.unwritten.length < StakeCache.flushThreshold

variable {net : Network} {index : ChainIndex} {e e' : Engine MemoryStore} {c : Chain}

theorem FewUnwritten.congr (h : e.FewUnwritten) (hstakes : e'.stakes = e.stakes) :
    e'.FewUnwritten := by
  rw [FewUnwritten, hstakes]
  exact h

theorem fewUnwritten_ofStore (net : Network) (db : MemoryStore) :
    (ofStore net db).FewUnwritten := by
  intro cache hcache
  unfold ofStore at hcache
  simp only at hcache
  split at hcache
  · cases hcache
    rw [StakeCache.unwritten_ofGenesis]
    decide
  · cases hcache

theorem fewUnwritten_flushStakes (e : Engine MemoryStore) (force : Bool) :
    (endState (flushStakes force e)).FewUnwritten := by
  obtain ⟨network, store, stakes, deployments⟩ := e
  cases stakes with
  | none => exact fun _ hcache => nomatch hcache
  | some cache =>
    obtain ⟨cache', store', hflush, -⟩ := cache.flush_memory store force
    have hrun : flushStakes force ⟨network, store, some cache, deployments⟩
        = .ok () ⟨network, store', some cache', deployments⟩ := by
      unfold flushStakes
      rw [step_get_bind]
      simp only [hflush]
      rfl
    rw [hrun]
    rintro _ ⟨⟩
    exact StakeCache.length_unwritten_flush hflush

theorem FewUnwritten.loadStakes (h : e.FewUnwritten) (c : Chain) :
    (endState (loadStakes c e)).FewUnwritten := by
  obtain ⟨network, store, stakes, deployments⟩ := e
  cases stakes with
  | none => exact h
  | some cache =>
    have hload := StakeCache.unwritten_loadBelow cache store c.height c
    have hfew := h cache rfl
    rw [← hload] at hfew
    unfold Engine.loadStakes StakeCache.load
    simp only
    cases hrun : StakeCache.loadBelow store c.height c cache with
    | ok u cache' =>
      rw [hrun] at hfew
      rintro _ ⟨⟩
      exact hfew
    | error f cache' =>
      rw [hrun] at hfew
      rintro _ ⟨⟩
      exact hfew

/-- The record of an accepted block is remembered with a flush. -/
theorem FewUnwritten.recordStake {record : Option StakeRecord} (h : e.FewUnwritten)
    (hrun : recordStake c record e = .ok () e') : e'.FewUnwritten := by
  obtain ⟨network, store, stakes, deployments⟩ := e
  cases stakes with
  | none =>
    cases hrun
    exact h
  | some cache =>
    cases record with
    | none => cases hrun
    | some record =>
      change (flushStakes false).adaptExcept Failure.fault
        ⟨network, store, some (cache.set c record), deployments⟩ = _ at hrun
      rw [step_adaptExcept_ok] at hrun
      have hfew := fewUnwritten_flushStakes ⟨network, store, some (cache.set c record), deployments⟩
        false
      rw [hrun] at hfew
      exact hfew

/-- A validation of a settled engine leaves few records unwritten. -/
theorem FewUnwritten.validateBlock (hindex : ChainIndex.Grown net.genesis.header index)
    (hnet : net.Sound) {blocks : List (Chain × Block)} (hs : Settled net index blocks e)
    (h : e.FewUnwritten) (now : UInt32) (c : Chain) (b : Block) :
    (endState (validateBlock now c b e)).FewUnwritten := by
  have hstands := hs.stands hindex hnet
  have hordered : e.network.rules.Ordered := by
    rw [hstands.network]
    exact hnet.ordered
  cases hrun : Engine.validateBlock now c b e with
  | ok u e' =>
    obtain ⟨a, e₂, e₃, hquiet, -, hdone, hremembered⟩ := committed_of_validateBlock hordered hrun
    exact (h.congr (hdone.stakes.trans hquiet.stakes)).recordStake hremembered
  | error f e' =>
    exact h.congr (quiet_of_validateBlock_error hordered (hstands.makesRecords hnet) hrun).stakes

end Engine

namespace Session

variable {net : Network} {index : ChainIndex} {s : Session}

section

variable (hindex : ChainIndex.Grown net.genesis.header index) (hnet : net.Sound)

include hindex hnet

/-- Every event leaves few records unwritten. -/
theorem fewUnwritten_handle {ev : Event} (hev : ev.Within index) (hs : s.Settled net index)
    (hfew : s.engine.FewUnwritten) : (s.handle ev).engine.FewUnwritten := by
  cases ev with
  | restart => exact Engine.fewUnwritten_ofStore _ _
  | request r =>
    refine perform_of_settled hindex hnet (Q := fun s => s.engine.FewUnwritten) hev ?_ ?_ ?_ ?_ hs
      hfew
    · intro now _ cb _ s hs hfew
      rw [(follows_validateBlock now cb.1 cb.2).engine_endState]
      exact Engine.FewUnwritten.validateBlock hindex hnet hs hfew now cb.1 cb.2
    · intro s _ hfew
      cases hrun : MemoryStore.rewind s.engine.store with
      | ok out =>
        rw [rewind_of_ok (Engine.rewind_ok hrun)]
        exact hfew
      | error f =>
        rw [rewind_of_error (Engine.rewind_error hrun)]
        exact hfew
    · intro s _
      rw [endState_onEngine]
      exact Engine.fewUnwritten_flushStakes s.engine true
    · intro c s hfew
      rw [endState_onEngine]
      exact hfew.loadStakes c

theorem fewUnwritten_history {events : List Event} (hevents : ∀ ev ∈ events, ev.Within index) :
    (history net events).engine.FewUnwritten := by
  have hboth : (history net events).Settled net index ∧ (history net events).engine.FewUnwritten :=
    history_induction (I := fun s => s.Settled net index ∧ s.engine.FewUnwritten)
      ⟨Engine.settled_opened hindex, Engine.fewUnwritten_ofStore net _⟩ fun ev hev s hs =>
      ⟨settled_handle hindex hnet (hevents ev hev) hs.1,
        fewUnwritten_handle hindex hnet (hevents ev hev) hs.1 hs.2⟩
  exact hboth.2

end

end Session

/-! ## Connected blocks -/

/-- What a cache and the database under it know of connected blocks, of which the newest comes
first. The genesis has the initial record, the record of each block follows that of the block below
it, and fewer than five hundred of these records are not in the database. -/
structure StakeCache.Knows (net : Network) (blocks : List (Chain × Block)) (cache : StakeCache)
    (db : MemoryStore) : Prop where
  genesis : cache.get db net.genesisDigest = .ok (some StakeRecord.initial)
  follows : ∀ newer c b older, blocks = newer ++ (c, b) :: older → ∃ t previous record,
    Ledger.coins net older = some t
      ∧ cache.get db (net.top older).digest = .ok (some previous)
      ∧ cache.get db c.digest = .ok (some record)
      ∧ previous.Follows t c b record
  unwritten : ((blocks.map fun cb => cb.1.digest).filter fun d =>
    db.stakeTable[d]? ≠ cache.record? db d).length < 500

namespace Engine

variable {net : Network} {index : ChainIndex} {blocks : List (Chain × Block)}
  {e : Engine MemoryStore}

section

variable (hindex : ChainIndex.Grown net.genesis.header index) (hnet : net.Sound)

include hindex hnet

/-- The cache of a settled engine knows the records of its blocks. -/
theorem Settled.knows (hrules : net.rules = RuleSet.stake) (h : Settled net index blocks e)
    (hfew : e.FewUnwritten) {cache : StakeCache} (hcache : e.stakes = some cache) :
    cache.Knows net blocks e.store := by
  have hstands := h.stands hindex hnet
  obtain ⟨hgenesis, hbacked⟩ := hstands.faithful.records cache hcache
  rw [hstands.network] at hgenesis
  have hget : ∀ d, cache.get e.store d = .ok (e.record? d) := by
    intro d
    rw [StakeCache.get_memory, record?_of_stakes hcache]
  refine ⟨?_, ?_, ?_⟩
  · rw [StakeCache.get_memory, ← hgenesis, hbacked.record?_genesis]
  · intro newer c b older heq
    obtain ⟨t, previous, record, ht, hprevious, hrecord, hfollows⟩ :=
      h.records_follow hindex hnet hrules newer c b older heq
    refine ⟨t, previous, record, ht, ?_, ?_, hfollows⟩
    · rw [hget, hprevious]
    · rw [hget, hrecord]
  · obtain ⟨r, hreplay, -⟩ := h.replay
    obtain ⟨hnodup, hother⟩ := hreplay.nodup_digests hindex hnet h.known
    refine Nat.lt_of_le_of_lt (hbacked.length_filter_le hnodup fun d hd => ?_) (hfew cache hcache)
    obtain ⟨cb, hcb, rfl⟩ := List.mem_map.1 hd
    rw [hgenesis]
    exact hother cb hcb

/-- Without stake records the rules of proof of stake accept no block. -/
theorem Settled.eq_nil (hrules : net.rules = RuleSet.stake) (h : Settled net index blocks e)
    (hnone : e.stakes = none) : blocks = [] := by
  rw [List.eq_nil_iff_forall_not_mem]
  rintro ⟨c, b⟩ hcb
  obtain ⟨newer, older, heq⟩ := List.append_of_mem hcb
  obtain ⟨t, previous, record, -, -, hrecord, -⟩ :=
    h.records_follow hindex hnet hrules newer c b older heq
  rw [record?_of_none hnone] at hrecord
  cases hrecord

end

end Engine

namespace Session

variable {net : Network} {index : ChainIndex} {events : List Event}

/-- Whatever an engine of a network with the rules of proof of stake goes through, its cache knows
the records of the connected blocks. An engine that keeps no records connects no block. -/
theorem stakes_history (hindex : ChainIndex.Grown net.genesis.header index)
    (hrules : net.rules = RuleSet.stake) (hevents : ∀ ev ∈ events, ev.Within index) :
    (net.params.isProofOfStake = true → ∃ cache, (history net events).engine.stakes = some cache
      ∧ cache.Knows net (history net events).connected (history net events).engine.store)
    ∧ (net.params.isProofOfStake = false →
      (history net events).engine.stakes = none ∧ (history net events).connected = []) := by
  have hnet : net.Sound := Network.sound_of_coherent (.inl hrules)
  have hsettled := settled_history hindex hnet hevents
  have hstakes := (Engine.Settled.stands hindex hnet hsettled).stakes
  refine ⟨fun hkept => ?_, fun hkept => ?_⟩
  · rw [hkept, Option.isSome_iff_exists] at hstakes
    obtain ⟨cache, hcache⟩ := hstakes
    exact ⟨cache, hcache, Engine.Settled.knows hindex hnet hrules hsettled
      (fewUnwritten_history hindex hnet hevents) hcache⟩
  · rw [hkept, Option.isSome_eq_false_iff, Option.isNone_iff_eq_none] at hstakes
    exact ⟨hstakes, Engine.Settled.eq_nil hindex hnet hrules hsettled hstakes⟩

end Session

namespace StakeRegtest

/-- The chain of the block that stakes. -/
def stakingChain : Chain := .extend staking.header chain

/-- An index that the genesis grows into has both blocks. -/
theorem exists_index : ∃ index, ChainIndex.Grown quick.genesis.header index
    ∧ chain ∈ index ∧ stakingChain ∈ index := by
  have hancestors : stakingChain.ancestors = [stakingChain, chain, quick.genesisChain] := rfl
  have hdistinct : (stakingChain.ancestors.map Chain.digest).Nodup :=
    List.nodup_reverse.1 connected_events.2.2
  have hnamed : ∀ x ∈ stakingChain.ancestors, ∀ parent, x.parent? = some parent →
      x.header.previous = parent.digest := by
    rw [hancestors]
    rintro x hx parent hparent
    simp only [List.mem_cons, List.not_mem_nil, or_false] at hx
    rcases hx with rfl | rfl | rfl
    · cases hparent
      rfl
    · cases hparent
      rfl
    · cases hparent
  obtain ⟨genesis, index, hindex, hstaking, hroot, -⟩ := ChainIndex.exists_grown hnamed hdistinct
  rw [hancestors] at hroot
  simp only [List.mem_cons, List.not_mem_nil, or_false] at hroot
  rcases hroot with h | h | h
  · cases h
  · cases h
  · cases h
    exact ⟨index, hindex, hindex.ancestor_mem hstaking (by simp [hancestors]), hstaking⟩

/-- The new engine, which has connected the block again, knows the record of its kernel. -/
theorem stakes_history_events : quick.rules = RuleSet.stake
    ∧ (Session.history quick events).connected.map Prod.snd = [staking, source]
    ∧ ∃ cache, (Session.history quick events).engine.stakes = some cache
      ∧ cache.Knows quick (Session.history quick events).connected
        (Session.history quick events).engine.store := by
  obtain ⟨index, hindex, hchain, hstaking⟩ := exists_index
  refine ⟨rfl, connected_events.1, ?_⟩
  refine (Session.stakes_history hindex rfl ?_).1 rfl
  intro ev hev cb hcb
  simp only [events, List.mem_cons, List.not_mem_nil, or_false] at hev
  rcases hev with rfl | rfl | rfl | rfl | rfl | rfl | rfl
  · rw [List.mem_singleton.1 hcb]
    exact hchain
  · rw [List.mem_singleton.1 hcb]
    exact hstaking
  · cases hcb
  · cases hcb
  · cases hcb
  · cases hcb
  · rw [List.mem_singleton.1 hcb]
    exact hstaking

end StakeRegtest

end Chainstate
