-- SUMMARY: The cache of stake records in front of a database: what the two together hold.
import Chainstate.Proofs.Engine

/-!
# The stake cache

A lookup finds the record in the cache, or else in the database (`StakeCache.record?`). Only `set`
changes what is found. Writing batches, dropping entries, loading a chain and starting over with a
new cache move records between the two places, and none is lost, because an entry that is marked
as stored is in the database (`StakeCache.Backed`).
-/

namespace Chainstate

namespace MemoryStore

/-- Stake records stored under distinct digests are found there, and nothing else changes. -/
theorem getElem?_putStakes (db : MemoryStore) {items : List (Digest × StakeRecord)}
    (hkeys : (items.map Prod.fst).Nodup) (d : Digest) :
    (db.putStakes items).stakeTable[d]?
      = match items.find? fun i => i.1 = d with
        | some i => some i.2
        | none => db.stakeTable[d]? := by
  unfold putStakes
  simp only
  generalize db.stakeTable = t
  induction items generalizing t with
  | nil => rfl
  | cons i items ih =>
    obtain ⟨hfresh, hkeys⟩ := List.nodup_cons.1 hkeys
    rw [List.foldl_cons, ih hkeys, List.find?_cons]
    by_cases heq : i.1 = d
    · have hnone : (items.find? fun i => i.1 = d) = none := by
        rw [List.find?_eq_none]
        intro j hj hjd
        exact hfresh (List.mem_map.2 ⟨j, hj, by rw [heq]; simpa using hjd⟩)
      simp [hnone, heq]
    · simp only [heq, decide_false, Table.getElem?_insert, if_false]

end MemoryStore

namespace StakeCache

/-! ## Lookups -/

/-- The record of a block: the one in the cache, or else the one in the database. -/
def record? (cache : StakeCache) (db : MemoryStore) (d : Digest) : Option StakeRecord :=
  match cache.entries[d]? with
  | some e => some e.record
  | none => db.stakeTable[d]?

/-- A lookup never fails on a database in memory. -/
theorem get_memory (cache : StakeCache) (db : MemoryStore) (d : Digest) :
    cache.get db d = .ok (cache.record? db d) := by
  unfold get record?
  cases cache.entries[d]? with
  | some e => rfl
  | none => rfl

/-- The genesis is always in the cache, and what is marked as stored is in the database. -/
structure Backed (cache : StakeCache) (db : MemoryStore) : Prop where
  genesis : cache.entries[cache.genesis]? = some ⟨StakeRecord.initial, 0, true⟩
  stored : ∀ (d : Digest) (e : StakeEntry), cache.entries[d]? = some e → e.stored = true →
    d ≠ cache.genesis → db.stakeTable[d]? = some e.record

variable {cache : StakeCache} {db : MemoryStore}

theorem Backed.record?_genesis (h : cache.Backed db) :
    cache.record? db cache.genesis = some StakeRecord.initial := by
  rw [record?, h.genesis]

/-- Lookups and backing depend on nothing but the stored stake records. -/
theorem record?_congr {db' : MemoryStore} (h : db'.stakeTable = db.stakeTable) (d : Digest) :
    cache.record? db' d = cache.record? db d := by
  rw [record?, record?, h]

theorem Backed.congr {db' : MemoryStore} (h : cache.Backed db)
    (hstakes : db'.stakeTable = db.stakeTable) : cache.Backed db' := by
  refine ⟨h.genesis, ?_⟩
  rw [hstakes]
  exact h.stored

/-! ## New caches and new records -/

theorem backed_ofGenesis (genesis : Digest) (db : MemoryStore) : (ofGenesis genesis).Backed db := by
  refine ⟨?_, ?_⟩
  · rw [ofGenesis, Table.getElem?_insert, if_pos rfl]
  · intro d e he _ hne
    change d ≠ genesis at hne
    rw [ofGenesis, Table.getElem?_insert, if_neg (Ne.symm hne)] at he
    simp at he

/-- A new cache finds what the database holds. -/
theorem record?_ofGenesis (genesis : Digest) (db : MemoryStore) {d : Digest} (h : d ≠ genesis) :
    (ofGenesis genesis).record? db d = db.stakeTable[d]? := by
  rw [record?, ofGenesis, Table.getElem?_insert, if_neg (Ne.symm h)]
  simp

theorem record?_set (cache : StakeCache) (db : MemoryStore) (c : Chain) (r : StakeRecord)
    (d : Digest) :
    (cache.set c r).record? db d = if c.digest = d then some r else cache.record? db d := by
  rw [record?, set, Table.getElem?_insert]
  by_cases heq : c.digest = d
  · rw [if_pos heq, if_pos heq]
  · rw [if_neg heq, if_neg heq]
    rfl

theorem Backed.set (h : cache.Backed db) {c : Chain} (hc : c.digest ≠ cache.genesis)
    (r : StakeRecord) : (cache.set c r).Backed db := by
  refine ⟨?_, ?_⟩
  · change (cache.entries.insert c.digest _)[cache.genesis]? = _
    rw [Table.getElem?_insert, if_neg hc]
    exact h.genesis
  · intro d e he hstored hne
    rw [StakeCache.set, Table.getElem?_insert] at he
    split at he
    · cases he
      cases hstored
    · exact h.stored d e he hstored hne

/-! ## Flushing -/

theorem mem_unwritten {d : Digest} {e : StakeEntry} :
    (d, e) ∈ cache.unwritten ↔ cache.entries[d]? = some e ∧ e.stored = false := by
  rw [unwritten, List.mem_filter, Std.ExtTreeMap.mem_toList_iff_getElem?_eq_some]
  simp

/-- What a write stores: the records of the unwritten entries, under their digests. -/
theorem getElem?_putStakes_unwritten (cache : StakeCache) (db : MemoryStore) (d : Digest) :
    (db.putStakes (cache.unwritten.map fun e => (e.1, e.2.record))).stakeTable[d]?
      = match cache.entries[d]? with
        | some e => if e.stored then db.stakeTable[d]? else some e.record
        | none => db.stakeTable[d]? := by
  have hkeys : ((cache.unwritten.map fun e => (e.1, e.2.record)).map Prod.fst).Nodup := by
    have hall : (cache.entries.toList.map Prod.fst).Nodup := by
      rw [Std.ExtTreeMap.map_fst_toList_eq_keys]
      exact cache.entries.nodup_keys
    rw [List.map_map]
    exact hall.sublist (List.filter_sublist.map Prod.fst)
  rw [MemoryStore.getElem?_putStakes db hkeys]
  cases hfind : (cache.unwritten.map fun e => (e.1, e.2.record)).find? fun i => i.1 = d with
  | some i =>
    have hmem := List.mem_of_find?_eq_some hfind
    have hd : i.1 = d := by simpa using List.find?_some hfind
    obtain ⟨⟨d', e⟩, he, rfl⟩ := List.mem_map.1 hmem
    obtain ⟨hentry, hunwritten⟩ := mem_unwritten.1 he
    simp only at hd
    subst hd
    simp [hentry, hunwritten]
  | none =>
    cases hentry : cache.entries[d]? with
    | none => rfl
    | some e =>
      cases hstored : e.stored with
      | true => simp [hstored]
      | false =>
        rw [List.find?_eq_none] at hfind
        have hmem : (d, e.record) ∈ cache.unwritten.map fun e => (e.1, e.2.record) :=
          List.mem_map.2 ⟨(d, e), mem_unwritten.2 ⟨hentry, hstored⟩, rfl⟩
        exact absurd (by simp) (hfind _ hmem)

theorem getElem?_evict (cache : StakeCache) (d : Digest) :
    cache.evict.entries[d]? = (cache.entries[d]?).filter fun e =>
      d == cache.genesis || !e.stored || decide (cache.top ≤ e.height + window) := by
  unfold evict
  simp only
  rw [Std.ExtTreeMap.getElem?_filter']

theorem getElem?_markStored (cache : StakeCache) (d : Digest) :
    cache.markStored.entries[d]? = (cache.entries[d]?).map fun e => { e with stored := true } := by
  unfold markStored
  simp only
  rw [Std.ExtTreeMap.getElem?_map]

/-- What is left after an eviction was there before, and was kept or is stored. -/
theorem getElem?_markStored_evict {d : Digest} {e : StakeEntry}
    (h : cache.markStored.evict.entries[d]? = some e) :
    ∃ e₀, cache.entries[d]? = some e₀ ∧ e = { e₀ with stored := true } := by
  rw [getElem?_evict, Option.filter_eq_some_iff, getElem?_markStored, Option.map_eq_some_iff] at h
  obtain ⟨⟨e₀, he₀, rfl⟩, -⟩ := h
  exact ⟨e₀, he₀, rfl⟩

/-- A flush leaves every lookup as it was. A forced one leaves nothing unwritten. -/
structure Flushed (cache : StakeCache) (db : MemoryStore) (cache' : StakeCache) (db' : MemoryStore)
    (force : Bool) : Prop where
  backed : cache'.Backed db'
  genesis : cache'.genesis = cache.genesis
  records : ∀ d, cache'.record? db' d = cache.record? db d
  written : force = true → ∀ (d : Digest) (e : StakeEntry), cache'.entries[d]? = some e →
    e.stored = true

theorem Backed.flush (h : cache.Backed db) {force : Bool} {cache' : StakeCache} {db' : MemoryStore}
    (hflush : cache.flush db force = .ok (cache', db')) : Flushed cache db cache' db' force := by
  unfold StakeCache.flush at hflush
  simp only at hflush
  split at hflush
  · next hskip =>
    cases hflush
    refine ⟨h, rfl, fun _ => rfl, ?_⟩
    rintro rfl d e he
    by_contra hunwritten
    have hmem := mem_unwritten.2 ⟨he, Bool.eq_false_iff.2 hunwritten⟩
    have hempty : cache.unwritten = [] := by simpa using hskip
    rw [hempty] at hmem
    cases hmem
  · obtain ⟨-, -, heq⟩ := check_bind_ok.1 hflush
    cases hflush
    have hgenesis : cache.markStored.entries[cache.genesis]?
        = some ⟨StakeRecord.initial, 0, true⟩ := by
      rw [getElem?_markStored, h.genesis]
      rfl
    refine ⟨⟨?_, ?_⟩, rfl, ?_, ?_⟩
    · change cache.markStored.evict.entries[cache.genesis]? = _
      rw [getElem?_evict, hgenesis]
      simp [markStored]
    · intro d e he _ hne
      obtain ⟨e₀, he₀, rfl⟩ := getElem?_markStored_evict he
      rw [getElem?_putStakes_unwritten, he₀]
      simp only
      split
      · next hstored => exact h.stored d e₀ he₀ hstored hne
      · rfl
    · intro d
      rw [record?]
      cases he : cache.markStored.evict.entries[d]? with
      | some e =>
        obtain ⟨e₀, he₀, rfl⟩ := getElem?_markStored_evict he
        rw [record?, he₀]
      | none =>
        rw [getElem?_putStakes_unwritten, record?]
        cases he₀ : cache.entries[d]? with
        | none => rfl
        | some e₀ =>
          simp only
          split
          · next hstored =>
            refine h.stored d e₀ he₀ hstored ?_
            -- The genesis is not dropped.
            rintro rfl
            rw [getElem?_evict, hgenesis] at he
            simp [markStored] at he
          · rfl
    · intro _ d e he
      obtain ⟨e₀, -, rfl⟩ := getElem?_markStored_evict he
      rfl

/-- After everything has been written a new cache finds what the old one found. -/
theorem record?_ofGenesis_of_written (h : cache.Backed db)
    (hwritten : ∀ (d : Digest) (e : StakeEntry), cache.entries[d]? = some e → e.stored = true)
    (d : Digest) : (ofGenesis cache.genesis).record? db d = cache.record? db d := by
  by_cases hd : d = cache.genesis
  · subst hd
    have hnew := (backed_ofGenesis cache.genesis db).record?_genesis
    rw [h.record?_genesis]
    exact hnew
  · rw [record?_ofGenesis _ _ hd, record?]
    cases he : cache.entries[d]? with
    | none => rfl
    | some e => exact h.stored d e he (hwritten d e he) hd

/-! ## Loading -/

/-- The entry that loading a stored record makes. -/
def enter (cache : StakeCache) (c : Chain) (r : StakeRecord) : StakeCache :=
  { cache with entries := cache.entries.insert c.digest ⟨r, c.height, true⟩ }

/-- Loading goes down a chain until the window ends or a record is missing. -/
theorem loadBelow_extend (db : MemoryStore) (tip : Nat) (header : Header) (parent : Chain)
    (cache : StakeCache) :
    StakeCache.loadBelow db tip (.extend header parent) cache
      = if (Chain.extend header parent).height + window < tip then .ok () cache
        else if cache.entries.contains header.digest then loadBelow db tip parent cache
        else match db.stakeTable[header.digest]? with
          | none => .error (.missingStake header.digest) cache
          | some r => loadBelow db tip parent (cache.enter (.extend header parent) r) := by
  rw [StakeCache.loadBelow]
  by_cases hwindow : (Chain.extend header parent).height + window < tip
  · rw [if_pos hwindow, if_pos hwindow]
    rfl
  · rw [if_neg hwindow, if_neg hwindow]
    refine (step_get_bind _ cache).trans ?_
    by_cases hcontains : cache.entries.contains header.digest
    · rw [if_pos hcontains]
      exact congrFun (if_pos hcontains) cache
    · rw [if_neg hcontains]
      refine (congrFun (if_neg hcontains) cache).trans ?_
      have hstored : CoinStore.stake? db (Chain.extend header parent).digest
          = .ok db.stakeTable[header.digest]? := rfl
      cases hr : db.stakeTable[header.digest]? with
      | none =>
        rw [hstored, hr]
        rfl
      | some r =>
        rw [hstored, hr]
        rfl

/-- Entering a record of the database changes no lookup. -/
theorem Backed.enter (h : cache.Backed db) {c : Chain} {r : StakeRecord}
    (hnew : cache.entries[c.digest]? = none) (hr : db.stakeTable[c.digest]? = some r) :
    (cache.enter c r).Backed db ∧ ∀ d, (cache.enter c r).record? db d = cache.record? db d := by
  refine ⟨⟨?_, ?_⟩, ?_⟩
  · change (cache.entries.insert c.digest _)[cache.genesis]? = _
    rw [Table.getElem?_insert, if_neg]
    · exact h.genesis
    · intro heq
      rw [heq, h.genesis] at hnew
      cases hnew
  · intro d e he hstored hne
    rw [StakeCache.enter, Table.getElem?_insert] at he
    split at he
    · next heq =>
      cases he
      rw [← heq]
      exact hr
    · exact h.stored d e he hstored hne
  · intro d
    rw [record?, StakeCache.enter, Table.getElem?_insert]
    by_cases heq : c.digest = d
    · rw [if_pos heq, record?, ← heq, hnew, hr]
    · rw [if_neg heq]
      rfl

/-- Loading, whether it succeeds or fails, leaves every lookup as it was. -/
theorem Backed.load (h : cache.Backed db) (tip : Nat) (c : Chain) :
    (endState (loadBelow db tip c cache)).Backed db
      ∧ (endState (loadBelow db tip c cache)).genesis = cache.genesis
      ∧ ∀ d, (endState (loadBelow db tip c cache)).record? db d = cache.record? db d := by
  induction c generalizing cache with
  | genesis header => exact ⟨h, rfl, fun _ => rfl⟩
  | extend header parent ih =>
    rw [loadBelow_extend]
    split
    · exact ⟨h, rfl, fun _ => rfl⟩
    · split
      · exact ih h
      · next hcontains =>
        have hnew : cache.entries[header.digest]? = none := by simpa using hcontains
        cases hr : db.stakeTable[header.digest]? with
        | none => exact ⟨h, rfl, fun _ => rfl⟩
        | some r =>
          obtain ⟨hbacked, hsame⟩ := Backed.enter (c := .extend header parent) h hnew hr
          obtain ⟨hend, hgenesis, hrecords⟩ := ih hbacked
          exact ⟨hend, hgenesis, fun d => (hrecords d).trans (hsame d)⟩

end StakeCache

/-! ## Engines -/

namespace Engine

/-- The stake record that an engine finds of a block; none where it keeps no records. -/
def record? (e : Engine MemoryStore) (d : Digest) : Option StakeRecord :=
  e.stakes.bind fun cache => cache.record? e.store d

/-- The cache of an engine stands in front of its database and knows its genesis. -/
def Backed (e : Engine MemoryStore) : Prop :=
  ∀ cache, e.stakes = some cache → cache.genesis = e.network.genesisDigest ∧ cache.Backed e.store

/-- Every record of the engine is in its database. -/
def Written (e : Engine MemoryStore) : Prop :=
  ∀ cache, e.stakes = some cache → ∀ (d : Digest) (entry : StakeEntry),
    cache.entries[d]? = some entry → entry.stored = true

/-- The engine `e'` is `e` with its stake records in other places. -/
structure SameRecords (e e' : Engine MemoryStore) : Prop extends SameKind e e' where
  ledger : SameLedger e.store e'.store
  backed : e'.Backed
  records : ∀ d, e'.record? d = e.record? d

theorem record?_of_stakes {e : Engine MemoryStore} {cache : StakeCache}
    (h : e.stakes = some cache) (d : Digest) : e.record? d = cache.record? e.store d := by
  rw [record?, h]
  rfl

theorem record?_of_none {e : Engine MemoryStore} (h : e.stakes = none) (d : Digest) :
    e.record? d = none := by
  rw [record?, h]
  rfl

variable {e : Engine MemoryStore}

theorem Backed.sameRecords (h : e.Backed) : SameRecords e e :=
  ⟨SameKind.refl e, SameLedger.refl _, h, fun _ => rfl⟩

/-- A change of anything but the stake records leaves them backed, and leaves their lookups. -/
theorem Backed.congr {e' : Engine MemoryStore} (h : e.Backed) (hnetwork : e'.network = e.network)
    (hstakes : e'.stakes = e.stakes) (hrecords : e'.store.stakeTable = e.store.stakeTable) :
    e'.Backed ∧ ∀ d, e'.record? d = e.record? d := by
  refine ⟨?_, ?_⟩
  · intro cache hcache
    rw [hstakes] at hcache
    obtain ⟨hgenesis, hbacked⟩ := h cache hcache
    exact ⟨hgenesis.trans (congrArg _ hnetwork.symm), hbacked.congr hrecords⟩
  · intro d
    unfold record?
    rw [hstakes]
    congr 1
    funext cache
    exact StakeCache.record?_congr hrecords d

theorem backed_ofStore (net : Network) (db : MemoryStore) : (ofStore net db).Backed := by
  intro cache hcache
  unfold ofStore at hcache ⊢
  simp only at hcache
  split at hcache
  · cases hcache
    exact ⟨rfl, StakeCache.backed_ofGenesis _ db⟩
  · cases hcache

/-- Flushing moves records to the database. -/
theorem Backed.flushStakes (h : e.Backed) (force : Bool) :
    ∃ e', flushStakes force e = .ok () e' ∧ SameRecords e e' ∧ e'.deployments = e.deployments
      ∧ (force = true → e'.Written) := by
  obtain ⟨network, store, stakes, deployments⟩ := e
  cases stakes with
  | none => exact ⟨_, rfl, h.sameRecords, rfl, fun _ _ hcache => nomatch hcache⟩
  | some cache =>
    obtain ⟨cache', store', hflush, hledger⟩ := cache.flush_memory store force
    obtain ⟨hgenesis, hbacked⟩ := h cache rfl
    have hflushed := hbacked.flush hflush
    refine ⟨⟨network, store', some cache', deployments⟩, ?_, ⟨⟨rfl, rfl⟩, hledger, ?_, ?_⟩, rfl, ?_⟩
    · unfold Engine.flushStakes
      rw [step_get_bind]
      simp only [hflush]
      rfl
    · rintro _ ⟨⟩
      exact ⟨hflushed.genesis.trans hgenesis, hflushed.backed⟩
    · exact hflushed.records
    · rintro hforce _ ⟨⟩
      exact hflushed.written hforce

/-- Loading moves records to the cache. -/
theorem Backed.loadStakes (h : e.Backed) (c : Chain) :
    SameRecords e (endState (loadStakes c e))
      ∧ (endState (loadStakes c e)).deployments = e.deployments := by
  obtain ⟨network, store, stakes, deployments⟩ := e
  cases stakes with
  | none => exact ⟨h.sameRecords, rfl⟩
  | some cache =>
    obtain ⟨hgenesis, hbacked⟩ := h cache rfl
    have hload := hbacked.load c.height c
    have hend : endState (Engine.loadStakes c ⟨network, store, some cache, deployments⟩)
        = ⟨network, store, some (endState (StakeCache.load store c cache)), deployments⟩ := by
      unfold Engine.loadStakes
      simp only
      cases StakeCache.load store c cache with
      | ok u cache' => rfl
      | error f cache' => rfl
    rw [hend]
    refine ⟨⟨⟨rfl, rfl⟩, SameLedger.refl _, ?_, ?_⟩, rfl⟩
    · rintro _ ⟨⟩
      exact ⟨hload.2.1.trans hgenesis, hload.1⟩
    · exact hload.2.2

/-- A new engine on the database of an engine that has written everything finds the same records. -/
theorem Backed.reopened (h : e.Backed) (hwritten : e.Written)
    (hstakes : e.stakes.isSome = e.network.params.isProofOfStake) :
    SameRecords e (ofStore e.network e.store) := by
  refine ⟨⟨rfl, ?_⟩, SameLedger.refl _, backed_ofStore _ _, ?_⟩
  · rw [hstakes]
    unfold ofStore
    simp only
    cases e.network.params.isProofOfStake with
    | true => rfl
    | false => rfl
  · intro d
    cases hcache : e.stakes with
    | none =>
      rw [hcache] at hstakes
      rw [record?_of_none hcache, record?_of_none]
      unfold ofStore
      simp only [← hstakes]
      rfl
    | some cache =>
      obtain ⟨hgenesis, hbacked⟩ := h cache hcache
      rw [hcache] at hstakes
      have hnew : (ofStore e.network e.store).stakes
          = some (StakeCache.ofGenesis e.network.genesisDigest) := by
        unfold ofStore
        simp only [← hstakes]
        rfl
      rw [record?_of_stakes hcache, record?_of_stakes hnew, ← hgenesis]
      exact StakeCache.record?_ofGenesis_of_written hbacked (hwritten cache hcache) d

/-- Remembering the record of a block changes what is found of that block and of no other. -/
theorem Backed.recordStake (h : e.Backed) {c : Chain} (hc : c.digest ≠ e.network.genesisDigest)
    {record : Option StakeRecord} {e' : Engine MemoryStore}
    (hrun : recordStake c record e = .ok () e') :
    SameKind e e' ∧ SameLedger e.store e'.store ∧ e'.Backed ∧ e'.deployments = e.deployments
      ∧ ∀ d, e'.record? d = if e.stakes.isSome ∧ c.digest = d then record else e.record? d := by
  obtain ⟨network, store, stakes, deployments⟩ := e
  cases stakes with
  | none =>
    cases hrun
    exact ⟨SameKind.refl _, SameLedger.refl _, h, rfl, fun d => by simp⟩
  | some cache =>
    cases record with
    | none => cases hrun
    | some r =>
      obtain ⟨hgenesis, hbacked⟩ := h cache rfl
      have hset : Backed ⟨network, store, some (cache.set c r), deployments⟩ := by
        rintro _ ⟨⟩
        exact ⟨hgenesis, hbacked.set (by rw [hgenesis]; exact hc) r⟩
      obtain ⟨e₁, hflush, hsame, hdeployments, -⟩ := hset.flushStakes false
      change (Engine.flushStakes false).adaptExcept Failure.fault _ = _ at hrun
      rw [step_adaptExcept_ok, hflush] at hrun
      cases hrun
      refine ⟨⟨hsame.network, hsame.stakes⟩, hsame.ledger, hsame.backed, hdeployments, ?_⟩
      intro d
      have hfound := StakeCache.record?_set cache store c r d
      simp only [Option.isSome_some, true_and]
      exact (hsame.records d).trans hfound

end Engine

end Chainstate
