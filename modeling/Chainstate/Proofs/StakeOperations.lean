-- SUMMARY: Sequences of operations on the stake cache: lookups are those of a plain table.
import Chainstate.Proofs.Reachable
import Chainstate.Proofs.StakeCache
import Chainstate.Proofs.StoreRefinement

/-!
# The stake cache is transparent

Records are set, looked up, loaded and flushed in any order, while the database goes on being used
for other things. Whatever has been written or dropped by then, a lookup finds the record that was
last set for the block, or else what was known at the start: `StakeOp.perform_spec` says so of one
operation, and the rest follows by going through the sequence.
-/

namespace Chainstate

/-- A stake cache and the database that it writes to. -/
structure CachedStakes where
  cache : StakeCache
  db : MemoryStore

/-- Operations on a stake cache, and calls that others make on its database. -/
inductive StakeOp where
  | set (c : Chain) (record : StakeRecord)
  | get (block : Digest)
  | load (c : Chain)
  | flush (force : Bool)
  | elsewhere (call : StoreCall)

/-! ## Runs -/

namespace CachedStakes

/-- A new cache on a database. -/
def start (genesis : Digest) (db : MemoryStore) : CachedStakes := ⟨StakeCache.ofGenesis genesis, db⟩

def get (s : CachedStakes) (block : Digest) : Except Fault (Option StakeRecord) :=
  s.cache.get s.db block

/-- The database sees to it that an unsuccessful flush changes nothing; an unsuccessful load keeps
what it has read. -/
def perform (s : CachedStakes) : StakeOp → CachedStakes
  | .set c record => { s with cache := s.cache.set c record }
  | .get _ => s
  | .load c => { s with cache := endState (StakeCache.load s.db c s.cache) }
  | .flush force =>
    match s.cache.flush s.db force with
    | .ok (cache, db) => ⟨cache, db⟩
    | .error _ => s
  | .elsewhere call => { s with db := endState (call.perform s.db) }

def performAll (s : CachedStakes) (ops : List StakeOp) : CachedStakes := ops.foldl perform s

end CachedStakes

namespace StakeOp

/-- Records are set for other blocks than the genesis, and no one else writes stake records. -/
def Proper (genesis : Digest) : StakeOp → Prop
  | .set c _ => c.digest ≠ genesis
  | .elsewhere call => ∀ items, call ≠ .putStakes items
  | _ => True

/-- The record that an operation sets for a block. -/
def sets? (d : Digest) : StakeOp → Option StakeRecord
  | .set c record => if c.digest = d then some record else none
  | _ => none

/-- The record that is set last for a block. -/
def lastSet? (d : Digest) : List StakeOp → Option StakeRecord
  | [] => none
  | op :: ops => (lastSet? d ops).or (op.sets? d)

end StakeOp

/-- What is known of a block before anything is set: the genesis has its fixed record. -/
def MemoryStore.knownStake? (genesis : Digest) (db : MemoryStore) (d : Digest) :
    Option StakeRecord :=
  if d = genesis then some StakeRecord.initial else db.stakeTable[d]?

/-! ## One operation -/

theorem MemoryStore.stakeTable_of_rewind {db db' : MemoryStore} {t : Tip}
    (h : db.rewind = .ok (t, db')) : db'.stakeTable = db.stakeTable := by
  unfold rewind at h
  split at h
  · cases h
  · split at h
    · cases h
    · obtain ⟨_, -, h⟩ := check_bind_ok.1 h
      cases h
      rfl

/-- Only the storing of stake records changes them. -/
theorem StoreCall.stakeTable_perform {call : StoreCall} (h : ∀ items, call ≠ .putStakes items)
    (db : MemoryStore) : (endState (call.perform db)).stakeTable = db.stakeTable := by
  unfold perform
  cases hrun : call.apply db with
  | error f => rfl
  | ok out =>
    obtain ⟨a, db'⟩ := out
    change db'.stakeTable = db.stakeTable
    cases call with
    | begin genesis =>
      cases hrun
      unfold MemoryStore.begin
      split <;> rfl
    | commit changes old new record =>
      obtain ⟨db', hcommit, heq⟩ := check_bind_ok.1 hrun
      cases heq
      obtain ⟨-, -, hdb⟩ := check_bind_ok.1 hcommit
      cases hdb
      rfl
    | rewind =>
      obtain ⟨⟨t, db'⟩, hrewind, heq⟩ := check_bind_ok.1 hrun
      cases heq
      exact MemoryStore.stakeTable_of_rewind hrewind
    | putStakes items => exact absurd rfl (h items)
    | tip | fetch | undo | stake | coins | reopen =>
      cases hrun
      rfl

namespace CachedStakes

variable {s : CachedStakes}

/-- The record that is found of a block. -/
def record? (s : CachedStakes) (d : Digest) : Option StakeRecord := s.cache.record? s.db d

theorem get_eq (s : CachedStakes) (d : Digest) : s.get d = .ok (s.record? d) :=
  s.cache.get_memory s.db d

/-- An operation keeps the cache backed, and changes what is found of the blocks for which it sets a
record and of no others. -/
structure Performed (s : CachedStakes) (op : StakeOp) : Prop where
  backed : (s.perform op).cache.Backed (s.perform op).db
  genesis : (s.perform op).cache.genesis = s.cache.genesis
  records : ∀ d, (s.perform op).record? d = (op.sets? d).or (s.record? d)

theorem perform_spec (h : s.cache.Backed s.db) {op : StakeOp} (hop : op.Proper s.cache.genesis) :
    s.Performed op := by
  cases op with
  | set c record =>
    refine ⟨h.set hop record, rfl, fun d => ?_⟩
    change (s.cache.set c record).record? s.db d = _
    rw [StakeCache.record?_set, StakeOp.sets?]
    split <;> rfl
  | get block => exact ⟨h, rfl, fun _ => rfl⟩
  | load c =>
    obtain ⟨hbacked, hgenesis, hrecords⟩ := h.load c.height c
    exact ⟨hbacked, hgenesis, hrecords⟩
  | flush force =>
    obtain ⟨cache', db', hflush, -⟩ := s.cache.flush_memory s.db force
    have hflushed := h.flush hflush
    have hrun : s.perform (.flush force) = ⟨cache', db'⟩ := by simp only [perform, hflush]
    constructor
    · rw [hrun]
      exact hflushed.backed
    · rw [hrun]
      exact hflushed.genesis
    · intro d
      rw [hrun]
      exact hflushed.records d
  | elsewhere call =>
    have hstakes := StoreCall.stakeTable_perform hop s.db
    exact ⟨h.congr hstakes, rfl, fun d => StakeCache.record?_congr hstakes d⟩

/-! ## Sequences of operations -/

/-- A sequence of operations keeps the cache backed, and a lookup finds what was set last. -/
theorem performAll_spec (h : s.cache.Backed s.db) {ops : List StakeOp}
    (hops : ∀ op ∈ ops, op.Proper s.cache.genesis) :
    (s.performAll ops).cache.Backed (s.performAll ops).db ∧
      (s.performAll ops).cache.genesis = s.cache.genesis ∧
      ∀ d, (s.performAll ops).record? d = (StakeOp.lastSet? d ops).or (s.record? d) := by
  induction ops generalizing s with
  | nil => exact ⟨h, rfl, fun _ => rfl⟩
  | cons op ops ih =>
    obtain ⟨hop, hrest⟩ := List.forall_mem_cons.1 hops
    have hfirst := perform_spec h hop
    rw [← hfirst.genesis] at hrest
    obtain ⟨hbacked, hgenesis, hrecords⟩ := ih hfirst.backed hrest
    refine ⟨hbacked, hgenesis.trans hfirst.genesis, fun d => ?_⟩
    rw [StakeOp.lastSet?, Option.or_assoc, ← hfirst.records]
    exact hrecords d

/-- An entry that leaves the cache has its record in the database: the lookup still finds it, and it
can find it nowhere else. -/
theorem stored_of_dropped (h : s.cache.Backed s.db) {op : StakeOp}
    (hop : op.Proper s.cache.genesis) {d : Digest} {e : StakeEntry}
    (he : s.cache.entries[d]? = some e) (hgone : (s.perform op).cache.entries[d]? = none) :
    (s.perform op).db.stakeTable[d]? = some e.record := by
  have hafter := (perform_spec h hop).records d
  have hbefore : s.record? d = some e.record := by rw [record?, StakeCache.record?, he]
  rw [record?, StakeCache.record?, hgone, hbefore] at hafter
  -- an operation that sets a record of the block keeps its entry
  cases hset : op.sets? d with
  | none => simpa [hset] using hafter
  | some r =>
    cases op with
    | set c record =>
      have hentry : (s.perform (.set c record)).cache.entries[d]? ≠ none := by
        simp only [StakeOp.sets?] at hset
        split at hset
        · next heq => simp [perform, StakeCache.set, heq]
        · cases hset
      exact absurd hgone hentry
    | get | load | flush | elsewhere => cases hset

/-- A flush that is not forced does nothing while few records are unwritten. -/
theorem perform_flush_of_few (h : s.cache.unwritten.length < StakeCache.flushThreshold) :
    s.perform (.flush false) = s := by
  have hflush : s.cache.flush s.db false = .ok (s.cache, s.db) := by
    simp [StakeCache.flush, h]
  simp only [perform, hflush]

/-- After everything has been written a new cache finds the same records. -/
theorem get_start_of_flush (h : s.cache.Backed s.db) (d : Digest) :
    (start s.cache.genesis (s.perform (.flush true)).db).get d
      = (s.perform (.flush true)).get d := by
  obtain ⟨cache', db', hflush, -⟩ := s.cache.flush_memory s.db true
  have hflushed := h.flush hflush
  have hrun : s.perform (.flush true) = ⟨cache', db'⟩ := by simp only [perform, hflush]
  rw [hrun, get_eq, get_eq]
  refine congrArg _ ?_
  have hnew := StakeCache.record?_ofGenesis_of_written hflushed.backed (hflushed.written rfl) d
  rw [hflushed.genesis] at hnew
  exact hnew

end CachedStakes

/-- A stake cache is transparent. After any sequence of operations a lookup gives the record that
was set last for the block, or else what was known of the block at the start. From there on no
operation drops an entry whose record is not in the database by then; a flush that is not forced
does nothing below five hundred unwritten records; and after a forced flush a new cache on the
database gives the same records. -/
theorem stakeCache_transparent (genesis : Digest) (db : MemoryStore) {ops : List StakeOp}
    (hops : ∀ op ∈ ops, op.Proper genesis) :
    ∃ s, (CachedStakes.start genesis db).performAll ops = s ∧
      (∀ d, s.get d = .ok ((StakeOp.lastSet? d ops).or (db.knownStake? genesis d))) ∧
      (∀ op : StakeOp, op.Proper genesis → ∀ (d : Digest) (e : StakeEntry),
        s.cache.entries[d]? = some e → (s.perform op).cache.entries[d]? = none →
          (s.perform op).db.stakeTable[d]? = some e.record) ∧
      (s.cache.unwritten.length < 500 → s.perform (.flush false) = s) ∧
      ∀ d, (CachedStakes.start genesis (s.perform (.flush true)).db).get d
        = (s.perform (.flush true)).get d := by
  have hstart : (CachedStakes.start genesis db).cache.Backed (CachedStakes.start genesis db).db :=
    StakeCache.backed_ofGenesis genesis db
  obtain ⟨hbacked, hgenesis, hrecords⟩ := CachedStakes.performAll_spec hstart hops
  refine ⟨_, rfl, fun d => ?_, fun op hop d e => ?_, CachedStakes.perform_flush_of_few, fun d => ?_⟩
  · have hknown : (CachedStakes.start genesis db).record? d = db.knownStake? genesis d := by
      unfold MemoryStore.knownStake?
      by_cases hd : d = genesis
      · rw [if_pos hd, hd]
        exact hstart.record?_genesis
      · rw [if_neg hd]
        exact StakeCache.record?_ofGenesis genesis db hd
    rw [CachedStakes.get_eq, hrecords, hknown]
  · refine CachedStakes.stored_of_dropped hbacked ?_
    rw [hgenesis]
    exact hop
  · have hnew := CachedStakes.get_start_of_flush hbacked d
    rw [hgenesis] at hnew
    exact hnew

namespace Regtest

def stakeRecord (time : UInt32) : StakeRecord := { StakeRecord.initial with time }

/-- The chain of the first block with `n` headers on top of it. -/
def stacked : Nat → Chain
  | 0 => chain
  | n + 1 => .extend block.header (stacked n)

/-- A chain of which the first block lies more than five thousand blocks below. -/
def summit : Chain := .extend { block.header with nonce := 1 } (stacked 5000)

/-- A record that is written, replaced, written again and dropped from the cache, with a load that
fails before. -/
def stakeOps : List StakeOp :=
  [.load chain, .set chain (stakeRecord 1), .flush false, .flush true, .set chain (stakeRecord 2),
    .elsewhere (.begin Network.regtest.genesisDigest), .load chain, .set summit (stakeRecord 3),
    .flush true, .get chain.digest]

set_option maxRecDepth 10000

theorem dropped_stakeOps :
    [Network.regtest.genesisDigest, chain.digest, summit.digest].Nodup
      ∧ ((CachedStakes.start Network.regtest.genesisDigest MemoryStore.empty).performAll
        stakeOps).cache.entries[chain.digest]? = none := by
  decide +kernel

/-- The cache has dropped the record of the first block, and it is still found. -/
theorem transparent_stakeOps : (∀ op ∈ stakeOps, op.Proper Network.regtest.genesisDigest) ∧
    ∃ s, (CachedStakes.start Network.regtest.genesisDigest MemoryStore.empty).performAll stakeOps
      = s ∧ s.cache.entries[chain.digest]? = none
      ∧ s.get chain.digest = .ok (some (stakeRecord 2)) := by
  obtain ⟨hdistinct, hdropped⟩ := dropped_stakeOps
  simp only [List.nodup_cons, List.mem_cons, List.not_mem_nil, or_false, not_or] at hdistinct
  obtain ⟨⟨hchain, hsummit⟩, hother, -⟩ := hdistinct
  have hproper : ∀ op ∈ stakeOps, op.Proper Network.regtest.genesisDigest := by
    simp [stakeOps, StakeOp.Proper, Ne.symm hchain, Ne.symm hsummit]
  refine ⟨hproper, ?_⟩
  obtain ⟨s, hs, hget, -⟩ :=
    stakeCache_transparent Network.regtest.genesisDigest MemoryStore.empty hproper
  subst hs
  refine ⟨_, rfl, hdropped, ?_⟩
  rw [hget]
  simp [stakeOps, StakeOp.lastSet?, StakeOp.sets?, Ne.symm hother]

end Regtest

end Chainstate
