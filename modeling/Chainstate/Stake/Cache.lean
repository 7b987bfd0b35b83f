-- SUMMARY: The write-back cache of stake records in front of a coin database.
import Chainstate.Chain
import Chainstate.Store.Contract

/-!
# Stake cache

New records are kept in the cache and written to the database in batches. After a write, records
far below the highest cached one are dropped, except the genesis's and those not yet written; they
can be read back from the database.
-/

namespace Chainstate

structure StakeEntry where
  record : StakeRecord
  height : Nat
  /-- The database has this record. -/
  stored : Bool
  deriving DecidableEq

structure StakeCache where
  genesis : Digest
  entries : Table Digest StakeEntry

namespace StakeCache

/-- Fewer unwritten records than this are written only on demand. -/
def flushThreshold : Nat := 500

/-- How far below the highest cached record written records are kept. -/
def window : Nat := 5000

/-- A cache that knows the genesis. -/
def ofGenesis (genesis : Digest) : StakeCache :=
  ⟨genesis, (∅ : Table Digest StakeEntry).insert genesis ⟨StakeRecord.initial, 0, true⟩⟩

/-- The records that are not in the database yet. -/
def unwritten (cache : StakeCache) : List (Digest × StakeEntry) :=
  cache.entries.toList.filter fun e => !e.2.stored

def size (cache : StakeCache) : Nat := cache.entries.size

/-! ## Reading and writing -/

def get [CoinStore σ] (cache : StakeCache) (db : σ) (block : Digest) :
    Except Fault (Option StakeRecord) :=
  match cache.entries[block]? with
  | some e => .ok (some e.record)
  | none => CoinStore.stake? db block

def set (cache : StakeCache) (c : Chain) (record : StakeRecord) : StakeCache :=
  { cache with entries := cache.entries.insert c.digest ⟨record, c.height, false⟩ }

/-! ## Flushing -/

/-- The height of the highest cached record. -/
def top (cache : StakeCache) : Nat :=
  cache.entries.foldl (fun h _ e => max h e.height) 0

/-- Drops written records that are far below the highest one. -/
def evict (cache : StakeCache) : StakeCache :=
  let top := cache.top
  { cache with
    entries := cache.entries.filter fun d e =>
      d == cache.genesis || !e.stored || decide (top ≤ e.height + window) }

/-- Every record is in the database. -/
def markStored (cache : StakeCache) : StakeCache :=
  { cache with entries := cache.entries.map fun _ e => { e with stored := true } }

/-- Writes the unwritten records: all of them where `force` is set, and otherwise once there are
enough. -/
def flush [CoinStore σ] (cache : StakeCache) (db : σ) (force : Bool) :
    Except Fault (StakeCache × σ) := do
  let pending := cache.unwritten
  if pending.isEmpty || (!force && decide (pending.length < flushThreshold)) then pure (cache, db)
  else
    let db ← CoinStore.putStakes db (pending.map fun e => (e.1, e.2.record))
    pure (cache.markStored.evict, db)

/-! ## Loading -/

/-- Reads the records of a chain down to the genesis or to the end of the window below the height
`tip`. What was read stays when a record turns out to be missing. -/
def loadBelow [CoinStore σ] (db : σ) (tip : Nat) : Chain → EStateM Fault StakeCache Unit
  | .genesis _ => pure ()
  | .extend header parent => do
    let c := Chain.extend header parent
    if c.height + window < tip then pure ()
    else
      let cache ← getThe StakeCache
      if cache.entries.contains c.digest then loadBelow db tip parent
      else
        match CoinStore.stake? db c.digest with
        | .error f => throw f
        | .ok none => throw (.missingStake c.digest)
        | .ok (some record) =>
          modify fun cache =>
            { cache with entries := cache.entries.insert c.digest ⟨record, c.height, true⟩ }
          loadBelow db tip parent

/-- Warms the cache with the records of the chain. -/
def load [CoinStore σ] (db : σ) (c : Chain) : EStateM Fault StakeCache Unit :=
  loadBelow db c.height c

end StakeCache

end Chainstate
