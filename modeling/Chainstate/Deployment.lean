-- SUMMARY: The states of signalled forks, with a cache, and the rules in force for a block.
import Chainstate.Chain
import Chainstate.Deployment.Flags
import Chainstate.Params

/-!
# Deployments

A signalled fork is in one state for all blocks of a window. The state depends on the last block
of the window before, the *boundary*: by its median time past and by how many headers of its
window signalled the fork. `ForkState.of` is that rule; `DeploymentCache.state` gives the same
answers and remembers them by boundary.
-/

namespace Chainstate

inductive ForkState where
  | defined
  | started
  | lockedIn
  | active
  | failed
  deriving DecidableEq, Repr

namespace ForkState

def name : ForkState → String
  | defined => "DEFINED"
  | started => "STARTED"
  | lockedIn => "LOCKED_IN"
  | active => "ACTIVE"
  | failed => "FAILED"

/-! ## One window -/

/-- Whether a header signals a fork: the version's top bits are 001 and the fork's bit is set. -/
def signals (f : SignalledFork) (h : Header) : Bool :=
  let version := h.version.toUInt32
  version &&& 0xe0000000 == 0x20000000 && version &&& f.mask != 0

/-- How many of the last `n` headers signal a fork. -/
def countSignals (f : SignalledFork) : (n : Nat) → Chain → Nat
  | 0, _ => 0
  | _ + 1, .genesis header => (signals f header).toNat
  | n + 1, .extend header parent => (signals f header).toNat + countSignals f n parent

/-- The state after a window that ends with the header `boundary`. -/
def step (p : Params) (f : SignalledFork) (boundary : Chain) : ForkState → ForkState
  | defined => if f.startTime ≤ boundary.medianTimePast.toNat then started else defined
  | started =>
    if f.timeout ≤ boundary.medianTimePast.toNat then failed
    else if p.signalThreshold ≤ countSignals f p.signalWindow boundary then lockedIn
    else started
  | lockedIn => active
  | active => active
  | failed => failed

/-! ## Boundaries -/

/-- The last block of the window before the one that a block on top of `prev` belongs to. -/
def boundaryOf (p : Params) (prev : Chain) : Option Chain :=
  let into := (prev.height + 1) % p.signalWindow
  if into ≤ prev.height then prev.ancestor? (prev.height - into) else none

/-- The boundary one window earlier. -/
def previousBoundary (p : Params) (boundary : Chain) : Option Chain :=
  if p.signalWindow ≤ boundary.height then boundary.ancestor? (boundary.height - p.signalWindow)
  else none

/-- The state after a boundary: a fork that has not reached its start is only defined, any other
moves one step from its state a window earlier. `n` bounds the walk. -/
def fromBoundary (p : Params) (f : SignalledFork) : (n : Nat) → Option Chain → ForkState
  | 0, _ => defined
  | _ + 1, none => defined
  | n + 1, some c =>
    if (c.medianTimePast.toNat : Int) < f.startTime then defined
    else step p f c (fromBoundary p f n (previousBoundary p c))

/-- The state of a fork for a block on top of `prev`. -/
def of (p : Params) (id : ForkId) (prev : Option Chain) : ForkState :=
  match p.fork? id with
  | none => defined
  | some f =>
    if f.startTime = SignalledFork.alwaysActive then active
    else fromBoundary p f (prev.elim 0 Chain.height + 2) (prev.bind (boundaryOf p))

end ForkState

/-! ## Cache -/

/-- What a remembered state belongs to: a fork and the digest of a boundary, or no boundary. -/
structure DeploymentKey where
  fork : ForkId
  boundary : Option Digest
  deriving DecidableEq

namespace DeploymentKey

/-- A byte string that tells keys apart. -/
def toBytes (k : DeploymentKey) : Bytes :=
  (match k.fork with
    | .csv => 0
    | .segwit => 1
    | .coldStaking => 2) :: k.boundary.elim [] Digest.bytes

theorem toBytes_injective {a b : DeploymentKey} (h : a.toBytes = b.toBytes) : a = b := by
  obtain ⟨fa, ba⟩ := a
  obtain ⟨fb, bb⟩ := b
  simp only [toBytes, List.cons.injEq] at h
  have hfork : fa = fb := by
    cases fa <;> cases fb <;> first | rfl | exact absurd h.1 (by decide)
  have hboundary : ba = bb := by
    cases ba with
    | none =>
      cases bb with
      | none => rfl
      | some d =>
        have := congrArg List.length h.2
        simp [d.length_bytes] at this
    | some c =>
      cases bb with
      | none =>
        have := congrArg List.length h.2
        simp [c.length_bytes] at this
      | some d => exact congrArg some (Digest.ext h.2)
  rw [hfork, hboundary]

instance : Ord DeploymentKey := ⟨compareOn toBytes⟩

instance : Std.TransOrd DeploymentKey := inferInstanceAs (Std.TransCmp (compareOn toBytes))

instance : Std.LawfulEqOrd DeploymentKey where
  eq_of_compare {a b} h :=
    toBytes_injective (Std.LawfulEqCmp.eq_of_compare (show compare a.toBytes b.toBytes = .eq from h))

end DeploymentKey

structure DeploymentCache where
  states : Table DeploymentKey ForkState

namespace DeploymentCache

def empty : DeploymentCache := ⟨∅⟩

instance : Inhabited DeploymentCache := ⟨empty⟩

def remember (cache : DeploymentCache) (id : ForkId) (c : Option Chain) (s : ForkState) :
    DeploymentCache :=
  ⟨cache.states.insert ⟨id, c.map Chain.digest⟩ s⟩

def find? (cache : DeploymentCache) (id : ForkId) (c : Option Chain) : Option ForkState :=
  cache.states[(⟨id, c.map Chain.digest⟩ : DeploymentKey)]?

/-- Walks down from a boundary to one whose state is known, or that comes before the start, and
fills the cache on the way back. `n` bounds the walk. -/
def walk (p : Params) (id : ForkId) (f : SignalledFork) :
    (n : Nat) → DeploymentCache → Option Chain → ForkState × DeploymentCache
  | 0, cache, _ => (.defined, cache)
  | n + 1, cache, boundary =>
    match cache.find? id boundary with
    | some s => (s, cache)
    | none =>
      match boundary with
      | none => (.defined, cache.remember id none .defined)
      | some c =>
        if (c.medianTimePast.toNat : Int) < f.startTime then
          (.defined, cache.remember id (some c) .defined)
        else
          let (before, cache) := walk p id f n cache (ForkState.previousBoundary p c)
          let s := ForkState.step p f c before
          (s, cache.remember id (some c) s)

/-- The state of a fork for a block on top of `prev`. -/
def state (cache : DeploymentCache) (p : Params) (id : ForkId) (prev : Option Chain) :
    ForkState × DeploymentCache :=
  match p.fork? id with
  | none => (.defined, cache)
  | some f =>
    if f.startTime = SignalledFork.alwaysActive then (.active, cache)
    else walk p id f (prev.elim 0 Chain.height + 2) cache (prev.bind (ForkState.boundaryOf p))

def isActive (cache : DeploymentCache) (p : Params) (id : ForkId) (prev : Option Chain) :
    Bool × DeploymentCache :=
  let (s, cache) := cache.state p id prev
  (s == .active, cache)

end DeploymentCache

/-! ## Rules in force -/

/-- The rules for a block of a height when it is known which forks are active. -/
def DeploymentFlags.of (p : Params) (height : Nat) (csv segwit coldStaking : Bool) :
    DeploymentFlags :=
  let bip34 := decide (p.bip34Height ≤ height)
  { script :=
      { payToScriptHash := true
        strictEncoding := false
        derSignatures := decide (p.bip66Height ≤ height)
        nullDummy := segwit
        checkLockTime := decide (p.bip65Height ≤ height)
        checkSequence := csv
        witness := segwit
        checkColdStake := coldStaking }
    lockTime := { verifySequence := csv, medianTimePast := csv }
    enforceBip30 := !bip34
    enforceBip34 := bip34
    coldStakingActive := coldStaking }

/-- The rules in force for the last block of a chain. -/
def DeploymentCache.flags (cache : DeploymentCache) (p : Params) (c : Chain) :
    DeploymentFlags × DeploymentCache :=
  let (csv, cache) := cache.isActive p .csv c.parent?
  let (segwit, cache) := cache.isActive p .segwit c.parent?
  let (coldStaking, cache) := cache.isActive p .coldStaking c.parent?
  (DeploymentFlags.of p c.height csv segwit coldStaking, cache)

/-- BIP34 is in force from its height on, whatever the cache holds, and BIP30 before it. -/
@[simp] theorem DeploymentCache.enforceBip34_flags (cache : DeploymentCache) (p : Params)
    (c : Chain) : (cache.flags p c).1.enforceBip34 = decide (p.bip34Height ≤ c.height) := rfl

@[simp] theorem DeploymentCache.enforceBip30_flags (cache : DeploymentCache) (p : Params)
    (c : Chain) : (cache.flags p c).1.enforceBip30 = !decide (p.bip34Height ≤ c.height) := rfl

end Chainstate
