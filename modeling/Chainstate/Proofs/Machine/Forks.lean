-- SUMMARY: Deployment states on a machine: windows, masks and counts of signals are exact.
import Chainstate.Proofs.Connect
import Chainstate.Proofs.Machine.Targets

/-!
# Deployments on a machine

The states of signalled forks with their arithmetic in machine words: heights and positions in a
window, masks and counts of signals. Windows that are neither empty nor longer than a word, and
bits of a word, are all that this needs of the parameters (`Params.Signalled`).
-/

namespace Chainstate

/-- Windows and bits of signalled forks that fit into machine words. -/
structure Params.Signalled (p : Params) : Prop where
  nonempty : 0 < p.signalWindow
  window : p.signalWindow ≤ 0xffffffff
  bit : ∀ id f, p.fork? id = some f → f.bit < 32

namespace Machine

variable {ε : Type}

/-! ## Signals -/

def mask (f : SignalledFork) : Checked ε UInt32 := do
  let bit ← shiftBy 32 f.bit
  .ok (1 <<< UInt32.ofNat bit)

theorem mask_eq {f : SignalledFork} (hf : f.bit < 32) : (mask f : Checked ε UInt32) = .ok f.mask := by
  rw [mask, shiftBy_ok hf]
  rfl

/-- Whether a header signals a fork. -/
def signals (f : SignalledFork) (h : Header) : Checked ε Bool :=
  let version := h.version.toUInt32
  if version &&& 0xe0000000 == 0x20000000 then do
    let mask ← mask f
    .ok (version &&& mask != 0)
  else .ok false

theorem signals_eq {f : SignalledFork} (hf : f.bit < 32) (h : Header) :
    (signals f h : Checked ε Bool) = .ok (ForkState.signals f h) := by
  unfold signals ForkState.signals
  rw [mask_eq hf]
  dsimp only
  split
  · next htop =>
    rw [htop, Bool.true_and]
    rfl
  · next htop => rw [Bool.eq_false_iff.2 htop, Bool.false_and]

/-- Adds the last `n` headers that signal a fork to `count`. -/
def countSignals (f : SignalledFork) : (n count : Nat) → Chain → Checked ε Nat
  | 0, count, _ => .ok count
  | n + 1, count, c => do
    let signalled ← signals f c.header
    let count ← Word.u32.nat (count + signalled.toNat)
    match c with
    | .genesis _ => .ok count
    | .extend _ parent => countSignals f n count parent

theorem countSignals_eq {f : SignalledFork} (hf : f.bit < 32) {n count : Nat} (c : Chain)
    (h : count + n ≤ 0xffffffff) :
    (countSignals f n count c : Checked ε Nat) = .ok (count + ForkState.countSignals f n c) := by
  induction n generalizing count c with
  | zero => rfl
  | succ n ih =>
    have hle := Bool.toNat_le (ForkState.signals f c.header)
    rw [countSignals, signals_eq hf, checked_ok_bind, Word.u32_ok (by omega), checked_ok_bind]
    cases c with
    | genesis header => rfl
    | extend header parent =>
      change countSignals f n _ parent = _
      rw [ih parent (by omega), Nat.add_assoc]
      rfl

/-! ## States -/

/-- The state after a window that ends with the header `boundary`. -/
def forkStep (p : Params) (f : SignalledFork) (boundary : Chain) : ForkState → Checked ε ForkState
  | .defined => do
    let median ← medianTimePast boundary
    .ok (if f.startTime ≤ median.toNat then .started else .defined)
  | .started => do
    let median ← medianTimePast boundary
    if f.timeout ≤ median.toNat then .ok .failed
    else
      let count ← countSignals f p.signalWindow 0 boundary
      .ok (if p.signalThreshold ≤ count then .lockedIn else .started)
  | .lockedIn => .ok .active
  | .active => .ok .active
  | .failed => .ok .failed

theorem forkStep_eq {p : Params} (hp : p.Signalled) {f : SignalledFork} (hf : f.bit < 32)
    (boundary : Chain) (s : ForkState) :
    (forkStep p f boundary s : Checked ε ForkState) = .ok (ForkState.step p f boundary s) := by
  have hwindow := hp.window
  cases s with
  | defined => rw [forkStep, medianTimePast_eq, checked_ok_bind, ForkState.step]
  | started =>
    rw [forkStep, medianTimePast_eq, checked_ok_bind, ForkState.step]
    split
    · rfl
    · rw [countSignals_eq hf boundary (by omega), checked_ok_bind, Nat.zero_add]
  | lockedIn => rfl
  | active => rfl
  | failed => rfl

/-- The last block of the window before the one that a block on top of `prev` belongs to. -/
def boundaryOf (p : Params) (prev : Chain) : Checked ε (Option Chain) := do
  let next ← Word.u32.nat (prev.height + 1)
  let into ← remainder next p.signalWindow
  .ok (if into ≤ prev.height then prev.ancestor? (prev.height - into) else none)

theorem boundaryOf_eq {p : Params} (hp : p.Signalled) {prev : Chain}
    (hprev : prev.height < 0xffffffff) :
    (boundaryOf p prev : Checked ε (Option Chain)) = .ok (ForkState.boundaryOf p prev) := by
  rw [boundaryOf, Word.u32_ok hprev, checked_ok_bind, remainder_ok (Nat.ne_of_gt hp.nonempty)]
  rfl

/-- Walks down to a known state, and fills the cache on the way back. -/
def walk (p : Params) (id : ForkId) (f : SignalledFork) :
    (n : Nat) → DeploymentCache → Option Chain → Checked ε (ForkState × DeploymentCache)
  | 0, cache, _ => .ok (.defined, cache)
  | n + 1, cache, boundary =>
    match cache.find? id boundary with
    | some s => .ok (s, cache)
    | none =>
      match boundary with
      | none => .ok (.defined, cache.remember id none .defined)
      | some c => do
        let median ← medianTimePast c
        if (median.toNat : Int) < f.startTime then
          .ok (.defined, cache.remember id (some c) .defined)
        else
          let (before, cache) ← walk p id f n cache (ForkState.previousBoundary p c)
          let s ← forkStep p f c before
          .ok (s, cache.remember id (some c) s)

theorem walk_eq {p : Params} (hp : p.Signalled) {id : ForkId} {f : SignalledFork}
    (hf : f.bit < 32) (n : Nat) (cache : DeploymentCache) (boundary : Option Chain) :
    (walk p id f n cache boundary : Checked ε _)
      = .ok (DeploymentCache.walk p id f n cache boundary) := by
  induction n generalizing cache boundary with
  | zero => rfl
  | succ n ih =>
    rw [walk.eq_def, DeploymentCache.walk.eq_def]
    dsimp only
    cases cache.find? id boundary with
    | some s => rfl
    | none =>
      cases boundary with
      | none => rfl
      | some c =>
        dsimp only
        rw [medianTimePast_eq, checked_ok_bind]
        split
        · rfl
        · rw [ih, checked_ok_bind, forkStep_eq hp hf]
          rfl

/-- The state of a fork for a block on top of `prev`. -/
def forkState (cache : DeploymentCache) (p : Params) (id : ForkId) (prev : Option Chain) :
    Checked ε (ForkState × DeploymentCache) :=
  match p.fork? id with
  | none => .ok (.defined, cache)
  | some f =>
    if f.startTime = SignalledFork.alwaysActive then .ok (.active, cache)
    else
      match prev with
      | none => walk p id f 2 cache none
      | some prev => do
        let boundary ← boundaryOf p prev
        walk p id f (prev.height + 2) cache boundary

theorem forkState_eq (cache : DeploymentCache) {p : Params} (hp : p.Signalled) (id : ForkId)
    {prev : Option Chain} (hprev : ∀ c ∈ prev, c.height < 0xffffffff) :
    (forkState cache p id prev : Checked ε _) = .ok (cache.state p id prev) := by
  unfold forkState DeploymentCache.state
  cases hf : p.fork? id with
  | none => rfl
  | some f =>
    dsimp only
    split
    · rfl
    · cases prev with
      | none => exact walk_eq hp (hp.bit id f hf) _ _ _
      | some prev =>
        change (boundaryOf p prev >>= _) = _
        rw [boundaryOf_eq hp (hprev prev rfl), checked_ok_bind]
        exact walk_eq hp (hp.bit id f hf) _ _ _

def isActive (cache : DeploymentCache) (p : Params) (id : ForkId) (prev : Option Chain) :
    Checked ε (Bool × DeploymentCache) := do
  let (s, cache) ← forkState cache p id prev
  .ok (s == .active, cache)

/-- The rules in force for the last block of a chain. -/
def flags (cache : DeploymentCache) (p : Params) (c : Chain) :
    Checked ε (DeploymentFlags × DeploymentCache) := do
  let csv ← isActive cache p .csv c.parent?
  let segwit ← isActive csv.2 p .segwit c.parent?
  let coldStaking ← isActive segwit.2 p .coldStaking c.parent?
  .ok (DeploymentFlags.of p c.height csv.1 segwit.1 coldStaking.1, coldStaking.2)

theorem flags_eq (cache : DeploymentCache) {p : Params} (hp : p.Signalled) {c : Chain}
    (hc : c.height ≤ 0xffffffff) : (flags cache p c : Checked ε _) = .ok (cache.flags p c) := by
  have hprev : ∀ parent ∈ c.parent?, parent.height < 0xffffffff := by
    intro parent hparent
    have := Chain.height_of_parent? hparent
    omega
  have hactive (cache : DeploymentCache) (id : ForkId) :
      (isActive cache p id c.parent? : Checked ε _) = .ok (cache.isActive p id c.parent?) := by
    rw [isActive, forkState_eq cache hp id hprev]
    rfl
  rw [flags, hactive, checked_ok_bind, hactive, checked_ok_bind, hactive]
  rfl

end Machine

end Chainstate
