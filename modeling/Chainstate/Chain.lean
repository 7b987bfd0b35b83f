-- SUMMARY: Chains of headers: heights, work, ancestors, median times and fork points.
import Chainstate.Block.Header
import Chainstate.Target

/-!
# Chains

A chain is a header on top of the chain that it extends, down to a genesis header; chains that
share a beginning share it in memory. The digest, height and cumulative work of a chain are kept
with it. A header may stand on any chain: whether it names its parent's digest is for whoever
builds the chain to decide, as `ChainIndex` does.
-/

namespace Chainstate

/-- The work of one header; none where its bits do not decode. -/
def Header.work (h : Header) : Nat :=
  match h.bits.decode with
  | .ok target => Target.work target
  | .error _ => 0

inductive Chain where
  | genesis (header : Header)
  | extend (header : Header) (parent : Chain)
with
  /-- The digest of the last header. -/
  @[computed_field] digest : Chain → Digest
    | .genesis header => header.digest
    | .extend header _ => header.digest
  /-- The number of headers below the last one. -/
  @[computed_field] height : Chain → Nat
    | .genesis _ => 0
    | .extend _ parent => parent.height + 1
  /-- The work of all headers. -/
  @[computed_field] work : Chain → Nat
    | .genesis header => header.work
    | .extend header parent => parent.work + header.work

namespace Chain

/-! ## Parts -/

def header : Chain → Header
  | genesis header => header
  | extend header _ => header

def parent? : Chain → Option Chain
  | genesis _ => none
  | extend _ parent => some parent

def time (c : Chain) : UInt32 := c.header.time

/-- All chains from this one down to its genesis. -/
def ancestors : Chain → List Chain
  | genesis header => [genesis header]
  | extend header parent => extend header parent :: parent.ancestors

@[simp] theorem height_genesis (h : Header) : (genesis h).height = 0 := rfl

@[simp] theorem height_extend (h : Header) (p : Chain) : (extend h p).height = p.height + 1 := rfl

@[simp] theorem work_extend (h : Header) (p : Chain) : (extend h p).work = p.work + h.work := rfl

@[simp] theorem parent?_extend (h : Header) (p : Chain) : (extend h p).parent? = some p := rfl

@[simp] theorem parent?_genesis (h : Header) : (genesis h).parent? = none := rfl

@[simp] theorem header_extend (h : Header) (p : Chain) : (extend h p).header = h := rfl

theorem digest_eq (c : Chain) : c.digest = c.header.digest := by
  cases c <;> rfl

/-! ## Ancestors -/

/-- The ancestor at a height, the chain itself included. -/
def ancestor? : (c : Chain) → (height : Nat) → Option Chain
  | genesis header, height => if height = 0 then some (genesis header) else none
  | extend header parent, height =>
    if height = parent.height + 1 then some (extend header parent) else parent.ancestor? height

/-- The last chain that two chains of equal height have in common. -/
def meet? (a b : Chain) : Option Chain :=
  if a.digest = b.digest then some a
  else match a, b with
    | extend _ p, extend _ q => meet? p q
    | _, _ => none

/-- The last common ancestor of two chains. -/
def fork? (a b : Chain) : Option Chain := do
  let height := min a.height b.height
  meet? (← a.ancestor? height) (← b.ancestor? height)

/-! ## Median time -/

/-- The times of the last `n` headers, newest first. -/
def lastTimes : (n : Nat) → Chain → List UInt32
  | 0, _ => []
  | _ + 1, genesis header => [header.time]
  | n + 1, extend header parent => header.time :: lastTimes n parent

/-- The median of the times of the last eleven headers. -/
def medianTimePast (c : Chain) : UInt32 :=
  let times := sortBy (· ≤ ·) (lastTimes 11 c)
  times.getD (times.length / 2) 0

end Chain

end Chainstate
