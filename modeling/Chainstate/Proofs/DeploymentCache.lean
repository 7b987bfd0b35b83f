-- SUMMARY: The cache of deployment states: what it remembers is what the rule for states says.
import Chainstate.Deployment
import Chainstate.Proofs.HeaderTree

/-!
# The deployment cache

A cache that has only ever been asked about the chains of one tree agrees with the rule for states:
what it remembers of a boundary is the state after that boundary. An agreeing cache answers as the
rule does and goes on to agree (`AgreesOn.state`, `AgreesOn.flags`), so the rules in force for a
chain depend on nothing but the chain.
-/

namespace Chainstate

namespace ForkState

variable {p : Params} {f : SignalledFork}

/-! ## The rule without a bound -/

/-- How far a walk from a boundary can go. -/
def reach (boundary : Option Chain) : Nat := boundary.elim 0 fun c => c.height + 1

/-- The boundary one window earlier is nearer to the genesis. -/
theorem reach_previousBoundary (hwindow : 0 < p.signalWindow) (c : Chain) :
    reach (previousBoundary p c) < reach (some c) := by
  unfold previousBoundary
  split
  · next hle =>
    obtain ⟨x, hx⟩ := Chain.exists_ancestor? (Nat.sub_le c.height p.signalWindow)
    have hheight := (Chain.ancestor?_eq_some hx).2
    rw [hx]
    change x.height + 1 < c.height + 1
    omega
  · exact Nat.succ_pos _

/-- All bounds beyond the reach of a boundary give the same state. -/
theorem fromBoundary_eq (hwindow : 0 < p.signalWindow) {m n : Nat} {boundary : Option Chain}
    (hm : reach boundary < m) (hn : reach boundary < n) :
    fromBoundary p f m boundary = fromBoundary p f n boundary := by
  induction m generalizing n boundary with
  | zero => omega
  | succ m ih =>
    cases n with
    | zero => omega
    | succ n =>
      cases boundary with
      | none => rfl
      | some c =>
        have hless := reach_previousBoundary hwindow c
        rw [fromBoundary, fromBoundary, ih (n := n) (by omega) (by omega)]

/-- The state after a boundary. -/
def after (p : Params) (f : SignalledFork) (boundary : Option Chain) : ForkState :=
  fromBoundary p f (reach boundary + 1) boundary

/-- A window later the state has moved one step, once the fork has reached its start. -/
theorem after_some (hwindow : 0 < p.signalWindow) (c : Chain) :
    after p f (some c) = if (c.medianTimePast.toNat : Int) < f.startTime then defined
      else step p f c (after p f (previousBoundary p c)) := by
  have hless := reach_previousBoundary hwindow c
  rw [after, fromBoundary, fromBoundary_eq hwindow hless (Nat.lt_succ_self _)]
  rfl

/-- Only windows of some length have boundaries, and those are below the block. -/
theorem boundaryOf_eq_some {prev c : Chain} (h : boundaryOf p prev = some c) :
    0 < p.signalWindow ∧ c ∈ prev.ancestors ∧ c.height ≤ prev.height := by
  unfold boundaryOf at h
  simp only at h
  split at h
  · next hle =>
    obtain ⟨hmem, hheight⟩ := Chain.ancestor?_eq_some h
    refine ⟨?_, hmem, by omega⟩
    rcases Nat.eq_zero_or_pos p.signalWindow with hzero | hpos
    · rw [hzero, Nat.mod_zero] at hle
      omega
    · exact hpos
  · cases h

theorem previousBoundary_eq_some {c x : Chain} (h : previousBoundary p c = some x) :
    x ∈ c.ancestors := by
  unfold previousBoundary at h
  split at h
  · exact (Chain.ancestor?_eq_some h).1
  · cases h

/-- The state for a block is the one after its boundary. -/
theorem of_eq_after {id : ForkId} (hfork : p.fork? id = some f)
    (hstart : f.startTime ≠ SignalledFork.alwaysActive) (prev : Option Chain) :
    of p id prev = after p f (prev.bind (boundaryOf p)) := by
  simp only [of, hfork, if_neg hstart]
  cases hboundary : prev.bind (boundaryOf p) with
  | none => rfl
  | some c =>
    obtain ⟨prev, rfl, hc⟩ := Option.bind_eq_some_iff.1 hboundary
    obtain ⟨hwindow, -, hheight⟩ := boundaryOf_eq_some hc
    refine fromBoundary_eq hwindow ?_ (Nat.lt_succ_self _)
    change c.height + 1 < prev.height + 2
    omega

end ForkState

/-! ## Agreement -/

/-- The chain at a boundary, where there is one, is in the tree. -/
def HeaderTree.Knows (tree : HeaderTree) (boundary : Option Chain) : Prop :=
  ∀ c, boundary = some c → c ∈ tree

/-- The chain at a boundary, where there is one, is in the index. -/
def ChainIndex.Knows (index : ChainIndex) (boundary : Option Chain) : Prop :=
  ∀ c, boundary = some c → c ∈ index

namespace DeploymentCache

/-- What the cache remembers of the boundaries of a tree is the state after them. -/
def AgreesOn (p : Params) (tree : HeaderTree) (cache : DeploymentCache) : Prop :=
  ∀ id f, p.fork? id = some f → ∀ boundary, tree.Knows boundary →
    ∀ s, cache.find? id boundary = some s → s = ForkState.after p f boundary

/-- What the cache remembers of the boundaries of an index is the state after them. -/
def Agrees (p : Params) (index : ChainIndex) (cache : DeploymentCache) : Prop :=
  ∀ id f, p.fork? id = some f → ∀ boundary, index.Knows boundary →
    ∀ s, cache.find? id boundary = some s → s = ForkState.after p f boundary

theorem agreesOn_empty (p : Params) (tree : HeaderTree) : AgreesOn p tree empty := by
  intro id f _ boundary _ s hs
  simp [find?, empty] at hs

theorem find?_remember (cache : DeploymentCache) (id id' : ForkId) (c c' : Option Chain)
    (s : ForkState) :
    (cache.remember id c s).find? id' c'
      = if id = id' ∧ c.map Chain.digest = c'.map Chain.digest then some s
        else cache.find? id' c' := by
  rw [find?, remember, Table.getElem?_insert]
  simp only [DeploymentKey.mk.injEq]
  rfl

section Trees

variable {p : Params} {f : SignalledFork} {id : ForkId} {tree : HeaderTree}
  {cache : DeploymentCache}

/-- Remembering the state after a boundary keeps the agreement: no other boundary of the tree has
the same digest. -/
theorem AgreesOn.remember (h : cache.AgreesOn p tree) (hfork : p.fork? id = some f)
    {boundary : Option Chain} (hknown : tree.Knows boundary) {s : ForkState}
    (hs : s = ForkState.after p f boundary) : (cache.remember id boundary s).AgreesOn p tree := by
  intro id' f' hfork' boundary' hknown' s' hs'
  rw [find?_remember] at hs'
  split at hs'
  · next hkey =>
    obtain ⟨rfl, hdigest⟩ := hkey
    rw [hfork, Option.some.injEq] at hfork'
    subst hfork'
    have hsame : boundary = boundary' := by
      cases boundary with
      | none =>
        cases boundary' with
        | none => rfl
        | some c' => cases hdigest
      | some c =>
        cases boundary' with
        | none => cases hdigest
        | some c' =>
          rw [Option.map_some, Option.map_some, Option.some.injEq] at hdigest
          rw [tree.eq_of_digest_eq (hknown c rfl) (hknown' c' rfl) hdigest]
    rw [← hsame, ← hs]
    exact (Option.some.inj hs').symm
  · exact h id' f' hfork' boundary' hknown' s' hs'

/-- A walk that can reach the genesis gives the state after the boundary. -/
theorem AgreesOn.walk (h : cache.AgreesOn p tree) (hfork : p.fork? id = some f)
    {boundary : Option Chain} (hknown : tree.Knows boundary)
    (hwindow : boundary ≠ none → 0 < p.signalWindow) {n : Nat}
    (hn : ForkState.reach boundary < n) :
    (walk p id f n cache boundary).1 = ForkState.after p f boundary
      ∧ (walk p id f n cache boundary).2.AgreesOn p tree := by
  induction n generalizing boundary cache with
  | zero => omega
  | succ n ih =>
    cases hfound : cache.find? id boundary with
    | some s =>
      simp only [DeploymentCache.walk, hfound]
      exact ⟨h id f hfork boundary hknown s hfound, h⟩
    | none =>
      cases boundary with
      | none =>
        simp only [DeploymentCache.walk, hfound]
        exact ⟨rfl, h.remember hfork hknown rfl⟩
      | some c =>
        have hwindow := hwindow (by simp)
        have hafter := ForkState.after_some (f := f) hwindow c
        simp only [DeploymentCache.walk, hfound]
        split
        · next hearly =>
          rw [if_pos hearly] at hafter
          exact ⟨hafter.symm, h.remember hfork hknown hafter.symm⟩
        · next hstarted =>
          rw [if_neg hstarted] at hafter
          have hless := ForkState.reach_previousBoundary hwindow c
          have hbelow : tree.Knows (ForkState.previousBoundary p c) := fun x hx =>
            HeaderTree.ancestor_mem (hknown c rfl) (ForkState.previousBoundary_eq_some hx)
          obtain ⟨hstate, hagrees⟩ := ih h hbelow (fun _ => hwindow) (by omega)
          simp only [hstate, ← hafter]
          exact ⟨trivial, hagrees.remember hfork hknown rfl⟩

/-- An agreeing cache answers as the rule for states does. -/
theorem AgreesOn.state (h : cache.AgreesOn p tree) (id : ForkId) {prev : Option Chain}
    (hknown : tree.Knows prev) :
    (cache.state p id prev).1 = ForkState.of p id prev
      ∧ (cache.state p id prev).2.AgreesOn p tree := by
  cases hfork : p.fork? id with
  | none =>
    simp only [DeploymentCache.state, ForkState.of, hfork]
    exact ⟨trivial, h⟩
  | some f =>
    by_cases hstart : f.startTime = SignalledFork.alwaysActive
    · simp only [DeploymentCache.state, ForkState.of, hfork, if_pos hstart]
      exact ⟨trivial, h⟩
    · rw [ForkState.of_eq_after hfork hstart]
      simp only [DeploymentCache.state, hfork, if_neg hstart]
      -- A boundary lies on the chain of the block, at most as high as the block's parent.
      have hboundary : ∀ c, prev.bind (ForkState.boundaryOf p) = some c →
          0 < p.signalWindow ∧ c ∈ tree ∧ c.height ≤ prev.elim 0 Chain.height := by
        intro c hc
        obtain ⟨d, rfl, hc⟩ := Option.bind_eq_some_iff.1 hc
        obtain ⟨hwindow, hmem, hheight⟩ := ForkState.boundaryOf_eq_some hc
        exact ⟨hwindow, HeaderTree.ancestor_mem (hknown d rfl) hmem, hheight⟩
      refine h.walk hfork (fun c hc => (hboundary c hc).2.1) ?_ ?_
      · intro hsome
        obtain ⟨c, hc⟩ := Option.ne_none_iff_exists'.1 hsome
        exact (hboundary c hc).1
      · cases hc : prev.bind (ForkState.boundaryOf p) with
        | none => exact Nat.succ_pos _
        | some c =>
          have hheight := (hboundary c hc).2.2
          change c.height + 1 < _
          omega

theorem AgreesOn.isActive (h : cache.AgreesOn p tree) (id : ForkId) {prev : Option Chain}
    (hknown : tree.Knows prev) :
    (cache.isActive p id prev).1 = (ForkState.of p id prev == .active)
      ∧ (cache.isActive p id prev).2.AgreesOn p tree := by
  obtain ⟨hstate, hagrees⟩ := h.state id hknown
  exact ⟨by rw [← hstate]; rfl, hagrees⟩

end Trees

end DeploymentCache

/-- The rules in force for the last block of a chain, told without a cache. -/
def Chain.flags (p : Params) (c : Chain) : DeploymentFlags :=
  DeploymentFlags.of p c.height (ForkState.of p .csv c.parent? == .active)
    (ForkState.of p .segwit c.parent? == .active)
    (ForkState.of p .coldStaking c.parent? == .active)

namespace DeploymentCache

/-- An agreeing cache gives the rules in force, and agrees afterwards. -/
theorem AgreesOn.flags {p : Params} {tree : HeaderTree} {cache : DeploymentCache}
    (h : cache.AgreesOn p tree) {c : Chain} (hc : c ∈ tree) :
    (cache.flags p c).1 = c.flags p ∧ (cache.flags p c).2.AgreesOn p tree := by
  have hknown : tree.Knows c.parent? := fun parent hparent => HeaderTree.parent_mem hc hparent
  obtain ⟨hcsv, h₁⟩ := h.isActive .csv hknown
  obtain ⟨hsegwit, h₂⟩ := h₁.isActive .segwit hknown
  obtain ⟨hcold, h₃⟩ := h₂.isActive .coldStaking hknown
  refine ⟨?_, h₃⟩
  rw [Chain.flags, ← hcsv, ← hsegwit, ← hcold]
  rfl

/-! ## Caches of an index -/

variable {p : Params} {genesis : Header} {index : ChainIndex} {cache : DeploymentCache}

theorem agrees_empty (p : Params) (index : ChainIndex) : Agrees p index empty := by
  intro id f _ boundary _ s hs
  simp [find?, empty] at hs

/-- To agree on the tree of an index is to agree on the index. -/
theorem Agrees.on (hindex : ChainIndex.Grown genesis index) (h : cache.Agrees p index) :
    cache.AgreesOn p hindex.tree := h

theorem state_agrees (hindex : ChainIndex.Grown genesis index) (h : cache.Agrees p index)
    (id : ForkId) {prev : Option Chain} (hknown : index.Knows prev) :
    (cache.state p id prev).1 = ForkState.of p id prev
      ∧ (cache.state p id prev).2.Agrees p index :=
  (h.on hindex).state id hknown

theorem flags_agrees {p : Params} {genesis : Header} {index : ChainIndex}
    {cache : DeploymentCache} (hindex : ChainIndex.Grown genesis index)
    (h : cache.Agrees p index) {c : Chain} (hc : c ∈ index) :
    (cache.flags p c).1 = c.flags p ∧ (cache.flags p c).2.Agrees p index :=
  (h.on hindex).flags hc

end DeploymentCache

end Chainstate
