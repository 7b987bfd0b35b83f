-- SUMMARY: Questions about forks to one cache: every answer is that of a recursion without a cache.
import Chainstate.Proofs.ForkStates

/-!
# Questions about forks

One cache serves questions about any forks and about blocks on any branches of a tree, in any order,
and forgets everything now and then. Its answers are those of a recursion that remembers nothing, from
each boundary to the one before it (`ForkState.afterBoundary`). Nothing is assumed of the times of the
headers: a cache agrees with the recursion at every boundary of the tree, so it does not matter where
a walk stops.
-/

namespace Chainstate

/-! ## Without a cache -/

namespace ForkState

variable {p : Params} {f : SignalledFork} {c x : Chain}

/-- The first chain in a list that ends a window. -/
def windowEnd? (p : Params) (cs : List Chain) : Option Chain :=
  cs.find? fun c => p.signalWindow ∣ c.height + 1

theorem reach_windowEnd? (p : Params) (c : Chain) :
    reach (windowEnd? p c.lower) < reach (some c) := by
  cases hfound : windowEnd? p c.lower with
  | none => exact Nat.succ_pos _
  | some x =>
    have hlower : x ∈ c.lower := List.mem_of_find?_eq_some hfound
    exact Nat.succ_lt_succ (Chain.height_lt_of_mem_lower hlower)

/-- The state after a boundary. Where there is no boundary, or the fork has not reached its start,
it is only defined; otherwise it is one step from the state after the boundary a window earlier. -/
def afterBoundary (p : Params) (f : SignalledFork) : (boundary : Option Chain) → ForkState
  | none => defined
  | some c =>
    if (c.medianTimePast.toNat : Int) < f.startTime then defined
    else step p f c (afterBoundary p f (windowEnd? p c.lower))
termination_by boundary => reach boundary
decreasing_by exact reach_windowEnd? p c

/-- The state of a fork for a block on top of `prev`. -/
def uncached (p : Params) (id : ForkId) (prev : Option Chain) : ForkState :=
  match p.fork? id with
  | none => defined
  | some f =>
    if f.startTime = SignalledFork.alwaysActive then active
    else afterBoundary p f (prev.bind fun c => windowEnd? p c.ancestors)

theorem windowEnd?_of_dvd (h : p.signalWindow ∣ c.height + 1) :
    windowEnd? p c.ancestors = some c := by
  rw [windowEnd?, Chain.ancestors_eq_cons, List.find?_cons, decide_eq_true h]

theorem windowEnd?_of_not_dvd (h : ¬p.signalWindow ∣ c.height + 1) :
    windowEnd? p c.ancestors = windowEnd? p c.lower := by
  rw [windowEnd?, Chain.ancestors_eq_cons, List.find?_cons, decide_eq_false h, windowEnd?]

/-- Where a window ends, its end is the boundary of the next block. -/
theorem boundary_of_dvd (h : p.signalWindow ∣ c.height + 1) :
    boundary p (.extend c.header c) = some c :=
  boundary_iff.2 ⟨List.mem_cons_of_mem _ (Chain.self_mem_ancestors c), (Nat.div_mul_cancel h).symm⟩

/-- Where none ends, the boundary of the next block is that of the block. -/
theorem boundary_of_not_dvd (h : ¬p.signalWindow ∣ c.height + 1) :
    boundary p (.extend c.header c) = boundary p c := by
  have hsame : c.window p = (Chain.extend c.header c).window p := (Nat.succ_div_of_not_dvd h).symm
  exact (boundary_congr (List.mem_cons_of_mem _ (Chain.self_mem_ancestors c)) hsame).symm

/-- A boundary is the last end of a window. -/
theorem boundaryOf_eq_windowEnd? (p : Params) (c : Chain) :
    boundaryOf p c = windowEnd? p c.ancestors := by
  change boundary p (.extend c.header c) = _
  induction c with
  | genesis header =>
    by_cases hends : p.signalWindow ∣ (Chain.genesis header).height + 1
    · rw [boundary_of_dvd hends, windowEnd?_of_dvd hends]
    · rw [boundary_of_not_dvd hends, windowEnd?_of_not_dvd hends]
      rfl
  | extend header parent ih =>
    by_cases hends : p.signalWindow ∣ (Chain.extend header parent).height + 1
    · rw [boundary_of_dvd hends, windowEnd?_of_dvd hends]
    · rw [boundary_of_not_dvd hends, windowEnd?_of_not_dvd hends]
      exact ih

/-- The boundary a window earlier is the end of a window before. -/
theorem previousBoundary_eq_windowEnd? (h : p.signalWindow ∣ c.height + 1) :
    previousBoundary p c = windowEnd? p c.lower := by
  have hnext : (Chain.extend c.header c).window p = c.window p + 1 := Nat.succ_div_of_dvd h
  have hbelow : c ∈ (Chain.extend c.header c).ancestors :=
    List.mem_cons_of_mem _ (Chain.self_mem_ancestors c)
  rw [previousBoundary_eq_boundary hbelow hnext (boundary_of_dvd h)]
  cases c with
  | genesis header => rfl
  | extend header parent => exact boundaryOf_eq_windowEnd? p parent

theorem dvd_of_windowEnd? {cs : List Chain} (h : windowEnd? p cs = some c) :
    p.signalWindow ∣ c.height + 1 := by
  simpa using List.find?_some h

/-- The recursion gives the state after every end of a window. -/
theorem afterBoundary_eq {boundary : Option Chain}
    (h : ∀ c, boundary = some c → p.signalWindow ∣ c.height + 1) :
    afterBoundary p f boundary = after p f boundary := by
  induction boundary using afterBoundary.induct p f with
  | case1 => rw [afterBoundary]; rfl
  | case2 c hearly =>
    have hwindow := Nat.pos_of_dvd_of_pos (h c rfl) (Nat.succ_pos _)
    rw [afterBoundary, after_some hwindow, if_pos hearly, if_pos hearly]
  | case3 c hstarted ih =>
    have hwindow := Nat.pos_of_dvd_of_pos (h c rfl) (Nat.succ_pos _)
    rw [afterBoundary, after_some hwindow, if_neg hstarted, if_neg hstarted,
      previousBoundary_eq_windowEnd? (h c rfl), ih fun x hx => dvd_of_windowEnd? hx]

/-- The rule for states with a bound on its walk is the recursion. -/
theorem of_eq_uncached (p : Params) (id : ForkId) (prev : Option Chain) :
    of p id prev = uncached p id prev := by
  cases hfork : p.fork? id with
  | none => simp only [of, uncached, hfork]
  | some f =>
    by_cases hstart : f.startTime = SignalledFork.alwaysActive
    · simp only [of, uncached, hfork, if_pos hstart]
    · rw [of_eq_after hfork hstart]
      simp only [uncached, hfork, if_neg hstart]
      rw [funext (boundaryOf_eq_windowEnd? p), afterBoundary_eq]
      intro c hc
      obtain ⟨d, -, hd⟩ := Option.bind_eq_some_iff.1 hc
      exact dvd_of_windowEnd? hd

end ForkState

/-! ## Questions -/

/-- What a cache can be asked about blocks, each named by its parent or by itself, or told. -/
inductive ForkQuestion where
  | state (id : ForkId) (prev : Option Chain)
  | isActive (id : ForkId) (prev : Option Chain)
  | flags (c : Chain)
  | clear

inductive ForkAnswer where
  | state (s : ForkState)
  | isActive (active : Bool)
  | flags (flags : DeploymentFlags)
  | cleared
  deriving DecidableEq

namespace ForkQuestion

/-- The question is about blocks of a tree. -/
def About (tree : HeaderTree) : ForkQuestion → Prop
  | state _ prev => tree.Knows prev
  | isActive _ prev => tree.Knows prev
  | flags c => c ∈ tree
  | clear => True

/-- Puts a question to a cache. -/
def ask (p : Params) : ForkQuestion → DeploymentCache → ForkAnswer × DeploymentCache
  | state id prev, cache => (cache.state p id prev).map .state (fun cache => cache)
  | isActive id prev, cache => (cache.isActive p id prev).map .isActive (fun cache => cache)
  | flags c, cache => (cache.flags p c).map .flags (fun cache => cache)
  | clear, _ => (.cleared, .empty)

/-- Puts questions to a cache, one after the other. -/
def askAll (p : Params) :
    List ForkQuestion → DeploymentCache → List ForkAnswer × DeploymentCache
  | [], cache => ([], cache)
  | q :: qs, cache =>
    let (a, cache) := q.ask p cache
    let (as, cache) := askAll p qs cache
    (a :: as, cache)

/-- The answer that no cache has a part in. -/
def answer (p : Params) : ForkQuestion → ForkAnswer
  | state id prev => .state (ForkState.uncached p id prev)
  | isActive id prev => .isActive (ForkState.uncached p id prev == .active)
  | flags c => .flags (DeploymentFlags.of p c.height
      (ForkState.uncached p .csv c.parent? == .active)
      (ForkState.uncached p .segwit c.parent? == .active)
      (ForkState.uncached p .coldStaking c.parent? == .active))
  | clear => .cleared

variable {p : Params} {tree : HeaderTree} {cache : DeploymentCache}

/-- An agreeing cache gives the answer to one question, and agrees afterwards. -/
theorem ask_spec (h : cache.AgreesOn p tree) {q : ForkQuestion} (hq : q.About tree) :
    (q.ask p cache).1 = q.answer p ∧ (q.ask p cache).2.AgreesOn p tree := by
  cases q with
  | state id prev =>
    obtain ⟨hstate, hagrees⟩ := h.state id hq
    refine ⟨?_, hagrees⟩
    rw [answer, ← ForkState.of_eq_uncached, ← hstate]
    rfl
  | isActive id prev =>
    obtain ⟨hactive, hagrees⟩ := h.isActive id hq
    refine ⟨?_, hagrees⟩
    rw [answer, ← ForkState.of_eq_uncached, ← hactive]
    rfl
  | flags c =>
    obtain ⟨hflags, hagrees⟩ := h.flags hq
    refine ⟨?_, hagrees⟩
    simp only [answer, ← ForkState.of_eq_uncached]
    rw [← Chain.flags, ← hflags]
    rfl
  | clear => exact ⟨rfl, DeploymentCache.agreesOn_empty p tree⟩

theorem askAll_spec (h : cache.AgreesOn p tree) {qs : List ForkQuestion}
    (hqs : ∀ q ∈ qs, q.About tree) :
    (askAll p qs cache).1 = qs.map (answer p) ∧ (askAll p qs cache).2.AgreesOn p tree := by
  induction qs generalizing cache with
  | nil => exact ⟨rfl, h⟩
  | cons q qs ih =>
    obtain ⟨hq, hrest⟩ := List.forall_mem_cons.1 hqs
    obtain ⟨hfirst, hagrees⟩ := ask_spec h hq
    obtain ⟨hall, hagrees⟩ := ih hagrees hrest
    refine ⟨?_, hagrees⟩
    rw [List.map_cons, ← hfirst, ← hall]
    rfl

/-- A cache is invisible: whatever one new cache is asked about the blocks of a tree, about which
forks, on which branches and in which order, every answer is that of the recursion. -/
theorem askAll_empty (p : Params) (tree : HeaderTree) {qs : List ForkQuestion}
    (hqs : ∀ q ∈ qs, q.About tree) : (askAll p qs .empty).1 = qs.map (answer p) :=
  (askAll_spec (DeploymentCache.agreesOn_empty p tree) hqs).1

end ForkQuestion

/-! ## Two branches -/

namespace Regtest

/-- A branch from the fourth header on, whose own two headers are earlier than all below. -/
def earlyBranch : Chain :=
  .extend ⟨0x20000001, Digest.zero, Digest.zero, 6, ⟨0x207fffff⟩, 1⟩
    (.extend ⟨0x20000001, Digest.zero, Digest.zero, 5, ⟨0x207fffff⟩, 1⟩ (signalled 3))

set_option maxRecDepth 10000

/-- The headers of both branches. -/
def bothBranches : List Chain :=
  [signalled 7, signalled 6, signalled 5, signalled 4] ++ earlyBranch.ancestors

theorem parent_mem_bothBranches :
    ∀ c ∈ bothBranches, ∀ parent, c.parent? = some parent → parent ∈ bothBranches := by
  simp [bothBranches, signalled, earlyBranch, Chain.ancestors]

def branches : HeaderTree := .ofList bothBranches parent_mem_bothBranches (by decide +kernel)

/-- Questions about both branches, with an order to forget between them. -/
def questions : List ForkQuestion :=
  [.state .csv (some (signalled 7)), .flags earlyBranch, .state .csv (some earlyBranch), .clear,
    .isActive .csv (some earlyBranch), .state .segwit none, .flags (signalled 6)]

/-- The median falls on the early branch. -/
theorem medianTimePast_earlyBranch : earlyBranch.medianTimePast < (signalled 3).medianTimePast := by
  have hlow : earlyBranch.medianTimePast < 1296688604 := by
    rw [← UInt32.not_le, Chain.le_medianTimePast_iff]
    decide +kernel
  have hhigh : 1296688604 ≤ (signalled 3).medianTimePast := by
    rw [Chain.le_medianTimePast_iff]
    decide +kernel
  exact UInt32.lt_of_lt_of_le hlow hhigh

theorem askAll_empty_branches : earlyBranch.medianTimePast < (signalled 3).medianTimePast
    ∧ (∀ q ∈ questions, q.About branches)
    ∧ (ForkQuestion.askAll shortWindows questions .empty).1
      = questions.map (ForkQuestion.answer shortWindows) := by
  have hmem : signalled 7 ∈ branches ∧ signalled 6 ∈ branches ∧ earlyBranch ∈ branches :=
    ⟨List.mem_cons_self, List.mem_cons_of_mem _ List.mem_cons_self,
      List.mem_append_right _ (Chain.self_mem_ancestors _)⟩
  have hquestions : ∀ q ∈ questions, q.About branches := by
    simp [questions, ForkQuestion.About, HeaderTree.Knows, hmem]
  exact ⟨medianTimePast_earlyBranch, hquestions,
    ForkQuestion.askAll_empty shortWindows branches hquestions⟩

end Regtest

end Chainstate
