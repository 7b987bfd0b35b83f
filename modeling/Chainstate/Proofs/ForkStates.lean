-- SUMMARY: The states of a signalled fork along a chain: one per window, moving forward by signals.
import Chainstate.Network.Params
import Chainstate.Proofs.DeploymentCache
import Chainstate.Proofs.MedianTime

/-!
# Fork states along a chain

A block belongs to the window that its height falls into, and its state depends on the last block
of the window before (`ForkState.boundary_iff`). From one boundary to the next a state makes at most
one move (`ForkState.after_moves`). That a fork never falls back to the state before its start is
due to the time rule: the median at a boundary is not before the median a window earlier.
-/

namespace Chainstate

/-! ## Windows -/

namespace Chain

/-- The window that a block belongs to. -/
def window (p : Params) (c : Chain) : Nat := c.height / p.signalWindow

theorem window_eq_iff {p : Params} (hwindow : 0 < p.signalWindow) {c : Chain} {k : Nat} :
    c.window p = k ↔ k * p.signalWindow ≤ c.height ∧ c.height < (k + 1) * p.signalWindow := by
  constructor
  · rintro rfl
    refine ⟨Nat.div_mul_le_self _ _, ?_⟩
    rw [Nat.succ_mul]
    exact Nat.lt_div_mul_add hwindow
  · rintro ⟨hle, hlt⟩
    exact Nat.div_eq_of_lt_le hle hlt

theorem window_le_of_mem_ancestors {p : Params} {c x : Chain} (h : x ∈ c.ancestors) :
    x.window p ≤ c.window p :=
  Nat.div_le_div_right (height_le_of_mem_ancestors h)

end Chain

namespace ForkState

variable {p : Params} {f : SignalledFork} {c x y : Chain}

/-! ## Boundaries -/

/-- The last block of the window before that of a block. -/
def boundary (p : Params) (c : Chain) : Option Chain := c.parent?.bind (boundaryOf p)

theorem boundary_iff :
    boundary p c = some x ↔ x ∈ c.ancestors ∧ x.height + 1 = c.window p * p.signalWindow := by
  cases c with
  | genesis header =>
    simp [boundary, Chain.window]
  | extend header prev =>
    have hdiv := Nat.div_add_mod (prev.height + 1) p.signalWindow
    rw [Nat.mul_comm] at hdiv
    simp only [boundary, Chain.parent?_extend, Option.bind_some, boundaryOf, Chain.window,
      Chain.height_extend]
    constructor
    · intro h
      split at h
      · obtain ⟨hmem, hheight⟩ := Chain.ancestor?_eq_some h
        exact ⟨List.mem_cons_of_mem _ hmem, by omega⟩
      · cases h
    · rintro ⟨hmem, hheight⟩
      obtain rfl | hmem := List.mem_cons.1 hmem
      · rw [Chain.height_extend] at hheight
        omega
      · rw [if_pos (by omega), show prev.height - (prev.height + 1) % p.signalWindow = x.height by
          omega]
        exact Chain.ancestor?_of_mem_ancestors hmem

theorem exists_boundary (hwindow : 0 < p.signalWindow) (h : 0 < c.window p) :
    ∃ x, boundary p c = some x := by
  have hmul := Nat.div_mul_le_self c.height p.signalWindow
  have hpos := Nat.mul_pos h hwindow
  have hle : c.window p * p.signalWindow - 1 ≤ c.height := by
    unfold Chain.window
    omega
  obtain ⟨x, hx, hheight⟩ := Chain.exists_mem_ancestors hle
  exact ⟨x, (boundary_iff).2 ⟨hx, by omega⟩⟩

theorem previousBoundary_iff :
    previousBoundary p c = some x ↔ x ∈ c.ancestors ∧ x.height + p.signalWindow = c.height := by
  unfold previousBoundary
  constructor
  · intro h
    split at h
    · obtain ⟨hmem, hheight⟩ := Chain.ancestor?_eq_some h
      exact ⟨hmem, by omega⟩
    · cases h
  · rintro ⟨hmem, hheight⟩
    rw [if_pos (by omega), show c.height - p.signalWindow = x.height by omega]
    exact Chain.ancestor?_of_mem_ancestors hmem

/-- Blocks of one window have one boundary. -/
theorem boundary_congr (hx : x ∈ y.ancestors)
    (h : x.window p = y.window p) : boundary p x = boundary p y := by
  apply Option.ext
  intro b
  rw [boundary_iff, boundary_iff, h]
  constructor
  · rintro ⟨hb, hheight⟩
    exact ⟨Chain.ancestors_trans hx hb, hheight⟩
  · rintro ⟨hb, hheight⟩
    have hmul := Nat.div_mul_le_self x.height p.signalWindow
    change x.window p * p.signalWindow ≤ x.height at hmul
    rw [h] at hmul
    exact ⟨Chain.mem_ancestors_of_height_le hb hx (by omega), hheight⟩

/-- One window before a boundary lies the boundary of the window that it ends. -/
theorem previousBoundary_eq_boundary (hx : x ∈ y.ancestors)
    (h : y.window p = x.window p + 1) {b : Chain} (hb : boundary p y = some b) :
    previousBoundary p b = boundary p x := by
  obtain ⟨hby, hheight⟩ := (boundary_iff).1 hb
  rw [h, Nat.add_mul, Nat.one_mul] at hheight
  have hmul := Nat.div_mul_le_self x.height p.signalWindow
  change x.window p * p.signalWindow ≤ x.height at hmul
  apply Option.ext
  intro a
  rw [previousBoundary_iff, boundary_iff]
  constructor
  · rintro ⟨hab, hlow⟩
    exact ⟨Chain.mem_ancestors_of_height_le (Chain.ancestors_trans hby hab) hx (by omega), by omega⟩
  · rintro ⟨hax, hlow⟩
    exact ⟨Chain.mem_ancestors_of_height_le (Chain.ancestors_trans hx hax) hby (by omega),
      by omega⟩

/-! ## Moves -/

/-- The moves of a state from one window to the next. -/
inductive Moves : ForkState → ForkState → Prop where
  | stay {s : ForkState} : s ≠ lockedIn → Moves s s
  | start : Moves defined started
  | lockIn : Moves started lockedIn
  | fail : Moves started failed
  | activate : Moves lockedIn active

/-- A fork that has started makes one move at a boundary. -/
theorem moves_step (hstart : f.startTime ≤ c.medianTimePast.toNat) (s : ForkState) :
    Moves s (step p f c s) := by
  cases s with
  | defined =>
    rw [step, if_pos hstart]
    exact .start
  | started =>
    rw [step]
    split
    · exact .fail
    · split
      · exact .lockIn
      · exact .stay (by decide)
  | lockedIn => exact .activate
  | active => exact .stay (by decide)
  | failed => exact .stay (by decide)

/-- Before its start a fork is defined at every boundary below, since medians only grow. -/
theorem after_of_early (hwindow : 0 < p.signalWindow) (htimed : c.Timed p)
    (hearly : (c.medianTimePast.toNat : Int) < f.startTime) (hx : x ∈ c.ancestors) :
    after p f (some x) = defined := by
  have hle := UInt32.le_iff_toNat_le.1 (Chain.medianTimePast_mono htimed hx)
  rw [after_some hwindow, if_pos (by omega)]

/-- From one boundary to the next a state makes one of the moves. -/
theorem after_moves (hwindow : 0 < p.signalWindow) (htimed : c.Timed p) :
    Moves (after p f (previousBoundary p c)) (after p f (some c)) := by
  by_cases hearly : (c.medianTimePast.toNat : Int) < f.startTime
  · have hbefore : after p f (previousBoundary p c) = defined := by
      cases hprevious : previousBoundary p c with
      | none => rfl
      | some x => exact after_of_early hwindow htimed hearly (previousBoundary_eq_some hprevious)
    rw [hbefore, after_of_early hwindow htimed hearly c.self_mem_ancestors]
    exact .stay (by decide)
  · rw [after_some hwindow, if_neg hearly]
    exact moves_step (Int.not_lt.1 hearly) _

/-! ## Signals -/

/-- The headers of the window of a block that signal a fork, up to that block. -/
def signallers (p : Params) (f : SignalledFork) (c : Chain) : List Chain :=
  c.ancestors.filter fun x => x.window p == c.window p && signals f x.header

theorem countSignals_eq (n : Nat) (c : Chain) : countSignals f n c
    = (c.ancestors.filter fun x => decide (c.height < x.height + n) && signals f x.header).length := by
  induction c generalizing n with
  | genesis header =>
    cases n with
    | zero => simp [countSignals, Chain.ancestors]
    | succ n =>
      rw [countSignals, Chain.ancestors]
      cases hsignals : signals f header with
      | false => simp [Chain.header, hsignals]
      | true => simp [Chain.header, hsignals]
  | extend header parent ih =>
    cases n with
    | zero =>
      have hnone : (Chain.extend header parent).ancestors.filter (fun x =>
          decide ((Chain.extend header parent).height < x.height + 0) && signals f x.header) = [] := by
        rw [List.filter_eq_nil_iff]
        intro x hx
        have hle := Chain.height_le_of_mem_ancestors hx
        simp only [Bool.and_eq_true, decide_eq_true_eq]
        omega
      rw [hnone]
      rfl
    | succ n =>
      have hbelow : (fun x : Chain => decide ((Chain.extend header parent).height
          < x.height + (n + 1)) && signals f x.header)
          = fun x => decide (parent.height < x.height + n) && signals f x.header := by
        funext x
        simp [← Nat.add_assoc]
      have htop : decide (parent.height < (Chain.extend header parent).height + n) = true := by
        rw [decide_eq_true_eq, Chain.height_extend]
        omega
      rw [countSignals, Chain.ancestors, hbelow, ih, List.filter_cons, htop, Bool.true_and,
        Chain.header_extend]
      cases signals f header with
      | false => exact Nat.zero_add _
      | true => exact Nat.add_comm _ _

/-- At the end of a window, what the walk counts are the signallers of the window. -/
theorem countSignals_boundary (hwindow : 0 < p.signalWindow) (hx : boundary p c = some x) :
    x.window p + 1 = c.window p
      ∧ countSignals f p.signalWindow x = (signallers p f x).length := by
  obtain ⟨-, hheight⟩ := boundary_iff.1 hx
  obtain ⟨k, hk⟩ : ∃ k, c.window p = k + 1 := by
    refine Nat.exists_eq_add_one_of_ne_zero fun hzero => ?_
    rw [hzero, Nat.zero_mul] at hheight
    omega
  rw [hk] at hheight ⊢
  have hmul : (k + 1) * p.signalWindow = k * p.signalWindow + p.signalWindow := Nat.succ_mul k _
  have hlast : x.window p = k := (Chain.window_eq_iff hwindow).2 (by omega)
  rw [hlast]
  refine ⟨rfl, ?_⟩
  rw [countSignals_eq, signallers]
  congr 1
  apply List.filter_congr
  intro y hy
  have hle := Chain.height_le_of_mem_ancestors hy
  congr 1
  rw [Bool.eq_iff_iff, decide_eq_true_eq, beq_iff_eq, hlast, Chain.window_eq_iff hwindow]
  omega

/-! ## Forward -/

/-- How the states `s` of `x` and `s'` of a block `y` above it fit together, and what has locked in
the fork for `y`. -/
structure Forward (p : Params) (f : SignalledFork) (x y : Chain) (s s' : ForkState) : Prop where
  same : x.window p = y.window p → s = s'
  move : y.window p = x.window p + 1 → Moves s s'
  active : s = active → s' = active
  failed : s = failed → s' = failed
  locked : s' = lockedIn → ∃ last ∈ y.ancestors,
    last.height + 1 = y.window p * p.signalWindow ∧ last.window p + 1 = y.window p
      ∧ p.signalThreshold ≤ (signallers p f last).length
      ∧ f.startTime ≤ last.medianTimePast.toNat ∧ (last.medianTimePast.toNat : Int) < f.timeout

/-- A fork is locked in after a boundary where enough headers have signalled it in time. -/
theorem locked_of_after (hwindow : 0 < p.signalWindow)
    (h : after p f (some c) = lockedIn) :
    p.signalThreshold ≤ countSignals f p.signalWindow c
      ∧ f.startTime ≤ c.medianTimePast.toNat ∧ (c.medianTimePast.toNat : Int) < f.timeout := by
  rw [after_some hwindow] at h
  split at h
  · cases h
  · next hstart =>
    cases hbefore : after p f (previousBoundary p c) with
    | defined =>
      rw [hbefore, step] at h
      split at h
      · cases h
      · cases h
    | started =>
      rw [hbefore, step] at h
      split at h
      · cases h
      · next htimeout =>
        split at h
        · next hcount => exact ⟨hcount, Int.not_lt.1 hstart, Int.not_le.1 htimeout⟩
        · cases h
    | lockedIn =>
      rw [hbefore] at h
      cases h
    | active =>
      rw [hbefore] at h
      cases h
    | failed =>
      rw [hbefore] at h
      cases h

theorem after_boundary_moves (hwindow : 0 < p.signalWindow) (htimed : y.Timed p)
    (hx : x ∈ y.ancestors) (h : y.window p = x.window p + 1) :
    Moves (after p f (boundary p x)) (after p f (boundary p y)) := by
  obtain ⟨b, hb⟩ := exists_boundary hwindow (c := y) (by omega)
  rw [← previousBoundary_eq_boundary hx h hb, hb]
  exact after_moves hwindow (htimed.ancestor (boundary_iff.1 hb).1)

/-- A state that no move leaves stays for all blocks above. -/
theorem after_boundary_stays (hwindow : 0 < p.signalWindow) {s : ForkState}
    (hfinal : ∀ t, Moves s t → t = s) (htimed : y.Timed p) (hx : x ∈ y.ancestors)
    (h : after p f (boundary p x) = s) : after p f (boundary p y) = s := by
  have hle := Chain.window_le_of_mem_ancestors (p := p) hx
  -- By induction on the windows in between, through a block of the window before that of `y`.
  obtain ⟨n, hn⟩ : ∃ n, y.window p = x.window p + n := ⟨y.window p - x.window p, by omega⟩
  induction n generalizing y with
  | zero => rw [← boundary_congr hx (by omega), h]
  | succ n ih =>
    obtain ⟨b, hb⟩ := exists_boundary hwindow (c := y) (by omega)
    obtain ⟨hmem, hheight⟩ := boundary_iff.1 hb
    have hlast := (countSignals_boundary (f := f) hwindow hb).1
    have hxb : x ∈ b.ancestors := by
      have hlow := ((Chain.window_eq_iff hwindow).1 (rfl : x.window p = _)).2
      have hhigh := Nat.mul_le_mul_right p.signalWindow (by omega : x.window p + 1 ≤ y.window p)
      exact Chain.mem_ancestors_of_height_le hx hmem (by omega)
    have hbelow := ih (htimed.ancestor hmem) hxb (by omega) (by omega)
    have hmove := after_boundary_moves (f := f) hwindow htimed hmem (by omega)
    rw [hbelow] at hmove
    exact hfinal _ hmove

/-- The states of a fork along a chain whose headers have passed the time rule. -/
theorem forward_of_timed (hwindow : 0 < p.signalWindow) {id : ForkId} (hfork : p.fork? id = some f)
    (hstart : f.startTime ≠ SignalledFork.alwaysActive) (htimed : y.Timed p)
    (hx : x ∈ y.ancestors) : Forward p f x y (of p id x.parent?) (of p id y.parent?) := by
  rw [of_eq_after hfork hstart, of_eq_after hfork hstart]
  change Forward p f x y (after p f (boundary p x)) (after p f (boundary p y))
  refine ⟨fun h => ?_, after_boundary_moves hwindow htimed hx, ?_, ?_, fun h => ?_⟩
  · rw [boundary_congr hx h]
  · refine after_boundary_stays hwindow (fun t ht => ?_) htimed hx
    cases ht
    rfl
  · refine after_boundary_stays hwindow (fun t ht => ?_) htimed hx
    cases ht
    rfl
  · cases hb : boundary p y with
    | none =>
      rw [hb] at h
      cases h
    | some b =>
      rw [hb] at h
      obtain ⟨hmem, hheight⟩ := boundary_iff.1 hb
      obtain ⟨hlast, hcount⟩ := countSignals_boundary (f := f) hwindow hb
      obtain ⟨hsignals, htime⟩ := locked_of_after hwindow h
      rw [hcount] at hsignals
      exact ⟨b, hmem, hheight, hlast, hsignals, htime⟩

end ForkState

/-! ## Caches -/

namespace DeploymentCache

/-- The caches that come of questions about the chains of an index. -/
inductive Asked (p : Params) (index : ChainIndex) : DeploymentCache → Prop where
  | empty : Asked p index empty
  | state {cache : DeploymentCache} (id : ForkId) {prev : Option Chain} :
    Asked p index cache → index.Knows prev → Asked p index (cache.state p id prev).2

variable {p : Params} {f : SignalledFork} {genesis : Header} {index : ChainIndex}
  {cache cache' : DeploymentCache} {x y : Chain}

theorem Asked.agrees (hindex : ChainIndex.Grown genesis index) (h : Asked p index cache) :
    cache.Agrees p index := by
  induction h with
  | empty => exact agrees_empty p index
  | state id _ hknown ih => exact (state_agrees hindex ih id hknown).2

/-- The rules in force for a block are three questions about its parent. -/
theorem Asked.flags (hindex : ChainIndex.Grown genesis index) (h : Asked p index cache)
    (hx : x ∈ index) : Asked p index (cache.flags p x).2 := by
  have hknown : index.Knows x.parent? := fun parent hparent => hindex.parent_mem hx hparent
  exact ((h.state .csv hknown).state .segwit hknown).state .coldStaking hknown

/-- The states of a fork along a chain, as caches with any histories give them, only move forward:
one state for each window, from one window to the next one of the moves, nothing after `active` and
`failed`, and `lockedIn` only by enough signals in the window before, at its end after the start
and before the timeout. -/
theorem state_forward (hwindow : 0 < p.signalWindow) {id : ForkId} (hfork : p.fork? id = some f)
    (hstart : f.startTime ≠ SignalledFork.alwaysActive)
    (hindex : ChainIndex.Grown genesis index) (hy : y ∈ index) (htimed : y.Timed p)
    (hx : x ∈ y.ancestors) (hcache : Asked p index cache) (hcache' : Asked p index cache') :
    ForkState.Forward p f x y (cache.state p id x.parent?).1 (cache'.state p id y.parent?).1 := by
  have hknown {c : Chain} (hc : c ∈ index) : index.Knows c.parent? :=
    fun parent hparent => hindex.parent_mem hc hparent
  rw [(state_agrees hindex (hcache.agrees hindex) id (hknown (hindex.ancestor_mem hy hx))).1,
    (state_agrees hindex (hcache'.agrees hindex) id (hknown hy)).1]
  exact ForkState.forward_of_timed hwindow hfork hstart htimed hx

end DeploymentCache

namespace Regtest

/-- The test network with windows of two blocks, one of which has to signal. -/
def shortWindows : Params := { Params.regtest with signalWindow := 2, signalThreshold := 1 }

/-- Headers that all signal the fork of the lowest bit, one a second. -/
def signalled : Nat → Chain
  | 0 => .genesis ⟨0x20000001, Digest.zero, Digest.zero, 1296688602, ⟨0x207fffff⟩, 0⟩
  | n + 1 =>
    .extend ⟨0x20000001, (signalled n).digest, Digest.zero, (signalled n).time + 1, ⟨0x207fffff⟩, 0⟩
      (signalled n)

theorem named_signalled (n : Nat) : ∀ x ∈ (signalled n).ancestors, ∀ parent,
    x.parent? = some parent → x.header.previous = parent.digest := by
  induction n with
  | zero =>
    intro x hx parent hparent
    rw [List.mem_singleton.1 hx] at hparent
    cases hparent
  | succ n ih =>
    intro x hx parent hparent
    obtain rfl | hx := List.mem_cons.1 hx
    · cases hparent
      rfl
    · exact ih x hx parent hparent

set_option maxRecDepth 10000

theorem exists_index_signalled : ∃ genesis index, ChainIndex.Grown genesis index
    ∧ signalled 7 ∈ index := by
  obtain ⟨genesis, index, hgrown, hmem, -⟩ :=
    ChainIndex.exists_grown (named_signalled 7) (by decide +kernel)
  exact ⟨genesis, index, hgrown, hmem⟩

theorem timed_signalled {n : Nat} (hn : n ≤ 7) : (signalled n).Timed shortWindows := by
  apply Chain.timed_of_later
  revert n
  decide +kernel

theorem mem_ancestors_signalled {m n : Nat} (h : m ≤ n) :
    signalled m ∈ (signalled n).ancestors := Chain.mem_ancestors_of_le (fun _ => rfl) h

/-- The fork has started by the second window, whose headers signal it. -/
theorem of_signalled_lockedIn :
    ForkState.of shortWindows .csv (signalled 4).parent? = .lockedIn := by
  have hstarted : ForkState.after shortWindows ⟨0, 0, SignalledFork.noTimeout⟩
      (ForkState.previousBoundary shortWindows (signalled 3)) = .started := by decide +kernel
  have hintime : ¬SignalledFork.noTimeout ≤ (signalled 3).medianTimePast.toNat := by
    have hlt := (signalled 3).medianTimePast.toNat_lt
    unfold SignalledFork.noTimeout
    omega
  rw [ForkState.of_eq_after rfl (by decide)]
  change ForkState.after shortWindows _ (some (signalled 3)) = _
  rw [ForkState.after_some (by decide), if_neg (by simp), hstarted, ForkState.step,
    if_neg hintime, if_pos (by decide +kernel)]

/-- A fork that has started is locked in by a window of signals. -/
theorem state_forward_signalled :
    (DeploymentCache.empty.state shortWindows .csv (signalled 4).parent?).1 = .lockedIn
    ∧ ForkState.Forward shortWindows ⟨0, 0, SignalledFork.noTimeout⟩ (signalled 3) (signalled 4)
      (DeploymentCache.empty.state shortWindows .csv (signalled 3).parent?).1
      (DeploymentCache.empty.state shortWindows .csv (signalled 4).parent?).1 := by
  obtain ⟨genesis, index, hgrown, hmem⟩ := exists_index_signalled
  have hmem := hgrown.ancestor_mem hmem (mem_ancestors_signalled (by decide : 4 ≤ 7))
  refine ⟨?_, ?_⟩
  · rw [(DeploymentCache.state_agrees hgrown (DeploymentCache.agrees_empty _ _) _
      fun parent hparent => hgrown.parent_mem hmem hparent).1]
    exact of_signalled_lockedIn
  · exact DeploymentCache.state_forward (by decide) rfl (by decide) hgrown hmem
      (timed_signalled (by decide)) (mem_ancestors_signalled (by decide)) .empty .empty

end Regtest

end Chainstate
