-- SUMMARY: Forks past their timeout: which are over, and which only start then.
import Chainstate.Proofs.ForkQuestions

/-!
# Forks past their timeout

The timeout of a fork is looked at only where the fork has started. At a boundary past the timeout a
fork that has started is over, one way or the other. A fork that has not, since the boundary a
window earlier was still before its start, starts there all the same, and is over one window later
(`ForkState.after_of_expired`).
-/

namespace Chainstate

namespace ForkState

variable {p : Params} {f : SignalledFork} {c x y : Chain}

/-! ## Boundaries past the timeout -/

/-- No step past the start leaves a fork only defined. -/
theorem step_ne_defined (hstart : f.startTime ≤ c.medianTimePast.toNat) (s : ForkState) :
    step p f c s ≠ defined := by
  cases s with
  | defined =>
    rw [step, if_pos hstart]
    decide
  | started =>
    rw [step]
    split
    · decide
    · split
      · decide
      · decide
  | lockedIn => simp [step]
  | active => simp [step]
  | failed => simp [step]

/-- A fork is only defined after a boundary exactly where that is no boundary or before the start. -/
theorem after_eq_defined_iff (hwindow : 0 < p.signalWindow) {boundary : Option Chain} :
    after p f boundary = defined
      ↔ ∀ x, boundary = some x → (x.medianTimePast.toNat : Int) < f.startTime := by
  cases boundary with
  | none =>
    constructor
    · intro _ x hx
      cases hx
    · exact fun _ => rfl
  | some c =>
    rw [after_some hwindow]
    constructor
    · rintro h x ⟨⟩
      by_contra hstarted
      rw [if_neg hstarted] at h
      exact step_ne_defined (Int.not_lt.1 hstarted) _ h
    · intro h
      rw [if_pos (h c rfl)]

/-- What a step past the timeout leads to: only a fork that has not started starts. -/
theorem step_of_expired (hspan : f.startTime < f.timeout)
    (hexpired : f.timeout ≤ c.medianTimePast.toNat) (s : ForkState) :
    (step p f c s = started ↔ s = defined)
      ∧ (step p f c s = started ∨ step p f c s = active ∨ step p f c s = failed) := by
  cases s with
  | defined =>
    rw [step, if_pos (by omega)]
    simp
  | started =>
    rw [step, if_pos hexpired]
    simp
  | lockedIn => simp [step]
  | active => simp [step]
  | failed => simp [step]

/-- After a boundary past the timeout a fork is started where the boundary a window earlier was
before its start, and over otherwise. -/
theorem after_of_expired (hwindow : 0 < p.signalWindow) (hspan : f.startTime < f.timeout)
    (hexpired : f.timeout ≤ c.medianTimePast.toNat) :
    (after p f (some c) = started ↔ ∀ x, previousBoundary p c = some x →
        (x.medianTimePast.toNat : Int) < f.startTime)
      ∧ (after p f (some c) = started ∨ after p f (some c) = active
        ∨ after p f (some c) = failed) := by
  rw [after_some hwindow, if_neg (by omega), ← after_eq_defined_iff hwindow]
  exact step_of_expired hspan hexpired _

/-- A window after a boundary past the timeout a fork is over, since medians only grow. -/
theorem over_of_expired (hwindow : 0 < p.signalWindow) (hspan : f.startTime < f.timeout)
    (htimed : y.Timed p) (hx : x ∈ y.ancestors) (hlater : x.window p < y.window p)
    {last : Chain} (hlast : boundary p x = some last)
    (hexpired : f.timeout ≤ last.medianTimePast.toNat) :
    after p f (boundary p y) = active ∨ after p f (boundary p y) = failed := by
  obtain ⟨b, hb⟩ := exists_boundary hwindow (c := y) (by omega)
  obtain ⟨hmem, hheight⟩ := boundary_iff.1 hb
  obtain ⟨hbelow, hends⟩ := boundary_iff.1 hlast
  have hgap := Nat.mul_le_mul_right p.signalWindow (Nat.succ_le_of_lt hlater)
  rw [Nat.succ_mul] at hgap
  have hmono {z : Chain} (hz : z ∈ y.ancestors) (hle : last.height ≤ z.height) :
      last.medianTimePast.toNat ≤ z.medianTimePast.toNat := by
    have hlow := Chain.mem_ancestors_of_height_le (Chain.ancestors_trans hx hbelow) hz hle
    exact UInt32.le_iff_toNat_le.1 (Chain.medianTimePast_mono (htimed.ancestor hz) hlow)
  have hlate := hmono hmem (by omega)
  obtain ⟨hstarted, hstates⟩ := after_of_expired (f := f) hwindow hspan (c := b) (by omega)
  rw [hb]
  refine hstates.resolve_left fun h => ?_
  -- The boundary before that of `y` is not below the one that is past the timeout.
  obtain ⟨d, hd, hd'⟩ := Chain.exists_mem_ancestors (Nat.sub_le b.height p.signalWindow)
  have hearly := hstarted.1 h d (previousBoundary_iff.2 ⟨hd, by omega⟩)
  have hlate := hmono (Chain.ancestors_trans hmem hd) (by omega)
  omega

end ForkState

/-! ## Caches -/

namespace DeploymentCache

variable {p : Params} {f : SignalledFork} {id : ForkId} {tree : HeaderTree}
  {qs : List ForkQuestion} {y last : Chain}

/-- The state of a fork, as a cache that has been asked about the blocks of a tree gives it, for a
block whose boundary `last` is past the timeout. The fork is never only defined, and it has started
exactly where no boundary a window earlier has reached the start; otherwise it is active or failed.
In all later windows it is active or failed, if the headers have passed the time rule. -/
theorem state_of_expired (hwindow : 0 < p.signalWindow) (hfork : p.fork? id = some f)
    (hstart : 0 ≤ f.startTime) (hspan : f.startTime < f.timeout)
    (hqs : ∀ q ∈ qs, q.About tree) (hy : tree.Knows y.parent?) (hlast : last ∈ y.ancestors)
    (hends : last.height + 1 = y.window p * p.signalWindow)
    (hexpired : f.timeout ≤ last.medianTimePast.toNat) :
    ∃ cache, (ForkQuestion.askAll p qs .empty).2 = cache
      ∧ ((cache.state p id y.parent?).1 = .started ∨ (cache.state p id y.parent?).1 = .active
        ∨ (cache.state p id y.parent?).1 = .failed)
      ∧ ((cache.state p id y.parent?).1 = .started
        ↔ ∀ x ∈ last.ancestors, x.height + p.signalWindow = last.height →
          (x.medianTimePast.toNat : Int) < f.startTime)
      ∧ ∀ z : Chain, tree.Knows z.parent? → z.Timed p → y ∈ z.ancestors → y.window p < z.window p →
        (cache.state p id z.parent?).1 = .active ∨ (cache.state p id z.parent?).1 = .failed := by
  obtain ⟨-, hagrees⟩ := ForkQuestion.askAll_spec (agreesOn_empty p tree) hqs
  have hsignalled : f.startTime ≠ SignalledFork.alwaysActive := by
    unfold SignalledFork.alwaysActive
    omega
  have hstate {c : Chain} (hc : tree.Knows c.parent?) :
      ((ForkQuestion.askAll p qs .empty).2.state p id c.parent?).1
        = ForkState.after p f (ForkState.boundary p c) := by
    rw [(hagrees.state id hc).1, ForkState.of_eq_after hfork hsignalled]
    rfl
  have hboundary : ForkState.boundary p y = some last := ForkState.boundary_iff.2 ⟨hlast, hends⟩
  obtain ⟨hstarted, hstates⟩ := ForkState.after_of_expired hwindow hspan hexpired
  refine ⟨_, rfl, ?_, ?_, fun z hz htimed hyz hlater => ?_⟩
  · rw [hstate hy, hboundary]
    exact hstates
  · rw [hstate hy, hboundary, hstarted]
    constructor
    · exact fun h x hx hheight => h x (ForkState.previousBoundary_iff.2 ⟨hx, hheight⟩)
    · intro h x hx
      obtain ⟨hmem, hheight⟩ := ForkState.previousBoundary_iff.1 hx
      exact h x hmem hheight
  · rw [hstate hz]
    exact ForkState.over_of_expired hwindow hspan htimed hyz hlater hboundary hexpired

end DeploymentCache

/-! ## A start and a timeout between two boundaries -/

namespace Regtest

/-- The fork of the lowest bit may be signalled for five minutes. -/
def briefly : Params := { shortWindows with csv := some ⟨0, 1700, 2000⟩ }

/-- Headers that signal nothing, one every ten minutes. -/
def steady : Nat → Chain
  | 0 => .genesis ⟨1, Digest.zero, Digest.zero, 1000, ⟨0x207fffff⟩, 0⟩
  | n + 1 =>
    .extend ⟨1, (steady n).digest, Digest.zero, (steady n).time + 600, ⟨0x207fffff⟩, 0⟩ (steady n)

set_option maxRecDepth 10000

def steadyTree : HeaderTree :=
  .ofList (steady 5).ancestors
    (fun _ hc _ h =>
      Chain.ancestors_trans hc (Chain.mem_ancestors_of_parent? h (Chain.self_mem_ancestors _)))
    (by decide +kernel)

theorem mem_ancestors_steady {m n : Nat} (h : m ≤ n) : steady m ∈ (steady n).ancestors :=
  Chain.mem_ancestors_of_le (fun _ => rfl) h

theorem knows_steady {n : Nat} (hn : n ≤ 5) : steadyTree.Knows (some (steady n)) := by
  rintro c ⟨⟩
  exact mem_ancestors_steady hn

/-- The median passes the start and the timeout between the ends of the first two windows. -/
theorem medianTimePast_steady : (steady 1).medianTimePast < 1700
    ∧ 2000 ≤ (steady 3).medianTimePast := by
  rw [← UInt32.not_le, Chain.le_medianTimePast_iff, Chain.le_medianTimePast_iff]
  decide +kernel

theorem timed_steady : (steady 6).Timed briefly := by
  apply Chain.timed_of_later
  decide +kernel

/-- After the second window the fork starts, though its time is over, and it is over after the
third. -/
theorem state_of_expired_steady :
    ∃ cache, (ForkQuestion.askAll briefly [.flags (steady 4)] .empty).2 = cache
      ∧ (2000 : Int) ≤ (steady 3).medianTimePast.toNat ∧ (steady 6).Timed briefly
      ∧ (cache.state briefly .csv (some (steady 3))).1 = .started
      ∧ ((cache.state briefly .csv (some (steady 5))).1 = .active
        ∨ (cache.state briefly .csv (some (steady 5))).1 = .failed) := by
  obtain ⟨hearly, hexpired⟩ := medianTimePast_steady
  have hexpired : (2000 : Int) ≤ (steady 3).medianTimePast.toNat :=
    Int.ofNat_le.2 (UInt32.le_iff_toNat_le.1 hexpired)
  have hasked : ∀ q ∈ [ForkQuestion.flags (steady 4)], q.About steadyTree := by
    intro q hq
    rw [List.mem_singleton.1 hq]
    exact mem_ancestors_steady (by decide)
  obtain ⟨cache, hcache, -, hstarted, hover⟩ := DeploymentCache.state_of_expired
    (by decide) (show briefly.fork? .csv = some ⟨0, 1700, 2000⟩ from rfl) (by decide) (by decide)
    hasked (show steadyTree.Knows (steady 4).parent? from knows_steady (by decide))
    (mem_ancestors_steady (by decide : 3 ≤ 4)) (by decide) hexpired
  refine ⟨cache, hcache, hexpired, timed_steady, hstarted.2 fun x hx hheight => ?_, ?_⟩
  · have hsame : x = steady 1 :=
      Chain.eq_of_height_eq hx (mem_ancestors_steady (by decide)) (Nat.add_right_cancel hheight)
    rw [hsame]
    exact Int.ofNat_lt.2 (UInt32.lt_iff_toNat_lt.1 hearly)
  · exact hover (steady 6) (knows_steady (by decide)) timed_steady
      (mem_ancestors_steady (by decide)) (by decide)

end Regtest

end Chainstate
