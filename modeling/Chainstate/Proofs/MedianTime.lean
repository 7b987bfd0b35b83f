-- SUMMARY: The median time past: how it is read off counts, and that the time rule lets it only grow.
import Chainstate.Proofs.HeaderTree
import Chainstate.Validation.Header

/-!
# Median time

The median is at least a time exactly where at most half of the last headers are earlier
(`Chain.le_medianTimePast_iff`). A header that passes the time rule is later than the median before
it, so adding it and dropping the oldest header of a full window makes no more headers earlier than
that median, and no fewer headers in all: along chains whose headers have passed the rule, the
median never decreases (`Chain.medianTimePast_mono`).
-/

namespace Chainstate

/-! ## Ranks -/

/-- The element at a place of a sorted list is at least `m` where that many elements at most are
less. -/
theorem le_getD_iff_countP {s : List UInt32} (hs : s.Pairwise (· ≤ ·)) {m : UInt32} {i : Nat}
    (hi : i < s.length) : m ≤ s.getD i 0 ↔ (s.countP fun x => decide (x < m)) ≤ i := by
  induction s generalizing i with
  | nil => cases hi
  | cons x rest ih =>
    obtain ⟨hx, hrest⟩ := List.pairwise_cons.1 hs
    by_cases hlt : x < m
    · rw [List.countP_cons_of_pos (by simpa using hlt)]
      cases i with
      | zero => simpa using hlt
      | succ i =>
        rw [List.getD_cons_succ, ih hrest (Nat.lt_of_succ_lt_succ hi), Nat.add_le_add_iff_right]
    · have hnone : (rest.countP fun x => decide (x < m)) = 0 := by
        rw [List.countP_eq_zero]
        intro y hy hym
        exact hlt (UInt32.lt_of_le_of_lt (hx y hy) (by simpa using hym))
      rw [List.countP_cons_of_neg (by simpa using hlt), hnone]
      cases i with
      | zero => simpa using hlt
      | succ i =>
        rw [List.getD_cons_succ, ih hrest (Nat.lt_of_succ_lt_succ hi), hnone]
        simp

namespace Chain

/-! ## Medians -/

/-- The times of the last headers, read off the ancestors. -/
theorem lastTimes_eq (n : Nat) (c : Chain) : lastTimes n c = (c.ancestors.map time).take n := by
  induction c generalizing n with
  | genesis header =>
    cases n with
    | zero => rfl
    | succ n =>
      rw [ancestors, List.map_singleton, List.take_succ_cons, List.take_nil]
      rfl
  | extend header parent ih =>
    cases n with
    | zero => rfl
    | succ n =>
      rw [lastTimes, ih]
      rfl

theorem length_lastTimes_pos (n : Nat) (c : Chain) : 0 < (lastTimes (n + 1) c).length := by
  cases c with
  | genesis header => exact Nat.succ_pos _
  | extend header parent => exact Nat.succ_pos _

/-- The median is at least `m` where at most half of the last eleven times are less. -/
theorem le_medianTimePast_iff {c : Chain} {m : UInt32} :
    m ≤ c.medianTimePast
      ↔ ((lastTimes 11 c).countP fun t => decide (t < m)) ≤ (lastTimes 11 c).length / 2 := by
  have hperm : (sortBy (· ≤ ·) (lastTimes 11 c)).Perm (lastTimes 11 c) := perm_sortBy _ _
  have hsorted : (sortBy (· ≤ ·) (lastTimes 11 c)).Pairwise (· ≤ ·) := by
    have htrans : ∀ a b c : UInt32, decide (a ≤ b) = true → decide (b ≤ c) = true →
        decide (a ≤ c) = true := by
      simp only [decide_eq_true_eq]
      exact fun a b c => UInt32.le_trans
    have htotal : ∀ a b : UInt32, decide (a ≤ b) = true ∨ decide (b ≤ a) = true := by
      simpa using UInt32.le_total
    exact (pairwise_sortBy htrans htotal (lastTimes 11 c)).imp of_decide_eq_true
  have hpos : 0 < (lastTimes 11 c).length := length_lastTimes_pos 10 c
  unfold medianTimePast
  simp only
  rw [le_getD_iff_countP hsorted (by rw [hperm.length_eq]; omega), hperm.countP_eq,
    hperm.length_eq]

/-- A header later than the median before it does not lower the median. -/
theorem medianTimePast_le_extend {header : Header} {parent : Chain}
    (h : parent.medianTimePast < header.time) :
    parent.medianTimePast ≤ (extend header parent).medianTimePast := by
  have hbefore := le_medianTimePast_iff.1 (UInt32.le_refl parent.medianTimePast)
  rw [le_medianTimePast_iff, lastTimes, List.countP_cons_of_neg (by simpa using UInt32.le_of_lt h)]
  have hdrop : lastTimes 10 parent = (lastTimes 11 parent).take 10 := by
    rw [lastTimes_eq, lastTimes_eq, List.take_take]
    rfl
  have hcount : ((lastTimes 10 parent).countP fun t => decide (t < parent.medianTimePast))
      ≤ (lastTimes 11 parent).countP fun t => decide (t < parent.medianTimePast) := by
    rw [hdrop]
    exact (List.take_sublist _ _).countP_le
  have hlength : (lastTimes 11 parent).length ≤ (header.time :: lastTimes 10 parent).length := by
    rw [hdrop, List.length_cons, List.length_take, lastTimes_eq, List.length_take]
    omega
  exact Nat.le_trans hcount (Nat.le_trans hbefore (Nat.div_le_div_right hlength))

/-! ## The time rule -/

/-- Every header of the chain has passed the time rule, each at some time of the clock. -/
def Timed (p : Params) (c : Chain) : Prop :=
  ∀ x ∈ c.ancestors, ∃ now, x.checkTime p now = .ok ()

variable {p : Params} {c : Chain}

theorem Timed.ancestor (h : c.Timed p) {x : Chain} (hx : x ∈ c.ancestors) : x.Timed p :=
  fun y hy => h y (ancestors_trans hx hy)

theorem checkTime_extend_ok {now : UInt32} {header : Header} {parent : Chain} :
    (Chain.extend header parent).checkTime p now = .ok ()
      ↔ parent.medianTimePast < header.time ∧ header.time.toNat ≤ now.toNat + p.maxFutureDrift := by
  rw [checkTime, ← UInt32.not_le, ← Nat.not_lt]
  split
  · next hearly => simp [hearly]
  · next hlater =>
    split
    · next hfar => simp [hfar]
    · next hnear => simp [hlater, hnear]

/-- The median of times before `t` is before `t`. -/
theorem medianTimePast_lt {t : UInt32} (h : ∀ x ∈ c.ancestors, x.time < t) :
    c.medianTimePast < t := by
  rw [← UInt32.not_le, le_medianTimePast_iff]
  have hall : ((lastTimes 11 c).countP fun time => decide (time < t)) = (lastTimes 11 c).length := by
    rw [List.countP_eq_length, lastTimes_eq]
    intro time htime
    obtain ⟨x, hx, rfl⟩ := List.mem_map.1 (List.mem_of_mem_take htime)
    exact decide_eq_true (h x hx)
  have hpos : 0 < (lastTimes 11 c).length := length_lastTimes_pos 10 c
  omega

/-- Headers that are each later than all below pass the time rule. -/
theorem timed_of_later (h : ∀ x ∈ c.ancestors, ∀ y ∈ x.lower, y.time < x.time) : c.Timed p := by
  intro x hx
  refine ⟨x.time, ?_⟩
  cases x with
  | genesis header => rfl
  | extend header parent =>
    exact checkTime_extend_ok.2 ⟨medianTimePast_lt (h _ hx), Nat.le_add_right _ _⟩

/-- The median time past never decreases along a chain whose headers have passed the time rule. -/
theorem medianTimePast_mono (h : c.Timed p) {x : Chain} (hx : x ∈ c.ancestors) :
    x.medianTimePast ≤ c.medianTimePast := by
  induction c with
  | genesis header =>
    rw [List.mem_singleton.1 hx]
    exact UInt32.le_refl _
  | extend header parent ih =>
    obtain rfl | hx := List.mem_cons.1 hx
    · exact UInt32.le_refl _
    · obtain ⟨now, hnow⟩ := h _ (self_mem_ancestors _)
      have hparent : parent.Timed p := h.ancestor (List.mem_cons_of_mem _ (self_mem_ancestors _))
      exact UInt32.le_trans (ih hparent hx)
        (medianTimePast_le_extend (checkTime_extend_ok.1 hnow).1)

end Chain

end Chainstate
