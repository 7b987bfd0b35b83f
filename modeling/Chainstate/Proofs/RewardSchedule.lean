-- SUMMARY: The schedule of rewards: it falls with the height, and all of it is worth a bounded amount.
import Chainstate.Network.Params
import Chainstate.Total
import Mathlib.Data.Int.ConditionallyCompleteOrder
import Mathlib.Order.ConditionallyCompleteLattice.Basic
import Mathlib.Tactic.Linarith
import Mathlib.Tactic.Ring

/-!
# The schedule of rewards

A reward is halved once per interval, rounded down. So what is left to issue at a height is at most
the rest of its interval at the present reward and one more interval at that reward
(`Params.outstanding`): each block takes its reward out of that, and where an interval ends, two
intervals of half the reward are no more than one of the whole. The sum of all rewards is therefore
at most two intervals of the first reward (`Params.scheduled_bounded`).
-/

namespace Chainstate

namespace Params

/-- The rewards are halved from interval to interval, and there is no premine. -/
structure Halves (p : Params) : Prop where
  interval : 0 < p.halvingInterval
  reward : 0 ≤ p.workReward
  premine : p.premineReward ≤ 0

variable {p : Params} {height : Nat}

/-! ## One reward -/

/-- The reward of an interval, as long as there are any. -/
def halved (p : Params) (halvings : Nat) : Int := p.workReward >>> halvings

/-- A halving rounds down. -/
theorem halved_succ_le (p : Params) (halvings : Nat) :
    2 * p.halved (halvings + 1) ≤ p.halved halvings := by
  have hhalf : p.halved (halvings + 1) = p.halved halvings / 2 := by
    rw [halved, Int.shiftRight_add, Int.shiftRight_eq_div_pow, halved]
    rfl
  rw [hhalf]
  exact Int.mul_ediv_self_le (by decide)

theorem Halves.halved_nonneg (h : p.Halves) (halvings : Nat) : 0 ≤ p.halved halvings := by
  rw [halved, Int.shiftRight_eq_div_pow]
  exact Int.ediv_nonneg h.reward (Int.natCast_nonneg _)

theorem Halves.antitone_halved (h : p.Halves) : Antitone p.halved :=
  antitone_nat_of_succ_le fun halvings => by
    have hnonneg := h.halved_nonneg (halvings + 1)
    have hhalf := p.halved_succ_le halvings
    omega

/-- Without a premine the reward is that of the interval, until the halvings end. -/
theorem Halves.workRewardAt_eq (h : p.Halves) (height : Nat) :
    p.workRewardAt height
      = if 64 ≤ height / p.halvingInterval then 0 else p.halved (height / p.halvingInterval) := by
  have hpremine : p.isPremine height = false := by
    rw [isPremine, decide_eq_false (Int.not_lt.2 h.premine), Bool.false_and]
  rw [workRewardAt, hpremine, if_neg Bool.false_ne_true, if_neg (Nat.ne_of_gt h.interval)]
  rfl

theorem Halves.workRewardAt_nonneg (h : p.Halves) (height : Nat) : 0 ≤ p.workRewardAt height := by
  rw [h.workRewardAt_eq]
  split
  · exact Int.le_refl 0
  · exact h.halved_nonneg _

theorem Halves.workRewardAt_le (h : p.Halves) (height : Nat) :
    p.workRewardAt height ≤ p.halved (height / p.halvingInterval) := by
  rw [h.workRewardAt_eq]
  split
  · exact h.halved_nonneg _
  · exact Int.le_refl _

theorem Halves.antitone_workRewardAt (h : p.Halves) : Antitone p.workRewardAt := by
  intro low high hle
  have hhalvings : low / p.halvingInterval ≤ high / p.halvingInterval := Nat.div_le_div_right hle
  by_cases hend : 64 ≤ high / p.halvingInterval
  · rw [h.workRewardAt_eq high, if_pos hend]
    exact h.workRewardAt_nonneg low
  · rw [h.workRewardAt_eq high, if_neg hend, h.workRewardAt_eq low,
      if_neg fun hlow => hend (Nat.le_trans hlow hhalvings)]
    exact h.antitone_halved hhalvings

/-! ## All rewards -/

/-- What is left to issue from a height on, at most: the rest of its interval, and another interval
of the same reward for all that come later. -/
def outstanding (p : Params) (height : Nat) : Int :=
  (2 * p.halvingInterval - (height % p.halvingInterval : Nat))
    * p.halved (height / p.halvingInterval)

theorem Halves.outstanding_nonneg (h : p.Halves) (height : Nat) : 0 ≤ p.outstanding height := by
  have hrest : height % p.halvingInterval < p.halvingInterval := Nat.mod_lt _ h.interval
  exact Int.mul_nonneg (by omega) (h.halved_nonneg _)

/-- Within an interval, a block leaves one reward less. -/
theorem Halves.outstanding_within (h : p.Halves)
    (hwithin : height % p.halvingInterval + 1 < p.halvingInterval) :
    p.halved (height / p.halvingInterval) + p.outstanding (height + 1) = p.outstanding height := by
  obtain ⟨hdiv, hmod⟩ := (Nat.div_mod_unique (a := height + 1) h.interval).2
    ⟨by rw [Nat.add_right_comm, Nat.mod_add_div], hwithin⟩
  rw [outstanding, outstanding, hdiv, hmod]
  push_cast
  ring

/-- At the end of an interval, two intervals of the next reward are left, which is no more than one
of the present reward. -/
theorem Halves.outstanding_end (h : p.Halves)
    (hend : height % p.halvingInterval + 1 = p.halvingInterval) :
    p.halved (height / p.halvingInterval) + p.outstanding (height + 1) ≤ p.outstanding height := by
  obtain ⟨hdiv, hmod⟩ := (Nat.div_mod_unique (a := height + 1) h.interval).2
    ⟨show 0 + _ * (height / p.halvingInterval + 1) = _ by
      rw [Nat.zero_add, Nat.mul_succ]
      have := Nat.mod_add_div height p.halvingInterval
      omega, h.interval⟩
  have hrest : (height % p.halvingInterval : Nat) = (p.halvingInterval : Int) - 1 := by omega
  have hhalf : (p.halvingInterval : Int) * (2 * p.halved (height / p.halvingInterval + 1))
      ≤ p.halvingInterval * p.halved (height / p.halvingInterval) :=
    Int.mul_le_mul_of_nonneg_left (p.halved_succ_le _) (Int.natCast_nonneg _)
  rw [outstanding, outstanding, hdiv, hmod, hrest]
  push_cast
  linarith

/-- A block takes its reward out of what is left. -/
theorem Halves.workRewardAt_add_outstanding (h : p.Halves) (height : Nat) :
    p.workRewardAt height + p.outstanding (height + 1) ≤ p.outstanding height := by
  have hreward := h.workRewardAt_le height
  have hrest : height % p.halvingInterval < p.halvingInterval := Nat.mod_lt _ h.interval
  obtain hwithin | hend := Nat.lt_or_eq_of_le hrest
  · have hleft := h.outstanding_within hwithin
    omega
  · have hleft := h.outstanding_end hend
    omega

/-- The rewards below a height and what is left then are no more than what was there to begin with. -/
theorem Halves.totalAmount_add_outstanding (h : p.Halves) (height : Nat) :
    totalAmount ((List.range height).map p.workRewardAt) + p.outstanding height
      ≤ 2 * p.halvingInterval * p.workReward := by
  induction height with
  | zero =>
    simp [outstanding, halved]
  | succ height ih =>
    have hstep := h.workRewardAt_add_outstanding height
    rw [List.range_succ, List.map_append, totalAmount_append, List.map_singleton, totalAmount_cons,
      totalAmount_nil]
    omega

theorem Halves.totalAmount_le (h : p.Halves) (height : Nat) :
    totalAmount ((List.range height).map p.workRewardAt)
      ≤ 2 * p.halvingInterval * p.workReward := by
  have hnonneg := h.outstanding_nonneg height
  have htotal := h.totalAmount_add_outstanding height
  omega

/-- On the networks of proof of work two intervals of the first reward are not more than all money. -/
theorem halves_of_mem (hp : p ∈ [main, test, regtest]) :
    p.Halves ∧ 2 * p.halvingInterval * p.workReward ≤ p.maxMoney := by
  simp only [List.mem_cons, List.not_mem_nil, or_false] at hp
  obtain rfl | rfl | rfl := hp
  · exact ⟨⟨by decide, by decide, by decide⟩, by decide⟩
  · exact ⟨⟨by decide, by decide, by decide⟩, by decide⟩
  · exact ⟨⟨by decide, by decide, by decide⟩, by decide⟩

/-- The schedule is bounded. Where rewards halve and there is no premine, they are never negative
and never rise, and all of them up to any height are worth at most two intervals of the first one.
On the networks of proof of work that is never more than all the money there may be. -/
theorem scheduled_bounded :
    (∀ p : Params, 0 < p.halvingInterval → 0 ≤ p.workReward → p.premineReward ≤ 0 →
      (∀ height, 0 ≤ p.workRewardAt height) ∧ Antitone p.workRewardAt
        ∧ ∀ n, totalAmount ((List.range (n + 1)).map p.workRewardAt)
          ≤ 2 * p.halvingInterval * p.workReward)
    ∧ ∀ p ∈ [main, test, regtest], ∀ n,
      totalAmount ((List.range (n + 1)).map p.workRewardAt) ≤ p.maxMoney := by
  refine ⟨fun p hinterval hreward hpremine => ?_, fun p hp n => ?_⟩
  · have h : p.Halves := ⟨hinterval, hreward, hpremine⟩
    exact ⟨h.workRewardAt_nonneg, h.antitone_workRewardAt, fun n => h.totalAmount_le (n + 1)⟩
  · obtain ⟨h, hmoney⟩ := halves_of_mem hp
    exact Int.le_trans (h.totalAmount_le (n + 1)) hmoney

end Params

end Chainstate
