-- SUMMARY: Lock times: a transaction that is final for a block stays final for all blocks above it.
import Chainstate.Proofs.ForkStates
import Chainstate.Validation.Contents

/-!
# Lock times

Lock times below a threshold are heights and the others are times, so a transaction that is final
at a height and a time is final at any later ones (`Transaction.isFinal_mono`). Heights grow along
a chain. The times of blocks need not, which is why the rule compares with the median time past
where the fork is active: the fork stays active above a block and the medians do not decrease.
-/

namespace Chainstate

theorem Transaction.isFinal_mono {tx : Transaction} {height height' : Nat} {time time' : Int}
    (h : tx.isFinal height time = true) (hheight : height ≤ height') (htime : time ≤ time') :
    tx.isFinal height' time' = true := by
  unfold isFinal at h ⊢
  simp only [Bool.or_eq_true, decide_eq_true_eq] at h ⊢
  obtain (hzero | hreached) | hgivenUp := h
  · exact .inl (.inl hzero)
  · refine .inl (.inr ?_)
    split at hreached
    · next hlow =>
      rw [if_pos hlow]
      omega
    · next hhigh =>
      rw [if_neg hhigh]
      omega
  · exact .inr hgivenUp

namespace ForkState

variable {p : Params} {id : ForkId} {x y : Chain}

/-- An active fork is active for all blocks above, also one that needs no signals. -/
theorem of_active (hwindow : 0 < p.signalWindow) (htimed : y.Timed p) (hx : x ∈ y.ancestors)
    (h : of p id x.parent? = active) : of p id y.parent? = active := by
  cases hfork : p.fork? id with
  | none =>
    rw [of, hfork] at h
    cases h
  | some f =>
    by_cases hstart : f.startTime = SignalledFork.alwaysActive
    · rw [of, hfork]
      exact if_pos hstart
    · exact (forward_of_timed hwindow hfork hstart htimed hx).active h

end ForkState

/-! ## Cutoffs -/

namespace Block

variable {b : Block} {p : Params} {c parent : Chain}

/-- Where the fork is active, a block on a parent is compared with the median at that parent. -/
theorem lockTimeCutoff_of_active (hparent : c.parent? = some parent)
    (hactive : ForkState.of p .csv c.parent? = .active) :
    b.lockTimeCutoff (c.flags p) c = parent.medianTimePast := by
  have hflag : (c.flags p).lockTime.medianTimePast = true := beq_iff_eq.2 hactive
  rw [lockTimeCutoff, hparent, hflag]
  rfl

end Block

/-! ## Finality -/

/-- A block above another that has a parent has a parent itself, with the other's parent below. -/
theorem Chain.exists_parent_above {x y parent : Chain} (hx : x ∈ y.ancestors)
    (hparent : x.parent? = some parent) :
    ∃ above, y.parent? = some above ∧ parent ∈ above.ancestors := by
  cases y with
  | genesis header =>
    rw [List.mem_singleton.1 hx] at hparent
    cases hparent
  | extend header above =>
    refine ⟨above, rfl, ?_⟩
    obtain rfl | hx := List.mem_cons.1 hx
    · cases hparent
      exact self_mem_ancestors _
    · exact ancestors_trans hx (mem_ancestors_of_parent? hparent (self_mem_ancestors _))

/-- A transaction that is final for a block where the fork on lock times is active is final for
every block above it: whatever blocks carry the headers, and whatever the caches were asked that
say which rules are in force. -/
theorem Transaction.isFinal_descendant {p : Params} {genesis : Header} {index : ChainIndex}
    {tx : Transaction} {x y : Chain} {b b' : Block} {cache cache' : DeploymentCache}
    (hwindow : 0 < p.signalWindow) (hindex : ChainIndex.Grown genesis index) (hy : y ∈ index)
    (htimed : y.Timed p) (hx : x ∈ y.ancestors) (hgenesis : x.parent? ≠ none)
    (hcache : cache.Asked p index) (hcache' : cache'.Asked p index)
    (hactive : (cache.state p .csv x.parent?).1 = .active)
    (hfinal : tx.isFinal x.height (b.lockTimeCutoff (cache.flags p x).1 x).toNat = true) :
    tx.isFinal y.height (b'.lockTimeCutoff (cache'.flags p y).1 y).toNat = true := by
  obtain ⟨parent, hparent⟩ := Option.ne_none_iff_exists'.1 hgenesis
  obtain ⟨above, habove, hbelow⟩ := Chain.exists_parent_above hx hparent
  have hxin : x ∈ index := hindex.ancestor_mem hy hx
  have hagrees := hcache.agrees hindex
  rw [(DeploymentCache.state_agrees hindex hagrees .csv
    fun c hc => hindex.parent_mem hxin hc).1] at hactive
  have hstays := ForkState.of_active hwindow htimed hx hactive
  rw [(DeploymentCache.flags_agrees hindex hagrees hxin).1,
    Block.lockTimeCutoff_of_active hparent hactive] at hfinal
  rw [(DeploymentCache.flags_agrees hindex (hcache'.agrees hindex) hy).1,
    Block.lockTimeCutoff_of_active habove hstays]
  have hmedian : parent.medianTimePast ≤ above.medianTimePast :=
    Chain.medianTimePast_mono
      (htimed.ancestor (Chain.mem_ancestors_of_parent? habove (Chain.self_mem_ancestors _))) hbelow
  exact isFinal_mono hfinal (Chain.height_le_of_mem_ancestors hx)
    (Int.ofNat_le.2 (UInt32.le_iff_toNat_le.1 hmedian))

namespace Regtest

/-- The fork is active in the window after the one that it was locked in for. -/
theorem of_signalled_active : ForkState.of shortWindows .csv (signalled 6).parent? = .active := by
  have hforward : ForkState.Forward shortWindows ⟨0, 0, SignalledFork.noTimeout⟩ (signalled 4)
      (signalled 6) (ForkState.of shortWindows .csv (signalled 4).parent?)
      (ForkState.of shortWindows .csv (signalled 6).parent?) :=
    ForkState.forward_of_timed (by decide) rfl (by decide) (timed_signalled (by decide))
      (mem_ancestors_signalled (by decide))
  have hmove := hforward.move (by decide)
  rw [of_signalled_lockedIn] at hmove
  generalize ForkState.of shortWindows .csv (signalled 6).parent? = s at hmove ⊢
  cases hmove with
  | stay hne => exact absurd rfl hne
  | activate => rfl

/-- A block with a transaction that waits for a height, with an input that holds it back until
then. -/
def waiting (n : Nat) : Block :=
  ⟨(signalled n).header, [⟨1, [⟨⟨Digest.zero, 0⟩, ⟨[]⟩, 0⟩], [⟨1, ⟨[0x51]⟩⟩], 5⟩], []⟩

set_option maxRecDepth 10000

/-- The transaction is final above the height that it waits for, and stays so. -/
theorem isFinal_descendant_waiting : ∃ tx ∈ (waiting 7).transactions,
    tx.isFinal 6 ((waiting 6).lockTimeCutoff
      (DeploymentCache.empty.flags shortWindows (signalled 6)).1 (signalled 6)).toNat = true
    ∧ tx.isFinal (signalled 7).height ((waiting 7).lockTimeCutoff
      (DeploymentCache.empty.flags shortWindows (signalled 7)).1 (signalled 7)).toNat = true := by
  obtain ⟨genesis, index, hgrown, hmem⟩ := exists_index_signalled
  have hbelow : signalled 6 ∈ (signalled 7).ancestors := mem_ancestors_signalled (by decide)
  have hmem' := hgrown.ancestor_mem hmem hbelow
  have hactive : (DeploymentCache.empty.state shortWindows .csv (signalled 6).parent?).1
      = .active := by
    rw [(DeploymentCache.state_agrees hgrown (DeploymentCache.agrees_empty _ _) _
      fun parent hparent => hgrown.parent_mem hmem' hparent).1]
    exact of_signalled_active
  refine ⟨_, List.mem_singleton_self _, ?_⟩
  have hfinal : Transaction.isFinal ⟨1, [⟨⟨Digest.zero, 0⟩, ⟨[]⟩, 0⟩], [⟨1, ⟨[0x51]⟩⟩], 5⟩
      (signalled 6).height ((waiting 6).lockTimeCutoff
        (DeploymentCache.empty.flags shortWindows (signalled 6)).1 (signalled 6)).toNat = true := by
    decide +kernel
  exact ⟨hfinal, Transaction.isFinal_descendant (by decide) hgrown hmem
    (timed_signalled (by decide)) hbelow (by simp [signalled]) .empty .empty hactive hfinal⟩

end Regtest

end Chainstate
