-- SUMMARY: Targets of proof of work: the header that each follows, and the interval that moves it.
import Chainstate.Network.Params
import Chainstate.Proofs.HeaderTree
import Chainstate.Retarget

/-!
# Targets of proof of work

A header inside an interval has the target of its parent; on networks with undemanding headers it
has the limit when it is late, and otherwise the target of the nearest header below that was not
itself undemanding (`NearestRegular`). A header on the boundary of an interval has its parent's
target scaled by the time that the interval took (`scaledTarget`), from its first header
(`StartsInterval`) to its last. The main statement is `workTarget_follows`.
-/

namespace Chainstate

/-- `c'` is `c` but for its last header, which has the same bits and a time that is no earlier. -/
structure Chain.Later (c c' : Chain) : Prop where
  parent : c'.parent? = c.parent?
  bits : c'.header.bits = c.header.bits
  time : c.time.toNat ≤ c'.time.toNat

theorem Chain.Later.height {c c' : Chain} (h : c.Later c') : c'.height = c.height := by
  have hparent := h.parent
  cases c with
  | genesis header =>
    cases c' with
    | genesis header' => rfl
    | extend header' parent' => cases hparent
  | extend header parent =>
    cases c' with
    | genesis header' => cases hparent
    | extend header' parent' =>
      cases hparent
      rfl

namespace Retarget

variable {p : Params}

theorem storedTarget_of_decode {h : Header} {target : Nat} (hdecode : h.bits.decode = .ok target) :
    storedTarget h = .ok target := by
  rw [storedTarget, hdecode]
  rfl

/-! ## Inside an interval -/

/-- A chain whose last header a target may follow: it stands on the boundary of an interval, or has
other bits than those of the limit. -/
def Regular (p : Params) (x : Chain) : Prop :=
  p.workInterval ∣ x.height ∨ x.header.bits ≠ CompactTarget.ofTarget p.workLimit

instance (x : Chain) : Decidable (Regular p x) := inferInstanceAs (Decidable (_ ∨ _))

/-- `x` is the nearest regular chain at or below `c`. -/
structure NearestRegular (p : Params) (c x : Chain) : Prop where
  mem : x ∈ c.ancestors
  regular : Regular p x
  nearest : ∀ y ∈ c.ancestors, Regular p y → y.height ≤ x.height

theorem regular_extend {header : Header} {parent : Chain} :
    Regular p (.extend header parent) ↔ (parent.height + 1) % p.workInterval = 0
      ∨ header.bits ≠ CompactTarget.ofTarget p.workLimit := by
  rw [Regular, Chain.height_extend, Chain.header_extend, Nat.dvd_iff_mod_eq_zero]

/-- The walk down a chain ends at the nearest regular chain; a genesis is one. -/
theorem nearestRegular_lastRegular (p : Params) (c : Chain) :
    NearestRegular p c (lastRegular p c) := by
  induction c with
  | genesis header =>
    refine ⟨Chain.self_mem_ancestors _, .inl (Nat.dvd_zero _), ?_⟩
    intro y hy _
    exact Chain.height_le_of_mem_ancestors hy
  | extend header parent ih =>
    rw [lastRegular]
    split
    · next hstop =>
      refine ⟨Chain.self_mem_ancestors _, regular_extend.2 hstop, ?_⟩
      intro y hy _
      exact Chain.height_le_of_mem_ancestors hy
    · next hgo =>
      refine ⟨List.mem_cons_of_mem _ ih.mem, ih.regular, ?_⟩
      intro y hy hregular
      rcases List.mem_cons.1 hy with rfl | hbelow
      · exact absurd (regular_extend.1 hregular) hgo
      · exact ih.nearest y hbelow hregular

section Inside

variable {header : Header} {parent : Chain} (h : ¬p.workInterval ∣ parent.height + 1)

include h

theorem workTarget_of_demanding (hmin : p.allowMinDifficulty = false) :
    workTarget p (.extend header parent) = storedTarget parent.header := by
  rw [workTarget, if_pos (mt Nat.dvd_of_mod_eq_zero h), hmin]
  rfl

theorem workTarget_of_late (hmin : p.allowMinDifficulty = true)
    (hlate : parent.time.toNat + 2 * p.targetSpacing < header.time.toNat) :
    workTarget p (.extend header parent) = .ok p.workLimit := by
  rw [workTarget, if_pos (mt Nat.dvd_of_mod_eq_zero h), hmin, if_neg (by decide), if_pos hlate]

theorem workTarget_of_timely (hmin : p.allowMinDifficulty = true)
    (htimely : header.time.toNat ≤ parent.time.toNat + 2 * p.targetSpacing) :
    workTarget p (.extend header parent) = storedTarget (lastRegular p parent).header := by
  rw [workTarget, if_pos (mt Nat.dvd_of_mod_eq_zero h), hmin, if_neg (by decide),
    if_neg (Nat.not_lt.2 htimely)]

end Inside

/-! ## Between two intervals -/

/-- `first` is the first chain of the interval that ends with `last`. -/
structure StartsInterval (p : Params) (last first : Chain) : Prop where
  mem : first ∈ last.ancestors
  height : first.height + (p.workInterval - 1) = last.height

/-- The chain that ends an interval is high enough for the interval to have a start. -/
theorem exists_startsInterval (hinterval : 1 ≤ p.workInterval) {last : Chain}
    (h : p.workInterval ∣ last.height + 1) : ∃ first, StartsInterval p last first := by
  have hle : p.workInterval ≤ last.height + 1 := Nat.le_of_dvd (Nat.succ_pos _) h
  obtain ⟨first, hmem, hheight⟩ := Chain.exists_mem_ancestors
    (show last.height + 1 - p.workInterval ≤ last.height by omega)
  exact ⟨first, hmem, by omega⟩

theorem StartsInterval.unique {last a b : Chain} (ha : StartsInterval p last a)
    (hb : StartsInterval p last b) : a = b := by
  have haheight := ha.height
  have hbheight := hb.height
  exact Chain.eq_of_height_eq ha.mem hb.mem (by omega)

theorem workTarget_of_boundary (hinterval : 1 ≤ p.workInterval) {header : Header}
    {last first : Chain} (h : p.workInterval ∣ last.height + 1)
    (hfirst : StartsInterval p last first) :
    workTarget p (.extend header last) = nextInterval p last first.time := by
  have hheight : last.height + 1 - p.workInterval = first.height := by
    have := hfirst.height
    omega
  rw [workTarget, if_neg (Decidable.not_not.2 (Nat.mod_eq_zero_of_dvd h))]
  simp only [hheight, Chain.ancestor?_of_mem_ancestors hfirst.mem]

/-! ### Scaling -/

/-- A target scaled by the time that an interval took, which is kept between a quarter and four
times the intended one, and cut off at the limit. -/
def scaledTarget (p : Params) (target : Nat) (elapsed : Int) : Int :=
  min p.workLimit
    (target * max (p.workTimespan / 4 : Int) (min elapsed (4 * p.workTimespan)) / p.workTimespan)

theorem workTimespan_pos (hinterval : 1 ≤ p.workInterval) : 0 < p.workTimespan := by
  rcases Nat.eq_zero_or_pos p.workTimespan with hzero | hpos
  · rw [Params.workInterval, hzero, Nat.zero_div] at hinterval
    omega
  · exact hpos

theorem scaledTarget_le (hinterval : 1 ≤ p.workInterval) (target : Nat) (elapsed : Int) :
    scaledTarget p target elapsed ≤ 4 * target := by
  have hpos := workTimespan_pos hinterval
  have hkept : max (p.workTimespan / 4 : Int) (min elapsed (4 * p.workTimespan))
      ≤ 4 * p.workTimespan := by omega
  have hscaled := Int.mul_le_mul_of_nonneg_left hkept (Int.natCast_nonneg target)
  have hquotient : (target : Int)
      * max (p.workTimespan / 4 : Int) (min elapsed (4 * p.workTimespan)) / p.workTimespan
      ≤ 4 * target := by
    apply Int.ediv_le_of_le_mul (by omega)
    rwa [Int.mul_assoc, Int.mul_left_comm]
  exact Int.le_trans (Int.min_le_right _ _) hquotient

theorem scaledTarget_mono (hinterval : 1 ≤ p.workInterval) (target : Nat) {elapsed elapsed' : Int}
    (h : elapsed ≤ elapsed') :
    scaledTarget p target elapsed ≤ scaledTarget p target elapsed' := by
  have hpos := workTimespan_pos hinterval
  have hkept : max (p.workTimespan / 4 : Int) (min elapsed (4 * p.workTimespan))
      ≤ max (p.workTimespan / 4 : Int) (min elapsed' (4 * p.workTimespan)) := by omega
  have hscaled := Int.mul_le_mul_of_nonneg_left hkept (Int.natCast_nonneg target)
  have hquotient := Int.ediv_le_ediv (show 0 < (p.workTimespan : Int) by omega) hscaled
  unfold scaledTarget
  omega

theorem natCast_scaled (p : Params) (target : Nat) (elapsed : Int) :
    ((min (target * (clampTimespan p elapsed).toNat / p.workTimespan) p.workLimit : Nat) : Int)
      = scaledTarget p target elapsed := by
  have hclamp : clampTimespan p elapsed
      = max (p.workTimespan / 4 : Int) (min elapsed (4 * p.workTimespan)) := by
    rw [clampTimespan, Int.mul_comm 4]
  have hkept : 0 ≤ clampTimespan p elapsed := by
    rw [hclamp]
    omega
  have hquotient : ((target * (clampTimespan p elapsed).toNat / p.workTimespan : Nat) : Int)
      = target * clampTimespan p elapsed / p.workTimespan := by
    rw [Int.natCast_ediv, Int.natCast_mul, Int.toNat_of_nonneg hkept]
  rw [scaledTarget, ← hclamp, ← hquotient]
  omega

/-- The target after an interval is the scaled one. -/
theorem nextInterval_eq_ok {last : Chain} {target : Nat}
    (h : last.header.bits.decode = .ok target) (start : UInt32) :
    ∃ next : Nat, nextInterval p last start = .ok next
      ∧ (next : Int) = if p.noRetargeting then (target : Int)
        else scaledTarget p target (last.time.toNat - start.toNat) := by
  unfold nextInterval
  rw [storedTarget_of_decode h]
  change ∃ next : Nat, (if p.noRetargeting then _ else _) = _ ∧ _
  split
  · exact ⟨target, rfl, rfl⟩
  · exact ⟨_, rfl, natCast_scaled p target _⟩

/-- A later end lengthens the interval, unless it is the start as well. -/
theorem StartsInterval.elapsed_le {last last' first first' : Chain}
    (hfirst : StartsInterval p last first) (hfirst' : StartsInterval p last' first')
    (hlater : last.Later last') :
    (last.time.toNat : Int) - first.time.toNat ≤ last'.time.toNat - first'.time.toNat := by
  have htime := hlater.time
  have hmem := hfirst.mem
  rw [Chain.ancestors_eq_cons] at hmem
  rcases List.mem_cons.1 hmem with rfl | hbelow
  · have hself : StartsInterval p last' last' :=
      ⟨Chain.self_mem_ancestors _, by rw [hlater.height]; exact hfirst.height⟩
    rw [hfirst'.unique hself]
    omega
  · have hshared : StartsInterval p last' first := by
      refine ⟨?_, by rw [hlater.height]; exact hfirst.height⟩
      rw [Chain.ancestors_eq_cons, Chain.lower, hlater.parent]
      exact List.mem_cons_of_mem _ hbelow
    rw [hfirst'.unique hshared]
    omega

/-- The target on a boundary, where the bits below it decode. -/
theorem exists_workTarget_of_boundary (hinterval : 1 ≤ p.workInterval) (header : Header)
    {last first : Chain} (h : p.workInterval ∣ last.height + 1)
    (hfirst : StartsInterval p last first) {target : Nat}
    (hdecode : last.header.bits.decode = .ok target) :
    ∃ next : Nat, workTarget p (.extend header last) = .ok next
      ∧ (next : Int) = if p.noRetargeting then (target : Int)
        else scaledTarget p target (last.time.toNat - first.time.toNat) := by
  rw [workTarget_of_boundary hinterval h hfirst]
  exact nextInterval_eq_ok hdecode first.time

/-- An interval that ends later is not followed by a smaller target. -/
theorem workTarget_mono (hinterval : 1 ≤ p.workInterval) {header : Header} (header' : Header)
    {last last' first : Chain} (h : p.workInterval ∣ last.height + 1)
    (hfirst : StartsInterval p last first) (hlater : last.Later last') {target : Nat}
    (hdecode : last.header.bits.decode = .ok target) {next : Nat}
    (hnext : workTarget p (.extend header last) = .ok next) :
    ∃ next', workTarget p (.extend header' last') = .ok next' ∧ next ≤ next' := by
  have h' : p.workInterval ∣ last'.height + 1 := by rwa [hlater.height]
  have hdecode' : last'.header.bits.decode = .ok target := by rwa [hlater.bits]
  obtain ⟨first', hfirst'⟩ := exists_startsInterval hinterval h'
  obtain ⟨_, heq, hvalue⟩ := exists_workTarget_of_boundary hinterval header h hfirst hdecode
  obtain ⟨next', heq', hvalue'⟩ :=
    exists_workTarget_of_boundary hinterval header' h' hfirst' hdecode'
  rw [heq] at hnext
  cases hnext
  refine ⟨next', heq', ?_⟩
  have hmono := scaledTarget_mono hinterval target (hfirst.elapsed_le hfirst' hlater)
  cases hfixed : p.noRetargeting with
  | true =>
    rw [hfixed, if_pos rfl] at hvalue hvalue'
    omega
  | false =>
    rw [hfixed, if_neg (by decide)] at hvalue hvalue'
    omega

/-- The target that a proof-of-work header must carry. A genesis has the limit. Off the boundaries
of intervals a header has its parent's target; where undemanding headers are allowed it has the
limit if it comes more than twice the spacing after its parent, and else the target of the nearest
regular header. On a boundary the interval that ends below it has a first header, and the target is
that of its last header, scaled unless targets are fixed. It is at most four times that target, and
no smaller if only the interval's end was later. -/
theorem workTarget_follows (hinterval : 1 ≤ p.workInterval) :
    (∀ header, workTarget p (.genesis header) = .ok p.workLimit)
    ∧ (∀ header parent, ¬p.workInterval ∣ parent.height + 1 → p.allowMinDifficulty = false →
      workTarget p (.extend header parent) = storedTarget parent.header)
    ∧ (∀ header parent, ¬p.workInterval ∣ parent.height + 1 → p.allowMinDifficulty = true →
      parent.time.toNat + 2 * p.targetSpacing < header.time.toNat →
      workTarget p (.extend header parent) = .ok p.workLimit)
    ∧ (∀ header parent, ¬p.workInterval ∣ parent.height + 1 → p.allowMinDifficulty = true →
      header.time.toNat ≤ parent.time.toNat + 2 * p.targetSpacing →
      ∃ x, NearestRegular p parent x
        ∧ workTarget p (.extend header parent) = storedTarget x.header)
    ∧ ∀ header parent, p.workInterval ∣ parent.height + 1 →
      p.workInterval ≤ parent.height + 1
      ∧ ∃ first, StartsInterval p parent first
      ∧ ∀ target, parent.header.bits.decode = .ok target →
        ∃ next : Nat, workTarget p (.extend header parent) = .ok next
        ∧ (next : Int) = (if p.noRetargeting then (target : Int)
          else scaledTarget p target (parent.time.toNat - first.time.toNat))
        ∧ next ≤ 4 * target
        ∧ ∀ header' parent', parent.Later parent' →
          ∃ next', workTarget p (.extend header' parent') = .ok next' ∧ next ≤ next' := by
  refine ⟨fun _ => rfl, fun _ _ => workTarget_of_demanding, fun _ _ => workTarget_of_late, ?_, ?_⟩
  · intro header parent h hmin htimely
    exact ⟨_, nearestRegular_lastRegular p parent, workTarget_of_timely h hmin htimely⟩
  · intro header parent h
    obtain ⟨first, hfirst⟩ := exists_startsInterval hinterval h
    refine ⟨Nat.le_of_dvd (Nat.succ_pos _) h, first, hfirst, ?_⟩
    intro target hdecode
    obtain ⟨next, hnext, hvalue⟩ :=
      exists_workTarget_of_boundary hinterval header h hfirst hdecode
    refine ⟨next, hnext, hvalue, ?_, ?_⟩
    · have hle := scaledTarget_le hinterval target (parent.time.toNat - first.time.toNat)
      split at hvalue
      · omega
      · omega
    · intro header' parent' hlater
      exact workTarget_mono hinterval header' h hfirst hlater hdecode hnext

end Retarget

/-! ## Four headers of an interval and the one after -/

namespace Regtest

/-- Targets that move every four headers, with undemanding headers between. -/
def shortIntervals : Params := { Params.test with workTimespan := 4 * 600 }

/-- The header with a time and bits, and nothing else. -/
def bareHeader (time bits : UInt32) : Header := ⟨1, Digest.zero, Digest.zero, time, ⟨bits⟩, 0⟩

/-- A genesis and a header that demands more work than the limit. -/
def demanding : Chain :=
  .extend (bareHeader 1600 0x1c00ffff) (.genesis (bareHeader 1000 0x1d00ffff))

/-- One more header, with the bits of the limit. -/
def undemanding : Chain := .extend (bareHeader 2000 0x1d00ffff) demanding

/-- The chain that ends the interval at some time. -/
def intervalEnd (time : UInt32) : Chain := .extend (bareHeader time 0x1c00ffff) undemanding

theorem eq_demanding {x : Chain} (h : Retarget.NearestRegular shortIntervals undemanding x) :
    x = demanding := by
  have hheight : demanding.height ≤ x.height :=
    h.nearest demanding (List.mem_cons_of_mem _ (Chain.self_mem_ancestors _)) (by decide +kernel)
  have hregular := h.regular
  have hmem := h.mem
  rcases List.mem_cons.1 hmem with rfl | hmem
  · exact absurd hregular (by decide +kernel)
  · rcases List.mem_cons.1 hmem with rfl | hmem
    · rfl
    · rw [List.mem_singleton.1 hmem] at hheight
      exact absurd hheight (by decide)

/-- A timely header after an undemanding one has the target of the demanding one before, a late one
has the limit, and the header after the interval has a target that grows with its end. -/
theorem workTarget_follows_undemanding :
    Retarget.workTarget shortIntervals (intervalEnd 2100) = .ok (0xffff <<< 200)
    ∧ Retarget.workTarget shortIntervals (intervalEnd 3201) = .ok shortIntervals.workLimit
    ∧ Retarget.workTarget shortIntervals (.extend (bareHeader 2700 0) (intervalEnd 2100))
      = .ok ((0xffff <<< 200) * 1100 / 2400)
    ∧ ∃ next, Retarget.workTarget shortIntervals (.extend (bareHeader 9000 0) (intervalEnd 8200))
      = .ok next ∧ (0xffff <<< 200) * 1100 / 2400 ≤ next := by
  obtain ⟨-, -, hlate, htimely, hboundary⟩ :=
    Retarget.workTarget_follows (p := shortIntervals) (by decide)
  obtain ⟨x, hx, hfollows⟩ :=
    htimely (bareHeader 2100 0x1c00ffff) undemanding (by decide) rfl (by decide)
  obtain ⟨-, first, hfirst, hscaled⟩ :=
    hboundary (bareHeader 2700 0) (intervalEnd 2100) (by decide)
  obtain ⟨next, hnext, hvalue, -, hlater⟩ := hscaled (0xffff <<< 200) rfl
  have hstart : first = .genesis (bareHeader 1000 0x1d00ffff) :=
    hfirst.unique ⟨List.mem_of_getElem? (show (intervalEnd 2100).ancestors[3]? = _ from rfl), rfl⟩
  have hshort : next = (0xffff <<< 200) * 1100 / 2400 := by
    rw [hstart] at hvalue
    exact Int.ofNat.inj (hvalue.trans (by decide +kernel))
  subst hshort
  refine ⟨?_, hlate _ _ (by decide) rfl (by decide), hnext, ?_⟩
  · rw [intervalEnd, hfollows, eq_demanding hx]
    rfl
  · exact hlater _ (intervalEnd 8200) ⟨rfl, rfl, by decide⟩

end Regtest

end Chainstate
