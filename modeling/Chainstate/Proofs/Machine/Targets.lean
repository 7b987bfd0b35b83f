-- SUMMARY: Times and targets on a machine: median times, compact targets and retargeting are exact.
import Chainstate.Proofs.CompactTarget
import Chainstate.Proofs.Difficulty
import Chainstate.Proofs.Machine.Shapes
import Chainstate.Proofs.MedianTime

/-!
# Headers on a machine

The checks of times and targets with their arithmetic in machine words. Targets themselves are
integers without a bound; what is in words is their compact form, the times that a retarget
compares, and the heights at which it looks.

Heights and times are below the limits of their types, so what has to hold for these checks to be
exact is a matter of the parameters (`Params.Paced`) and of one height.
-/

namespace Chainstate

/-- Parameters that keep the arithmetic of headers in range: intervals are neither empty nor longer
than a word, and targets have 256 bits. -/
structure Params.Paced (p : Params) : Prop where
  spacing : 0 < p.targetSpacing
  interval : p.targetSpacing ≤ p.workTimespan
  timespan : p.workTimespan ≤ 0xffffffff
  drift : p.maxFutureDrift ≤ 0xffffffff
  limit : p.workLimit < 2 ^ 256

/-- The same for the moving averages of two kinds of blocks. -/
structure Params.Averaged (p : Params) : Prop where
  spacing : 0 < p.targetSpacing
  interval : p.targetSpacing ≤ p.stakeTimespan
  timespan : p.stakeTimespan ≤ 0xffffffff
  limit : ∀ stake, Retarget.limitOf p stake ≠ 0 ∧ Retarget.limitOf p stake < 2 ^ 256

/-! ## Bounds of targets -/

namespace Retarget

theorem storedTarget_lt {h : Header} {target : Nat} (hstored : storedTarget h = .ok target) :
    target < 2 ^ 256 := by
  rw [storedTarget, check_mapError_ok] at hstored
  exact CompactTarget.decode_lt hstored

theorem workTarget_lt {p : Params} (hlimit : p.workLimit < 2 ^ 256) {c : Chain} {target : Nat}
    (h : workTarget p c = .ok target) : target < 2 ^ 256 := by
  cases c with
  | genesis header =>
    cases h
    exact hlimit
  | extend header parent =>
    rw [workTarget] at h
    split at h
    · split at h
      · exact storedTarget_lt h
      · split at h
        · cases h
          exact hlimit
        · exact storedTarget_lt h
    · dsimp only at h
      split at h
      · cases h
      · simp only [nextInterval, check_bind_ok] at h
        obtain ⟨last, hlast, h⟩ := h
        split at h
        · cases h
          exact storedTarget_lt hlast
        · cases h
          exact Nat.lt_of_le_of_lt (Nat.min_le_right _ _) hlimit

end Retarget

namespace Machine

variable {ε : Type}

/-! ## Times -/

/-- The median of the times of the last eleven headers. -/
def medianTimePast (c : Chain) : Checked ε UInt32 :=
  let times := sortBy (· ≤ ·) (Chain.lastTimes 11 c)
  element times (times.length / 2)

theorem medianTimePast_eq (c : Chain) :
    (medianTimePast c : Checked ε UInt32) = .ok c.medianTimePast := by
  have hperm := perm_sortBy (fun a b => decide (a ≤ b)) (Chain.lastTimes 11 c)
  have hpos : 0 < (Chain.lastTimes 11 c).length := Chain.length_lastTimes_pos 10 c
  apply element_ok
  unfold Chain.medianTimePast
  simp only
  rw [List.getElem?_eq_getElem (by rw [hperm.length_eq]; omega), List.getD_eq_getElem?_getD,
    List.getElem?_eq_getElem (by rw [hperm.length_eq]; omega), Option.getD_some]

def checkTime (p : Params) (now : UInt32) : Chain → Checked Rejection Unit
  | .genesis _ => .ok ()
  | .extend header parent => do
    let median ← medianTimePast parent
    if header.time ≤ median then .error (.failure .timeTooOld)
    else
      let latest ← Word.u64.nat (now.toNat + p.maxFutureDrift)
      if latest < header.time.toNat then .error (.failure .timeTooNew) else .ok ()

theorem checkTime_eq {p : Params} (hp : p.Paced) (now : UInt32) (c : Chain) :
    checkTime p now c = .of (c.checkTime p now) := by
  cases c with
  | genesis header => rfl
  | extend header parent =>
    have hdrift := hp.drift
    have hnow := now.toNat_lt
    rw [checkTime, medianTimePast_eq, checked_ok_bind, Chain.checkTime]
    split
    · rfl
    · rw [Word.u64_ok (by omega), checked_ok_bind]
      split
      · rfl
      · rfl

/-! ## Compact targets -/

/-- The encoded target. -/
def decode (c : CompactTarget) : Checked CompactError Nat :=
  let size := c.exponent
  let word := c.magnitude
  if word ≠ 0 ∧ c.signBit then .error (.failure (.negative c.bits))
  else if word ≠ 0 ∧ (34 < size ∨ (0xff < word ∧ 33 < size) ∨ (0xffff < word ∧ 32 < size)) then
    .error (.failure (.overflow c.bits))
  else if size ≤ 3 then do
    let bytes ← Word.u32.sub 3 size
    let shift ← Word.u32.nat (8 * bytes)
    let shift ← shiftBy 32 shift
    .ok (word >>> shift)
  else do
    let bytes ← Word.u32.sub size 3
    let shift ← Word.u32.nat (8 * bytes)
    .ok (word <<< shift)

theorem decode_eq (c : CompactTarget) : decode c = .of c.decode := by
  have hsize : c.exponent < 256 := by
    have := c.bits.toNat_lt
    rw [CompactTarget.exponent, Nat.shiftRight_eq_div_pow]
    omega
  unfold decode CompactTarget.decode
  simp only
  split
  · rfl
  split
  · rfl
  split
  · next hle =>
    rw [Word.sub_ok hle, checked_ok_bind, Word.u32_ok (by omega), checked_ok_bind,
      shiftBy_ok (by omega)]
    rfl
  · next hgt =>
    rw [Word.sub_ok (by omega), checked_ok_bind, Word.u32_ok (by omega)]
    rfl

/-- The number of bytes of a target. -/
def byteLength (target : Nat) : Checked ε Nat := do
  let bits ← Word.u64.nat (if target = 0 then 0 else Nat.log2 target + 1)
  let rounded ← Word.u64.nat (bits + 7)
  Word.u32.nat (rounded / 8)

theorem byteLength_eq {target : Nat} (h : target < 2 ^ 256) :
    (byteLength target : Checked ε Nat) = .ok (CompactTarget.byteLength target) := by
  have hlog : target ≠ 0 → Nat.log2 target < 256 := fun hne => (Nat.log2_lt hne).2 h
  unfold byteLength CompactTarget.byteLength
  split
  · rfl
  · next hne =>
    have := hlog hne
    rw [Word.u64_ok (by omega), checked_ok_bind, Word.u64_ok (by omega), checked_ok_bind,
      Word.u32_ok (by omega)]
    congr 1
    omega

/-- The three leading bytes of a target with `size` bytes. -/
def mantissa (target size : Nat) : Checked ε Nat :=
  if size ≤ 3 then do
    let low ← Word.u32.nat target
    let bytes ← Word.u32.sub 3 size
    let shift ← Word.u32.nat (8 * bytes)
    let shift ← shiftBy 32 shift
    Word.u32.nat (low <<< shift)
  else do
    let bytes ← Word.u32.sub size 3
    let shift ← Word.u32.nat (8 * bytes)
    Word.u32.nat (target >>> shift)

theorem mantissa_eq {target size : Nat} (h : target < 256 ^ size) (hsize : size ≤ 32) :
    (mantissa target size : Checked ε Nat) = .ok (target * 256 ^ 3 / 256 ^ size) := by
  have hthree : target * 256 ^ 3 / 256 ^ size < 256 ^ 3 :=
    Nat.div_lt_of_lt_mul (Nat.mul_lt_mul_of_pos_right h (by decide))
  unfold mantissa
  split
  · next hle =>
    have hup := CompactTarget.shiftLeft_eq_scale hle target
    have hsmall : 256 ^ size ≤ 256 ^ 3 := Nat.pow_le_pow_right (by decide) hle
    rw [Word.u32_ok (by omega), checked_ok_bind, Word.sub_ok hle, checked_ok_bind,
      Word.u32_ok (by omega), checked_ok_bind, shiftBy_ok (by omega), checked_ok_bind, hup,
      Word.u32_ok (by omega)]
  · next hgt =>
    have hdown := CompactTarget.shiftRight_eq_scale (Nat.le_of_not_le hgt) target
    rw [Word.sub_ok (by omega), checked_ok_bind, Word.u32_ok (by omega), checked_ok_bind, hdown,
      Word.u32_ok (by omega)]

/-- The compact form with a mantissa and an exponent. -/
def pack (word size : Nat) : Checked ε CompactTarget := do
  let bits ← Word.u32.nat (word + size <<< 24)
  .ok ⟨UInt32.ofNat bits⟩

theorem pack_eq {word size : Nat} (hword : word < 0x1000000) (hsize : size ≤ 33) :
    (pack word size : Checked ε CompactTarget) = .ok (CompactTarget.pack word size) := by
  rw [pack, Word.u32_ok (by rw [Nat.shiftLeft_eq]; omega)]
  rfl

/-- The compact form of a target. -/
def ofTarget (target : Nat) : Checked ε CompactTarget := do
  let size ← byteLength target
  let word ← mantissa target size
  if word < 0x800000 then pack word size
  else
    let size ← Word.u32.nat (size + 1)
    pack (word / 256) size

theorem ofTarget_eq {target : Nat} (h : target < 2 ^ 256) :
    (ofTarget target : Checked ε CompactTarget) = .ok (CompactTarget.ofTarget target) := by
  have hsize := CompactTarget.byteLength_le h
  have hlt := CompactTarget.lt_pow_byteLength target
  have hthree : target * 256 ^ 3 / 256 ^ CompactTarget.byteLength target < 0x1000000 :=
    Nat.div_lt_of_lt_mul (Nat.mul_lt_mul_of_pos_right hlt (by decide))
  rw [ofTarget, byteLength_eq h, checked_ok_bind, mantissa_eq hlt hsize, checked_ok_bind]
  simp only [CompactTarget.ofTarget, CompactTarget.word_eq_scale]
  split
  · exact pack_eq hthree (by omega)
  · rw [Word.u32_ok (by omega), checked_ok_bind]
    exact pack_eq (by omega) (by omega)

/-! ## Proof of work -/

/-- The target of a header that is already part of the chain. -/
def storedTarget (h : Header) : Checked Fault Nat :=
  (decode h.bits).relabel fun e => .corruption (.headerBits e)

theorem storedTarget_eq (h : Header) : storedTarget h = .of (Retarget.storedTarget h) := by
  rw [storedTarget, decode_eq, Checked.relabel_of]
  rfl

/-- The nearest chain at or below `c` that stands on a boundary of the interval, or at the genesis,
or does not carry `bits`. -/
def lastRegular (interval : Nat) (bits : CompactTarget) (c : Chain) : Checked ε Chain :=
  match c with
  | .genesis header => .ok (.genesis header)
  | .extend header parent => do
    let into ← remainder (parent.height + 1) interval
    if into = 0 ∨ header.bits ≠ bits then .ok (.extend header parent)
    else lastRegular interval bits parent

theorem lastRegular_eq {p : Params} (hp : 0 < p.workInterval) (c : Chain) :
    (lastRegular p.workInterval (CompactTarget.ofTarget p.workLimit) c : Checked ε Chain)
      = .ok (Retarget.lastRegular p c) := by
  induction c with
  | genesis header => rfl
  | extend header parent ih =>
    rw [lastRegular, remainder_ok (by omega), checked_ok_bind, Retarget.lastRegular]
    split
    · rfl
    · exact ih

/-- The target after an interval whose first header has the time `start`. -/
def nextInterval (p : Params) (last : Chain) (start : UInt32) : Checked Fault Nat :=
  if p.noRetargeting then storedTarget last.header
  else do
    let elapsed ← Word.i64.int (last.time.toNat - start.toNat)
    let timespan : Int := p.workTimespan
    let longest ← Word.i64.int (timespan * 4)
    let elapsed ← clamp (timespan / 4) longest elapsed
    let target ← storedTarget last.header
    let factor ← Word.u64.int elapsed
    let next ← divide (target * factor.toNat) p.workTimespan
    .ok (min next p.workLimit)

theorem nextInterval_eq {p : Params} (hp : p.Paced) (last : Chain) (start : UInt32) :
    nextInterval p last start = .of (Retarget.nextInterval p last start) := by
  have htimespan := hp.timespan
  have hspacing := hp.spacing
  have hinterval := hp.interval
  have hstart := start.toNat_lt
  have hlast := last.time.toNat_lt
  unfold nextInterval Retarget.nextInterval
  split
  · rw [storedTarget_eq]
    cases Retarget.storedTarget last.header with
    | ok target => rfl
    | error f => rfl
  · rw [Word.i64_ok (by omega) (by omega), checked_ok_bind]
    simp only
    rw [Word.i64_ok (by omega) (by omega), checked_ok_bind, clamp_ok (by omega), checked_ok_bind,
      storedTarget_eq]
    refine Checked.bind_of rfl fun target _ => ?_
    rw [Word.int_ok (by simp only [Word.least]; omega) (by simp only [Word.greatest]; omega),
      checked_ok_bind, divide_ok (by omega)]
    rfl

/-- The target that a proof-of-work header must carry. -/
def workTarget (p : Params) (c : Chain) : Checked Fault Nat :=
  match c with
  | .genesis _ => .ok p.workLimit
  | .extend header parent => do
    let interval ← divide p.workTimespan p.targetSpacing
    let bits ← ofTarget p.workLimit
    let into ← remainder (parent.height + 1) interval
    if into ≠ 0 then
      if !p.allowMinDifficulty then storedTarget parent.header
      else
        let gap ← Word.u64.nat (2 * p.targetSpacing)
        let latest ← Word.u64.nat (parent.time.toNat + gap)
        if latest < header.time.toNat then .ok p.workLimit
        else
          let regular ← lastRegular interval bits parent
          storedTarget regular.header
    else
      let height ← Word.u32.nat (parent.height + 1)
      let height ← Word.u32.sub height interval
      match parent.ancestor? height with
      | none => .error (.failure (.missingAncestor height parent.digest))
      | some first => nextInterval p parent first.time

theorem workTarget_eq {p : Params} (hp : p.Paced) {c : Chain} (hc : c.height ≤ 0xffffffff) :
    workTarget p c = .of (Retarget.workTarget p c) := by
  cases c with
  | genesis header => rfl
  | extend header parent =>
    have hspacing := hp.spacing
    have hinterval := hp.interval
    have htimespan := hp.timespan
    have hparent := parent.time.toNat_lt
    have hpos : 0 < p.workInterval := Nat.div_pos hinterval hspacing
    rw [Chain.height_extend] at hc
    rw [workTarget, divide_ok (by omega), checked_ok_bind, ← Params.workInterval,
      ofTarget_eq hp.limit, checked_ok_bind, remainder_ok (by omega), checked_ok_bind,
      Retarget.workTarget]
    split
    · split
      · exact storedTarget_eq _
      · rw [Word.u64_ok (by omega), checked_ok_bind, Word.u64_ok (by omega), checked_ok_bind]
        split
        · rfl
        · rw [lastRegular_eq hpos, checked_ok_bind]
          exact storedTarget_eq _
    · next hboundary =>
      have hle : p.workInterval ≤ parent.height + 1 :=
        Nat.le_of_dvd (Nat.succ_pos _) (Nat.dvd_of_mod_eq_zero (Decidable.not_not.1 hboundary))
      rw [Word.u32_ok hc, checked_ok_bind, Word.sub_ok hle, checked_ok_bind]
      simp only
      cases parent.ancestor? (parent.height + 1 - p.workInterval) with
      | none => rfl
      | some first => exact nextInterval_eq hp parent first.time

def checkProofOfWork (c : Chain) : Checked Rejection Unit := do
  let target ← (decode c.header.bits).relabel fun _ => .undecodableBits
  if Target.isMetBy target c.digest then .ok () else .error (.failure .workNotMet)

theorem checkProofOfWork_eq (c : Chain) : checkProofOfWork c = .of c.checkProofOfWork := by
  rw [checkProofOfWork, decode_eq, Checked.relabel_of, Chain.checkProofOfWork]
  cases c.header.bits.decode with
  | error e => rfl
  | ok target =>
    change (if _ then _ else _) = _
    simp only
    split
    · rfl
    · rfl

def checkWork (p : Params) (c : Chain) : Checked Failure Unit := do
  let target ← (workTarget p c).relabel .fault
  let bits ← ofTarget target
  if c.header.bits ≠ bits then .error (.failure (.rejected .wrongWorkBits))
  else (checkProofOfWork c).relabel .rejected

theorem checkWork_eq {p : Params} (hp : p.Paced) {c : Chain} (hc : c.height ≤ 0xffffffff) :
    checkWork p c = .of (c.checkWork p) := by
  rw [checkWork, workTarget_eq hp hc, Checked.relabel_of, Chain.checkWork]
  cases htarget : Retarget.workTarget p c with
  | error f => rfl
  | ok target =>
    change (ofTarget target >>= _) = _
    rw [ofTarget_eq (Retarget.workTarget_lt hp.limit htarget), checked_ok_bind,
      checkProofOfWork_eq, Checked.relabel_of]
    simp only
    split
    · rfl
    · rfl

/-! ## Two kinds of blocks -/

/-- The moving average of a kind. -/
def average (p : Params) (target : Nat) (elapsed : Int) : Checked ε Nat := do
  let spacing : Int := p.targetSpacing
  let elapsed := if elapsed < 0 then spacing else elapsed
  let n ← divideInt p.stakeTimespan spacing
  let before ← Word.i64.int (n - 1)
  let weight ← Word.i64.int (before * spacing)
  let twice ← Word.i64.int (2 * elapsed)
  let sum ← Word.i64.int (weight + twice)
  let factor ← Word.u64.int sum
  let after ← Word.i64.int (n + 1)
  let whole ← Word.i64.int (after * spacing)
  let divisor ← Word.u64.int whole
  divide (target * factor.toNat) divisor.toNat

theorem average_eq {p : Params} (hp : p.Averaged) (target : Nat) {elapsed : Int}
    (h : elapsed ≤ 0xffffffff) :
    (average p target elapsed : Checked ε Nat) = .ok (Retarget.average p target elapsed) := by
  have hspacing := hp.spacing
  have htimespan := hp.timespan
  have hinterval := hp.interval
  have he : 0 ≤ (if elapsed < 0 then (p.targetSpacing : Int) else elapsed)
      ∧ (if elapsed < 0 then (p.targetSpacing : Int) else elapsed) ≤ 0xffffffff := by
    split
    · omega
    · omega
  have hn : 0 < p.stakeTimespan / p.targetSpacing := Nat.div_pos hp.interval hspacing
  have hmul : p.stakeTimespan / p.targetSpacing * p.targetSpacing ≤ p.stakeTimespan :=
    Nat.div_mul_le_self _ _
  have hsigned : (divideInt (p.stakeTimespan : Int) p.targetSpacing : Checked ε Int)
      = .ok ((p.stakeTimespan / p.targetSpacing : Nat) : Int) := by
    rw [divideInt_ok (by omega), Int.natCast_ediv, Int.tdiv_eq_ediv_of_nonneg (by omega)]
  unfold average Retarget.average
  dsimp only
  rw [hsigned, checked_ok_bind, ← Int.natCast_ediv]
  generalize p.stakeTimespan / p.targetSpacing = n at hn hmul ⊢
  have hbefore : ((n : Int) - 1) * p.targetSpacing
      = ((n * p.targetSpacing : Nat) : Int) - p.targetSpacing := by
    rw [Int.sub_mul, Int.one_mul, Int.natCast_mul]
  have hafter : ((n : Int) + 1) * p.targetSpacing
      = ((n * p.targetSpacing : Nat) : Int) + p.targetSpacing := by
    rw [Int.add_mul, Int.one_mul, Int.natCast_mul]
  have hle : n ≤ n * p.targetSpacing := Nat.le_mul_of_pos_right n hspacing
  have hpos : p.targetSpacing ≤ n * p.targetSpacing := Nat.le_mul_of_pos_left _ hn
  generalize (if elapsed < 0 then (p.targetSpacing : Int) else elapsed) = e at he ⊢
  generalize n * p.targetSpacing = whole at *
  rw [Word.i64_ok (by omega) (by omega), checked_ok_bind, hbefore,
    Word.i64_ok (by omega) (by omega), checked_ok_bind, Word.i64_ok (by omega) (by omega),
    checked_ok_bind, Word.i64_ok (by omega) (by omega), checked_ok_bind,
    Word.int_ok (by simp only [Word.least]; omega) (by simp only [Word.greatest]; omega),
    checked_ok_bind, Word.i64_ok (by omega) (by omega), checked_ok_bind, hafter,
    Word.i64_ok (by omega) (by omega), checked_ok_bind,
    Word.int_ok (by simp only [Word.least]; omega) (by simp only [Word.greatest]; omega),
    checked_ok_bind, divide_ok (by omega), Int.emod_eq_of_lt (by omega) (by omega)]

/-- The target that a block of a kind on top of `prev` must carry. -/
def kindTarget (lookup : Retarget.StakeLookup) (p : Params) (prev : Chain) (stake : Bool) :
    Checked Fault Nat := do
  let limit := Retarget.limitOf p stake
  let last ← .of (Retarget.lastOfKind lookup stake prev)
  match last with
  | .genesis _ => .ok limit
  | .extend header below =>
    let beforeLast ← .of (Retarget.lastOfKind lookup stake below)
    match beforeLast with
    | .genesis _ => .ok limit
    | .extend earlier _ =>
      let elapsed ← Word.i64.int (header.time.toNat - earlier.time.toNat)
      let target ← storedTarget header
      let next ← average p target elapsed
      .ok (if next = 0 ∨ limit < next then limit else next)

theorem kindTarget_eq (lookup : Retarget.StakeLookup) {p : Params} (hp : p.Averaged)
    (prev : Chain) (stake : Bool) :
    kindTarget lookup p prev stake = .of (Retarget.kindTarget lookup p prev stake) := by
  refine Checked.bind_of rfl fun last _ => ?_
  cases last with
  | genesis header => rfl
  | extend header below =>
    refine Checked.bind_of rfl fun beforeLast _ => ?_
    cases beforeLast with
    | genesis earlier => rfl
    | extend earlier _ =>
      have hheader := header.time.toNat_lt
      have hearlier := earlier.time.toNat_lt
      change (Word.i64.int _ >>= _) = _
      rw [Word.i64_ok (by omega) (by omega), checked_ok_bind]
      refine Checked.bind_of (storedTarget_eq header) fun target _ => ?_
      rw [average_eq hp target (by omega)]
      rfl

def checkKindDifficulty (b : Block) (p : Params) (c : Chain) (lookup : Retarget.StakeLookup)
    (prev : Chain) : Checked Failure Unit := do
  let stake ← isProofOfStake b
  let target ← (kindTarget lookup p prev stake).relabel .fault
  let bits ← ofTarget target
  if b.header.bits ≠ bits then .error (.failure (.rejected .wrongKindBits))
  else if stake then .ok ()
  else (checkProofOfWork c).relabel .rejected

theorem checkKindDifficulty_eq (b : Block) {p : Params} (hp : p.Averaged) (c : Chain)
    (lookup : Retarget.StakeLookup) (prev : Chain) :
    checkKindDifficulty b p c lookup prev = .of (b.checkKindDifficulty p c lookup prev) := by
  obtain ⟨hzero, hlimit⟩ := hp.limit b.isProofOfStake
  rw [checkKindDifficulty, isProofOfStake_eq, checked_ok_bind, kindTarget_eq lookup hp,
    Checked.relabel_of, Block.checkKindDifficulty]
  cases htarget : Retarget.kindTarget lookup p prev b.isProofOfStake with
  | error f => rfl
  | ok target =>
    obtain ⟨-, hle⟩ := Retarget.kindTarget_bounds hzero htarget
    change (ofTarget target >>= _) = _
    rw [ofTarget_eq (Nat.lt_of_le_of_lt hle hlimit), checked_ok_bind, checkProofOfWork_eq,
      Checked.relabel_of]
    simp only
    split
    · rfl
    split
    · rfl
    · rfl

end Machine

end Chainstate
