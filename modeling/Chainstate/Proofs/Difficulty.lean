-- SUMMARY: Targets along accepted chains: they decode and never exceed the limits of the network.
import Chainstate.Proofs.CompactTarget
import Chainstate.Proofs.History
import Chainstate.Proofs.Issuance

/-!
# Targets of accepted chains

A header carries the compact form of the target that the network computes for it. On a proof-of-work
network that target is the limit, or comes from the bits of a header below by steps that do not
enlarge it beyond the limit, so the bound is carried up the chain. On a network with both kinds of
blocks the moving average is replaced by the limit where it is zero or above it.
-/

namespace Chainstate

/-! ## Bounded targets -/

/-- The bits of the last header decode to a target of at most `limit`. -/
def Chain.TargetWithin (limit : Nat) (c : Chain) : Prop :=
  ∃ target, c.header.bits.decode = .ok target ∧ target ≤ limit

theorem Target.work_pos {target : Nat} (h : target < 2 ^ 256) : 0 < Target.work target := by
  rw [work, Nat.shiftLeft_eq, Nat.one_mul]
  exact Nat.div_pos h (Nat.succ_pos _)

namespace Retarget

variable {p : Params} {limit : Nat}

theorem storedTarget_le {x : Chain} (hx : x.TargetWithin limit) {target : Nat}
    (h : storedTarget x.header = .ok target) : target ≤ limit := by
  obtain ⟨target', hdecode, hle⟩ := hx
  rw [storedTarget_of_decode hdecode] at h
  cases h
  exact hle

theorem nextInterval_le {x : Chain} (hx : x.TargetWithin p.workLimit) {start : UInt32}
    {target : Nat} (h : nextInterval p x start = .ok target) : target ≤ p.workLimit := by
  simp only [nextInterval, check_bind_ok] at h
  obtain ⟨last, hlast, h⟩ := h
  split at h
  · cases h
    exact storedTarget_le hx hlast
  · cases h
    exact Nat.min_le_right _ _

/-- The target that a proof-of-work header must carry is within the limit where those of the headers
below it are. -/
theorem workTarget_le {c parent : Chain} (hparent : c.parent? = some parent)
    (hbelow : ∀ x ∈ parent.ancestors, x.TargetWithin p.workLimit) {target : Nat}
    (h : workTarget p c = .ok target) : target ≤ p.workLimit := by
  cases c with
  | genesis header => cases hparent
  | extend header parent' =>
    cases hparent
    have htop := hbelow parent parent.self_mem_ancestors
    rw [workTarget] at h
    split at h
    · split at h
      · exact storedTarget_le htop h
      · split at h
        · cases h
          exact Nat.le_refl _
        · exact storedTarget_le (hbelow _ (nearestRegular_lastRegular p parent).mem) h
    · dsimp only at h
      split at h
      · cases h
      · exact nextInterval_le htop h

/-- The target of a kind is its limit, or positive and below it. -/
theorem kindTarget_bounds {lookup : StakeLookup} {prev : Chain} {stake : Bool}
    (hlimit : limitOf p stake ≠ 0) {target : Nat}
    (h : kindTarget lookup p prev stake = .ok target) :
    target ≠ 0 ∧ target ≤ limitOf p stake := by
  simp only [kindTarget, check_bind_ok] at h
  obtain ⟨last, -, h⟩ := h
  cases last with
  | genesis header =>
    cases h
    exact ⟨hlimit, Nat.le_refl _⟩
  | extend header below =>
    simp only [check_bind_ok] at h
    obtain ⟨beforeLast, -, h⟩ := h
    cases beforeLast with
    | genesis earlier =>
      cases h
      exact ⟨hlimit, Nat.le_refl _⟩
    | extend earlier _ =>
      simp only [check_bind_ok] at h
      obtain ⟨stored, -, h⟩ := h
      split at h
      · cases h
        exact ⟨hlimit, Nat.le_refl _⟩
      · next hbounds =>
        cases h
        rw [not_or, Nat.not_lt] at hbounds
        exact hbounds

end Retarget

/-! ## Proof of work -/

namespace Engine

variable {σ : Type} [CoinStore σ]

/-- A header that passes the header stage of proof of work has the target that it must have, and
meets it. -/
theorem checkWork_of_validateHeader {now : UInt32} {c : Chain} {e e' : Engine σ}
    (hrules : e.network.rules = RuleSet.work) (h : validateHeader now c e = .ok () e') :
    c.checkWork e.network.params = .ok () := by
  change (attempt now c none e.network.rules.header >>= fun _ => pure ()) e = .ok () e' at h
  obtain ⟨a, e₁, hattempt, -⟩ := step_bind_ok.1 h
  obtain ⟨hpassed, -⟩ := attempt_ok hattempt
  rw [hrules] at hpassed
  obtain ⟨a₁, a₂, hframed, hrun⟩ := Attempt.runRules_ok_of_mem (Attempt.Framed.refl _)
    commitsLast_work.header hpassed (show RuleId.workDifficulty ∈ _ by decide)
  change Attempt.validate (a₁.chain.checkWork e.network.params) a₁ = .ok () a₂ at hrun
  rw [hframed.chain, Attempt.validate_ok] at hrun
  exact hrun.1

end Engine

namespace Network

/-- The chains that start with the genesis of a network and all of whose later headers have passed
the header stage of an engine of that network. -/
inductive PassesHeaders (net : Network) : Chain → Prop where
  | genesis : PassesHeaders net net.genesisChain
  | extend {σ : Type} [CoinStore σ] {now : UInt32} {header : Header} {parent : Chain}
    {e e' : Engine σ} : PassesHeaders net parent → e.network = net →
    Engine.validateHeader now (.extend header parent) e = .ok () e' →
    PassesHeaders net (.extend header parent)

variable {net : Network}

/-- The last header of a chain that has passed the header stage meets its target, which is within
the limit where those below are, and adds work. -/
theorem target_of_checkWork {c parent : Chain} (hlimit : net.params.workLimit < 2 ^ 256)
    (hparent : c.parent? = some parent)
    (hbelow : ∀ x ∈ parent.ancestors, x.TargetWithin net.params.workLimit)
    (h : c.checkWork net.params = .ok ()) :
    ∃ target, c.header.bits.decode = .ok target ∧ target ≤ net.params.workLimit
      ∧ Target.isMetBy target c.digest = true ∧ parent.work < c.work := by
  obtain ⟨⟨required, hrequired, hbits⟩, hwork⟩ := Chain.checkWork_ok h
  obtain ⟨target, hdecode, hmet⟩ := Chain.checkProofOfWork_ok hwork
  have hle := Retarget.workTarget_le hparent hbelow hrequired
  obtain ⟨target', hdecode', hle', -⟩ :=
    CompactTarget.decode_ofTarget (Nat.lt_of_le_of_lt hle hlimit)
  rw [hbits, hdecode', Except.ok.injEq] at hdecode
  subst hdecode
  have hwithin := Nat.le_trans hle' hle
  have hpos := Target.work_pos (Nat.lt_of_le_of_lt hwithin hlimit)
  rw [← hbits] at hdecode'
  refine ⟨target', hdecode', hwithin, hmet, ?_⟩
  cases c with
  | genesis header => cases hparent
  | extend header parent' =>
    cases hparent
    rw [Chain.work_extend, Header.work]
    rw [Chain.header_extend] at hdecode'
    simp only [hdecode']
    omega

/-- On a chain of headers that have passed the header stage of proof of work, every target is within
the limit, and every header but the genesis meets its target and adds work. -/
theorem target_of_passesHeaders (hrules : net.rules = RuleSet.work)
    (hlimit : net.params.workLimit < 2 ^ 256)
    (hgenesis : net.genesisChain.TargetWithin net.params.workLimit) {c : Chain}
    (h : net.PassesHeaders c) : ∀ x ∈ c.ancestors,
    ∃ target, x.header.bits.decode = .ok target ∧ target ≤ net.params.workLimit
      ∧ ∀ parent, x.parent? = some parent →
        Target.isMetBy target x.digest = true ∧ parent.work < x.work := by
  induction h with
  | genesis =>
    intro x hx
    rw [List.mem_singleton.1 hx]
    obtain ⟨target, hdecode, hle⟩ := hgenesis
    exact ⟨target, hdecode, hle, nofun⟩
  | @extend σ _ now header parent e e' hparent hnetwork hpasses ih =>
    intro x hx
    rcases List.mem_cons.1 hx with rfl | hx
    · subst hnetwork
      obtain ⟨target, hdecode, hle, hmet, hwork⟩ := target_of_checkWork hlimit rfl
        (fun x hx => (ih x hx).imp fun _ h => ⟨h.1, h.2.1⟩)
        (Engine.checkWork_of_validateHeader hrules hpasses)
      refine ⟨target, hdecode, hle, ?_⟩
      rintro _ ⟨⟩
      exact ⟨hmet, hwork⟩
    · exact ih x hx

end Network

/-! ## Two kinds of blocks -/

namespace Engine

variable {net : Network} {c parent : Chain} {b : Block}

/-- A block under its own header carries a target of its kind. -/
theorem target_of_contentsAdmitted (h : ContentsAdmitted net c b)
    (hrules : net.rules = RuleSet.stake) (hparent : c.parent? = some parent)
    (hown : c.header = b.header) (hpos : Retarget.limitOf net.params b.isProofOfStake ≠ 0)
    (hlimit : Retarget.limitOf net.params b.isProofOfStake < 2 ^ 256) :
    ∃ target, c.header.bits.decode = .ok target ∧ target ≠ 0
      ∧ target ≤ Retarget.limitOf net.params b.isProofOfStake := by
  obtain ⟨lookup, hcheck⟩ := h.difficulty hrules parent hparent
  obtain ⟨⟨required, hrequired, hbits⟩, -⟩ := Block.checkKindDifficulty_ok hcheck
  obtain ⟨hne, hle⟩ := Retarget.kindTarget_bounds hpos hrequired
  obtain ⟨target, hdecode, hle', hne'⟩ :=
    CompactTarget.decode_ofTarget (Nat.lt_of_le_of_lt hle hlimit)
  rw [hown, hbits]
  exact ⟨target, hdecode, hne' hne, Nat.le_trans hle' hle⟩

end Engine

/-- The blocks that a session connects under their own headers carry targets of their kinds. -/
theorem Session.target_of_connected {net : Network} (hrules : net.rules = RuleSet.stake)
    (hlimit : ∀ stake, Retarget.limitOf net.params stake ≠ 0
      ∧ Retarget.limitOf net.params stake < 2 ^ 256) {events : List Event}
    (hown : ∀ ev ∈ events, ∀ cb ∈ ev.blocks, cb.1.header = cb.2.header) :
    ∀ cb ∈ (Session.history net events).connected, ∃ target,
      cb.1.header.bits.decode = .ok target ∧ target ≠ 0
        ∧ target ≤ Retarget.limitOf net.params cb.2.isProofOfStake := by
  obtain ⟨blocks, hkeeps, howns⟩ := Session.inv_history (.inr hrules) hown
  rw [hkeeps.connected (.inl hrules)]
  intro cb hcb
  obtain ⟨db, db', hadmitted⟩ := Ledger.admitted_of_mem hkeeps.valid hcb
  obtain ⟨fees, hconnected⟩ := Ledger.connected_of_admitted hadmitted.coins
  obtain ⟨parent, hparent, -⟩ := hconnected.parent
  obtain ⟨hpos, hbound⟩ := hlimit cb.2.isProofOfStake
  exact Engine.target_of_contentsAdmitted hadmitted.contents hrules hparent (howns cb hcb) hpos
    hbound

/-- No accepted header carries a target above the limit of its network. On proof of work this is so
along every chain of headers that have passed the header stage, if it is so of the genesis: each
header but the genesis meets its target and adds work. On networks with both kinds of blocks it is
so of every block that is connected under its own header, and no target is zero. -/
theorem Network.target_le_limit (net : Network) :
    (net.rules = RuleSet.work → net.params.workLimit < 2 ^ 256 →
      net.genesisChain.TargetWithin net.params.workLimit →
      ∀ c, net.PassesHeaders c → ∀ x ∈ c.ancestors, ∃ target,
        x.header.bits.decode = .ok target ∧ target ≤ net.params.workLimit
          ∧ ∀ parent, x.parent? = some parent →
            Target.isMetBy target x.digest = true ∧ parent.work < x.work)
    ∧ (net.rules = RuleSet.stake →
      (∀ stake, Retarget.limitOf net.params stake ≠ 0
        ∧ Retarget.limitOf net.params stake < 2 ^ 256) →
      ∀ events : List Event,
        (∀ ev ∈ events, ∀ cb ∈ ev.blocks, cb.1.header = cb.2.header) →
        ∀ cb ∈ (Session.history net events).connected, ∃ target,
          cb.1.header.bits.decode = .ok target ∧ target ≠ 0
            ∧ target ≤ Retarget.limitOf net.params cb.2.isProofOfStake) :=
  ⟨fun hrules hlimit hgenesis _ h => target_of_passesHeaders hrules hlimit hgenesis h,
    fun hrules hlimit _ hown => Session.target_of_connected hrules hlimit hown⟩

/-! ## A header of each kind of network -/

namespace Regtest

set_option maxRecDepth 10000

/-- The header of the block passes and meets its target, and so does the block that a network of
proof of stake connects. -/
theorem target_le_limit_chain :
    Network.regtest.PassesHeaders chain
    ∧ (∀ x ∈ chain.ancestors, ∃ target, x.header.bits.decode = .ok target
      ∧ target ≤ Network.regtest.params.workLimit
      ∧ ∀ parent, x.parent? = some parent →
        Target.isMetBy target x.digest = true ∧ parent.work < x.work)
    ∧ (Session.history Network.stakeRegtest
      (StakeRegtest.requests.map .request)).connected.length = 1
    ∧ ∀ cb ∈ (Session.history Network.stakeRegtest
      (StakeRegtest.requests.map .request)).connected, ∃ target,
      cb.1.header.bits.decode = .ok target ∧ target ≠ 0
        ∧ target ≤ Retarget.limitOf Network.stakeRegtest.params cb.2.isProofOfStake := by
  have hrun := eq_ok_endState (r := Engine.validateHeader 2000000000 chain
    (Engine.opened Network.regtest)) (by decide +kernel)
  have hpasses : Network.regtest.PassesHeaders chain := .extend .genesis rfl hrun
  have hgenesis : Network.regtest.genesisChain.TargetWithin Network.regtest.params.workLimit :=
    ⟨Network.regtest.params.workLimit, by decide +kernel, Nat.le_refl _⟩
  have hown : ∀ ev ∈ StakeRegtest.requests.map Event.request, ∀ cb ∈ ev.blocks,
      cb.1.header = cb.2.header := by
    simp [StakeRegtest.requests, Event.blocks, Request.blocks]
  exact ⟨hpasses, (Network.target_le_limit Network.regtest).1 rfl (by decide) hgenesis chain hpasses,
    by decide +kernel,
    (Network.target_le_limit Network.stakeRegtest).2 rfl (by decide) _ hown⟩

end Regtest

end Chainstate
