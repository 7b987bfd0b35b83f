-- SUMMARY: Accepted and refused blocks: what a validation leaves, and when the clock matters.
import Chainstate.Proofs.Registration

/-!
# Accepted blocks

A validation is three attempts and the record of the block (`Engine.validateBlock_ok`). On an engine
with registered rules an accepted block is put on top of the database and gets its stake record
(`Engine.Extends`). A refused one leaves no trace but remembered deployment states, as long as the
rules make the records that the engine keeps.

The clock is read by one rule, which compares it with the time of the header. A block that is
accepted at one time is accepted with the same effect at every time at which its header is not too
far ahead (`Engine.validateBlock_clock`).
-/

namespace Chainstate

namespace Engine

variable {e e' : Engine MemoryStore} {now now' : UInt32} {c : Chain} {b : Block}

/-! ## Stages of a validation -/

theorem attempt_of_runRules {b : Option Block} {rules : List RuleId} {a : Attempt MemoryStore}
    (h : runRules ⟨e.network.params, now, e.stakes⟩ rules (Attempt.start c b e.store e.deployments)
      = .ok () a) :
    attempt now c b rules e = .ok a { e with store := a.store, deployments := a.deployments } := by
  unfold attempt
  simp only [h]

theorem attempt_network {b : Option Block} {rules : List RuleId} {a : Attempt MemoryStore}
    (h : attempt now c b rules e = .ok a e') : e'.network = e.network := by
  obtain ⟨-, rfl⟩ := attempt_ok h
  rfl

/-- The first stages drop their attempt. -/
theorem attempt_drop_ok {b : Option Block} {rules : List RuleId} :
    (attempt now c b rules >>= fun _ => pure ()) e = .ok () e'
      ↔ ∃ a, attempt now c b rules e = .ok a e' := by
  rw [step_bind_ok]
  constructor
  · rintro ⟨a, e₁, hattempt, hend⟩
    obtain ⟨-, rfl⟩ := step_pure_ok.1 hend
    exact ⟨a, hattempt⟩
  · rintro ⟨a, hattempt⟩
    exact ⟨a, e', hattempt, rfl⟩

/-- An accepted block has passed the header rules, the rules on its contents and the coin rules,
which have committed it, and its stake record has been remembered. -/
theorem validateBlock_ok : validateBlock now c b e = .ok () e' ↔
    ∃ a₁ e₁ a₂ e₂ a₃ e₃, attempt now c none e.network.rules.header e = .ok a₁ e₁
      ∧ attempt now c (some b) (e.network.rules.integrity ++ e.network.rules.contents) e₁
        = .ok a₂ e₂
      ∧ attempt now c (some b) e.network.rules.coins e₂ = .ok a₃ e₃
      ∧ a₃.committed = true ∧ recordStake c a₃.stake e₃ = .ok () e' := by
  constructor
  · intro h
    obtain ⟨_, e₁, hheader, h⟩ := step_bind_ok.1 h
    obtain ⟨_, e₂, hcontents, hcoins⟩ := step_bind_ok.1 h
    obtain ⟨a₁, hattempt₁⟩ := attempt_drop_ok.1 hheader
    obtain ⟨a₂, hattempt₂⟩ := attempt_drop_ok.1 hcontents
    have hattempt := hcoins
    rw [validateCoins, step_get_bind] at hattempt
    obtain ⟨a₃, e₃, hattempt₃, -⟩ := step_bind_ok.1 hattempt
    rw [validateCoins_eq hattempt₃] at hcoins
    have hnet₁ := attempt_network hattempt₁
    rw [hnet₁] at hattempt₂
    rw [attempt_network hattempt₂, hnet₁] at hattempt₃
    split at hcoins
    · next hcommitted =>
      exact ⟨a₁, e₁, a₂, e₂, a₃, e₃, hattempt₁, hattempt₂, hattempt₃, hcommitted, hcoins⟩
    · cases hcoins
  · rintro ⟨a₁, e₁, a₂, e₂, a₃, e₃, hattempt₁, hattempt₂, hattempt₃, hcommitted, hrecord⟩
    have hnet₁ := attempt_network hattempt₁
    have hnet₂ := (attempt_network hattempt₂).trans hnet₁
    rw [← hnet₁] at hattempt₂
    rw [← hnet₂] at hattempt₃
    have hheader : validateHeader now c e = .ok () e₁ := attempt_drop_ok.2 ⟨a₁, hattempt₁⟩
    have hcontents : validateContents now c b e₁ = .ok () e₂ := attempt_drop_ok.2 ⟨a₂, hattempt₂⟩
    rw [validateBlock, step_bind_of_ok hheader, step_bind_of_ok hcontents,
      validateCoins_eq hattempt₃, if_pos hcommitted]
    exact hrecord

/-! ## What is left -/

/-- The engine `e'` is `e` with a block on top of its database and the record of that block. -/
structure Extends (c : Chain) (e e' : Engine MemoryStore) : Prop extends SameKind e e' where
  advanced : (e.store.coinTable.All fun coin => coin.isPrunable = false) →
    Advanced c e.store e'.store
  records : ∀ d, c.digest ≠ d → e'.record? d = e.record? d
  made : e.stakes.isSome → (e'.record? c.digest).isSome

/-- A remembered record is there afterwards where the engine keeps records. -/
theorem isSome_of_recordStake {record : Option StakeRecord} (h : recordStake c record e = .ok () e')
    (hstakes : e.stakes.isSome) : record.isSome := by
  rcases (recordStake_memory c record e).2.2.1 e' h with hnone | hsome
  · rw [hstakes] at hnone
    cases hnone
  · exact hsome

/-- The coin rules have committed an accepted block, and nothing before them has changed anything
but remembered deployment states. What is left after them is to remember its record. -/
theorem committed_of_validateBlock (hrules : e.network.rules.Ordered)
    (h : validateBlock now c b e = .ok () e') :
    ∃ a e₂ e₃, Quiet e e₂ ∧ attempt now c (some b) e.network.rules.coins e₂ = .ok a e₃
      ∧ Committed c a.stake e₂ e₃ ∧ recordStake c a.stake e₃ = .ok () e' := by
  obtain ⟨a₁, e₁, a₂, e₂, a₃, e₃, hattempt₁, hattempt₂, hattempt₃, hcommitted, hrecord⟩ :=
    validateBlock_ok.1 h
  have hquiet₁ := quiet_attempt now c none hrules.quiet.header e
  rw [hattempt₁, endState_ok] at hquiet₁
  have hquiet₂ := quiet_attempt now c (some b) hrules.quiet.contents e₁
  rw [hattempt₂, endState_ok] at hquiet₂
  have hquiet := hquiet₁.trans hquiet₂
  have hcoins := hattempt₃
  rw [← hquiet.network] at hrules hcoins
  rcases attempt_coins hrules hcoins with ⟨huncommitted, -⟩ | ⟨-, hdone⟩
  · rw [hcommitted] at huncommitted
    cases huncommitted
  · exact ⟨a₃, e₂, e₃, hquiet, hattempt₃, hdone, hrecord⟩

/-- Up to the remembering of its record an accepted block changes nothing that is found of stake
records. -/
theorem Committed.congr {e₂ e₃ : Engine MemoryStore} {record : Option StakeRecord}
    (h : Committed c record e₂ e₃) (hquiet : Quiet e e₂) (hbacked : e.Backed) :
    e₃.Backed ∧ ∀ d, e₃.record? d = e.record? d :=
  hbacked.congr (h.network.trans hquiet.network) (h.stakes.trans hquiet.stakes)
    (h.records.trans (congrArg _ hquiet.store))

/-- An accepted block extends the engine. -/
theorem extends_of_validateBlock (hrules : e.network.rules.Ordered) (hbacked : e.Backed)
    (hc : c.parent? ≠ none → c.digest ≠ e.network.genesisDigest)
    (h : validateBlock now c b e = .ok () e') : Extends c e e' := by
  obtain ⟨a₃, e₂, e₃, hquiet, -, hdone, hrecord⟩ := committed_of_validateBlock hrules h
  obtain ⟨hbacked₃, hsame⟩ := hdone.congr hquiet hbacked
  have hc₃ : c.digest ≠ e₃.network.genesisDigest := by
    rw [hdone.network, hquiet.network]
    exact hc hdone.parent
  obtain ⟨hkind, hledger, -, -, hrecords⟩ := hbacked₃.recordStake hc₃ hrecord
  have hstakes : e₃.stakes = e.stakes := hdone.stakes.trans hquiet.stakes
  refine ⟨⟨hkind.network.trans (hdone.network.trans hquiet.network), ?_⟩, ?_, ?_, ?_⟩
  · rw [hkind.stakes, hstakes]
  · intro hdb
    rw [← hquiet.store] at hdb ⊢
    exact (hdone.advanced hdb).of_sameLedger hledger
  · intro d hd
    rw [hrecords, if_neg fun h => hd h.2]
    exact hsame d
  · intro hsome
    rw [← hstakes] at hsome
    rw [hrecords, if_pos ⟨hsome, rfl⟩]
    exact isSome_of_recordStake hrecord hsome

/-- A refused block leaves the database and the stake records as they were, if the rules make the
records that the engine keeps. -/
theorem quiet_of_validateBlock_error (hrules : e.network.rules.Ordered) (hmakes : e.MakesRecords)
    {f : Failure} (h : validateBlock now c b e = .error f e') : Quiet e e' := by
  have hquiet₁ := quiet_validateHeader now c hrules.quiet
  rcases step_bind_error.1 h with h | ⟨_, e₁, hheader, h⟩
  · rw [h] at hquiet₁
    exact hquiet₁
  rw [hheader, endState_ok] at hquiet₁
  rw [← hquiet₁.network] at hrules
  have hquiet₂ := quiet_validateContents now c b hrules.quiet
  rcases step_bind_error.1 h with h | ⟨_, e₂, hcontents, h⟩
  · rw [h] at hquiet₂
    exact hquiet₁.trans hquiet₂
  rw [hcontents, endState_ok] at hquiet₂
  rw [← hquiet₂.network] at hrules
  have hquiet := hquiet₁.trans hquiet₂
  rcases validateCoins_error hrules h with hquiet₃ | ⟨-, hmisses, -⟩
  · exact hquiet.trans hquiet₃
  · rw [MakesRecords, hquiet.network, hquiet.stakes] at hmisses
    exact absurd hmakes hmisses

end Engine

/-! ## The clock -/

/-- The header passes the check of its time at `now`, where the network makes that check. -/
def Chain.Timely (net : Network) (now : UInt32) (c : Chain) : Prop :=
  .headerTime ∈ net.rules.header → c.checkTime net.params now = .ok ()

/-- A header that is not too far ahead at one time is not too far ahead later. -/
theorem Chain.Timely.mono {net : Network} {now now' : UInt32} {c : Chain} (h : c.Timely net now)
    (hle : now ≤ now') : c.Timely net now' := by
  intro hrule
  have htime := h hrule
  cases c with
  | genesis header => rfl
  | extend header parent =>
    have hle := UInt32.le_iff_toNat_le.1 hle
    rw [checkTime] at htime ⊢
    split at htime
    · cases htime
    · next hmedian =>
      split at htime
      · cases htime
      · rw [if_neg hmedian, if_neg (by omega)]

namespace Attempt

variable {env : RuleEnv} {now' : UInt32} {a a' : Attempt MemoryStore}

/-- A rule that passes at one time passes at another, unless it checks the time of the header. -/
theorem run_clock {id : RuleId}
    (htime : id = .headerTime → a.chain.checkTime env.params now' = .ok ())
    (h : id.run env a = .ok () a') : id.run { env with now := now' } a = .ok () a' := by
  cases id with
  | headerTime =>
    change check (a.chain.checkTime env.params env.now) a = .ok () a' at h
    obtain ⟨-, rfl⟩ := check_ok.1 h
    exact check_ok.2 ⟨htime rfl, rfl⟩
  | workDifficulty | headerVersion | merkleRoot | blockSignature | contentFlags | lockTimes
  | coinbaseHeight | blockSize | coinbasePosition | transactions | writtenSigOps | lastWorkBlock
  | coinstakeShape | kindDifficulty | coinFlags | loadView | connectWork | coldStaking
  | connectStake | commitView => exact h

theorem runRules_clock {ids : List RuleId}
    (htime : .headerTime ∈ ids →
      .commitView ∉ ids ∧ a.chain.checkTime env.params now' = .ok ())
    (h : runRules env ids a = .ok () a') :
    runRules { env with now := now' } ids a = .ok () a' := by
  induction ids generalizing a with
  | nil => exact h
  | cons id rest ih =>
    obtain ⟨_, a₁, hrun, hrest⟩ := step_bind_ok.1 h
    refine step_bind_ok.2 ⟨(), a₁, run_clock ?_ hrun, ih ?_ hrest⟩
    · rintro rfl
      exact (htime List.mem_cons_self).2
    · intro hmem
      obtain ⟨hcommit, hchecked⟩ := htime (List.mem_cons_of_mem _ hmem)
      rw [List.mem_cons, not_or] at hcommit
      rw [((keeps_run env (Ne.symm hcommit.1)).of_ok (Framed.refl a) hrun).chain]
      exact ⟨hcommit.2, hchecked⟩

end Attempt

namespace Engine

variable {e e' : Engine MemoryStore} {now now' : UInt32} {c : Chain} {b : Block}

theorem attempt_clock {b : Option Block} {rules : List RuleId} {a : Attempt MemoryStore}
    (htime : .headerTime ∈ rules →
      .commitView ∉ rules ∧ c.checkTime e.network.params now' = .ok ())
    (h : attempt now c b rules e = .ok a e') : attempt now' c b rules e = .ok a e' := by
  obtain ⟨hrun, rfl⟩ := attempt_ok h
  exact attempt_of_runRules (Attempt.runRules_clock htime hrun)

/-- A block that is accepted at one time is accepted with the same effect at any time at which its
header is not too far ahead. -/
theorem validateBlock_clock (hrules : e.network.rules.Ordered) (htime : c.Timely e.network now')
    (h : validateBlock now c b e = .ok () e') : validateBlock now' c b e = .ok () e' := by
  obtain ⟨a₁, e₁, a₂, e₂, a₃, e₃, hattempt₁, hattempt₂, hattempt₃, hcommitted, hrecord⟩ :=
    validateBlock_ok.1 h
  refine validateBlock_ok.2 ⟨a₁, e₁, a₂, e₂, a₃, e₃, ?_, ?_, ?_, hcommitted, hrecord⟩
  · exact attempt_clock (fun hmem => ⟨hrules.quiet.header, htime hmem⟩) hattempt₁
  · refine attempt_clock (fun hmem => absurd hmem ?_) hattempt₂
    exact hrules.contents_notMem (by decide) (by decide)
  · exact attempt_clock (fun hmem => absurd hmem (hrules.coins_notMem (by decide))) hattempt₃

/-- The header of an accepted block was not too far ahead. -/
theorem timely_of_validateBlock (hrules : e.network.rules.Ordered)
    (h : validateBlock now c b e = .ok () e') : c.Timely e.network now := by
  intro hmem
  obtain ⟨a₁, e₁, -, -, -, -, hattempt₁, -⟩ := validateBlock_ok.1 h
  obtain ⟨hpassed, -⟩ := attempt_ok hattempt₁
  obtain ⟨a, a', hframe, hrun⟩ := Attempt.runRules_ok_of_mem (Attempt.Framed.refl _)
    hrules.quiet.header hpassed hmem
  change Attempt.check (a.chain.checkTime e.network.params now) a = .ok () a' at hrun
  rw [hframe.chain] at hrun
  exact (Attempt.check_ok.1 hrun).1

end Engine

end Chainstate
