-- SUMMARY: Registered rules: what `RuleSet.build` checks, and what coin stages of such rules do.
import Chainstate.Proofs.Faults
import Chainstate.Proofs.Reachable

/-!
# Registered rules

`RuleSet.build` takes any list of rules whose coin rules load the coins before they use them and
commit last, and nothing else is asked of a registration. That is enough to keep the coins set
while they are used and to commit at most once (`Attempt.runRules_failsIn`), and a rule that fails
does so before anything is written. One failure is left for after the commit: an engine that keeps
stake records misses the one of the block where no rule has made it
(`Engine.validateCoins_registered`).

A coin stage that passes has put the block on top of the database (`Advanced`), whatever rules it
has gone through.
-/

namespace Chainstate

/-! ## What is checked -/

namespace RuleSet

/-- The rules are sorted by stage, and the coin rules can work in their order. -/
structure Ordered (rules : RuleSet) : Prop where
  header : ∀ id ∈ rules.header, id.stage = .header
  integrity : ∀ id ∈ rules.integrity, id.stage = .integrity
  contents : ∀ id ∈ rules.contents, id.stage = .contents
  coins : ∀ id ∈ rules.coins, id.stage = .coins
  commitsLast : commitsLast rules.coins = true
  loadsFirst : loadsFirst false rules.coins = true

theorem ordered_of_build {ids : List RuleId} {rules : RuleSet} (h : build ids = .ok rules) :
    rules.Ordered := by
  have hstage (s : Stage) : ∀ id ∈ ids.filter (fun id => id.stage == s), id.stage = s := by
    intro id hid
    simpa using (List.mem_filter.1 hid).2
  unfold build at h
  simp only at h
  split at h
  · cases h
  · next hlast =>
    split at h
    · cases h
    · next hfirst =>
      cases h
      exact ⟨hstage _, hstage _, hstage _, hstage _, by simpa using hlast, by simpa using hfirst⟩

theorem coins_of_build {ids : List RuleId} {rules : RuleSet} (h : build ids = .ok rules) :
    rules.coins = ids.filter fun id => id.stage == .coins := by
  unfold build at h
  simp only at h
  split at h
  · cases h
  · split at h
    · cases h
    · cases h
      rfl

/-- Rules of which the first commit is the last rule have no commit, or one at their end. -/
theorem commitsLast_cases {ids : List RuleId} (h : commitsLast ids = true) :
    .commitView ∉ ids ∨ ∃ before, ids = before ++ [.commitView] ∧ .commitView ∉ before := by
  induction ids with
  | nil => exact .inl List.not_mem_nil
  | cons id rest ih =>
    unfold commitsLast at h
    by_cases hid : id = .commitView
    · subst hid
      rw [if_pos (by simp), List.isEmpty_iff] at h
      subst h
      exact .inr ⟨[], rfl, List.not_mem_nil⟩
    · rw [if_neg (by simpa using hid)] at h
      rcases ih h with hrest | ⟨before, rfl, hbefore⟩
      · exact .inl fun hmem => (List.mem_cons.1 hmem).elim (fun heq => hid heq.symm) hrest
      · refine .inr ⟨id :: before, rfl, ?_⟩
        exact fun hmem => (List.mem_cons.1 hmem).elim (fun heq => hid heq.symm) hbefore

/-- A rule that stands before another is not the commit. -/
theorem commitsLast_split {before after : List RuleId} {id : RuleId}
    (h : commitsLast (before ++ id :: after) = true) : .commitView ∉ before := by
  induction before with
  | nil => exact List.not_mem_nil
  | cons first rest ih =>
    rw [List.cons_append, commitsLast] at h
    split at h
    · simp at h
    · next hfirst =>
      rw [List.mem_cons, not_or]
      exact ⟨fun heq => hfirst (by simp [← heq]), ih h⟩

/-- Each rule that needs something comes after one that gives it, unless it is given. -/
def givesFirst (needs gives : RuleId → Bool) : (given : Bool) → List RuleId → Bool
  | _, [] => true
  | given, id :: rest =>
    (given || !needs id) && givesFirst needs gives (given || gives id) rest

theorem loadsFirst_eq (loaded : Bool) (ids : List RuleId) :
    loadsFirst loaded ids = givesFirst RuleId.needsView (· == .loadView) loaded ids := by
  induction ids generalizing loaded with
  | nil => rfl
  | cons id rest ih => rw [loadsFirst, givesFirst, ih]

theorem givesFirst_split {needs gives : RuleId → Bool} {given : Bool} {before after : List RuleId}
    {id : RuleId} (h : givesFirst needs gives given (before ++ id :: after) = true)
    (hneeds : needs id = true) : given = true ∨ ∃ x ∈ before, gives x = true := by
  induction before generalizing given with
  | nil =>
    rw [List.nil_append, givesFirst, hneeds, Bool.and_eq_true] at h
    exact .inl (by simpa using h.1)
  | cons first rest ih =>
    rw [List.cons_append, givesFirst, Bool.and_eq_true] at h
    rcases ih h.2 with hgiven | ⟨x, hx, hgives⟩
    · rcases Bool.or_eq_true_iff.1 hgiven with hgiven | hgives
      · exact .inl hgiven
      · exact .inr ⟨first, List.mem_cons_self, hgives⟩
    · exact .inr ⟨x, List.mem_cons_of_mem _ hx, hgives⟩

theorem loadsFirst_split {before after : List RuleId} {id : RuleId}
    (h : loadsFirst false (before ++ id :: after) = true) (hneeds : id.needsView = true) :
    .loadView ∈ before := by
  rw [loadsFirst_eq] at h
  rcases givesFirst_split h hneeds with hgiven | ⟨x, hx, hgives⟩
  · cases hgiven
  · rw [← (beq_iff_eq.1 hgives : x = .loadView)]
    exact hx

variable {rules : RuleSet}

theorem Ordered.header_notMem (h : rules.Ordered) {id : RuleId} (hid : id.stage ≠ .header) :
    id ∉ rules.header := fun hmem => hid (h.header id hmem)

theorem Ordered.contents_notMem (h : rules.Ordered) {id : RuleId} (hi : id.stage ≠ .integrity)
    (hc : id.stage ≠ .contents) : id ∉ rules.integrity ++ rules.contents := fun hmem =>
  (List.mem_append.1 hmem).elim (fun hm => hi (h.integrity id hm)) fun hm => hc (h.contents id hm)

theorem Ordered.coins_notMem (h : rules.Ordered) {id : RuleId} (hid : id.stage ≠ .coins) :
    id ∉ rules.coins := fun hmem => hid (h.coins id hmem)

/-- Only the coin stage commits. -/
theorem Ordered.quiet (h : rules.Ordered) : Engine.CommitsLast rules :=
  ⟨h.header_notMem (by decide), h.contents_notMem (by decide) (by decide)⟩

end RuleSet

/-! ## Rules before the commit -/

namespace Attempt

variable {env : RuleEnv} {a a₁ a' : Attempt MemoryStore}

/-- The loaded coins stand for the coins of the database, as far as they have been connected. -/
def ViewTracks (a : Attempt MemoryStore) : Prop :=
  ∀ w, a.view = some w → ∃ b after, a.block = some b ∧ w.Tracks a.store.coinTable after
    ∧ w.Covers (touched b) ∧ after.All fun coin => coin.isPrunable = false

/-- Connecting transactions keeps the coins beside a table. -/
theorem ViewTracks.connect (h : a.ViewTracks) {b : Block} {w w' : WorkingSet} {p : Params}
    {height : Nat} {bip30 : Bool} {time : Option UInt32} {fees : Int} (hb : a.block = some b)
    (hw : a.view = some w)
    (hconnect : Spending.connect p height bip30 time b.transactions w = .ok fees w')
    (stake : Option StakeRecord) : ViewTracks { a with view := some w', stake } := by
  obtain ⟨b₁, after, hb₁, htracks, hcovers, hafter⟩ := h w hw
  rw [hb, Option.some.injEq] at hb₁
  subst hb₁
  obtain ⟨after', happly, htracks', hext, -⟩ :=
    Spending.connect_ok htracks (covers_outPoints hcovers) hconnect
  rintro _ ⟨⟩
  refine ⟨b, after', hb, htracks', hext.covers hcovers, ?_⟩
  exact Ledger.applyAll_all happly hafter fun _ _ _ hoc => (Transaction.mem_createdCoins hoc).2.2

/-- What rules leave that have passed without a commit: what one of them sets stays set, and the
loaded coins stay beside a table. -/
structure Passed (ids : List RuleId) (a a' : Attempt MemoryStore) : Prop extends Framed a a' where
  flags : a.flags.isSome ∨ (∃ id ∈ ids, id.setsFlags = true) → a'.flags.isSome
  view : a.view.isSome ∨ .loadView ∈ ids → a'.view.isSome
  stake : a.stake.isSome ∨ .connectStake ∈ ids → a'.stake.isSome
  tracks : (a.store.coinTable.All fun coin => coin.isPrunable = false) → a.ViewTracks →
    a'.ViewTracks

theorem passed_nil (a : Attempt MemoryStore) : Passed [] a a := by
  refine ⟨Framed.refl a, ?_, ?_, ?_, fun _ ha => ha⟩
  · rintro (hset | ⟨id, hid, -⟩)
    · exact hset
    · cases hid
  · exact fun h => h.resolve_right List.not_mem_nil
  · exact fun h => h.resolve_right List.not_mem_nil

theorem Passed.cons {id : RuleId} {ids : List RuleId} (h : Passed [id] a a₁)
    (h' : Passed ids a₁ a') : Passed (id :: ids) a a' := by
  refine ⟨h.toFramed.trans h'.toFramed, ?_, ?_, ?_, fun hdb ha => ?_⟩
  · rintro (hset | ⟨x, hx, hsets⟩)
    · exact h'.flags (.inl (h.flags (.inl hset)))
    · rcases List.mem_cons.1 hx with rfl | hx
      · exact h'.flags (.inl (h.flags (.inr ⟨x, List.mem_singleton_self x, hsets⟩)))
      · exact h'.flags (.inr ⟨x, hx, hsets⟩)
  · rintro (hset | hmem)
    · exact h'.view (.inl (h.view (.inl hset)))
    · rcases List.mem_cons.1 hmem with rfl | hmem
      · exact h'.view (.inl (h.view (.inr (List.mem_singleton_self _))))
      · exact h'.view (.inr hmem)
  · rintro (hset | hmem)
    · exact h'.stake (.inl (h.stake (.inl hset)))
    · rcases List.mem_cons.1 hmem with rfl | hmem
      · exact h'.stake (.inl (h.stake (.inr (List.mem_singleton_self _))))
      · exact h'.stake (.inr hmem)
  · refine h'.tracks ?_ (h.tracks hdb ha)
    rw [h.store]
    exact hdb

theorem passed_run {id : RuleId} (hcommit : id ≠ .commitView) (h : id.run env a = .ok () a') :
    Passed [id] a a' := by
  have hframe := (keeps_run env hcommit).of_ok (Framed.refl a) h
  -- The rules that set nothing leave the attempt as it is.
  have hchecks (hid : id.onlyChecks = true) : Passed [id] a a' := by
    obtain rfl := run_of_onlyChecks hid h
    refine ⟨hframe, ?_, ?_, ?_, fun _ ha => ha⟩
    · rintro (hset | ⟨x, hx, hsets⟩)
      · exact hset
      · rw [List.mem_singleton.1 hx] at hsets
        cases id <;> cases hid <;> cases hsets
    · rintro (hset | hmem)
      · exact hset
      · rw [← List.mem_singleton.1 hmem] at hid
        cases hid
    · rintro (hset | hmem)
      · exact hset
      · rw [← List.mem_singleton.1 hmem] at hid
        cases hid
  cases id with
  | contentFlags | coinFlags =>
    obtain ⟨flags, deployments, rfl⟩ := setFlags_ok h
    exact ⟨hframe, fun _ => rfl, fun h => h.resolve_right (by decide),
      fun h => h.resolve_right (by decide), fun _ ha => ha⟩
  | loadView =>
    obtain ⟨b, parent, w, hb, -, -, htracks, hcovers, rfl⟩ := loadView_ok h
    refine ⟨hframe, fun h => h.resolve_right (by decide), fun _ => rfl,
      fun h => h.resolve_right (by decide), fun hdb _ => ?_⟩
    rintro _ ⟨⟩
    exact ⟨b, _, hb, htracks, hcovers, hdb⟩
  | connectWork =>
    obtain ⟨bip30, b, w, w', fees, hb, hw, hconnect, -, rfl⟩ := connectWork_ok h
    exact ⟨hframe, fun h => h.resolve_right (by decide), fun _ => rfl,
      fun h => h.resolve_right (by decide), fun _ ha => ha.connect hb hw hconnect _⟩
  | connectStake =>
    obtain ⟨bip30, b, -, -, w, w', previous, record, stakeIn, fees, hb, -, -, -, hw, -, hconnect, -,
      rfl⟩ := connectStake_ok h
    exact ⟨hframe, fun h => h.resolve_right (by decide), fun _ => rfl, fun _ => rfl,
      fun _ ha => ha.connect hb hw hconnect _⟩
  | commitView => exact absurd rfl hcommit
  | headerTime | workDifficulty | headerVersion | merkleRoot | blockSignature | lockTimes
  | coinbaseHeight | blockSize | coinbasePosition | transactions | writtenSigOps | lastWorkBlock
  | coinstakeShape | kindDifficulty | coldStaking => exact hchecks rfl

theorem passed_runRules {ids : List RuleId} (hcommit : .commitView ∉ ids)
    (h : runRules env ids a = .ok () a') : Passed ids a a' := by
  induction ids generalizing a with
  | nil =>
    obtain ⟨-, rfl⟩ := step_pure_ok.1 h
    exact passed_nil a
  | cons id rest ih =>
    rw [List.mem_cons, not_or] at hcommit
    obtain ⟨_, a₁, hrun, hrest⟩ := step_bind_ok.1 h
    exact (passed_run (Ne.symm hcommit.1) hrun).cons (ih hcommit.2 hrest)

/-- Coin rules that load the coins first and commit last never find them unset, and never find the
block committed. -/
theorem runRules_failsIn {ids : List RuleId} (hlast : RuleSet.commitsLast ids = true)
    (hfirst : RuleSet.loadsFirst false ids = true) (hcommitted : a.committed = false) :
    FailsIn (fun f => f ≠ .fault (.ruleOrder .viewUnset) ∧ f ≠ .fault (.ruleOrder .committedTwice))
      (runRules env ids a) := by
  intro f a' hfails
  obtain ⟨before, id, after, a₁, rfl, hbefore, hrun⟩ := runRules_error hfails
  have hpassed := passed_runRules (RuleSet.commitsLast_split hlast) hbefore
  have hcause := id.run_explained env a₁ f a' hrun
  refine ⟨?_, ?_⟩
  · rintro rfl
    cases hcause with
    | viewUnset hneeds hnone =>
      have hset := hpassed.view (.inr (RuleSet.loadsFirst_split hfirst hneeds))
      rw [hnone] at hset
      cases hset
  · rintro rfl
    cases hcause with
    | committedTwice h =>
      rw [hpassed.committed, hcommitted] at h
      cases h

end Attempt

/-! ## Blocks on top of a database -/

/-- The database `db'` is `db` with a block on top: its tip is the block's, and the record under
its height leads back to the coins before it. Stake records may differ. -/
structure Advanced (c : Chain) (db db' : MemoryStore) : Prop where
  parent : ∃ parent, c.parent? = some parent ∧ db.tip = some ⟨parent.digest, parent.height⟩
  tip : db'.tip = some ⟨c.digest, c.height⟩
  undo : ∀ old, db.tip = some old → db'.undoTable
    = db.undoTable.insert c.height (UndoRecord.between old db.coinTable db'.coinTable)
  spendable : db'.coinTable.All fun coin => coin.isPrunable = false

theorem Advanced.of_sameLedger {c : Chain} {db db₁ db₂ : MemoryStore} (h : Advanced c db db₁)
    (hsame : SameLedger db₁ db₂) : Advanced c db db₂ := by
  refine ⟨h.parent, hsame.tip.trans h.tip, ?_, ?_⟩
  · rw [hsame.undo, hsame.coins]
    exact h.undo
  · rw [hsame.coins]
    exact h.spendable

/-- Taking back a block that stands on top of a database leaves the ledger of that database. -/
theorem Advanced.rewind {c : Chain} {db db' : MemoryStore} (h : Advanced c db db')
    (hnew : db.undoTable[c.height]? = none) :
    ∃ parent db'', c.parent? = some parent
      ∧ MemoryStore.rewind db' = .ok (⟨parent.digest, parent.height⟩, db'') ∧ SameLedger db db''
      ∧ db''.stakeTable = db'.stakeTable := by
  obtain ⟨parent, hparent, htip⟩ := h.parent
  have hundo := h.undo _ htip
  have hrecord : db'.undoTable[c.height]?
      = some (.between ⟨parent.digest, parent.height⟩ db.coinTable db'.coinTable) := by
    rw [hundo, Table.getElem?_insert, if_pos rfl]
  refine ⟨parent, _, hparent, MemoryStore.rewind_of_between h.tip hrecord,
    ⟨htip.symm, rfl, ?_⟩, rfl⟩
  change db'.undoTable.erase c.height = db.undoTable
  rw [hundo, Table.erase_insert, Table.erase_of_getElem?_eq_none hnew]

/-- A commit of loaded coins puts the block on top of the database. -/
theorem Attempt.advanced_of_commitView {a a' : Attempt MemoryStore} (ha : a.ViewTracks)
    (h : commitView a = .ok () a') : Advanced a.chain a.store a'.store := by
  obtain ⟨parent, w, hparent, hw, hcommit, -, -⟩ := commitView_ok h
  obtain ⟨b, after, -, htracks, -, hafter⟩ := ha w hw
  obtain ⟨htip, -, -⟩ := MemoryStore.tip_of_commit hcommit
  have hdb := commit_ok htracks hafter hcommit
  rw [hdb]
  refine ⟨⟨parent, hparent, htip⟩, rfl, ?_, hafter⟩
  intro old hold
  rw [htip, Option.some.injEq] at hold
  subst hold
  rw [Chain.height_of_parent? hparent]

/-! ## The coin stage -/

namespace Engine

/-- The rules make a stake record wherever the engine keeps one. -/
def MakesRecords (e : Engine MemoryStore) : Prop :=
  e.stakes.isSome → .connectStake ∈ e.network.rules.coins

/-- The engine `e'` is `e` with a block committed, and the stake record that the rules have made
of the block, where they have. -/
structure Committed (c : Chain) (record : Option StakeRecord) (e e' : Engine MemoryStore) :
    Prop where
  network : e'.network = e.network
  stakes : e'.stakes = e.stakes
  parent : c.parent? ≠ none
  tip : e'.store.tip = some ⟨c.digest, c.height⟩
  records : e'.store.stakeTable = e.store.stakeTable
  advanced : (e.store.coinTable.All fun coin => coin.isPrunable = false) →
    Advanced c e.store e'.store
  made : .connectStake ∈ e.network.rules.coins → record.isSome

variable {e e' : Engine MemoryStore} {now : UInt32} {c : Chain} {b : Block}

/-- Registered coin rules that pass commit the block, unless there is no commit among them. -/
theorem attempt_coins (hrules : e.network.rules.Ordered) {a : Attempt MemoryStore}
    (h : attempt now c (some b) e.network.rules.coins e = .ok a e') :
    (a.committed = false ∧ .commitView ∉ e.network.rules.coins ∧ Quiet e e')
      ∨ a.committed = true ∧ Committed c a.stake e e' := by
  obtain ⟨hpassed, rfl⟩ := attempt_ok h
  rcases RuleSet.commitsLast_cases hrules.commitsLast with hnone | ⟨before, hsplit, hbefore⟩
  · have hframe := (Attempt.keeps_runRules _ hnone).of_ok (Attempt.Framed.refl _) hpassed
    exact .inl ⟨hframe.committed, hnone, rfl, hframe.store, rfl⟩
  · rw [hsplit, Attempt.runRules_append] at hpassed
    obtain ⟨_, a₁, hrun, hlast⟩ := step_bind_ok.1 hpassed
    obtain ⟨_, a₂, hcommit, hend⟩ := step_bind_ok.1 hlast
    obtain ⟨-, rfl⟩ := step_pure_ok.1 hend
    have hbelow := Attempt.passed_runRules hbefore hrun
    obtain ⟨parent, w, hparent, -, hstored, hcommitted, hsame⟩ := Attempt.commitView_ok hcommit
    obtain ⟨-, htip, hrecords⟩ := MemoryStore.tip_of_commit hstored
    rw [hbelow.chain] at htip hparent
    change c.parent? = some parent at hparent
    refine .inr ⟨hcommitted, rfl, rfl, by simp [hparent], htip,
      hrecords.trans (congrArg _ hbelow.store), ?_, ?_⟩
    · intro hdb
      have htracks := hbelow.tracks hdb fun _ hw => nomatch hw
      have hadvanced := Attempt.advanced_of_commitView htracks hcommit
      rw [hbelow.chain, hbelow.store] at hadvanced
      exact hadvanced
    · intro hmem
      rw [hsame]
      refine hbelow.stake (.inr ?_)
      rw [hsplit] at hmem
      simpa using hmem

/-- Registered coin rules that fail have not touched the database. -/
theorem attempt_coins_error (hrules : e.network.rules.Ordered) {f : Failure}
    (h : attempt now c (some b) e.network.rules.coins e = .error f e') : Quiet e e' := by
  obtain ⟨a, hfailed, rfl⟩ := attempt_error h
  have hrefl := Attempt.Framed.refl (Attempt.start c (some b) e.store e.deployments)
  rcases RuleSet.commitsLast_cases hrules.commitsLast with hnone | ⟨before, hsplit, hbefore⟩
  · exact ⟨rfl, ((Attempt.keeps_runRules _ hnone).of_error hrefl hfailed).store, rfl⟩
  · rw [hsplit] at hfailed
    exact ⟨rfl, (Attempt.runRules_commit_error hrefl hbefore hfailed).store, rfl⟩

/-- Remembering a record never fails on a database in memory; without a record it fails where the
engine keeps records, and does nothing where it does not. -/
theorem recordStake_error {record : Option StakeRecord} {f : Failure}
    (h : recordStake c record e = .error f e') :
    f = .fault (.ruleOrder .noStakeRecord) ∧ e' = e ∧ e.stakes.isSome ∧ record = none := by
  obtain ⟨hstakes, hnone⟩ := (recordStake_memory c record e).2.2.2 f e' h
  obtain ⟨cache, hcache⟩ := Option.isSome_iff_exists.1 hstakes
  subst hnone
  unfold recordStake at h
  rw [step_get_bind] at h
  simp only [hcache] at h
  cases h
  exact ⟨rfl, rfl, hstakes, rfl⟩

/-- A coin stage is its attempt, and then the record of a block that has been committed. -/
theorem validateCoins_eq {a : Attempt MemoryStore} {e₁ : Engine MemoryStore}
    (h : attempt now c (some b) e.network.rules.coins e = .ok a e₁) :
    validateCoins now c b e
      = if a.committed then recordStake c a.stake e₁
        else .error (.fault (.ruleOrder .noCommit)) e₁ := by
  rw [validateCoins, step_get_bind, step_bind_of_ok h]
  cases a.committed with
  | true => rfl
  | false => rfl

/-- Where a registered coin stage fails nothing has been written, or the block has been committed
and its stake record is missing. -/
theorem validateCoins_error (hrules : e.network.rules.Ordered) {f : Failure}
    (h : validateCoins now c b e = .error f e') :
    Quiet e e' ∨ f = .fault (.ruleOrder .noStakeRecord) ∧ ¬e.MakesRecords
      ∧ e'.store.tip = some ⟨c.digest, c.height⟩ := by
  cases hrun : attempt now c (some b) e.network.rules.coins e with
  | error g e₁ =>
    rw [validateCoins, step_get_bind] at h
    rcases step_bind_error.1 h with hattempt | ⟨a, e₂, hattempt, -⟩
    · exact .inl (attempt_coins_error hrules hattempt)
    · rw [hrun] at hattempt
      cases hattempt
  | ok a e₁ =>
    rw [validateCoins_eq hrun] at h
    rcases attempt_coins hrules hrun with ⟨huncommitted, -, hquiet⟩ | ⟨hcommitted, hdone⟩
    · rw [huncommitted] at h
      cases h
      exact .inl hquiet
    · rw [if_pos hcommitted] at h
      obtain ⟨rfl, rfl, hstakes, hnone⟩ := recordStake_error h
      refine .inr ⟨rfl, ?_, hdone.tip⟩
      intro hmakes
      rw [hdone.stakes] at hstakes
      have hsome := hdone.made (hmakes hstakes)
      rw [hnone] at hsome
      cases hsome

/-- For every registration that is let through, any parameters and any database: a coin stage that
fails has changed nothing in the database, save that an engine which keeps stake records, with
rules that make none, has committed the block before it misses its record. No rule uses the coins
before they are loaded or commits twice. -/
theorem validateCoins_registered {ids : List RuleId}
    (hrules : RuleSet.build ids = .ok e.network.rules) {f : Failure}
    (h : validateCoins now c b e = .error f e') :
    (e'.store = e.store ∨ f = .fault (.ruleOrder .noStakeRecord) ∧ e.stakes.isSome = true
        ∧ .connectStake ∉ ids ∧ e'.store.tip = some ⟨c.digest, c.height⟩)
      ∧ f ≠ .fault (.ruleOrder .viewUnset) ∧ f ≠ .fault (.ruleOrder .committedTwice) := by
  have hordered := RuleSet.ordered_of_build hrules
  refine ⟨?_, ?_⟩
  · rcases validateCoins_error hordered h with hquiet | ⟨rfl, hmakes, htip⟩
    · exact .inl hquiet.store
    · rw [MakesRecords, Classical.not_imp] at hmakes
      refine .inr ⟨rfl, hmakes.1, fun hmem => hmakes.2 ?_, htip⟩
      rw [RuleSet.coins_of_build hrules]
      exact List.mem_filter.2 ⟨hmem, rfl⟩
  · rw [validateCoins, step_get_bind] at h
    rcases step_bind_error.1 h with hattempt | ⟨a, e₁, hattempt, h⟩
    · obtain ⟨a, hfailed, -⟩ := attempt_error hattempt
      exact Attempt.runRules_failsIn hordered.commitsLast hordered.loadsFirst rfl f a hfailed
    · have hcoins := validateCoins_eq hattempt
      rw [validateCoins, step_get_bind, step_bind_of_ok hattempt] at hcoins
      rw [hcoins] at h
      split at h
      · obtain ⟨rfl, -⟩ := recordStake_error h
        exact ⟨by decide, by decide⟩
      · cases h
        exact ⟨by decide, by decide⟩

end Engine

namespace Regtest

set_option maxRecDepth 10000

/-- The rules of proof of work commit the block on a network that asks for stake records, and then
fail. -/
theorem validateCoins_registered_staking :
    RuleSet.build RuleSet.workRules = .ok (Engine.opened staking).network.rules
    ∧ ∃ e', Engine.validateCoins 2000000000 chain block (Engine.opened staking)
        = .error (.fault (.ruleOrder .noStakeRecord)) e'
      ∧ (e'.store = (Engine.opened staking).store
        ∨ Failure.fault (.ruleOrder .noStakeRecord) = .fault (.ruleOrder .noStakeRecord)
          ∧ (Engine.opened staking).stakes.isSome = true ∧ .connectStake ∉ RuleSet.workRules
          ∧ e'.store.tip = some ⟨chain.digest, chain.height⟩)
      ∧ Failure.fault (.ruleOrder .noStakeRecord) ≠ .fault (.ruleOrder .viewUnset)
      ∧ Failure.fault (.ruleOrder .noStakeRecord) ≠ .fault (.ruleOrder .committedTwice) := by
  have hrun := eq_error_endState (e := .fault (.ruleOrder .noStakeRecord))
    (r := Engine.validateCoins 2000000000 chain block (Engine.opened staking)) (by decide +kernel)
  exact ⟨rfl, _, hrun, Engine.validateCoins_registered rfl hrun⟩

end Regtest

end Chainstate
