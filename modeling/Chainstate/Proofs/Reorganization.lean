-- SUMMARY: Reorganizations: when they are refused, what they leave, and how they are taken back.
import Chainstate.Proofs.History

/-!
# Reorganizations

An engine switches to a branch that leaves the chain of its tip, is linked, and leaves it not too
far below (`Engine.CanSwitch`); otherwise a reorganization changes nothing. Where it can switch it
takes blocks back down to the fork point, which never fails, and connects the branch up to the first
block that is refused (`Session.Reorganized`). Because an engine shows nothing but its connected
blocks, the blocks that were taken back can be connected again, and then everything is as it was
(`Session.reorganize_history`).
-/

namespace Chainstate

/-! ## Branches -/

/-- Some blocks, of which the lowest comes first, stand on a chain and on each other. -/
def Chain.Linked (fork : Chain) : List (Chain × Block) → Prop
  | [] => True
  | (c, _) :: rest => c.parent? = some fork ∧ Linked c rest

/-- The chain of the last block of a branch; the fork point where there is none. -/
def Chain.tipOf (fork : Chain) (branch : List (Chain × Block)) : Chain :=
  branch.getLast?.elim fork Prod.fst

namespace Chain

theorem linked_concat {fork : Chain} {branch : List (Chain × Block)} {cb : Chain × Block} :
    fork.Linked (branch ++ [cb])
      ↔ fork.Linked branch ∧ cb.1.parent? = some (fork.tipOf branch) := by
  induction branch generalizing fork with
  | nil =>
    change cb.1.parent? = some fork ∧ True ↔ True ∧ cb.1.parent? = some fork
    rw [and_true, true_and]
  | cons first rest ih =>
    have htip : first.1.tipOf rest = fork.tipOf (first :: rest) := by
      cases rest with
      | nil => rfl
      | cons second rest => rw [tipOf, tipOf, List.getLast?_cons_cons]; rfl
    change first.1.parent? = some fork ∧ first.1.Linked (rest ++ [cb]) ↔ _
    rw [ih, htip, ← and_assoc]
    rfl

end Chain

theorem Network.top_append (net : Network) (newer older : List (Chain × Block)) :
    net.top (newer ++ older) = (net.top older).tipOf newer.reverse := by
  rw [Chain.tipOf, List.getLast?_reverse]
  cases newer with
  | nil => rfl
  | cons cb newer => rfl

namespace Engine

variable {net : Network} {index : ChainIndex} {blocks newer older : List (Chain × Block)}
  {e e' r : Engine MemoryStore} {now : UInt32} {c : Chain} {b : Block}

/-- Connected blocks are linked, down to those below them. -/
theorem Replay.linked (hindex : ChainIndex.Grown net.genesis.header index) (hnet : net.Sound)
    (h : Replay net (newer ++ older) r) (hknown : ∀ cb ∈ newer ++ older, cb.1 ∈ index) :
    (net.top older).Linked newer.reverse
      ∧ net.top older ∈ (net.top (newer ++ older)).ancestors := by
  induction newer generalizing r with
  | nil => exact ⟨trivial, Chain.self_mem_ancestors _⟩
  | cons cb newer ih =>
    rw [List.cons_append] at h hknown ⊢
    cases h with
    | @accept _ r₀ _ _ c b hreplay haccepts =>
      obtain ⟨hc, hbelow⟩ := List.forall_mem_cons.1 hknown
      obtain ⟨hlinked, hmem⟩ := ih hreplay hbelow
      obtain ⟨hparent, -, -⟩ := (hreplay.stands hindex hnet hbelow).accept hindex hnet hc haccepts
      refine ⟨?_, Chain.mem_ancestors_of_parent? hparent hmem⟩
      rw [List.reverse_cons, Chain.linked_concat, ← net.top_append]
      exact ⟨hlinked, hparent⟩

theorem Replay.of_append (h : Replay net (newer ++ older) r) : ∃ r', Replay net older r' := by
  induction newer generalizing r with
  | nil => exact ⟨r, h⟩
  | cons cb newer ih =>
    cases h with
    | accept hreplay _ => exact ih hreplay

section

variable (hindex : ChainIndex.Grown net.genesis.header index) (hnet : net.Sound)

include hindex hnet

/-- Engines that are settled on the same blocks hold the same ledger. -/
theorem Settled.sameLedger (h : Settled net index blocks e) (h' : Settled net index blocks e') :
    SameLedger e.store e'.store := by
  obtain ⟨r, hreplay, htwin⟩ := h.replay
  obtain ⟨r', hreplay', htwin'⟩ := h'.replay
  have hsame := hreplay.unique hindex hnet h.known hreplay'
  subst hsame
  exact htwin.ledger.symm.trans htwin'.ledger

/-- A settled engine accepts a block that the engine accepts which has only accepted its blocks. -/
theorem Settled.accepts (h : Settled net index blocks e) (hreplay : Replay net blocks r)
    (hc : c ∈ index) {r' : Engine MemoryStore} (hrun : validateBlock now c b r = .ok () r') :
    ∃ e', validateBlock now c b e = .ok () e' := by
  obtain ⟨r₁, hreplay₁, htwin⟩ := h.replay
  have hsame := hreplay.unique hindex hnet h.known hreplay₁
  subst hsame
  have hstands := hreplay.stands hindex hnet h.known
  obtain ⟨hparent, -, -⟩ := hstands.accept hindex hnet hc hrun
  rw [← Chain.lower_of_parent? hparent] at htwin
  cases htwin.validateBlock hindex hc hstands.network hnet.ordered now b with
  | accepted _ e' _ hrun' _ => exact ⟨e', hrun'⟩
  | refused f r₂ _ hrun₂ _ _ =>
    rw [hrun] at hrun₂
    cases hrun₂

/-- The blocks above an ancestor of the tip are as many as the tip is higher. -/
theorem Settled.top_drop (h : Settled net index blocks e) {old fork : Chain} (hold : old ∈ index)
    (htip : e.store.tip.map Tip.digest = some old.digest) (hfork : fork ∈ old.ancestors) :
    old.height = blocks.length ∧ net.top (blocks.drop (old.height - fork.height)) = fork := by
  have hstands := h.stands hindex hnet
  obtain ⟨stored, hstored, hdigest⟩ := Option.map_eq_some_iff.1 htip
  have htop := hstands.eq_top hold hstored hdigest.symm
  subst htop
  have hheight := hstands.height
  refine ⟨hheight, ?_⟩
  obtain ⟨r, hreplay, -⟩ := h.replay
  generalize hn : (net.top blocks).height - fork.height = n
  have hsplit := List.take_append_drop n blocks
  have hknown : ∀ cb ∈ blocks.take n ++ blocks.drop n, cb.1 ∈ index := by
    rw [hsplit]
    exact h.known
  rw [← hsplit] at hreplay
  obtain ⟨-, hmem⟩ := hreplay.linked hindex hnet hknown
  rw [hsplit] at hmem
  obtain ⟨r₀, hreplay₀⟩ := hreplay.of_append
  have hheight₀ := (hreplay₀.stands hindex hnet fun cb hcb =>
    hknown cb (List.mem_append_right _ hcb)).height
  have hle := Chain.height_le_of_mem_ancestors hfork
  have hsame : (net.top (blocks.drop n)).height = fork.height := by
    rw [hheight₀, List.length_drop]
    omega
  exact Chain.eq_of_height_eq hmem hfork hsame

end

/-! ## Conditions -/

/-- The engine can switch from `old`, which is its tip, to a branch that stands on `fork`: the fork
point is on the chain of `old`, and not too many blocks are above it. -/
structure CanSwitch (e : Engine MemoryStore) (old fork : Chain) (branch : List (Chain × Block)) :
    Prop where
  linked : fork.Linked branch
  ancestor : fork ∈ old.ancestors
  tip : e.store.tip.map Tip.digest = some old.digest
  depth : e.network.params.maxReorganization = 0
    ∨ old.height - fork.height ≤ e.network.params.maxReorganization

theorem forkPoint_ok (hindex : ChainIndex.Grown net.genesis.header index) {old first fork : Chain}
    (hold : old ∈ index) (hfirst : first ∈ index) :
    forkPoint old first = .ok fork ↔ first.parent? = some fork ∧ fork ∈ old.ancestors := by
  unfold forkPoint
  cases hparent : first.parent? with
  | none => simp
  | some parent =>
    have hknown := hindex.parent_mem hfirst hparent
    simp only [Option.some.injEq]
    constructor
    · intro h
      split at h
      · next hdigest =>
        cases h
        obtain ⟨x, hx, hsame⟩ := Option.map_eq_some_iff.1 hdigest
        have hmem := (Chain.ancestor?_eq_some hx).1
        have heq := ChainIndex.eq_of_digest_eq (hindex.ancestor_mem hold hmem) hknown hsame
        subst heq
        exact ⟨rfl, hmem⟩
      · cases h
    · rintro ⟨rfl, hmem⟩
      rw [Chain.ancestor?_of_mem_ancestors hmem, Option.map_some, if_pos rfl]

theorem unlinked?_eq_none (hindex : ChainIndex.Grown net.genesis.header index)
    {first : Chain × Block} {rest : List (Chain × Block)} (hfirst : first.1 ∈ index)
    (hrest : ∀ cb ∈ rest, cb.1 ∈ index) :
    unlinked? (first :: rest) = none ↔ first.1.Linked rest := by
  induction rest generalizing first with
  | nil => exact ⟨fun _ => trivial, fun _ => rfl⟩
  | cons second rest ih =>
    obtain ⟨hsecond, hrest⟩ := List.forall_mem_cons.1 hrest
    change (if (second.1.parent?.map Chain.digest) = some first.1.digest
      then unlinked? (second :: rest) else some second.1) = none
        ↔ second.1.parent? = some first.1 ∧ second.1.Linked rest
    rw [← ih hsecond hrest]
    constructor
    · intro h
      split at h
      · next hdigest =>
        obtain ⟨parent, hparent, hsame⟩ := Option.map_eq_some_iff.1 hdigest
        have hknown := hindex.parent_mem hsecond hparent
        rw [ChainIndex.eq_of_digest_eq hknown hfirst hsame] at hparent
        exact ⟨hparent, h⟩
      · cases h
    · rintro ⟨hparent, h⟩
      rw [hparent, Option.map_some, if_pos rfl]
      exact h

theorem lift_ok {α : Type} {x : Except Fault α} {v : α} :
    lift x e = .ok v e' ↔ x = .ok v ∧ e = e' := by
  cases x with
  | ok w => rw [lift, step_pure_ok, Except.ok.injEq]
  | error f =>
    constructor
    · intro h
      exact absurd h step_throw_ok
    · rintro ⟨h, -⟩
      cases h

theorem tip_ok {t : Tip} : tip e = .ok t e' ↔ e.store.tip = some t ∧ e = e' := by
  have hread : lift (CoinStore.tip? e.store) e = .ok e.store.tip e := lift_ok.2 ⟨rfl, rfl⟩
  rw [tip, step_get_bind, step_bind_of_ok hread]
  cases e.store.tip with
  | some stored => rw [step_pure_ok, Option.some.injEq]
  | none =>
    constructor
    · intro h
      exact absurd h step_throw_ok
    · rintro ⟨h, -⟩
      cases h

/-- The checks of a reorganization pass exactly where the engine can switch. -/
theorem switchDepth_ok (hindex : ChainIndex.Grown net.genesis.header index) {old : Chain}
    {first : Chain × Block} {rest : List (Chain × Block)} {n : Nat} (hold : old ∈ index)
    (hbranch : ∀ cb ∈ first :: rest, cb.1 ∈ index) :
    switchDepth old first rest e = .ok n e'
      ↔ e = e' ∧ ∃ fork, CanSwitch e old fork (first :: rest) ∧ n = old.height - fork.height := by
  obtain ⟨hfirst, hrest⟩ := List.forall_mem_cons.1 hbranch
  have hlinks := unlinked?_eq_none hindex hfirst hrest
  unfold switchDepth
  constructor
  · intro h
    obtain ⟨fork, e₁, hcheck, h⟩ := step_bind_ok.1 h
    obtain ⟨hfork, rfl⟩ := lift_ok.1 (step_adaptExcept_ok.1 hcheck)
    obtain ⟨hparent, hancestor⟩ := (forkPoint_ok hindex hold hfirst).1 hfork
    cases hunlinked : unlinked? (first :: rest) with
    | some d =>
      rw [hunlinked] at h
      cases h
    | none =>
      rw [hunlinked] at h
      obtain ⟨stored, e₂, hcheck, h⟩ := step_bind_ok.1 h
      obtain ⟨htip, rfl⟩ := tip_ok.1 (step_adaptExcept_ok.1 hcheck)
      simp only at h
      split at h
      · cases h
      · next hdigest =>
        rw [step_get_bind] at h
        split at h
        · cases h
        · next hlimit =>
          obtain ⟨rfl, rfl⟩ := step_pure_ok.1 h
          refine ⟨rfl, fork, ⟨⟨hparent, hlinks.1 hunlinked⟩, hancestor, ?_, by omega⟩, rfl⟩
          rw [htip, Option.map_some, Decidable.not_not.1 hdigest]
  · rintro ⟨rfl, fork, hcan, rfl⟩
    have hfork : maintain (lift (forkPoint old first.1)) e = .ok fork e :=
      step_adaptExcept_ok.2 (lift_ok.2
        ⟨(forkPoint_ok hindex hold hfirst).2 ⟨hcan.linked.1, hcan.ancestor⟩, rfl⟩)
    obtain ⟨stored, hstored, hdigest⟩ := Option.map_eq_some_iff.1 hcan.tip
    have htip : maintain tip e = .ok stored e :=
      step_adaptExcept_ok.2 (tip_ok.2 ⟨hstored, rfl⟩)
    have hdepth := hcan.depth
    rw [step_bind_of_ok hfork, hlinks.2 hcan.linked.2]
    refine (step_bind_of_ok htip).trans ?_
    simp only
    rw [if_neg (Decidable.not_not.2 hdigest), step_get_bind, if_neg (by omega)]
    exact step_pure_ok.2 ⟨rfl, rfl⟩

end Engine

/-! ## Reorganizations -/

namespace Session

/-- What a reorganization of a session gives that is not refused: the blocks above the fork point
are taken back, and then the whole branch is connected, or its blocks up to the first that is
refused. -/
inductive Reorganized (now : UInt32) (old fork : Chain) (branch : List (Chain × Block))
    (s : Session) : EStateM.Result Failure Session Tip → Prop where
  | switched (s₁ s₂ : Session) : rewindMany (old.height - fork.height) s = .ok () s₁ →
    s₁.connected = s.connected.drop (old.height - fork.height) →
    validateAll now branch s₁ = .ok () s₂ →
    s₂.connected = branch.reverse ++ s.connected.drop (old.height - fork.height) →
    Reorganized now old fork branch s
      (.ok ⟨(fork.tipOf branch).digest, (fork.tipOf branch).height⟩ s₂)
  | stopped (s₁ s₂ : Session) (accepted rest : List (Chain × Block)) (c : Chain) (b : Block)
    (f : Failure) (e : Engine MemoryStore) : branch = accepted ++ (c, b) :: rest →
    rewindMany (old.height - fork.height) s = .ok () s₁ →
    s₁.connected = s.connected.drop (old.height - fork.height) →
    validateAll now accepted s₁ = .ok () s₂ →
    s₂.connected = accepted.reverse ++ s.connected.drop (old.height - fork.height) →
    Engine.validateBlock now c b s₂.engine = .error f e →
    Reorganized now old fork branch s (.error f ⟨e, s₂.connected⟩)

variable {net : Network} {index : ChainIndex} {s : Session} {now : UInt32}

section

variable (hindex : ChainIndex.Grown net.genesis.header index) (hnet : net.Sound)

include hindex hnet

/-- As many blocks can be taken back as are connected. -/
theorem settled_rewindMany (hs : s.Settled net index) {n : Nat} (hn : n ≤ s.connected.length) :
    ∃ s₁, rewindMany n s = .ok () s₁ ∧ s₁.connected = s.connected.drop n
      ∧ s₁.Settled net index := by
  induction n generalizing s with
  | zero => exact ⟨s, rfl, rfl, hs⟩
  | succ n ih =>
    obtain ⟨e, connected⟩ := s
    cases connected with
    | nil => cases hn
    | cons cb older =>
      obtain ⟨t, e', hrun, hsettled⟩ := Engine.Settled.rewind hindex hnet hs
      obtain ⟨s₁, hrest, hconnected, hs₁⟩ :=
        ih (s := ⟨e', older⟩) hsettled (Nat.le_of_succ_le_succ hn)
      refine ⟨s₁, ?_, hconnected, hs₁⟩
      rw [rewindMany, step_bind_of_ok (rewind_of_ok hrun)]
      exact hrest

/-- Some blocks of a branch are accepted, and then there is none left or the next one is refused. -/
theorem settled_validateAll (now : UInt32) (hs : s.Settled net index)
    {branch : List (Chain × Block)} (hbranch : ∀ cb ∈ branch, cb.1 ∈ index) :
    ∃ accepted refused s₂, branch = accepted ++ refused ∧ validateAll now accepted s = .ok () s₂
      ∧ s₂.connected = accepted.reverse ++ s.connected
      ∧ (refused = [] ∨ ∃ c b rest f e, refused = (c, b) :: rest
        ∧ Engine.validateBlock now c b s₂.engine = .error f e
        ∧ validateAll now branch s = .error f ⟨e, s₂.connected⟩) := by
  induction branch generalizing s with
  | nil => exact ⟨[], [], s, rfl, rfl, rfl, .inl rfl⟩
  | cons first rest ih =>
    obtain ⟨c, b⟩ := first
    obtain ⟨hc, hrest⟩ := List.forall_mem_cons.1 hbranch
    have hkept := settled_validateBlock hindex hnet now hc b s hs
    cases hrun : Engine.validateBlock now c b s.engine with
    | error f e =>
      refine ⟨[], (c, b) :: rest, s, rfl, rfl, rfl, .inr ⟨c, b, rest, f, e, rfl, hrun, ?_⟩⟩
      exact step_bind_error.2 (.inl (validateBlock_of_error hrun))
    | ok u e =>
      have hstep := validateBlock_of_ok hrun
      rw [hstep, endState_ok] at hkept
      obtain ⟨accepted, refused, s₂, rfl, haccepted, hconnected, hend⟩ := ih hkept hrest
      refine ⟨(c, b) :: accepted, refused, s₂, rfl, ?_, ?_, ?_⟩
      · rw [validateAll, step_bind_of_ok hstep]
        exact haccepted
      · rw [hconnected]
        simp
      · rcases hend with rfl | ⟨c', b', rest', f, e', rfl, hrefused, hall⟩
        · exact .inl rfl
        · refine .inr ⟨c', b', rest', f, e', rfl, hrefused, ?_⟩
          rw [validateAll, step_bind_of_ok hstep]
          exact hall

/-- A reorganization whose checks have passed takes blocks back and connects the branch. -/
theorem reorganize_of_canSwitch (now : UInt32) {old fork : Chain} {branch : List (Chain × Block)}
    (hs : s.Settled net index) (hold : old ∈ index) (hbranch : ∀ cb ∈ branch, cb.1 ∈ index)
    (hne : branch ≠ []) (hcan : s.engine.CanSwitch old fork branch) :
    Reorganized now old fork branch s (reorganize now old branch s) := by
  obtain ⟨hheight, htop⟩ := Engine.Settled.top_drop hindex hnet hs hold hcan.tip hcan.ancestor
  have hdepth : old.height - fork.height ≤ s.connected.length := by omega
  obtain ⟨s₁, hrewinds, hconnected₁, hs₁⟩ := settled_rewindMany hindex hnet hs hdepth
  obtain ⟨accepted, refused, s₂, hsplit, haccepted, hconnected₂, hend⟩ :=
    settled_validateAll hindex hnet now hs₁ hbranch
  rw [hconnected₁] at hconnected₂
  cases branch with
  | nil => exact absurd rfl hne
  | cons first rest =>
    have hchecks : Engine.switchDepth old first rest s.engine
        = .ok (old.height - fork.height) s.engine :=
      (Engine.switchDepth_ok hindex hold hbranch).2 ⟨rfl, fork, hcan, rfl⟩
    have hstart : reorganize now old (first :: rest) s = (validateAll now (first :: rest)
        >>= fun _ => onEngine (Engine.maintain Engine.tip)) s₁ := by
      rw [reorganize, step_bind_of_ok (onEngine_ok hchecks),
        step_bind_of_ok (step_adaptExcept_ok.2 hrewinds)]
    rw [hstart]
    rcases hend with rfl | ⟨c, b, more, f, e, rfl, hrefused, hall⟩
    · rw [List.append_nil] at hsplit
      subst hsplit
      have hs₂ := preserves_validateAll (I := Settled net index)
        (fun cb hcb => settled_validateBlock hindex hnet now (hbranch cb hcb) cb.2) s₁ hs₁
      rw [haccepted, endState_ok] at hs₂
      have htip := (Engine.Settled.stands hindex hnet hs₂).tip
      rw [hconnected₂, net.top_append, List.reverse_reverse, htop] at htip
      have hread : onEngine (Engine.maintain Engine.tip) s₂
          = .ok ⟨(fork.tipOf (first :: rest)).digest, (fork.tipOf (first :: rest)).height⟩ s₂ :=
        onEngine_ok (step_adaptExcept_ok.2 (Engine.tip_ok.2 ⟨htip, rfl⟩))
      rw [step_bind_of_ok haccepted, hread]
      exact .switched s₁ s₂ hrewinds hconnected₁ haccepted hconnected₂
    · rw [step_bind_error.2 (.inl hall)]
      exact .stopped s₁ s₂ accepted more c b f e hsplit hrewinds hconnected₁ haccepted hconnected₂
        hrefused

omit hnet in
/-- A reorganization whose checks do not pass changes nothing. -/
theorem reorganize_of_not_canSwitch {old : Chain} {branch : List (Chain × Block)}
    (hold : old ∈ index) (hbranch : ∀ cb ∈ branch, cb.1 ∈ index) (hne : branch ≠ [])
    (hcannot : ∀ fork, ¬s.engine.CanSwitch old fork branch) :
    ∃ f, reorganize now old branch s = .error f s := by
  cases branch with
  | nil => exact absurd rfl hne
  | cons first rest =>
    have hsame := Engine.readsOnly_switchDepth old first rest s.engine
    cases hchecks : Engine.switchDepth old first rest s.engine with
    | ok n e =>
      obtain ⟨-, fork, hcan, -⟩ := (Engine.switchDepth_ok hindex hold hbranch).1 hchecks
      exact absurd hcan (hcannot fork)
    | error f e =>
      rw [hchecks, endState_error] at hsame
      subst hsame
      exact ⟨f, step_bind_error.2 (.inl (onEngine_error hchecks))⟩

/-! ## Connecting blocks again -/

/-- The blocks above others can be connected again once their headers are not too far ahead. -/
theorem validateAll_again {newer older : List (Chain × Block)} {r : Engine MemoryStore}
    (hreplay : Engine.Replay net (newer ++ older) r) (hknown : ∀ cb ∈ newer ++ older, cb.1 ∈ index)
    (htimely : ∀ cb ∈ newer, cb.1.Timely net now) (hs : s.Settled net index)
    (hconnected : s.connected = older) :
    ∃ s', validateAll now newer.reverse s = .ok () s' ∧ s'.connected = newer ++ older
      ∧ s'.Settled net index := by
  induction newer generalizing r with
  | nil => exact ⟨s, rfl, hconnected, hs⟩
  | cons cb newer ih =>
    rw [List.cons_append] at hreplay hknown
    cases hreplay with
    | @accept _ r₀ _ _ c b hreplay haccepts =>
      obtain ⟨hc, hbelow⟩ := List.forall_mem_cons.1 hknown
      obtain ⟨htime, hrest⟩ := List.forall_mem_cons.1 htimely
      obtain ⟨s₁, hrun, hconnected₁, hs₁⟩ := ih hreplay hbelow hrest
      have hrules := hnet.ordered
      rw [← (hreplay.stands hindex hnet hbelow).network] at hrules htime
      have hagain := Engine.validateBlock_clock hrules htime haccepts
      have hs₁' := hs₁
      rw [Settled, hconnected₁] at hs₁'
      obtain ⟨e, haccepts'⟩ := Engine.Settled.accepts hindex hnet hs₁' hreplay hc hagain
      have hstep := validateBlock_of_ok haccepts'
      have hs' := settled_validateBlock hindex hnet now hc b s₁ hs₁
      rw [hstep, endState_ok] at hs'
      refine ⟨_, ?_, ?_, hs'⟩
      · rw [List.reverse_cons, validateAll_append, step_bind_of_ok hrun]
        exact step_bind_of_ok hstep
      · rw [hconnected₁]
        rfl

end

/-- A request at a time has connected the block, which was not connected before. -/
def JoinedAt (net : Network) (events : List Event) (time : UInt32) (cb : Chain × Block) : Prop :=
  ∃ before ev after, events = before ++ ev :: after ∧ ev.clock? = some time
    ∧ cb ∉ (history net before).connected ∧ cb ∈ (history net (before ++ [ev])).connected

/-- A header was not too far ahead when its block was connected. -/
theorem timely_of_joinedAt (hindex : ChainIndex.Grown net.genesis.header index) (hnet : net.Sound)
    {events : List Event} (hevents : ∀ ev ∈ events, ev.Within index) {time : UInt32}
    {cb : Chain × Block} (h : JoinedAt net events time cb) : cb.1.Timely net time := by
  obtain ⟨before, ev, after, rfl, hclock, hnew, hjoined⟩ := h
  cases ev with
  | restart => cases hclock
  | request r =>
    have hbefore := settled_history hindex hnet fun ev hev =>
      hevents ev (List.mem_append_left _ hev)
    have hwithin : (Event.request r).Within index :=
      hevents _ (List.mem_append_right _ List.mem_cons_self)
    rw [history_concat] at hjoined
    -- What is connected after the request was connected before it or is not too far ahead.
    refine (forall_connected_perform hindex hnet
      (P := fun x => x ∈ (history net before).connected ∨ x.1.Timely net time) hwithin ?_ hbefore
      (fun x hx => .inl hx) cb hjoined).resolve_left hnew
    intro now hnow x hx s e hs hrun
    have hnetwork := (Engine.Settled.stands hindex hnet hs).network
    have hrules := hnet.ordered
    rw [← hnetwork] at hrules
    have htimely := Engine.timely_of_validateBlock hrules hrun
    rw [hnetwork] at htimely
    cases hnow.symm.trans hclock
    exact .inr htimely

/-! ## Reachable sessions -/

/-- What a reorganization to a branch does to the session after some events. -/
structure Reorganizes (net : Network) (events : List Event) (now : UInt32) (old : Chain)
    (branch : List (Chain × Block)) : Prop where
  /-- Where the engine cannot switch to the branch nothing changes. -/
  refused : (∀ fork, ¬(history net events).engine.CanSwitch old fork branch) →
    ∃ f, reorganize now old branch (history net events) = .error f (history net events)
  /-- Where it can, the blocks above the fork point give way to those that are accepted. -/
  switched : ∀ fork, (history net events).engine.CanSwitch old fork branch →
    Reorganized now old fork branch (history net events)
      (reorganize now old branch (history net events))
  /-- The database is then what the connected blocks make of an empty one. -/
  holds : ∃ r, Engine.Replay net
      (endState (reorganize now old branch (history net events))).connected r
    ∧ SameLedger r.store (endState (reorganize now old branch (history net events))).engine.store
  /-- After a switch that has taken blocks back the engine can be switched back to them, at any time
  that is not before the times at which they were connected. -/
  reversed : ∀ fork t s', (history net events).engine.CanSwitch old fork branch →
    fork.height < old.height → reorganize now old branch (history net events) = .ok t s' →
    net.params.maxReorganization = 0 ∨ branch.length ≤ net.params.maxReorganization →
    ∀ later, (∀ cb ∈ (history net events).connected.take (old.height - fork.height),
      ∃ time ≤ later, JoinedAt net events time cb) →
    ∃ s'', reorganize later (fork.tipOf branch)
        ((history net events).connected.take (old.height - fork.height)).reverse s'
        = .ok ⟨old.digest, old.height⟩ s''
      ∧ s''.connected = (history net events).connected
      ∧ SameLedger (history net events).engine.store s''.engine.store

section

variable (hindex : ChainIndex.Grown net.genesis.header index) (hnet : net.Sound)

include hindex hnet

/-- The engine can switch between two branches on the same blocks. -/
theorem canSwitch_of_settled {newer newer' older : List (Chain × Block)} {s' : Session}
    (hs : s.Settled net index) (hconnected : s.connected = newer ++ older)
    (hs' : s'.Settled net index) (hconnected' : s'.connected = newer' ++ older)
    (hlimit : net.params.maxReorganization = 0 ∨ newer'.length ≤ net.params.maxReorganization) :
    s'.engine.CanSwitch (net.top (newer' ++ older)) (net.top older) newer.reverse
      ∧ (net.top (newer' ++ older)).height - (net.top older).height = newer'.length := by
  rw [Settled, hconnected] at hs
  rw [Settled, hconnected'] at hs'
  obtain ⟨r, hreplay, -⟩ := hs.replay
  obtain ⟨r', hreplay', -⟩ := hs'.replay
  obtain ⟨r₀, hreplay₀⟩ := hreplay.of_append
  have hstands' := hs'.stands hindex hnet
  have hstands₀ := hreplay₀.stands hindex hnet fun cb hcb =>
    hs.known cb (List.mem_append_right _ hcb)
  have hdepth : (net.top (newer' ++ older)).height - (net.top older).height = newer'.length := by
    rw [hstands'.height, hstands₀.height, List.length_append, Nat.add_sub_cancel]
  refine ⟨⟨(hreplay.linked hindex hnet hs.known).1, (hreplay'.linked hindex hnet hs'.known).2, ?_,
    ?_⟩, hdepth⟩
  · rw [hstands'.tip]
    rfl
  · rw [hstands'.network, hdepth]
    exact hlimit

/-- Blocks that have been connected once give way to another branch, and are connected again, once
their headers are not too far ahead. -/
theorem reorganize_again (now : UInt32) {newer newer' older : List (Chain × Block)} {s' : Session}
    (hs : s.Settled net index) (hconnected : s.connected = newer ++ older)
    (hs' : s'.Settled net index) (hconnected' : s'.connected = newer' ++ older)
    (hlimit : net.params.maxReorganization = 0 ∨ newer'.length ≤ net.params.maxReorganization)
    (hne : newer ≠ []) (htimely : ∀ cb ∈ newer, cb.1.Timely net now) :
    ∃ s'', reorganize now (net.top (newer' ++ older)) newer.reverse s'
        = .ok ⟨(net.top s.connected).digest, (net.top s.connected).height⟩ s''
      ∧ s''.connected = s.connected ∧ SameLedger s.engine.store s''.engine.store := by
  obtain ⟨hcan, hdepth⟩ :=
    canSwitch_of_settled hindex hnet hs hconnected hs' hconnected' hlimit
  have hknown : ∀ cb ∈ newer ++ older, cb.1 ∈ index := by
    rw [← hconnected]
    exact hs.known
  have hold : net.top (newer' ++ older) ∈ index := by
    rw [← hconnected']
    exact (Engine.Settled.stands hindex hnet hs').known
  have hbranch : ∀ cb ∈ newer.reverse, cb.1 ∈ index := fun cb hcb =>
    hknown cb (List.mem_append_left _ (List.mem_reverse.1 hcb))
  -- Down to the fork point everything can be taken back, and from there all is accepted again.
  obtain ⟨s₁, hrewinds, hconnected₁, hs₁⟩ := settled_rewindMany hindex hnet hs'
    (n := newer'.length) (by rw [hconnected', List.length_append]; omega)
  rw [hconnected', List.drop_left] at hconnected₁
  obtain ⟨r, hreplay, -⟩ := hs.replay
  rw [hconnected] at hreplay
  obtain ⟨s₂, hvalidates, hconnected₂, hs₂⟩ :=
    validateAll_again hindex hnet hreplay hknown htimely hs₁ hconnected₁
  have hdone := reorganize_of_canSwitch hindex hnet now hs' hold hbranch (by simpa using hne) hcan
  rw [← hconnected] at hconnected₂
  have hledger : SameLedger s.engine.store s₂.engine.store := by
    rw [Settled, hconnected₂] at hs₂
    exact Engine.Settled.sameLedger hindex hnet hs hs₂
  generalize reorganize now (net.top (newer' ++ older)) newer.reverse s' = result at hdone ⊢
  cases hdone with
  | switched s₃ s₄ hrewinds' _ hvalidates' _ =>
    rw [hdepth, hrewinds] at hrewinds'
    cases hrewinds'
    rw [hvalidates] at hvalidates'
    cases hvalidates'
    refine ⟨s₂, ?_, hconnected₂, hledger⟩
    rw [← net.top_append, ← hconnected]
  | stopped s₃ s₄ accepted rest c b f e hsplit hrewinds' _ haccepted _ hrefused =>
    rw [hdepth, hrewinds] at hrewinds'
    cases hrewinds'
    have hstops : validateAll now ((c, b) :: rest) s₄ = .error f ⟨e, s₄.connected⟩ :=
      step_bind_error.2 (.inl (validateBlock_of_error hrefused))
    rw [hsplit, validateAll_append, step_bind_of_ok haccepted, hstops] at hvalidates
    cases hvalidates

/-- Whatever a session has gone through, a reorganization changes nothing, or exchanges the blocks
above the fork point for those of the branch up to the first that is refused; and it can be taken
back. -/
theorem reorganize_history {events : List Event} (hevents : ∀ ev ∈ events, ev.Within index)
    {old : Chain} {branch : List (Chain × Block)} (hold : old ∈ index)
    (hbranch : ∀ cb ∈ branch, cb.1 ∈ index) (hne : branch ≠ []) (now : UInt32) :
    Reorganizes net events now old branch := by
  have hs := settled_history hindex hnet hevents
  refine ⟨?_, ?_, ?_, ?_⟩
  · exact reorganize_of_not_canSwitch hindex hold hbranch hne
  · intro fork hcan
    exact reorganize_of_canSwitch hindex hnet now hs hold hbranch hne hcan
  · have hend := preserves_reorganize (settled_rewind hindex hnet)
      (fun cb hcb => settled_validateBlock hindex hnet now (hbranch cb hcb) cb.2) old _ hs
    obtain ⟨r, hreplay, htwin⟩ := hend.replay
    exact ⟨r, hreplay, htwin.ledger⟩
  · intro fork t s' hcan hdepth hrun hlimit later hjoined
    have hstands := Engine.Settled.stands hindex hnet hs
    obtain ⟨stored, hstored, hdigest⟩ := Option.map_eq_some_iff.1 hcan.tip
    have htop := hstands.eq_top hold hstored hdigest.symm
    obtain ⟨hheight, hfork⟩ :=
      Engine.Settled.top_drop hindex hnet hs hold hcan.tip hcan.ancestor
    have hs' := preserves_reorganize (settled_rewind hindex hnet)
      (fun cb hcb => settled_validateBlock hindex hnet now (hbranch cb hcb) cb.2) old _ hs
    have hdone := reorganize_of_canSwitch hindex hnet now hs hold hbranch hne hcan
    rw [hrun] at hs' hdone
    cases hdone with
    | switched s₁ _ _ _ _ hconnected' =>
      have hagain := reorganize_again hindex hnet later hs
        (List.take_append_drop (old.height - fork.height) _).symm hs' hconnected'
        (by rw [List.length_reverse]; exact hlimit) ?_ ?_
      · rw [net.top_append, List.reverse_reverse, hfork, ← htop] at hagain
        exact hagain
      · intro hnil
        have hlength := congrArg List.length hnil
        rw [List.length_take, List.length_nil] at hlength
        omega
      · intro cb hcb
        obtain ⟨time, hle, htime⟩ := hjoined cb hcb
        exact (timely_of_joinedAt hindex hnet hevents htime).mono hle

end

end Session

namespace Regtest

set_option maxRecDepth 10000

/-- The switch from the block to its rival succeeds. -/
theorem reorganize_history_rival :
    succeeded (Session.reorganize 2000000000 chain [(rivalChain, rival)]
      (Session.history Network.regtest [.request (.validate 2000000000 chain block)])) = true
    ∧ Session.Reorganizes Network.regtest [.request (.validate 2000000000 chain block)] 2000000000
      chain [(rivalChain, rival)] := by
  obtain ⟨index, hindex, hchain, hrival⟩ := exists_index
  refine ⟨by decide +kernel, ?_⟩
  refine Session.reorganize_history hindex (Network.sound_of_coherent (.inr ⟨rfl, rfl⟩)) ?_ hchain
    ?_ (List.cons_ne_nil _ _) 2000000000
  · intro ev hev cb hcb
    rw [List.mem_singleton.1 hev] at hcb
    rw [List.mem_singleton.1 hcb]
    exact hchain
  · intro cb hcb
    rw [List.mem_singleton.1 hcb]
    exact hrival

end Regtest

end Chainstate
