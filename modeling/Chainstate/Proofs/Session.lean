-- SUMMARY: Sessions: an engine through any sequence of requests, with the blocks that it accepted.
import Chainstate.Proofs.Engine

/-!
# Sessions

A session is an engine on a database in memory together with the blocks that are connected, newest
first: an accepted block is added, a block that is taken back is removed, and nothing else counts.
A reorganization acts as the operations that it performs. What a session does to its engine is
exactly what the engine does by itself (`Session.engine_run`).
-/

namespace Chainstate

/-! ## Reorganizations in parts -/

namespace Engine

variable {σ : Type} [CoinStore σ]

/-- The checks of a reorganization; they give the number of blocks to take back. -/
def switchDepth (old : Chain) (first : Chain × Block) (rest : List (Chain × Block)) :
    EngineM σ Nat := do
  let fork ← maintain (lift (forkPoint old first.1))
  match unlinked? (first :: rest) with
  | some c => throw (.fault (.unknownParent c.header.previous))
  | none => pure ()
  let stored ← maintain tip
  if stored.digest ≠ old.digest then
    throw (.fault (.tipMismatch old.digest (some stored.digest)))
  let depth := old.height - fork.height
  let limit := (← get).network.params.maxReorganization
  if limit ≠ 0 ∧ limit < depth then throw (.rejected .reorganizationTooDeep)
  pure depth

/-- A reorganization is its checks, then rewinds, then validations. -/
theorem reorganize_cons (now : UInt32) (old : Chain) (first : Chain × Block)
    (rest : List (Chain × Block)) :
    (reorganize now old (first :: rest) : EngineM σ Tip) = (do
      let depth ← switchDepth old first rest
      maintain (rewindMany depth)
      validateAll now (first :: rest)
      maintain tip) := by
  obtain ⟨c, b⟩ := first
  unfold reorganize switchDepth
  simp only [step_bind_assoc]
  congr 1
  funext fork
  cases unlinked? ((c, b) :: rest) with
  | some d => rfl
  | none =>
    simp only [step_bind_assoc]
    congr 1
    funext stored
    split
    · rfl
    · rw [step_bind_assoc]
      congr 1
      funext e
      split
      · rfl
      · rfl

/-- The step only reads: the engine is the same afterwards, whatever the result. -/
def ReadsOnly {ε α : Type} (x : EStateM ε (Engine σ) α) : Prop := ∀ e, endState (x e) = e

section Reading

variable {ε ε' α β : Type}

omit [CoinStore σ]

theorem readsOnly_pure (v : α) : ReadsOnly (pure v : EStateM ε (Engine σ) α) := fun _ => rfl

theorem readsOnly_throw (f : ε) : ReadsOnly (throw f : EStateM ε (Engine σ) α) := fun _ => rfl

theorem readsOnly_get : ReadsOnly (get : EStateM ε (Engine σ) (Engine σ)) := fun _ => rfl

theorem ReadsOnly.bind {x : EStateM ε (Engine σ) α} {f : α → EStateM ε (Engine σ) β}
    (hx : ReadsOnly x) (hf : ∀ v, ReadsOnly (f v)) : ReadsOnly (x >>= f) := by
  intro e
  have hmid := hx e
  rw [endState_bind]
  cases hrun : x e with
  | ok v e₁ =>
    rw [hrun, endState_ok] at hmid
    subst hmid
    exact hf v e₁
  | error g e₁ =>
    rw [hrun, endState_error] at hmid
    exact hmid

theorem ReadsOnly.adaptExcept {x : EStateM ε (Engine σ) α} (hx : ReadsOnly x) (f : ε → ε') :
    ReadsOnly (x.adaptExcept f) := by
  intro e
  rw [endState_adaptExcept]
  exact hx e

theorem readsOnly_lift (x : Except Fault α) : ReadsOnly (lift x : MaintainM σ α) := by
  cases x with
  | ok v => exact readsOnly_pure v
  | error f => exact readsOnly_throw f

end Reading

theorem readsOnly_tip : ReadsOnly (tip : MaintainM σ Tip) := by
  refine readsOnly_get.bind fun e => (readsOnly_lift _).bind fun stored => ?_
  cases stored with
  | some t => exact readsOnly_pure t
  | none => exact readsOnly_throw _

/-- The checks of a reorganization change nothing. -/
theorem readsOnly_switchDepth (old : Chain) (first : Chain × Block) (rest : List (Chain × Block)) :
    ReadsOnly (switchDepth old first rest : EngineM σ Nat) := by
  unfold switchDepth
  refine ((readsOnly_lift _).adaptExcept _).bind fun fork => ?_
  cases unlinked? (first :: rest) with
  | some c => exact readsOnly_throw _
  | none =>
    have htip : ReadsOnly (maintain tip : EngineM σ Tip) := ReadsOnly.adaptExcept readsOnly_tip _
    refine htip.bind fun stored => ?_
    simp only
    split
    · exact readsOnly_throw _
    · refine readsOnly_get.bind fun e => ?_
      split
      · exact readsOnly_throw _
      · exact readsOnly_pure _

end Engine

/-! ## Sessions -/

structure Session where
  engine : Engine MemoryStore
  /-- The connected blocks, newest first. -/
  connected : List (Chain × Block)

/-- Steps of a session. A step that fails keeps what it did before. -/
abbrev SessionM (ε α : Type) := EStateM ε Session α

namespace Session

variable {ε α β : Type}

/-- An operation of the engine that connects no block and takes none back. -/
def onEngine (x : EStateM ε (Engine MemoryStore) α) : SessionM ε α := fun s =>
  match x s.engine with
  | .ok v e => .ok v { s with engine := e }
  | .error f e => .error f { s with engine := e }

theorem endState_onEngine (x : EStateM ε (Engine MemoryStore) α) (s : Session) :
    endState (onEngine x s) = { s with engine := endState (x s.engine) } := by
  unfold onEngine
  cases x s.engine with
  | ok v e => rfl
  | error f e => rfl

theorem onEngine_ok {x : EStateM ε (Engine MemoryStore) α} {s : Session} {v : α}
    {e : Engine MemoryStore} (h : x s.engine = .ok v e) :
    onEngine x s = .ok v { s with engine := e } := by
  unfold onEngine
  rw [h]

theorem onEngine_error {x : EStateM ε (Engine MemoryStore) α} {s : Session} {f : ε}
    {e : Engine MemoryStore} (h : x s.engine = .error f e) :
    onEngine x s = .error f { s with engine := e } := by
  unfold onEngine
  rw [h]

def validateBlock (now : UInt32) (c : Chain) (b : Block) : SessionM Failure Unit := do
  onEngine (Engine.validateBlock now c b)
  modify fun s => { s with connected := (c, b) :: s.connected }

theorem validateBlock_of_ok {now : UInt32} {c : Chain} {b : Block} {s : Session}
    {e : Engine MemoryStore} (h : Engine.validateBlock now c b s.engine = .ok () e) :
    validateBlock now c b s = .ok () ⟨e, (c, b) :: s.connected⟩ := by
  rw [validateBlock, step_bind_of_ok (onEngine_ok h)]
  rfl

theorem validateBlock_of_error {now : UInt32} {c : Chain} {b : Block} {s : Session} {f : Failure}
    {e : Engine MemoryStore} (h : Engine.validateBlock now c b s.engine = .error f e) :
    validateBlock now c b s = .error f { s with engine := e } :=
  step_bind_error.2 (.inl (onEngine_error h))

def rewind : SessionM Fault Tip := do
  let t ← onEngine Engine.rewind
  modify fun s => { s with connected := s.connected.tail }
  pure t

theorem rewind_of_ok {s : Session} {t : Tip} {e : Engine MemoryStore}
    (h : Engine.rewind s.engine = .ok t e) : rewind s = .ok t ⟨e, s.connected.tail⟩ := by
  rw [rewind, step_bind_of_ok (onEngine_ok h)]
  rfl

theorem rewind_of_error {s : Session} {f : Fault} {e : Engine MemoryStore}
    (h : Engine.rewind s.engine = .error f e) : rewind s = .error f { s with engine := e } :=
  step_bind_error.2 (.inl (onEngine_error h))

def rewindMany : Nat → SessionM Fault Unit
  | 0 => pure ()
  | n + 1 => do
    let _ ← rewind
    rewindMany n

def validateAll (now : UInt32) : List (Chain × Block) → SessionM Failure Unit
  | [] => pure ()
  | (c, b) :: rest => do
    validateBlock now c b
    validateAll now rest

theorem validateAll_append (now : UInt32) (xs ys : List (Chain × Block)) :
    validateAll now (xs ++ ys) = validateAll now xs >>= fun _ => validateAll now ys := by
  induction xs with
  | nil => rfl
  | cons x xs ih =>
    rw [List.cons_append, validateAll, validateAll, ih, step_bind_assoc]

def reorganize (now : UInt32) (old : Chain) : List (Chain × Block) → SessionM Failure Tip
  | [] => onEngine (Engine.maintain Engine.tip)
  | first :: rest => do
    let depth ← onEngine (Engine.switchDepth old first rest)
    (rewindMany depth).adaptExcept .fault
    validateAll now (first :: rest)
    onEngine (Engine.maintain Engine.tip)

end Session

/-! ## Requests -/

inductive Request where
  | validate (now : UInt32) (c : Chain) (b : Block)
  | rewind
  | reorganize (now : UInt32) (old : Chain) (branch : List (Chain × Block))
  | flush
  | loadStakes (c : Chain)

namespace Request

/-- The blocks that a request asks to validate. -/
def blocks : Request → List (Chain × Block)
  | .validate _ c b => [(c, b)]
  | .reorganize _ _ branch => branch
  | .rewind | .flush | .loadStakes _ => []

/-- The time at which a request asks to validate blocks. -/
def clock? : Request → Option UInt32
  | .validate now _ _ => some now
  | .reorganize now _ _ => some now
  | .rewind | .flush | .loadStakes _ => none

end Request

/-- What a request does to an engine, whether it succeeds or fails. -/
def Engine.perform (e : Engine MemoryStore) : Request → Engine MemoryStore
  | .validate now c b => endState (Engine.validateBlock now c b e)
  | .rewind => endState (Engine.rewind e)
  | .reorganize now old branch => endState (Engine.reorganize now old branch e)
  | .flush => endState (Engine.flush e)
  | .loadStakes c => endState (Engine.loadStakes c e)

/-- An engine that has been opened on an empty database. -/
def Engine.opened (net : Network) : Engine MemoryStore :=
  endState (openAtGenesis (ofStore net MemoryStore.empty))

namespace Session

/-- What a request does to a session, whether it succeeds or fails. -/
def perform (s : Session) : Request → Session
  | .validate now c b => endState (validateBlock now c b s)
  | .rewind => endState (rewind s)
  | .reorganize now old branch => endState (reorganize now old branch s)
  | .flush => endState (onEngine Engine.flush s)
  | .loadStakes c => endState (onEngine (Engine.loadStakes c) s)

def start (net : Network) : Session := ⟨Engine.opened net, []⟩

/-- The session after a sequence of requests to a freshly opened engine. -/
def run (net : Network) (requests : List Request) : Session := requests.foldl perform (start net)

/-! ## Invariants -/

section Invariants

variable {I : Session → Prop}

/-- What only reads the engine keeps every invariant. -/
theorem preserves_of_readsOnly {x : EStateM ε (Engine MemoryStore) α} (hx : Engine.ReadsOnly x) :
    Preserves I (onEngine x) := by
  intro s hs
  rw [endState_onEngine, hx s.engine]
  exact hs

theorem preserves_rewindMany (hrewind : Preserves I rewind) (n : Nat) :
    Preserves I (rewindMany n) := by
  induction n with
  | zero => exact preserves_pure _
  | succ n ih => exact hrewind.bind fun _ => ih

theorem preserves_validateAll {now : UInt32} {branch : List (Chain × Block)}
    (hvalidate : ∀ cb ∈ branch, Preserves I (validateBlock now cb.1 cb.2)) :
    Preserves I (validateAll now branch) := by
  induction branch with
  | nil => exact preserves_pure _
  | cons first rest ih =>
    obtain ⟨hfirst, hrest⟩ := List.forall_mem_cons.1 hvalidate
    exact hfirst.bind fun _ => ih hrest

/-- A reorganization keeps what its rewinds and validations keep. -/
theorem preserves_reorganize {now : UInt32} {branch : List (Chain × Block)}
    (hrewind : Preserves I rewind)
    (hvalidate : ∀ cb ∈ branch, Preserves I (validateBlock now cb.1 cb.2)) (old : Chain) :
    Preserves I (reorganize now old branch) := by
  have htip : Preserves I (onEngine (Engine.maintain Engine.tip)) :=
    preserves_of_readsOnly (Engine.ReadsOnly.adaptExcept Engine.readsOnly_tip _)
  cases branch with
  | nil => exact htip
  | cons first rest =>
    refine (preserves_of_readsOnly (Engine.readsOnly_switchDepth old first rest)).bind fun n => ?_
    refine ((preserves_rewindMany hrewind n).adaptExcept _).bind fun _ => ?_
    exact (preserves_validateAll hvalidate).bind fun _ => htip

/-- A request keeps what the operations keep that it stands for. -/
theorem preserves_perform {r : Request}
    (hvalidate : ∀ now, r.clock? = some now → ∀ cb ∈ r.blocks,
      Preserves I (validateBlock now cb.1 cb.2))
    (hrewind : Preserves I rewind) (hflush : Preserves I (onEngine Engine.flush))
    (hload : ∀ c, Preserves I (onEngine (Engine.loadStakes c))) {s : Session} (hs : I s) :
    I (s.perform r) := by
  cases r with
  | validate now c b => exact hvalidate now rfl (c, b) List.mem_cons_self s hs
  | rewind => exact hrewind s hs
  | reorganize now old branch => exact preserves_reorganize hrewind (hvalidate now rfl) old s hs
  | flush => exact hflush s hs
  | loadStakes c => exact hload c s hs

end Invariants

/-! ## The engine of a session -/

/-- What the result of a session's step says about its engine. -/
def ofEngine {ε α : Type} : EStateM.Result ε Session α → EStateM.Result ε (Engine MemoryStore) α
  | .ok v s => .ok v s.engine
  | .error f s => .error f s.engine

/-- The step does to the engine what an operation of the engine does, with the same result. -/
def Follows {ε α : Type} (x : SessionM ε α) (y : EStateM ε (Engine MemoryStore) α) : Prop :=
  ∀ s, ofEngine (x s) = y s.engine

variable {ε ε' α β : Type}

theorem Follows.engine_endState {x : SessionM ε α} {y : EStateM ε (Engine MemoryStore) α}
    (h : Follows x y) (s : Session) : (endState (x s)).engine = endState (y s.engine) := by
  rw [← h s]
  cases x s with
  | ok v s' => rfl
  | error f s' => rfl

theorem follows_onEngine (x : EStateM ε (Engine MemoryStore) α) : Follows (onEngine x) x := by
  intro s
  unfold onEngine
  cases hx : x s.engine with
  | ok v e => rfl
  | error f e => rfl

theorem Follows.bind {x : SessionM ε α} {y : EStateM ε (Engine MemoryStore) α}
    {f : α → SessionM ε β} {g : α → EStateM ε (Engine MemoryStore) β} (hx : Follows x y)
    (hf : ∀ v, Follows (f v) (g v)) : Follows (x >>= f) (y >>= g) := by
  intro s
  change ofEngine (EStateM.bind x f s) = EStateM.bind y g s.engine
  unfold EStateM.bind
  rw [← hx s]
  cases x s with
  | ok v s' => exact hf v s'
  | error e s' => rfl

theorem Follows.adaptExcept {x : SessionM ε α} {y : EStateM ε (Engine MemoryStore) α}
    (h : Follows x y) (f : ε → ε') : Follows (x.adaptExcept f) (y.adaptExcept f) := by
  intro s
  unfold EStateM.adaptExcept
  rw [← h s]
  cases x s with
  | ok v s' => rfl
  | error e s' => rfl

theorem follows_validateBlock (now : UInt32) (c : Chain) (b : Block) :
    Follows (validateBlock now c b) (Engine.validateBlock now c b) := by
  intro s
  change ofEngine (EStateM.bind (onEngine _) _ s) = _
  unfold EStateM.bind onEngine
  cases hrun : Engine.validateBlock now c b s.engine with
  | ok u e => rfl
  | error f e => rfl

theorem follows_rewind : Follows rewind Engine.rewind := by
  intro s
  change ofEngine (EStateM.bind (onEngine _) _ s) = _
  unfold EStateM.bind onEngine
  cases hrun : Engine.rewind s.engine with
  | ok t e => rfl
  | error f e => rfl

theorem follows_rewindMany (n : Nat) : Follows (rewindMany n) (Engine.rewindMany n) := by
  induction n with
  | zero => exact fun _ => rfl
  | succ n ih => exact Follows.bind follows_rewind fun _ => ih

theorem follows_validateAll (now : UInt32) (branch : List (Chain × Block)) :
    Follows (validateAll now branch) (Engine.validateAll now branch) := by
  induction branch with
  | nil => exact fun _ => rfl
  | cons first rest ih => exact Follows.bind (follows_validateBlock now first.1 first.2) fun _ => ih

/-- A reorganization acts as the rewinds and validations that it performs. -/
theorem follows_reorganize (now : UInt32) (old : Chain) (branch : List (Chain × Block)) :
    Follows (reorganize now old branch) (Engine.reorganize now old branch) := by
  cases branch with
  | nil => exact follows_onEngine _
  | cons first rest =>
    rw [Engine.reorganize_cons]
    refine Follows.bind (follows_onEngine _) fun depth => ?_
    refine Follows.bind ((follows_rewindMany depth).adaptExcept _) fun _ => ?_
    exact Follows.bind (follows_validateAll now _) fun _ => follows_onEngine _

theorem engine_perform (s : Session) (r : Request) :
    (s.perform r).engine = s.engine.perform r := by
  cases r with
  | validate now c b => exact (follows_validateBlock now c b).engine_endState s
  | rewind => exact follows_rewind.engine_endState s
  | reorganize now old branch => exact (follows_reorganize now old branch).engine_endState s
  | flush => exact (follows_onEngine _).engine_endState s
  | loadStakes c => exact (follows_onEngine _).engine_endState s

/-- The engine of a session is the engine after the same requests. -/
theorem engine_run (net : Network) (requests : List Request) :
    (run net requests).engine = requests.foldl Engine.perform (Engine.opened net) := by
  have h : ∀ s : Session, (requests.foldl perform s).engine
      = requests.foldl Engine.perform s.engine := by
    induction requests with
    | nil => exact fun _ => rfl
    | cons r requests ih =>
      intro s
      rw [List.foldl_cons, List.foldl_cons, ih, engine_perform]
  exact h (start net)

end Session

end Chainstate
