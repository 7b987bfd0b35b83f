-- SUMMARY: Integers of fixed width: arithmetic that stops where a result leaves its type.
import Chainstate.Proofs.Steps

/-!
# Machine words

The definitions of this library compute with exact integers, lists and total operations. A machine
computes with words, and it stops where a result leaves its type, where it divides by zero, shifts
too far, reads outside of a list or clamps to inverted bounds. A run on a machine is written in the
same steps with these checks in them: `Checked` for checks without a state, and runs of steps whose
failures are traps. It is *exact* where it ends as the run without the checks does; then no check
has stopped it. Exactness is closed under sequencing (`Checked.bind_of`, `Exact.bind`).

Comparisons, saturating sums and lookups that may find nothing cannot stop a machine, and stand as
they are.
-/

namespace Chainstate

/-! ## Words -/

/-- The integer types of the machine. Sizes and indices are 64 bits wide. -/
inductive Word where
  | u8
  | u16
  | u32
  | u64
  | i64
  deriving DecidableEq

def Word.least : Word → Int
  | i64 => -0x8000000000000000
  | u8 | u16 | u32 | u64 => 0

def Word.greatest : Word → Int
  | u8 => 0xff
  | u16 => 0xffff
  | u32 => 0xffffffff
  | u64 => 0xffffffffffffffff
  | i64 => 0x7fffffffffffffff

/-- What stops a machine. -/
inductive ArithmeticFault where
  | overflow (w : Word) (n : Int)
  | divisionByZero
  | outOfBounds (index length : Nat)
  | shiftTooFar (width amount : Nat)
  | invertedBounds (low high : Int)
  deriving DecidableEq

/-- Why a run on a machine ends early: it fails as the run without checks does, or it is stopped. -/
inductive Trap (ε : Type) where
  | failure (e : ε)
  | arithmetic (f : ArithmeticFault)
  deriving DecidableEq

def Trap.map {ε ε' : Type} (f : ε → ε') : Trap ε → Trap ε'
  | failure e => failure (f e)
  | arithmetic f => arithmetic f

/-- What a machine computes without a state. -/
abbrev Checked (ε α : Type) := Except (Trap ε) α

section Operations

variable {ε α β : Type}

def stop (f : ArithmeticFault) : Checked ε α := .error (.arithmetic f)

namespace Word

/-- The integer as a word of the type. -/
def int (w : Word) (n : Int) : Checked ε Int :=
  if w.least ≤ n ∧ n ≤ w.greatest then .ok n else stop (.overflow w n)

/-- The natural number as a word of the type. -/
def nat (w : Word) (n : Nat) : Checked ε Nat :=
  if (n : Int) ≤ w.greatest then .ok n else stop (.overflow w n)

/-- The difference of two unsigned words. -/
def sub (w : Word) (m n : Nat) : Checked ε Nat :=
  if n ≤ m then .ok (m - n) else stop (.overflow w (m - n))

/-- Adds amounts to `total` one after the other. -/
def addInts (w : Word) : (total : Int) → List Int → Checked ε Int
  | total, [] => .ok total
  | total, a :: as => do
    let total ← w.int (total + a)
    addInts w total as

/-- Adds counts to `total` one after the other. -/
def addNats (w : Word) : (total : Nat) → List Nat → Checked ε Nat
  | total, [] => .ok total
  | total, n :: ns => do
    let total ← w.nat (total + n)
    addNats w total ns

end Word

def divide (m n : Nat) : Checked ε Nat := if n = 0 then stop .divisionByZero else .ok (m / n)

def remainder (m n : Nat) : Checked ε Nat := if n = 0 then stop .divisionByZero else .ok (m % n)

/-- The quotient of two signed words, rounded toward zero. -/
def divideInt (m n : Int) : Checked ε Int :=
  if n = 0 then stop .divisionByZero else .ok (m.tdiv n)

/-- The amount of a shift of a word with `width` bits. -/
def shiftBy (width amount : Nat) : Checked ε Nat :=
  if amount < width then .ok amount else stop (.shiftTooFar width amount)

def clamp (low high n : Int) : Checked ε Int :=
  if low ≤ high then .ok (max low (min n high)) else stop (.invertedBounds low high)

/-- The element at an index. -/
def element (xs : List α) (i : Nat) : Checked ε α :=
  match xs[i]? with
  | some x => .ok x
  | none => stop (.outOfBounds i xs.length)

/-- The elements from one index up to another. -/
def slice (xs : List α) (first last : Nat) : Checked ε (List α) :=
  if first ≤ last ∧ last ≤ xs.length then .ok ((xs.take last).drop first)
  else stop (.outOfBounds last xs.length)

end Operations

/-! ## Operations that pass -/

section Passing

variable {ε α β : Type}

@[simp] theorem checked_ok_bind (a : α) (f : α → Checked ε β) :
    ((.ok a : Checked ε α) >>= f) = f a := rfl

namespace Word

theorem int_ok {w : Word} {n : Int} (h : w.least ≤ n) (h' : n ≤ w.greatest) :
    (w.int n : Checked ε Int) = .ok n := if_pos ⟨h, h'⟩

theorem nat_ok {w : Word} {n : Nat} (h : (n : Int) ≤ w.greatest) :
    (w.nat n : Checked ε Nat) = .ok n := if_pos h

theorem u8_ok {n : Nat} (h : n ≤ 0xff) : (u8.nat n : Checked ε Nat) = .ok n :=
  nat_ok (Int.ofNat_le.2 h)

theorem u32_ok {n : Nat} (h : n ≤ 0xffffffff) : (u32.nat n : Checked ε Nat) = .ok n :=
  nat_ok (Int.ofNat_le.2 h)

theorem u64_ok {n : Nat} (h : n ≤ 0xffffffffffffffff) : (u64.nat n : Checked ε Nat) = .ok n :=
  nat_ok (Int.ofNat_le.2 h)

theorem i64_ok {n : Int} (h : -0x8000000000000000 ≤ n) (h' : n ≤ 0x7fffffffffffffff) :
    (i64.int n : Checked ε Int) = .ok n := int_ok h h'

theorem sub_ok {w : Word} {m n : Nat} (h : n ≤ m) : (w.sub m n : Checked ε Nat) = .ok (m - n) :=
  if_pos h

/-- Amounts that are not negative and have a sum in range are added without a stop. -/
theorem addInts_ok {w : Word} {total : Int} {as : List Int} (hw : w.least ≤ total)
    (has : ∀ a ∈ as, 0 ≤ a) (hsum : total + totalAmount as ≤ w.greatest) :
    (w.addInts total as : Checked ε Int) = .ok (total + totalAmount as) := by
  induction as generalizing total with
  | nil => simp [addInts]
  | cons a as ih =>
    obtain ⟨ha, has⟩ := List.forall_mem_cons.1 has
    have hrest := totalAmount_nonneg has
    rw [totalAmount_cons] at hsum ⊢
    rw [addInts, int_ok (by omega) (by omega), checked_ok_bind, ih (by omega) has (by omega),
      Int.add_assoc]

theorem addNats_ok {w : Word} {total : Nat} {ns : List Nat}
    (hsum : ((total + totalCount ns : Nat) : Int) ≤ w.greatest) :
    (w.addNats total ns : Checked ε Nat) = .ok (total + totalCount ns) := by
  induction ns generalizing total with
  | nil => simp [addNats]
  | cons n ns ih =>
    rw [totalCount_cons] at hsum ⊢
    rw [addNats, nat_ok (by omega), checked_ok_bind, ih (by omega), Nat.add_assoc]

end Word

theorem divide_ok {m n : Nat} (h : n ≠ 0) : (divide m n : Checked ε Nat) = .ok (m / n) := if_neg h

theorem remainder_ok {m n : Nat} (h : n ≠ 0) : (remainder m n : Checked ε Nat) = .ok (m % n) :=
  if_neg h

theorem divideInt_ok {m n : Int} (h : n ≠ 0) :
    (divideInt m n : Checked ε Int) = .ok (m.tdiv n) := if_neg h

theorem shiftBy_ok {width amount : Nat} (h : amount < width) :
    (shiftBy width amount : Checked ε Nat) = .ok amount := if_pos h

theorem clamp_ok {low high n : Int} (h : low ≤ high) :
    (clamp low high n : Checked ε Int) = .ok (max low (min n high)) := if_pos h

theorem element_ok {xs : List α} {i : Nat} {x : α} (h : xs[i]? = some x) :
    (element xs i : Checked ε α) = .ok x := by
  rw [element, h]

theorem slice_ok {xs : List α} {first last : Nat} (h : first ≤ last) (h' : last ≤ xs.length) :
    (slice xs first last : Checked ε (List α)) = .ok ((xs.take last).drop first) := if_pos ⟨h, h'⟩

/-- A computation that passes on every element passes on the list. -/
theorem mapM_ok {f : α → Checked ε β} {g : α → β} {xs : List α}
    (h : ∀ x ∈ xs, f x = .ok (g x)) : xs.mapM f = .ok (xs.map g) := by
  induction xs with
  | nil => rfl
  | cons x xs ih =>
    obtain ⟨hx, hxs⟩ := List.forall_mem_cons.1 h
    rw [List.mapM_cons, hx, checked_ok_bind, ih hxs]
    rfl

/-- A search by a computation that passes on every element passes on the list. -/
theorem anyM_ok {f : α → Checked ε Bool} {g : α → Bool} {xs : List α}
    (h : ∀ x ∈ xs, f x = .ok (g x)) : xs.anyM f = .ok (xs.any g) := by
  induction xs with
  | nil => rfl
  | cons x xs ih =>
    obtain ⟨hx, hxs⟩ := List.forall_mem_cons.1 h
    rw [List.anyM, hx, checked_ok_bind, List.any_cons]
    cases g x with
    | true => rfl
    | false => exact ih hxs

end Passing

/-! ## Exact checks -/

namespace Checked

variable {ε ε' α β : Type}

/-- The check as a machine makes it whose arithmetic does not stop. -/
def of (x : Except ε α) : Checked ε α := x.mapError .failure

/-- The check with other names for its failures. -/
def relabel (f : ε → ε') (x : Checked ε α) : Checked ε' α := x.mapError (Trap.map f)

@[simp] theorem of_ok (a : α) : of (.ok a : Except ε α) = .ok a := rfl

@[simp] theorem of_error (e : ε) : of (.error e : Except ε α) = .error (.failure e) := rfl

@[simp] theorem relabel_of (f : ε → ε') (x : Except ε α) :
    relabel f (of x) = of (x.mapError f) := by
  cases x with
  | ok a => rfl
  | error e => rfl

/-- Checks that are exact one by one are exact one after the other. -/
theorem bind_of {x : Checked ε α} {y : Except ε α} {f : α → Checked ε β} {g : α → Except ε β}
    (h : x = of y) (hf : ∀ a, y = .ok a → f a = of (g a)) : (x >>= f) = of (y >>= g) := by
  subst h
  cases y with
  | ok a => exact hf a rfl
  | error e => rfl

end Checked

/-! ## Exact runs -/

section Runs

variable {ε ε' σ α β : Type}

/-- The run of a machine ends as the run without checks does, which no check has stopped. -/
def Exact (x : EStateM (Trap ε) σ α) (y : EStateM ε σ α) (s : σ) : Prop :=
  x s = y.adaptExcept .failure s

/-- What only checks, as a step of a run. -/
def checkStep (x : Checked ε α) : EStateM (Trap ε) σ α := fun s =>
  match x with
  | .ok a => .ok a s
  | .error t => .error t s

/-- A step without arithmetic. -/
def plainStep (x : EStateM ε σ α) : EStateM (Trap ε) σ α := x.adaptExcept .failure

theorem exact_plainStep (x : EStateM ε σ α) (s : σ) : Exact (plainStep x) x s := rfl

theorem Exact.of_ok {x : EStateM (Trap ε) σ α} {y : EStateM ε σ α} {s s' : σ} {a : α}
    (h : Exact x y s) (hy : y s = .ok a s') : x s = .ok a s' := by
  rw [h]
  exact step_adaptExcept_ok.2 hy

theorem Exact.of_error {x : EStateM (Trap ε) σ α} {y : EStateM ε σ α} {s s' : σ} {e : ε}
    (h : Exact x y s) (hy : y s = .error e s') : x s = .error (.failure e) s' := by
  rw [h]
  unfold EStateM.adaptExcept
  rw [hy]

/-- Runs that are exact one by one are exact one after the other. -/
theorem Exact.bind {x : EStateM (Trap ε) σ α} {y : EStateM ε σ α} {f : α → EStateM (Trap ε) σ β}
    {g : α → EStateM ε σ β} {s : σ} (h : Exact x y s)
    (hf : ∀ a s', y s = .ok a s' → Exact (f a) (g a) s') : Exact (x >>= f) (y >>= g) s := by
  cases hy : y s with
  | ok a s' =>
    have hnext := hf a s' hy
    unfold Exact EStateM.adaptExcept at hnext ⊢
    rw [step_bind_of_ok (h.of_ok hy), step_bind_of_ok hy]
    exact hnext
  | error e s' =>
    have hend : (y >>= g) s = .error e s' := step_bind_error.2 (.inl hy)
    unfold Exact EStateM.adaptExcept
    rw [hend]
    exact step_bind_error.2 (.inl (h.of_error hy))

/-- Runs that go on from the current state are exact where they are from there. -/
theorem exact_get_bind {f : σ → EStateM (Trap ε) σ β} {g : σ → EStateM ε σ β} {s : σ}
    (h : Exact (f s) (g s) s) : Exact (get >>= f) (get >>= g) s := h

theorem exact_pure (a : α) (s : σ) :
    Exact (pure a : EStateM (Trap ε) σ α) (pure a) s := rfl

/-- A step that only computes, and passes, may stand before an exact run. -/
theorem exact_checkStep_bind {x : Checked ε α} {a : α} {f : α → EStateM (Trap ε) σ β}
    {y : EStateM ε σ β} {s : σ} (h : x = .ok a) (hf : Exact (f a) y s) :
    Exact (checkStep x >>= f) y s := by
  subst h
  exact hf

theorem Exact.adaptExcept {x : EStateM (Trap ε) σ α} {y : EStateM ε σ α} {s : σ}
    (h : Exact x y s) (f : ε → ε') :
    Exact (x.adaptExcept (Trap.map f)) (y.adaptExcept f) s := by
  unfold Exact EStateM.adaptExcept at h ⊢
  rw [h]
  cases y s with
  | ok a s' => rfl
  | error e s' => rfl

end Runs

end Chainstate
