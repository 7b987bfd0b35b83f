-- SUMMARY: Sums of amounts, of counts and of words.

/-!
# Totals

Amounts are integers and may be negative; counts are natural numbers. Both sums are recursions on
the list, and the sum of two lists one after the other is the sum of their sums. Amounts are held in
words of 64 bits, whose sum wraps around; it is the sum of the amounts where a word can hold that
(`toInt_totalWord_of_fits`).
-/

namespace Chainstate

/-! ## Amounts -/

/-- The sum of integers. -/
def totalAmount : List Int → Int
  | [] => 0
  | a :: as => a + totalAmount as

@[simp] theorem totalAmount_nil : totalAmount [] = 0 := rfl

@[simp] theorem totalAmount_cons (a : Int) (as : List Int) :
    totalAmount (a :: as) = a + totalAmount as := rfl

@[simp] theorem totalAmount_append (as bs : List Int) :
    totalAmount (as ++ bs) = totalAmount as + totalAmount bs := by
  induction as with
  | nil => simp
  | cons a as ih => simp [ih, Int.add_assoc]

/-- A sum of amounts that are not negative is not negative. -/
theorem totalAmount_nonneg {as : List Int} (has : ∀ a ∈ as, 0 ≤ a) : 0 ≤ totalAmount as := by
  induction as with
  | nil => exact Int.le_refl 0
  | cons a as ih =>
    obtain ⟨ha, has⟩ := List.forall_mem_cons.1 has
    have := ih has
    rw [totalAmount_cons]
    omega

/-! ## Counts -/

/-- The sum of natural numbers. -/
def totalCount : List Nat → Nat
  | [] => 0
  | n :: ns => n + totalCount ns

@[simp] theorem totalCount_nil : totalCount [] = 0 := rfl

@[simp] theorem totalCount_cons (n : Nat) (ns : List Nat) :
    totalCount (n :: ns) = n + totalCount ns := rfl

@[simp] theorem totalCount_append (ms ns : List Nat) :
    totalCount (ms ++ ns) = totalCount ms + totalCount ns := by
  induction ms with
  | nil => simp
  | cons m ms ih => simp [ih, Nat.add_assoc]

theorem totalCount_map_add {α : Type} (f g : α → Nat) (xs : List α) :
    totalCount (xs.map fun x => f x + g x) = totalCount (xs.map f) + totalCount (xs.map g) := by
  induction xs with
  | nil => rfl
  | cons x xs ih =>
    simp only [List.map_cons, totalCount_cons, ih]
    omega

theorem totalCount_map_eq_zero {α : Type} {f : α → Nat} {xs : List α} :
    totalCount (xs.map f) = 0 ↔ ∀ x ∈ xs, f x = 0 := by
  induction xs with
  | nil => simp
  | cons x xs ih => simp [Nat.add_eq_zero_iff, ih]

/-! ## Words -/

/-- A word of 64 bits can hold the integer. -/
def FitsWord (n : Int) : Prop := -0x8000000000000000 ≤ n ∧ n ≤ 0x7fffffffffffffff

instance (n : Int) : Decidable (FitsWord n) :=
  inferInstanceAs (Decidable (_ ∧ _))

theorem FitsWord.bmod {n : Int} (h : FitsWord n) : n.bmod 0x10000000000000000 = n := by
  obtain ⟨hlow, hhigh⟩ := h
  exact Int.bmod_eq_of_le (by omega) (by omega)

/-- The sum of words, which wraps around. -/
def totalWord : List Int64 → Int64
  | [] => 0
  | a :: as => a + totalWord as

/-- The sum of words is that of their integers, but for multiples of the number of words. -/
theorem toInt_totalWord (as : List Int64) :
    (totalWord as).toInt = (totalAmount (as.map Int64.toInt)).bmod 0x10000000000000000 := by
  induction as with
  | nil => rfl
  | cons a as ih =>
    rw [totalWord, Int64.toInt_add, ih, Int.add_bmod_bmod, List.map_cons, totalAmount_cons]

theorem toInt_totalWord_of_fits {as : List Int64}
    (h : FitsWord (totalAmount (as.map Int64.toInt))) :
    (totalWord as).toInt = totalAmount (as.map Int64.toInt) := by
  rw [toInt_totalWord, h.bmod]

example : totalWord [0x7fffffffffffffff, 0x7fffffffffffffff] = -2 := by decide

/-- The sum of two amounts in words, of which one is not negative: it wraps around past the largest
word and never below the least. -/
def wrappedSum (a b : Int) : Int :=
  if 0x7fffffffffffffff < a + b then a + b - 0x10000000000000000 else a + b

theorem wrappedSum_le (a b : Int) : wrappedSum a b ≤ a + b := by
  unfold wrappedSum
  split
  · omega
  · exact Int.le_refl _

theorem wrappedSum_eq {a b : Int} (h : a + b ≤ 0x7fffffffffffffff) : wrappedSum a b = a + b :=
  if_neg (Int.not_lt.2 h)

/-- The words add up to the wrapped sum. -/
theorem toInt_add_of_nonneg {a : Int64} (ha : 0 ≤ a.toInt) (b : Int64) :
    (a + b).toInt = wrappedSum a.toInt b.toInt := by
  have ha' := a.toInt_lt
  have hb := b.le_toInt
  have hb' := b.toInt_lt
  rw [Int64.toInt_add, wrappedSum]
  split
  · rw [← Int.sub_bmod_right]
    exact Int.bmod_eq_of_le (by omega) (by omega)
  · exact Int.bmod_eq_of_le (by omega) (by omega)

end Chainstate
