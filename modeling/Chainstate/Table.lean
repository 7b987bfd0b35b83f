-- SUMMARY: Ordered tables with extensional equality, and lists in order.
import Std.Data.ExtTreeMap

namespace Chainstate

/-- A finite map whose entries are listed in key order. Two tables with the same entries are equal. -/
abbrev Table (κ ν : Type) [Ord κ] := Std.ExtTreeMap κ ν compare

/-! ## Sorting -/

section Sorting

variable {α : Type} (le : α → α → Bool)

/-- Puts an element in front of the first one that does not come before it. -/
def insertSorted (a : α) : List α → List α
  | [] => [a]
  | b :: bs => if le a b then a :: b :: bs else b :: insertSorted a bs

/-- The elements in order; those that `le` does not tell apart stay as they stood. -/
@[irreducible]
def sortBy (as : List α) : List α := as.foldr (insertSorted le) []

theorem perm_insertSorted (a : α) (bs : List α) : (insertSorted le a bs).Perm (a :: bs) := by
  induction bs with
  | nil => exact .refl _
  | cons b bs ih =>
    rw [insertSorted]
    split
    · exact .refl _
    · exact (ih.cons b).trans (.swap a b bs)

theorem perm_sortBy (as : List α) : (sortBy le as).Perm as := by
  unfold sortBy
  induction as with
  | nil => exact .refl _
  | cons a as ih => exact (perm_insertSorted le a _).trans (ih.cons a)

variable {le} (htrans : ∀ a b c, le a b = true → le b c = true → le a c = true)
  (htotal : ∀ a b, le a b = true ∨ le b a = true)

include htrans htotal

theorem pairwise_insertSorted {bs : List α} (hbs : bs.Pairwise fun x y => le x y = true) (a : α) :
    (insertSorted le a bs).Pairwise fun x y => le x y = true := by
  induction bs with
  | nil => exact List.pairwise_singleton _ a
  | cons b bs ih =>
    obtain ⟨hb, hrest⟩ := List.pairwise_cons.1 hbs
    rw [insertSorted]
    split
    · next hab =>
      refine List.pairwise_cons.2 ⟨List.forall_mem_cons.2 ⟨hab, fun x hx => ?_⟩, hbs⟩
      exact htrans a b x hab (hb x hx)
    · next hab =>
      have hba : le b a = true := (htotal a b).resolve_left hab
      refine List.pairwise_cons.2 ⟨fun x hx => ?_, ih hrest⟩
      obtain rfl | hx := List.mem_cons.1 ((perm_insertSorted le a bs).mem_iff.1 hx)
      · exact hba
      · exact hb x hx

theorem pairwise_sortBy (as : List α) : (sortBy le as).Pairwise fun x y => le x y = true := by
  unfold sortBy
  induction as with
  | nil => exact List.Pairwise.nil
  | cons a as ih => exact pairwise_insertSorted htrans htotal ih a

end Sorting

end Chainstate
