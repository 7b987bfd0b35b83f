-- SUMMARY: Merkle roots: two unflagged lists of one height with one root are one list.
import Chainstate.Block.MerkleTree
import Mathlib.Data.Nat.Log

/-!
# What a merkle root binds

A level of odd length pairs its last element with itself, so a list may have the root of a longer
one. In a level that pairs no equal neighbours such a pair stands at an odd end and nowhere else, and
the level can be read back from the pairs. Two lists that are not flagged are therefore read back
level by level from one root, as long as no hash of the one tree collides with a hash of the other
(`MerkleTree.eq_of_root_eq`).
-/

namespace Chainstate

namespace MerkleTree

variable {xs ys : List Digest}

/-! ## Levels -/

/-- The messages that are hashed for the level above: pairs of neighbours, and a last element
without a neighbour with itself. -/
def messages : (level : List Digest) → List Bytes
  | a :: b :: rest => (a.bytes ++ b.bytes) :: messages rest
  | [a] => [a.bytes ++ a.bytes]
  | [] => []

theorem pairUp_eq_map (level : List Digest) : pairUp level = (messages level).map sha256d := by
  induction level using messages.induct with
  | case1 a b rest ih => rw [pairUp, messages, List.map_cons, ih, parent]
  | case2 a => rfl
  | case3 => rfl

/-- All that is hashed on the way to the root. -/
def hashed : (level : List Digest) → List Bytes
  | [] => []
  | [_] => []
  | a :: b :: rest => messages (a :: b :: rest) ++ hashed (pairUp (a :: b :: rest))
termination_by level => level.length
decreasing_by
  rw [length_pairUp]
  simp only [List.length_cons]
  omega

/-- The number of levels above one. -/
def height : (level : List Digest) → Nat
  | [] => 0
  | [_] => 0
  | a :: b :: rest => height (pairUp (a :: b :: rest)) + 1
termination_by level => level.length
decreasing_by
  rw [length_pairUp]
  simp only [List.length_cons]
  omega

/-- The height is a matter of the length. -/
theorem height_eq_clog (level : List Digest) : height level = Nat.clog 2 level.length := by
  induction level using height.induct with
  | case1 => rw [height, List.length_nil, Nat.clog_zero_right]
  | case2 a => rw [height, List.length_singleton, Nat.clog_one_right]
  | case3 a b rest ih =>
    have hlength : 2 ≤ (a :: b :: rest).length := Nat.le_add_left 2 rest.length
    rw [height, ih, length_pairUp, Nat.clog_of_two_le Nat.one_lt_two hlength]
    rfl

/-! ## One level -/

theorem bytes_append_inj {a b c d : Digest} (h : a.bytes ++ b.bytes = c.bytes ++ d.bytes) :
    a = c ∧ b = d := by
  obtain ⟨hleft, hright⟩ := List.append_inj h (by rw [a.length_bytes, c.length_bytes])
  exact ⟨Digest.ext hleft, Digest.ext hright⟩

/-- A level without equal neighbours in a pair is read back from its messages. -/
theorem eq_of_messages_eq (hxs : hasEqualPair xs = false) (hys : hasEqualPair ys = false)
    (h : messages xs = messages ys) : xs = ys := by
  induction xs using messages.induct generalizing ys with
  | case1 a b rest ih =>
    rw [hasEqualPair, Bool.or_eq_false_iff, beq_eq_false_iff_ne] at hxs
    match ys with
    | [] => cases h
    | [c] =>
      -- An odd end is a pair of equals, and `a` and `b` differ.
      rw [messages, messages, List.cons.injEq] at h
      obtain ⟨rfl, rfl⟩ := bytes_append_inj h.1
      exact absurd rfl hxs.1
    | c :: d :: rest' =>
      rw [hasEqualPair, Bool.or_eq_false_iff] at hys
      rw [messages, messages, List.cons.injEq] at h
      obtain ⟨rfl, rfl⟩ := bytes_append_inj h.1
      rw [ih hxs.2 hys.2 h.2]
  | case2 a =>
    match ys with
    | [] => cases h
    | [c] =>
      rw [messages, messages, List.cons.injEq] at h
      rw [(bytes_append_inj h.1).1]
    | c :: d :: rest' =>
      rw [hasEqualPair, Bool.or_eq_false_iff, beq_eq_false_iff_ne] at hys
      rw [messages, messages, List.cons.injEq] at h
      obtain ⟨rfl, rfl⟩ := bytes_append_inj h.1
      exact absurd rfl hys.1
  | case3 =>
    match ys with
    | [] => rfl
    | [c] => cases h
    | c :: d :: rest' => cases h

/-- No message of one list has the digest of another message of the other list. -/
def Apart (as bs : List Bytes) : Prop := ∀ a ∈ as, ∀ b ∈ bs, sha256d a = sha256d b → a = b

theorem Apart.eq_of_map_eq {as bs : List Bytes} (h : Apart as bs)
    (hmap : as.map sha256d = bs.map sha256d) : as = bs := by
  induction as generalizing bs with
  | nil => exact (List.map_eq_nil_iff.1 hmap.symm).symm
  | cons a as ih =>
    obtain ⟨b, bs, rfl, hb, hbs⟩ := List.map_eq_cons_iff.1 hmap.symm
    rw [h a List.mem_cons_self b List.mem_cons_self hb.symm,
      ih (fun x hx y hy => h x (List.mem_cons_of_mem _ hx) y (List.mem_cons_of_mem _ hy)) hbs.symm]

theorem Apart.mono {as as' bs bs' : List Bytes} (h : Apart as bs) (has : as' ⊆ as)
    (hbs : bs' ⊆ bs) : Apart as' bs' :=
  fun a ha b hb => h a (has ha) b (hbs hb)

theorem eq_of_pairUp_eq (hxs : hasEqualPair xs = false) (hys : hasEqualPair ys = false)
    (hapart : Apart (messages xs) (messages ys)) (h : pairUp xs = pairUp ys) : xs = ys := by
  rw [pairUp_eq_map, pairUp_eq_map] at h
  exact eq_of_messages_eq hxs hys (hapart.eq_of_map_eq h)

/-! ## A repeated end -/

theorem pairUp_repeat {init : List Digest} (heven : 2 ∣ init.length) (c : Digest) :
    pairUp (init ++ [c, c]) = pairUp (init ++ [c])
      ∧ hasEqualPair (init ++ [c, c]) = true := by
  induction init using messages.induct with
  | case1 a b rest ih =>
    obtain ⟨hpairs, hequal⟩ := ih ((Nat.dvd_add_left (Nat.dvd_refl 2)).1 heven)
    refine ⟨congrArg (parent a b :: ·) hpairs, ?_⟩
    change (a == b || hasEqualPair (rest ++ [c, c])) = true
    rw [hequal, Bool.or_true]
  | case2 a =>
    rw [List.length_singleton] at heven
    omega
  | case3 => exact ⟨rfl, by rw [List.nil_append, hasEqualPair, beq_self_eq_true, Bool.true_or]⟩

/-- A list of odd length has the root of the same list with its end repeated. Only the flag tells
them apart. -/
theorem root_repeat {init : List Digest} (heven : 2 ∣ init.length) (hne : init ≠ []) (c : Digest) :
    root (init ++ [c, c]) = ⟨(root (init ++ [c])).root, true⟩ := by
  obtain ⟨hpairs, hequal⟩ := pairUp_repeat heven c
  match init with
  | [] => exact absurd rfl hne
  | [a] =>
    rw [List.length_singleton] at heven
    omega
  | a :: b :: rest =>
    simp only [List.cons_append] at hpairs hequal ⊢
    rw [root, root, hpairs, hequal, Bool.true_or]

/-! ## All levels -/

/-- A root binds its list: two lists of one height and one root, neither of them flagged, are the
same. It is enough that no message hashed for the one has the digest of another message hashed for
the other. -/
theorem eq_of_root_eq (hx : xs ≠ []) (hy : ys ≠ []) (hheight : height xs = height ys)
    (hroot : (root xs).root = (root ys).root)
    (hxs : (root xs).mutated = false) (hys : (root ys).mutated = false)
    (hapart : Apart (hashed xs) (hashed ys)) : xs = ys := by
  induction xs using height.induct generalizing ys with
  | case1 => exact absurd rfl hx
  | case2 a =>
    rcases ys with _ | ⟨c, _ | ⟨d, rest'⟩⟩
    · exact absurd rfl hy
    · have hsame : a = c := by simpa only [root] using hroot
      rw [hsame]
    · rw [height, height] at hheight
      cases hheight
  | case3 a b rest ih =>
    rcases ys with _ | ⟨c, _ | ⟨d, rest'⟩⟩
    · exact absurd rfl hy
    · rw [height, height] at hheight
      cases hheight
    · rw [height, height, Nat.add_right_cancel_iff] at hheight
      rw [root, root] at hroot
      rw [root, Bool.or_eq_false_iff] at hxs hys
      rw [hashed, hashed] at hapart
      have habove : pairUp (a :: b :: rest) = pairUp (c :: d :: rest') :=
        ih (List.cons_ne_nil _ _) (List.cons_ne_nil _ _) hheight hroot hxs.2 hys.2
          (hapart.mono (List.subset_append_right _ _) (List.subset_append_right _ _))
      exact eq_of_pairUp_eq hxs.1 hys.1
        (hapart.mono (List.subset_append_left _ _) (List.subset_append_left _ _)) habove

end MerkleTree

namespace Regtest

/-- An id made of one byte. -/
def repeated (b : UInt8) : Digest := ⟨List.replicate 32 b, List.length_replicate⟩

/-- Three ids, of which the last is hashed with itself. -/
def threeIds : List Digest := [repeated 1, repeated 2, repeated 3]

theorem eq_of_root_eq_threeIds :
    MerkleTree.root (threeIds ++ [repeated 3]) = ⟨(MerkleTree.root threeIds).root, true⟩
    ∧ MerkleTree.height (threeIds ++ [repeated 3]) = MerkleTree.height threeIds
    ∧ (MerkleTree.root threeIds).mutated = false
    ∧ MerkleTree.Apart (MerkleTree.hashed threeIds) (MerkleTree.hashed threeIds)
    ∧ threeIds = [repeated 1, repeated 2] ++ [repeated 3] := by
  have hflag : (MerkleTree.root threeIds).mutated = false := by decide +kernel
  have hapart : MerkleTree.Apart (MerkleTree.hashed threeIds) (MerkleTree.hashed threeIds) := by
    unfold MerkleTree.Apart
    decide +kernel
  have heven : 2 ∣ [repeated 1, repeated 2].length := by decide
  refine ⟨MerkleTree.root_repeat heven (by decide) (repeated 3), ?_, hflag, hapart, ?_⟩
  · rw [MerkleTree.height_eq_clog, MerkleTree.height_eq_clog]
    decide +kernel
  · exact MerkleTree.eq_of_root_eq (by decide) (by decide) rfl rfl hflag hflag hapart

end Regtest

end Chainstate
