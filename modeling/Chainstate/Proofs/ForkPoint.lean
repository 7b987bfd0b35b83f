-- SUMMARY: Fork points: the last common ancestor of two chains of an index.
import Chainstate.Proofs.HeaderGrowth

/-!
# Fork points

Two chains are first cut to one height and then walked down together until their digests agree. In
a tree of headers a digest stands for one chain, so the walk stops at a chain that is below both, and
no common ancestor has been passed on the way. All chains of an index stand on one genesis, so the
walk does stop (`ChainIndex.Grown.fork?_lastCommon`).
-/

namespace Chainstate

namespace Chain

variable {a b a' b' f f' : Chain} {tree : HeaderTree}

/-! ## Common ancestors -/

/-- The last chain that two chains have in common: all others that they have in common are below. -/
structure LastCommon (a b f : Chain) : Prop where
  left : f ∈ a.ancestors
  right : f ∈ b.ancestors
  last : ∀ x ∈ a.ancestors, x ∈ b.ancestors → x ∈ f.ancestors

theorem ancestors_antisymm (ha : a ∈ b.ancestors) (hb : b ∈ a.ancestors) : a = b :=
  eq_of_height_eq ha (self_mem_ancestors b)
    (Nat.le_antisymm (height_le_of_mem_ancestors ha) (height_le_of_mem_ancestors hb))

theorem LastCommon.symm (h : LastCommon a b f) : LastCommon b a f :=
  ⟨h.right, h.left, fun x hb ha => h.last x ha hb⟩

theorem LastCommon.unique (h : LastCommon a b f) (h' : LastCommon a b f') : f = f' :=
  ancestors_antisymm (h'.last f h.left h.right) (h.last f' h'.left h'.right)

theorem lastCommon_self (a : Chain) : LastCommon a a a :=
  ⟨self_mem_ancestors a, self_mem_ancestors a, fun _ ha _ => ha⟩

/-- The last common ancestor is one of the two chains where one stands on the other. -/
theorem LastCommon.eq_left_iff (h : LastCommon a b f) : a = f ↔ a ∈ b.ancestors := by
  constructor
  · intro heq
    rw [heq]
    exact h.right
  · intro ha
    exact ancestors_antisymm (h.last a (self_mem_ancestors a) ha) h.left

/-- Cutting two chains above all that they have in common keeps the last of it. -/
theorem LastCommon.of_cut (h : LastCommon a' b' f) (ha : a' ∈ a.ancestors) (hb : b' ∈ b.ancestors)
    (hleft : min a.height b.height ≤ a'.height) (hright : min a.height b.height ≤ b'.height) :
    LastCommon a b f := by
  refine ⟨ancestors_trans ha h.left, ancestors_trans hb h.right, fun x hxa hxb => ?_⟩
  have hlow : x.height ≤ min a.height b.height :=
    Nat.le_min.2 ⟨height_le_of_mem_ancestors hxa, height_le_of_mem_ancestors hxb⟩
  exact h.last x (mem_ancestors_of_height_le hxa ha (Nat.le_trans hlow hleft))
    (mem_ancestors_of_height_le hxb hb (Nat.le_trans hlow hright))

/-! ## The walk -/

theorem meet?_of_digest_eq (h : a.digest = b.digest) : a.meet? b = some a := by
  unfold meet?
  rw [if_pos h]

theorem meet?_extend {header header' : Header} {p q : Chain}
    (h : (extend header p).digest ≠ (extend header' q).digest) :
    (extend header p).meet? (extend header' q) = p.meet? q := by
  rw [meet?, if_neg h]

/-- What two different chains of one height have in common is below both. -/
theorem mem_lower_of_common (hheight : a.height = b.height) (hne : a ≠ b) {x : Chain}
    (ha : x ∈ a.ancestors) (hb : x ∈ b.ancestors) : x ∈ a.lower := by
  rw [ancestors_eq_cons, List.mem_cons] at ha
  obtain rfl | ha := ha
  · exact absurd (eq_of_height_eq hb (self_mem_ancestors b) hheight) hne
  · exact ha

theorem lastCommon_of_digest_eq (ha : a ∈ tree) (hb : b ∈ tree) (h : a.digest = b.digest) :
    ∃ f, a.meet? b = some f ∧ LastCommon a b f := by
  refine ⟨a, meet?_of_digest_eq h, ?_⟩
  rw [← tree.eq_of_digest_eq ha hb h]
  exact lastCommon_self a

/-- Chains of one height that have anything in common meet at the last of it. -/
theorem lastCommon_meet? (ha : a ∈ tree) (hb : b ∈ tree) (hheight : a.height = b.height)
    (hcommon : ∃ x ∈ a.ancestors, x ∈ b.ancestors) :
    ∃ f, a.meet? b = some f ∧ LastCommon a b f := by
  induction a generalizing b with
  | genesis header =>
    by_cases hdigest : (genesis header).digest = b.digest
    · exact lastCommon_of_digest_eq ha hb hdigest
    · obtain ⟨x, hxa, hxb⟩ := hcommon
      have hne : genesis header ≠ b := fun heq => hdigest (congrArg digest heq)
      cases mem_lower_of_common hheight hne hxa hxb
  | extend header p ih =>
    by_cases hdigest : (extend header p).digest = b.digest
    · exact lastCommon_of_digest_eq ha hb hdigest
    · have hne : extend header p ≠ b := fun heq => hdigest (congrArg digest heq)
      cases b with
      | genesis header' => cases hheight
      | extend header' q =>
        have hbelow {x : Chain} (hxa : x ∈ (extend header p).ancestors)
            (hxb : x ∈ (extend header' q).ancestors) : x ∈ p.ancestors ∧ x ∈ q.ancestors :=
          ⟨mem_lower_of_common hheight hne hxa hxb,
            mem_lower_of_common hheight.symm hne.symm hxb hxa⟩
        obtain ⟨x, hxa, hxb⟩ := hcommon
        obtain ⟨f, hmeet, hf⟩ := ih (HeaderTree.parent_mem ha rfl) (HeaderTree.parent_mem hb rfl)
          (Nat.succ.inj hheight) ⟨x, hbelow hxa hxb⟩
        exact ⟨f, (meet?_extend hdigest).trans hmeet, List.mem_cons_of_mem _ hf.left,
          List.mem_cons_of_mem _ hf.right,
          fun y hya hyb => hf.last y (hbelow hya hyb).1 (hbelow hya hyb).2⟩

theorem lastCommon_fork? (ha : a ∈ tree) (hb : b ∈ tree)
    (hcommon : ∃ x ∈ a.ancestors, x ∈ b.ancestors) :
    ∃ f, a.fork? b = some f ∧ LastCommon a b f := by
  obtain ⟨a', hfoundA⟩ := exists_ancestor? (Nat.min_le_left a.height b.height)
  obtain ⟨b', hfoundB⟩ := exists_ancestor? (Nat.min_le_right a.height b.height)
  obtain ⟨hcutA, hheightA⟩ := ancestor?_eq_some hfoundA
  obtain ⟨hcutB, hheightB⟩ := ancestor?_eq_some hfoundB
  obtain ⟨x, hxa, hxb⟩ := hcommon
  have hlow : x.height ≤ min a.height b.height :=
    Nat.le_min.2 ⟨height_le_of_mem_ancestors hxa, height_le_of_mem_ancestors hxb⟩
  obtain ⟨f, hmeet, hf⟩ := lastCommon_meet? (HeaderTree.ancestor_mem ha hcutA)
    (HeaderTree.ancestor_mem hb hcutB) (hheightA.trans hheightB.symm)
    ⟨x, mem_ancestors_of_height_le hxa hcutA (by omega),
      mem_ancestors_of_height_le hxb hcutB (by omega)⟩
  refine ⟨f, ?_, hf.of_cut hcutA hcutB (Nat.le_of_eq hheightA.symm) (Nat.le_of_eq hheightB.symm)⟩
  simp only [fork?, hfoundA, hfoundB, Option.bind_eq_bind, Option.bind_some]
  exact hmeet

end Chain

namespace ChainIndex

variable {genesis : Header} {index : ChainIndex} {a b c : Chain}

theorem Grown.genesis_mem_ancestors (hgrown : Grown genesis index) (hc : c ∈ index) :
    .genesis genesis ∈ c.ancestors := by
  induction c with
  | genesis header =>
    obtain ⟨-, heq | ⟨parent, hparent, -⟩⟩ := hgrown.of_find? hc
    · rw [heq]
      exact Chain.self_mem_ancestors _
    · cases hparent
  | extend header p ih => exact List.mem_cons_of_mem _ (ih (hgrown.parent_mem hc rfl))

/-- Two chains of an index fork at their last common ancestor: it is below both, everything that is
below both is below it, it does not depend on which of the two is asked, and it is the first of them
exactly when that is below the second. -/
theorem Grown.fork?_lastCommon (hgrown : Grown genesis index) (ha : a ∈ index) (hb : b ∈ index) :
    ∃ f, a.fork? b = some f ∧ f ∈ a.ancestors ∧ f ∈ b.ancestors
      ∧ (∀ x ∈ a.ancestors, x ∈ b.ancestors → x ∈ f.ancestors)
      ∧ b.fork? a = some f ∧ (a = f ↔ a ∈ b.ancestors) := by
  have hrootA := hgrown.genesis_mem_ancestors ha
  have hrootB := hgrown.genesis_mem_ancestors hb
  have ha : a ∈ hgrown.tree := ha
  have hb : b ∈ hgrown.tree := hb
  obtain ⟨f, hfork, hf⟩ := Chain.lastCommon_fork? ha hb ⟨_, hrootA, hrootB⟩
  obtain ⟨f', hfork', hf'⟩ := Chain.lastCommon_fork? hb ha ⟨_, hrootB, hrootA⟩
  rw [hf'.symm.unique hf] at hfork'
  exact ⟨f, hfork, hf.left, hf.right, hf.last, hfork', hf.eq_left_iff⟩

end ChainIndex

namespace Regtest

/-- A chain of three headers, and one of two that leaves it at the root. -/
def idleChain : Chain := .extend idleChild (.extend leftChild (.genesis treeRoot))

def rightChain : Chain := .extend rightChild (.genesis treeRoot)

set_option maxRecDepth 10000

/-- Both chains are in the index of their headers. -/
theorem mem_grow_branches : idleChain ∈ ChainIndex.grow treeRoot leftFirst
    ∧ rightChain ∈ ChainIndex.grow treeRoot leftFirst := by
  obtain ⟨hdiffer, hfirst, -, -, -, hroot⟩ := checked_orders
  have hmem {c : Chain} := ChainIndex.mem_grow_iff (c := c) hdiffer hfirst
  have hleft : leftChild ∈ leftFirst := List.mem_cons_self
  have hright : rightChild ∈ leftFirst :=
    List.mem_cons_of_mem _ (List.mem_cons_of_mem _ List.mem_cons_self)
  have hidle : idleChild ∈ leftFirst := List.mem_append_right [_, _, _, _] List.mem_cons_self
  refine ⟨hmem.2 ?_, hmem.2 (.extend .genesis hright rfl (hroot _ hright))⟩
  exact .extend (.extend .genesis hleft rfl (hroot _ hleft)) hidle rfl (hroot _ hidle)

/-- The two branches fork at the root. -/
theorem fork?_lastCommon_branches :
    ChainIndex.Grown treeRoot (ChainIndex.grow treeRoot leftFirst)
    ∧ idleChain ∈ ChainIndex.grow treeRoot leftFirst
    ∧ rightChain ∈ ChainIndex.grow treeRoot leftFirst
    ∧ idleChain.fork? rightChain = some (.genesis treeRoot)
    ∧ rightChain.fork? idleChain = some (.genesis treeRoot) := by
  obtain ⟨hidle, hright⟩ := mem_grow_branches
  have hgrown := ChainIndex.grown_grow treeRoot leftFirst
  obtain ⟨f, hfork, hfidle, hfright, -, hfork', -⟩ := hgrown.fork?_lastCommon hidle hright
  have hroot : f = .genesis treeRoot := by
    obtain rfl | hfroot := List.mem_cons.1 hfright
    · -- Another chain of its height is below the first branch.
      have hleft : Chain.extend leftChild (.genesis treeRoot) ∈ idleChain.ancestors :=
        List.mem_cons_of_mem _ List.mem_cons_self
      have hsame := congrArg (fun c => c.header.nonce) (Chain.eq_of_height_eq hfidle hleft rfl)
      cases hsame
    · exact List.mem_singleton.1 hfroot
  subst hroot
  exact ⟨hgrown, hidle, hright, hfork, hfork'⟩

end Regtest

end Chainstate
