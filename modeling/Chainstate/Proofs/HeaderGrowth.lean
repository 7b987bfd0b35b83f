-- SUMMARY: Headers in any order: what an index holds after any insertions, and which chain leads it.
import Chainstate.Proofs.HeaderTree
import Chainstate.Total
import Mathlib.Data.List.Induction

/-!
# Growing an index

Headers reach an index in any order, known ones again and others before their parents. A call either
leaves the index as it is or adds one chain on top of another (`ChainIndex.adding_cases`), so an index
holds what can be linked to its genesis, and its tip is the first of the chains with the most work.
Which chains those are does not depend on the order as long as parents come first
(`ChainIndex.mem_grow_iff`); which of them is the tip does.
-/

namespace Chainstate

namespace ChainIndex

/-! ## Insertions -/

/-- The index after a call to insert a header. A call that fails leaves nothing behind. -/
def adding (index : ChainIndex) (h : Header) : ChainIndex :=
  match index.insert h with
  | .ok (_, index') => index'
  | .error _ => index

/-- The index that a genesis has grown into after calls to insert headers, one after the other. -/
def grow (genesis : Header) (hs : List Header) : ChainIndex := hs.foldl adding (ofGenesis genesis)

variable {genesis h : Header} {hs hs' before : List Header} {index : ChainIndex} {c p : Chain}

/-- A call changes nothing, where the header is known or its parent is not, or it adds a new header
on top of a known parent and moves the tip there if that is more work. -/
theorem adding_cases (index : ChainIndex) (h : Header) :
    (index.adding h = index
      ∧ ((∃ known, index.find? h.digest = some known) ∨ index.find? h.previous = none))
      ∨ ∃ parent, index.find? h.digest = none ∧ index.find? h.previous = some parent
        ∧ (index.adding h).chains = index.chains.insert h.digest (.extend h parent)
        ∧ ∀ tip, index.tip? = some tip → (index.adding h).tip?
          = some (if tip.work < (Chain.extend h parent).work then .extend h parent else tip) := by
  unfold adding insert
  cases hknown : index.find? h.digest with
  | some known => exact .inl ⟨rfl, .inl ⟨known, rfl⟩⟩
  | none =>
    cases hparent : index.find? h.previous with
    | none => exact .inl ⟨rfl, .inr rfl⟩
    | some parent =>
      refine .inr ⟨parent, rfl, rfl, rfl, fun tip htip => ?_⟩
      simp only [htip, decide_eq_true_eq]
      split <;> rfl

theorem mem_ofGenesis : c ∈ ofGenesis genesis ↔ c = .genesis genesis := by
  constructor
  · intro hc
    change (ofGenesis genesis).chains[_]? = _ at hc
    rw [ofGenesis, Table.getElem?_insert] at hc
    split at hc
    · exact (Option.some.inj hc).symm
    · simp at hc
  · rintro rfl
    exact Grown.genesis.genesis_mem

/-- Beside what was there before, a new chain is in the index. -/
theorem mem_added {index' : ChainIndex} (hnew : index.find? h.digest = none)
    (hchains : index'.chains = index.chains.insert h.digest (.extend h p)) :
    c ∈ index' ↔ c ∈ index ∨ c = .extend h p := by
  have hfiled : index'.find? c.digest
      = if h.digest = c.digest then some (.extend h p) else index.find? c.digest := by
    rw [find?, hchains, Table.getElem?_insert]
    rfl
  constructor
  · intro hc
    change index'.find? c.digest = some c at hc
    rw [hfiled] at hc
    split at hc
    · exact .inr (Option.some.inj hc).symm
    · exact .inl hc
  · rintro (hc | rfl)
    · exact find?_of_added hnew hchains hc
    · exact hfiled.trans (if_pos rfl)

theorem mem_adding (hc : c ∈ index) : c ∈ index.adding h := by
  obtain ⟨hsame, -⟩ | ⟨parent, hnew, -, hchains, -⟩ := adding_cases index h
  · rw [hsame]
    exact hc
  · exact (mem_added hnew hchains).2 (.inl hc)

theorem Grown.adding (hgrown : Grown genesis index) : Grown genesis (index.adding h) := by
  unfold ChainIndex.adding
  split
  · next hinsert => exact .insert hgrown hinsert
  · exact hgrown

/-! ## Runs -/

theorem grow_concat (genesis : Header) (hs : List Header) (h : Header) :
    grow genesis (hs ++ [h]) = (grow genesis hs).adding h := List.foldl_concat ..

theorem grown_grow (genesis : Header) (hs : List Header) : Grown genesis (grow genesis hs) := by
  induction hs using List.reverseRecOn with
  | nil => exact .genesis
  | append_singleton hs h ih =>
    rw [grow_concat]
    exact ih.adding

/-- What is in an index stays there. -/
theorem mem_grow_of_prefix (hbefore : before <+: hs) (hc : c ∈ grow genesis before) :
    c ∈ grow genesis hs := by
  obtain ⟨rest, rfl⟩ := hbefore
  induction rest using List.reverseRecOn with
  | nil =>
    rw [List.append_nil]
    exact hc
  | append_singleton rest h ih =>
    rw [← List.append_assoc, grow_concat]
    exact mem_adding ih

/-- A chain of an index other than the genesis ends with a header that was inserted and that names
the chain below it. -/
theorem extend_mem_grow (hc : .extend h p ∈ grow genesis hs) : h ∈ hs ∧ h.previous = p.digest := by
  induction hs using List.reverseRecOn with
  | nil => cases mem_ofGenesis.1 hc
  | append_singleton hs h' ih =>
    rw [grow_concat] at hc
    obtain ⟨hsame, -⟩ | ⟨parent, hnew, hparent, hchains, -⟩ := adding_cases (grow genesis hs) h'
    · rw [hsame] at hc
      exact ⟨List.mem_append_left _ (ih hc).1, (ih hc).2⟩
    · obtain hc | hc := (mem_added hnew hchains).1 hc
      · exact ⟨List.mem_append_left _ (ih hc).1, (ih hc).2⟩
      · cases hc
        exact ⟨List.mem_append_right _ List.mem_cons_self,
          ((grown_grow genesis hs).of_find? hparent).1.symm⟩

/-! ## The tip -/

/-- At some time one chain was in the index and the other was not. -/
def Precedes (genesis : Header) (hs : List Header) (c d : Chain) : Prop :=
  ∃ before, before <+: hs ∧ c ∈ grow genesis before ∧ d ∉ grow genesis before

/-- The chain that leads an index: no chain has more work, and it precedes those with as much. -/
structure Leads (genesis : Header) (hs : List Header) (tip : Chain) : Prop where
  mem : tip ∈ grow genesis hs
  work_le : ∀ c ∈ grow genesis hs, c.work ≤ tip.work
  first : ∀ c ∈ grow genesis hs, c.work = tip.work → c ≠ tip → Precedes genesis hs tip c

variable {tip tip' : Chain}

theorem Precedes.concat (hprecedes : Precedes genesis hs c p) (h : Header) :
    Precedes genesis (hs ++ [h]) c p := by
  obtain ⟨before, hbefore, hthere, hnot⟩ := hprecedes
  exact ⟨before, hbefore.trans (List.prefix_append hs [h]), hthere, hnot⟩

/-- A new chain without more work does not lead. -/
theorem Leads.kept (hleads : Leads genesis hs tip)
    (hmem : ∀ x, x ∈ grow genesis (hs ++ [h]) ↔ x ∈ grow genesis hs ∨ x = c)
    (hnew : c ∉ grow genesis hs) (hless : c.work ≤ tip.work) : Leads genesis (hs ++ [h]) tip := by
  refine ⟨(hmem tip).2 (.inl hleads.mem), fun x hx => ?_, fun x hx hwork hne => ?_⟩
  · obtain hx | rfl := (hmem x).1 hx
    · exact hleads.work_le x hx
    · exact hless
  · obtain hx | rfl := (hmem x).1 hx
    · exact (hleads.first x hx hwork hne).concat h
    · exact ⟨hs, List.prefix_append hs [h], hleads.mem, hnew⟩

/-- Of these headers no two have one digest. -/
def DigestsDiffer (hs : List Header) : Prop := ∀ a ∈ hs, ∀ b ∈ hs, a.digest = b.digest → a = b

instance (hs : List Header) : Decidable (DigestsDiffer hs) :=
  inferInstanceAs (Decidable (∀ a ∈ hs, ∀ b ∈ hs, a.digest = b.digest → a = b))

/-- No header comes before its parent, if that is among the headers or the genesis. -/
def ParentsFirst (genesis : Header) (hs : List Header) : Prop :=
  ∀ i : Fin hs.length, ∀ parent ∈ genesis :: hs, parent.digest = hs[i].previous →
    parent ∈ genesis :: hs.take i

instance (genesis : Header) (hs : List Header) : Decidable (ParentsFirst genesis hs) :=
  inferInstanceAs (Decidable (∀ i : Fin hs.length, ∀ parent ∈ genesis :: hs,
    parent.digest = hs[i].previous → parent ∈ genesis :: hs.take i))

/-- The chains of these headers, each but the first naming the one below. The digest of the genesis
stands for the genesis alone. -/
inductive Linked (genesis : Header) (hs : List Header) : Chain → Prop where
  | genesis : Linked genesis hs (.genesis genesis)
  | extend {h : Header} {p : Chain} : Linked genesis hs p → h ∈ hs → h.previous = p.digest →
    h.digest ≠ genesis.digest → Linked genesis hs (.extend h p)

theorem Linked.congr (hsame : ∀ h, h ∈ hs' ↔ h ∈ hs) (hlinked : Linked genesis hs c) :
    Linked genesis hs' c := by
  induction hlinked with
  | genesis => exact .genesis
  | extend _ hh hprevious hne ih => exact .extend ih ((hsame _).2 hh) hprevious hne

theorem Linked.header_mem (hlinked : Linked genesis hs c) : c.header ∈ genesis :: hs := by
  cases hlinked with
  | genesis => exact List.mem_cons_self
  | extend _ hh _ _ => exact List.mem_cons_of_mem _ hh

theorem linked_of_mem (hc : c ∈ grow genesis hs) : Linked genesis hs c := by
  have hgrown := grown_grow genesis hs
  induction c with
  | genesis header =>
    obtain ⟨-, heq | ⟨parent, hparent, -⟩⟩ := hgrown.of_find? hc
    · rw [heq]
      exact .genesis
    · cases hparent
  | extend header p ih =>
    obtain ⟨hh, hprevious⟩ := extend_mem_grow hc
    exact .extend (ih (hgrown.parent_mem hc rfl)) hh hprevious (hgrown.digest_ne_genesis hc rfl)

theorem ParentsFirst.parent_mem {earlier later : List Header} {parent : Header}
    (hfirst : ParentsFirst genesis (earlier ++ h :: later))
    (hparent : parent ∈ genesis :: (earlier ++ h :: later)) (hdigest : parent.digest = h.previous) :
    parent ∈ genesis :: earlier := by
  have hmem := hfirst ⟨earlier.length, by simp⟩ parent hparent
  simp only [Fin.getElem_fin, List.getElem_append_right (Nat.le_refl _), Nat.sub_self,
    List.getElem_cons_zero, List.take_left] at hmem
  exact hmem hdigest

/-- A header that names a chain of the index is on top of it after a call. -/
theorem extend_mem_grow_concat (hdiffer : DigestsDiffer (genesis :: hs)) (hsub : before ⊆ hs)
    (hh : h ∈ hs) (hp : p ∈ grow genesis before) (hprevious : h.previous = p.digest)
    (hne : h.digest ≠ genesis.digest) : .extend h p ∈ grow genesis (before ++ [h]) := by
  have hparent : (grow genesis before).find? h.previous = some p := by
    rw [hprevious]
    exact hp
  rw [grow_concat]
  obtain ⟨hsame, ⟨known, hknown⟩ | hnone⟩ | ⟨parent, hnew, hfound, hchains, -⟩ :=
    adding_cases (grow genesis before) h
  · -- A chain with the digest of `h` ends with `h`, and there is one chain that `h` names.
    have hdigest : known.digest = h.digest := ((grown_grow genesis before).of_find? hknown).1
    have hmem : known ∈ grow genesis before := by
      rw [← hdigest] at hknown
      exact hknown
    rw [hsame]
    cases linked_of_mem hmem with
    | genesis => exact absurd hdigest.symm hne
    | @extend h' p' _ hh' _ _ =>
      have hheader : h' = h := hdiffer h' (List.mem_cons_of_mem _ (hsub hh')) h
        (List.mem_cons_of_mem _ hh) hdigest
      subst hheader
      have hbelow : p' ∈ grow genesis before := (grown_grow genesis before).parent_mem hmem rfl
      rw [eq_of_digest_eq hp hbelow (hprevious.symm.trans (extend_mem_grow hmem).2)]
      exact hmem
  · rw [hparent] at hnone
    cases hnone
  · rw [hparent, Option.some.injEq] at hfound
    subst hfound
    exact (mem_added hnew hchains).2 (.inr rfl)

/-- A chain of these headers is there as soon as its last header has been inserted. -/
theorem mem_of_linked (hdiffer : DigestsDiffer (genesis :: hs)) (hfirst : ParentsFirst genesis hs)
    (hlinked : Linked genesis hs c) (hbefore : before <+: hs)
    (hheader : c.header ∈ genesis :: before) : c ∈ grow genesis before := by
  -- By induction on the chain, at all times at once: the chain below is there before the last call.
  induction hlinked generalizing before with
  | genesis => exact (grown_grow genesis before).genesis_mem
  | @extend h p hp hh hprevious hne ih =>
    obtain rfl | hheader := List.mem_cons.1 hheader
    · exact absurd rfl hne
    change h ∈ before at hheader
    obtain ⟨earlier, later, rfl⟩ := List.append_of_mem hheader
    obtain ⟨rest, rfl⟩ := hbefore
    rw [List.append_assoc, List.cons_append] at hdiffer hfirst hp hh ih
    have hparent : p.header ∈ genesis :: earlier :=
      hfirst.parent_mem hp.header_mem (hprevious.trans p.digest_eq).symm
    have hbelow : p ∈ grow genesis earlier := ih (List.prefix_append _ _) hparent
    exact mem_grow_of_prefix ⟨later, by rw [List.append_assoc, List.singleton_append]⟩
      (extend_mem_grow_concat hdiffer (List.subset_append_left _ _) hh hbelow hprevious hne)

/-- Where parents come first, an index holds all chains of the headers and no other. -/
theorem mem_grow_iff (hdiffer : DigestsDiffer (genesis :: hs)) (hfirst : ParentsFirst genesis hs) :
    c ∈ grow genesis hs ↔ Linked genesis hs c :=
  ⟨linked_of_mem, fun hlinked =>
    mem_of_linked hdiffer hfirst hlinked (List.prefix_refl hs) hlinked.header_mem⟩

theorem DigestsDiffer.mono (hdiffer : DigestsDiffer hs) (hsub : hs' ⊆ hs) : DigestsDiffer hs' :=
  fun a ha b hb => hdiffer a (hsub ha) b (hsub hb)

end ChainIndex

/-! ## Two orders -/

namespace Regtest

def treeRoot : Header := ⟨1, Digest.zero, Digest.zero, 1000, ⟨0x207fffff⟩, 0⟩

/-- Two headers on the root, of the same work. -/
def leftChild : Header := ⟨1, treeRoot.digest, Digest.zero, 1060, ⟨0x207fffff⟩, 1⟩

def rightChild : Header := ⟨1, treeRoot.digest, Digest.zero, 1060, ⟨0x207fffff⟩, 2⟩

/-- A header without work, for its bits do not decode. -/
def idleChild : Header := ⟨1, leftChild.digest, Digest.zero, 1120, ⟨0xff123456⟩, 3⟩

/-- A header whose parent is nowhere. -/
def stray : Header := ⟨1, Digest.zero, Digest.zero, 1180, ⟨0x207fffff⟩, 4⟩

def leftFirst : List Header := [leftChild, stray, rightChild, leftChild, idleChild]

def rightFirst : List Header := [stray, rightChild, leftChild, idleChild]

set_option maxRecDepth 10000

/-- No two of the headers have one digest, both orders have parents first, and their tips are the
children that came first. One piece, so that each header is hashed once. -/
theorem checked_orders : ChainIndex.DigestsDiffer (treeRoot :: leftFirst)
    ∧ ChainIndex.ParentsFirst treeRoot leftFirst ∧ ChainIndex.ParentsFirst treeRoot rightFirst
    ∧ (ChainIndex.grow treeRoot leftFirst).tip?.map Chain.header = some leftChild
    ∧ (ChainIndex.grow treeRoot rightFirst).tip?.map Chain.header = some rightChild
    ∧ ∀ h ∈ leftFirst, h.digest ≠ treeRoot.digest := by decide +kernel

end Regtest

end Chainstate
