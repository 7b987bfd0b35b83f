-- SUMMARY: Trees of headers: the indexes that grow from a genesis, and the chains in them.
import Chainstate.Chain.Index
import Chainstate.Proofs.CoinTable

/-!
# Trees of headers

In a `HeaderTree` a digest stands for one chain, and what is below a chain of the tree is in the
tree as well. `ChainIndex.Grown` holds of the indexes that a genesis header grows into. Such an
index files every chain under its digest and holds the parents of its chains, so its chains form a
tree (`Grown.tree`), whatever digests other headers have.
-/

namespace Chainstate

/-! ## Ancestors -/

namespace Chain

theorem ancestors_of_parent? {c parent : Chain} (h : c.parent? = some parent) :
    c.ancestors = c :: parent.ancestors := by
  cases c with
  | genesis header => cases h
  | extend header p =>
    rw [parent?_extend, Option.some.injEq] at h
    rw [ancestors, h]

theorem self_mem_ancestors (c : Chain) : c ∈ c.ancestors := by
  cases c with
  | genesis header => exact List.mem_singleton_self _
  | extend header p => exact List.mem_cons_self

/-- Everything below a parent is below its child. -/
theorem mem_ancestors_of_parent? {c parent x : Chain} (h : c.parent? = some parent)
    (hx : x ∈ parent.ancestors) : x ∈ c.ancestors := by
  rw [ancestors_of_parent? h]
  exact List.mem_cons_of_mem _ hx

/-- All chains below a chain. -/
def lower (c : Chain) : List Chain := c.parent?.elim [] ancestors

theorem lower_of_parent? {c parent : Chain} (h : c.parent? = some parent) :
    c.lower = parent.ancestors := by
  rw [lower, h]
  rfl

theorem ancestors_eq_cons (c : Chain) : c.ancestors = c :: c.lower := by
  cases c with
  | genesis header => rfl
  | extend header parent => rfl

theorem ancestors_trans {c d x : Chain} (hd : d ∈ c.ancestors) (hx : x ∈ d.ancestors) :
    x ∈ c.ancestors := by
  induction c with
  | genesis header =>
    rw [List.mem_singleton.1 hd] at hx
    exact hx
  | extend header p ih =>
    rcases List.mem_cons.1 hd with rfl | hd
    · exact hx
    · exact List.mem_cons_of_mem _ (ih hd)

/-- The ancestor at a height is an ancestor of that height. -/
theorem ancestor?_eq_some {c x : Chain} {height : Nat} (h : c.ancestor? height = some x) :
    x ∈ c.ancestors ∧ x.height = height := by
  induction c with
  | genesis header =>
    unfold ancestor? at h
    split at h
    · next hzero =>
      cases h
      exact ⟨self_mem_ancestors _, hzero.symm⟩
    · cases h
  | extend header p ih =>
    unfold ancestor? at h
    split at h
    · next htop =>
      cases h
      exact ⟨self_mem_ancestors _, htop.symm⟩
    · obtain ⟨hmem, hheight⟩ := ih h
      exact ⟨List.mem_cons_of_mem _ hmem, hheight⟩

/-- There is an ancestor at every height up to that of the chain. -/
theorem exists_ancestor? {c : Chain} {height : Nat} (h : height ≤ c.height) :
    ∃ x, c.ancestor? height = some x := by
  induction c with
  | genesis header =>
    rw [height_genesis, Nat.le_zero] at h
    exact ⟨_, if_pos h⟩
  | extend header p ih =>
    rw [height_extend] at h
    by_cases htop : height = p.height + 1
    · exact ⟨_, if_pos htop⟩
    · obtain ⟨x, hx⟩ := ih (by omega)
      refine ⟨x, ?_⟩
      rw [ancestor?, if_neg htop]
      exact hx

theorem height_le_of_mem_ancestors {c x : Chain} (h : x ∈ c.ancestors) : x.height ≤ c.height := by
  induction c with
  | genesis header => exact Nat.le_of_eq (congrArg height (List.mem_singleton.1 h))
  | extend header p ih =>
    rcases List.mem_cons.1 h with rfl | h
    · exact Nat.le_refl _
    · exact Nat.le_succ_of_le (ih h)

theorem height_lt_of_mem_lower {c x : Chain} (h : x ∈ c.lower) : x.height < c.height := by
  cases c with
  | genesis header => cases h
  | extend header p =>
    have hle : x.height ≤ p.height := height_le_of_mem_ancestors h
    rw [height_extend]
    omega

theorem self_notMem_lower (c : Chain) : c ∉ c.lower :=
  fun h => Nat.lt_irrefl _ (height_lt_of_mem_lower h)

/-- An ancestor is found at its own height. -/
theorem ancestor?_of_mem_ancestors {c x : Chain} (h : x ∈ c.ancestors) :
    c.ancestor? x.height = some x := by
  induction c with
  | genesis header =>
    rw [List.mem_singleton.1 h]
    exact if_pos rfl
  | extend header p ih =>
    rcases List.mem_cons.1 h with rfl | h
    · exact if_pos rfl
    · have hle := height_le_of_mem_ancestors h
      rw [ancestor?, if_neg (by omega)]
      exact ih h

/-- Below a chain there is one chain of each height. -/
theorem eq_of_height_eq {c x y : Chain} (hx : x ∈ c.ancestors) (hy : y ∈ c.ancestors)
    (h : x.height = y.height) : x = y := by
  have hfound := ancestor?_of_mem_ancestors hx
  rw [h, ancestor?_of_mem_ancestors hy] at hfound
  exact (Option.some.inj hfound).symm

/-- Of two chains below a third, the lower one is below the higher one. -/
theorem mem_ancestors_of_height_le {c x y : Chain} (hx : x ∈ c.ancestors) (hy : y ∈ c.ancestors)
    (hle : x.height ≤ y.height) : x ∈ y.ancestors := by
  induction c with
  | genesis header =>
    rw [List.mem_singleton.1 hy]
    exact hx
  | extend header parent ih =>
    obtain rfl | hy := List.mem_cons.1 hy
    · exact hx
    · obtain rfl | hx := List.mem_cons.1 hx
      · have hlow := height_le_of_mem_ancestors hy
        rw [height_extend] at hle
        omega
      · exact ih hx hy

theorem exists_mem_ancestors {c : Chain} {height : Nat} (h : height ≤ c.height) :
    ∃ x ∈ c.ancestors, x.height = height := by
  obtain ⟨x, hx⟩ := exists_ancestor? h
  exact ⟨x, ancestor?_eq_some hx⟩

/-- Chains that each extend the one before stand on one another. -/
theorem mem_ancestors_of_le {cs : Nat → Chain} (hnext : ∀ n, (cs (n + 1)).parent? = some (cs n))
    {m n : Nat} (h : m ≤ n) : cs m ∈ (cs n).ancestors := by
  induction h with
  | refl => exact self_mem_ancestors _
  | step _ ih => exact mem_ancestors_of_parent? (hnext _) ih

end Chain

/-! ## Trees -/

/-- A tree of headers: a chain in it comes with everything below, and no two have one digest. -/
structure HeaderTree where
  Holds : Chain → Prop
  holds_parent : ∀ {c parent}, Holds c → c.parent? = some parent → Holds parent
  eq_of_digest_eq : ∀ {c d}, Holds c → Holds d → c.digest = d.digest → c = d

namespace HeaderTree

instance : Membership Chain HeaderTree := ⟨HeaderTree.Holds⟩

theorem parent_mem {tree : HeaderTree} {c parent : Chain} (hc : c ∈ tree)
    (hparent : c.parent? = some parent) : parent ∈ tree := tree.holds_parent hc hparent

theorem ancestor_mem {tree : HeaderTree} {c x : Chain} (hc : c ∈ tree) (hx : x ∈ c.ancestors) :
    x ∈ tree := by
  induction c with
  | genesis header =>
    rw [List.mem_singleton.1 hx]
    exact hc
  | extend header p ih =>
    rcases List.mem_cons.1 hx with rfl | hx
    · exact hc
    · exact ih (parent_mem hc rfl) hx

/-- A list of chains with distinct digests that holds the parents of its members. -/
def ofList (cs : List Chain) (hparent : ∀ c ∈ cs, ∀ parent, c.parent? = some parent → parent ∈ cs)
    (hdistinct : (cs.map Chain.digest).Nodup) : HeaderTree :=
  ⟨(· ∈ cs), fun hc => hparent _ hc _, fun hc hd h => List.inj_on_of_nodup_map hdistinct hc hd h⟩

end HeaderTree

/-! ## Grown indexes -/

namespace ChainIndex

/-- The indexes that a genesis header grows into as other headers are inserted. -/
inductive Grown (genesis : Header) : ChainIndex → Prop where
  | genesis : Grown genesis (ofGenesis genesis)
  | insert {index index' : ChainIndex} {header : Header} {c : Chain} :
    Grown genesis index → index.insert header = .ok (c, index') → Grown genesis index'

/-- A chain is in an index that holds it under its digest. -/
instance : Membership Chain ChainIndex := ⟨fun index c => index.find? c.digest = some c⟩

/-- In one index a digest stands for one chain. -/
theorem eq_of_digest_eq {index : ChainIndex} {c d : Chain} (hc : c ∈ index) (hd : d ∈ index)
    (h : c.digest = d.digest) : c = d := by
  change index.find? c.digest = some c at hc
  change index.find? d.digest = some d at hd
  rw [h, hd] at hc
  exact (Option.some.inj hc).symm

/-- An insertion finds a known header, or adds a new one on top of a known parent. -/
theorem insert_ok {index index' : ChainIndex} {header : Header} {c : Chain}
    (h : index.insert header = .ok (c, index')) :
    index' = index
      ∨ ∃ parent, index.find? header.digest = none ∧ index.find? header.previous = some parent
        ∧ index'.chains = index.chains.insert header.digest (.extend header parent) := by
  unfold insert at h
  split at h
  · cases h
    exact .inl rfl
  · next hnew =>
    split at h
    · cases h
    · next parent hparent =>
      cases h
      exact .inr ⟨parent, hnew, hparent, rfl⟩

/-- A new header on a known parent is added. -/
theorem insert_new {index : ChainIndex} {header : Header} {parent : Chain}
    (hnew : index.find? header.digest = none)
    (hparent : index.find? header.previous = some parent) :
    ∃ index', index.insert header = .ok (.extend header parent, index')
      ∧ index'.chains = index.chains.insert header.digest (.extend header parent) := by
  unfold insert
  simp only [hnew, hparent]
  exact ⟨_, rfl, rfl⟩

/-- A chain that was filed before a new one is still filed where it was. -/
theorem find?_of_added {index index' : ChainIndex} {header : Header} {parent : Chain}
    (hnew : index.find? header.digest = none)
    (hchains : index'.chains = index.chains.insert header.digest (.extend header parent))
    {d : Digest} {c : Chain} (hc : index.find? d = some c) : index'.find? d = some c := by
  rw [find?, hchains, Table.getElem?_insert, if_neg]
  · exact hc
  · rintro rfl
    rw [hnew] at hc
    cases hc

variable {genesis : Header} {index : ChainIndex}

/-- What an index files under a digest has it, and is the genesis or stands on a chain of the
index. -/
theorem Grown.of_find? (h : Grown genesis index) {d : Digest} {c : Chain}
    (hc : index.find? d = some c) :
    c.digest = d ∧ (c = .genesis genesis ∨ ∃ parent, c.parent? = some parent ∧ parent ∈ index) := by
  induction h generalizing d c with
  | genesis =>
    rw [find?, ofGenesis, Table.getElem?_insert] at hc
    split at hc
    · next heq =>
      cases hc
      exact ⟨heq, .inl rfl⟩
    · simp at hc
  | @insert index index' header c₀ _ hinsert ih =>
    rcases insert_ok hinsert with rfl | ⟨parent, hnew, hparent, hchains⟩
    · exact ih hc
    · have hkept {x : Chain} {k : Digest} (hx : index.find? k = some x) :
          index'.find? k = some x := find?_of_added hnew hchains hx
      rw [find?, hchains, Table.getElem?_insert] at hc
      split at hc
      · next heq =>
        cases hc
        refine ⟨heq, .inr ⟨parent, rfl, ?_⟩⟩
        have hfiled : index'.find? header.previous = some parent := hkept hparent
        rw [← (ih hparent).1] at hfiled
        exact hfiled
      · obtain ⟨hdigest, hc | ⟨p, hp, hmem⟩⟩ := ih hc
        · exact ⟨hdigest, .inl hc⟩
        · exact ⟨hdigest, .inr ⟨p, hp, hkept hmem⟩⟩

theorem Grown.parent_mem (h : Grown genesis index) {c parent : Chain} (hc : c ∈ index)
    (hparent : c.parent? = some parent) : parent ∈ index := by
  obtain ⟨-, rfl | ⟨p, hp, hmem⟩⟩ := h.of_find? hc
  · cases hparent
  · rw [hp, Option.some.injEq] at hparent
    rw [← hparent]
    exact hmem

/-- The chains of an index form a tree. -/
def Grown.tree (h : Grown genesis index) : HeaderTree :=
  ⟨(· ∈ index), h.parent_mem, eq_of_digest_eq⟩

theorem Grown.ancestor_mem (h : Grown genesis index) {c x : Chain} (hc : c ∈ index)
    (hx : x ∈ c.ancestors) : x ∈ index :=
  HeaderTree.ancestor_mem (show c ∈ h.tree from hc) hx

theorem Grown.genesis_mem (h : Grown genesis index) : Chain.genesis genesis ∈ index := by
  induction h with
  | genesis =>
    change (ofGenesis genesis).chains[_]? = _
    rw [ofGenesis, Table.getElem?_insert, if_pos rfl]
  | @insert index index' header c _ hinsert ih =>
    rcases insert_ok hinsert with rfl | ⟨parent, hnew, -, hchains⟩
    · exact ih
    · exact find?_of_added hnew hchains ih

/-- An index grows by every new header that names a chain of it. -/
theorem Grown.exists_extend (h : Grown genesis index) {header : Header} {parent : Chain}
    (hparent : parent ∈ index) (hprevious : header.previous = parent.digest)
    (hnew : index.find? header.digest = none) :
    ∃ index', Grown genesis index' ∧ .extend header parent ∈ index' ∧ (∀ c ∈ index, c ∈ index')
      ∧ ∀ d, header.digest ≠ d → index'.find? d = index.find? d := by
  have hfound : index.find? header.previous = some parent := by
    rw [hprevious]
    exact hparent
  obtain ⟨index', hinsert, hchains⟩ := insert_new hnew hfound
  refine ⟨index', .insert h hinsert, ?_, fun c hc => find?_of_added hnew hchains hc, ?_⟩
  · change index'.chains[_]? = _
    rw [hchains, Table.getElem?_insert]
    exact if_pos rfl
  · intro d hne
    rw [find?, hchains, Table.getElem?_insert, if_neg hne]
    rfl

/-- No chain that stands on another has the digest of the genesis. -/
theorem Grown.digest_ne_genesis (h : Grown genesis index) {c parent : Chain} (hc : c ∈ index)
    (hparent : c.parent? = some parent) : c.digest ≠ (Chain.genesis genesis).digest := by
  intro heq
  rw [eq_of_digest_eq hc h.genesis_mem heq] at hparent
  cases hparent

/-- A chain has another digest than those below it. -/
theorem Grown.digest_ne_of_mem_lower (h : Grown genesis index) {c x : Chain} (hc : c ∈ index)
    (hx : x ∈ c.lower) : c.digest ≠ x.digest := by
  intro heq
  have hbelow : x ∈ c.ancestors := by
    rw [Chain.ancestors_eq_cons]
    exact List.mem_cons_of_mem _ hx
  have hsame := eq_of_digest_eq hc (h.ancestor_mem hc hbelow) heq
  subst hsame
  exact Chain.self_notMem_lower c hx

/-- Headers that each name the digest of their parent, with distinct digests, are in an index. -/
theorem exists_grown {c : Chain}
    (hnamed : ∀ x ∈ c.ancestors, ∀ parent, x.parent? = some parent →
      x.header.previous = parent.digest)
    (hdistinct : (c.ancestors.map Chain.digest).Nodup) :
    ∃ genesis index, Grown genesis index ∧ c ∈ index ∧ Chain.genesis genesis ∈ c.ancestors
      ∧ ∀ d, d ∉ c.ancestors.map Chain.digest → index.find? d = none := by
  induction c with
  | genesis header =>
    refine ⟨header, ofGenesis header, .genesis, Grown.genesis.genesis_mem,
      Chain.self_mem_ancestors _, fun d hd => ?_⟩
    have hne : (Chain.genesis header).digest ≠ d := fun heq => hd (by simp [Chain.ancestors, heq])
    rw [find?, ofGenesis, Table.getElem?_insert, if_neg hne]
    simp
  | extend header parent ih =>
    obtain ⟨hnew, hdistinct⟩ := List.nodup_cons.1 hdistinct
    obtain ⟨genesis, index, hgrown, hparent, hroot, hnone⟩ :=
      ih (fun x hx => hnamed x (List.mem_cons_of_mem _ hx)) hdistinct
    obtain ⟨index', hgrown', hmem, -, hsame⟩ := hgrown.exists_extend hparent
      (hnamed _ (Chain.self_mem_ancestors _) parent rfl) (hnone _ hnew)
    refine ⟨genesis, index', hgrown', hmem, List.mem_cons_of_mem _ hroot, fun d hd => ?_⟩
    obtain ⟨hne, hd⟩ := not_or.1 (mt List.mem_cons.2 hd)
    rw [hsame d (Ne.symm hne), hnone d hd]

end ChainIndex

end Chainstate
