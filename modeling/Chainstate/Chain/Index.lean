-- SUMMARY: The tree of known headers, by digest, with the tip of most work.
import Chainstate.Chain
import Chainstate.Failure

/-!
# The header index

Headers enter the index on top of a parent that is already there. The tip moves only to a chain
with more work, so of several chains with the most work it is the one that came first.
-/

namespace Chainstate

structure ChainIndex where
  chains : Table Digest Chain
  tip? : Option Chain

namespace ChainIndex

def empty : ChainIndex := ⟨∅, none⟩

instance : Inhabited ChainIndex := ⟨empty⟩

def ofGenesis (header : Header) : ChainIndex :=
  let c := Chain.genesis header
  ⟨(∅ : Table Digest Chain).insert c.digest c, some c⟩

def find? (index : ChainIndex) (d : Digest) : Option Chain := index.chains[d]?

def size (index : ChainIndex) : Nat := index.chains.size

/-- The chain of a header, which enters the index unless it is there already. -/
def insert (index : ChainIndex) (header : Header) : Except Fault (Chain × ChainIndex) :=
  match index.find? header.digest with
  | some known => .ok (known, index)
  | none =>
    match index.find? header.previous with
    | none => .error (.unknownParent header.previous)
    | some parent =>
      let c := Chain.extend header parent
      let better := match index.tip? with
        | some tip => decide (tip.work < c.work)
        | none => true
      .ok (c, ⟨index.chains.insert c.digest c, if better then some c else index.tip?⟩)

end ChainIndex

end Chainstate
