-- SUMMARY: The coins that one block works on: spending, creating, and the changes that result.
import Chainstate.Coin.Undo
import Chainstate.Failure

/-!
# Working sets

A working set holds, for each outpoint that a block may touch, the coin that was loaded and the
coin that is there now. Applying transactions changes only the latter; comparing the two gives the
list of changes to commit and the record that undoes them.
-/

namespace Chainstate

/-- A coin as loaded from the database and as it is now. -/
structure Slot where
  loaded : Option Coin
  current : Option Coin
  deriving DecidableEq

structure WorkingSet where
  slots : Table OutPoint Slot

/-- Steps on a working set. A step that fails keeps what it did before. -/
abbrev WorkingM (ε α : Type) := EStateM ε WorkingSet α

namespace WorkingSet

def empty : WorkingSet := ⟨∅⟩

instance : Inhabited WorkingSet := ⟨empty⟩

def size (w : WorkingSet) : Nat := w.slots.size

def put (w : WorkingSet) (o : OutPoint) (s : Slot) : WorkingSet := ⟨w.slots.insert o s⟩

/-! ## Loading -/

/-- Enters loaded coins; none may be entered twice. -/
def load : List CoinChange → WorkingM Fault Unit
  | [] => pure ()
  | c :: rest => do
    let w ← get
    if w.slots.contains c.outpoint then throw (.duplicateOutPoint c.outpoint)
    else
      set (w.put c.outpoint ⟨c.coin, c.coin⟩)
      load rest

/-- Enters loaded coins; what is already there stays. -/
def loadNew (w : WorkingSet) (cs : List CoinChange) : WorkingSet :=
  cs.foldl (fun w c =>
    if w.slots.contains c.outpoint then w else w.put c.outpoint ⟨c.coin, c.coin⟩) w

/-! ## Looking up -/

def coin? (w : WorkingSet) (o : OutPoint) : Option Coin := do
  let s ← w.slots[o]?
  s.current

def hasInputs (w : WorkingSet) (tx : Transaction) : Bool :=
  tx.inputs.all fun i => (w.coin? i.prevout).isSome

/-- The sum of the values of the inputs that are there, in words. -/
def valueIn (w : WorkingSet) (tx : Transaction) : Int64 :=
  totalWord ((tx.inputs.filterMap fun i => w.coin? i.prevout).map fun c => c.output.value)

/-! ## Applying transactions -/

def spend (o : OutPoint) : WorkingM Fault Unit := do
  let w ← get
  match w.slots[o]? with
  | none => throw (.missingOutput o)
  | some s =>
    if s.current.isNone then throw (.doubleSpend o)
    else set (w.put o { s with current := none })

def spendAll : List TxIn → WorkingM Fault Unit
  | [] => pure ()
  | i :: rest => do
    spend i.prevout
    spendAll rest

/-- Puts a coin under an outpoint, whatever was there. -/
def create (w : WorkingSet) (o : OutPoint) (c : Coin) : WorkingSet :=
  w.put o ⟨(w.slots[o]?).bind Slot.loaded, some c⟩

end WorkingSet

/-- The coins that a transaction creates in a block of a height, without those that no one can
spend. -/
def Transaction.createdCoins (tx : Transaction) (height : Nat) (time : Option UInt32) :
    List (OutPoint × Coin) :=
  let coins := tx.outputs.map fun out =>
    ({ height, output := out, fromCoinbase := tx.isCoinbase, fromCoinstake := tx.isCoinstake,
       time } : Coin)
  (tx.outPoints.zip coins).filter fun oc => !oc.2.isPrunable

namespace WorkingSet

/-- Spends the inputs of a transaction, unless it is a coinbase, and adds its outputs. -/
def apply (tx : Transaction) (height : Nat) (time : Option UInt32) : WorkingM Fault Unit := do
  if tx.isCoinbase then pure () else spendAll tx.inputs
  modify fun w => (tx.createdCoins height time).foldl (fun w oc => w.create oc.1 oc.2) w

/-! ## Results -/

/-- The outpoints whose coin is not the one that was loaded, in outpoint order. -/
def changedSlots (w : WorkingSet) : List (OutPoint × Slot) :=
  w.slots.toList.filter fun os => os.2.current != os.2.loaded

def changes (w : WorkingSet) : List CoinChange :=
  w.changedSlots.map fun os => ⟨os.1, os.2.current⟩

/-- The record that takes the changes back. -/
def undo (w : WorkingSet) (previous : Tip) : UndoRecord :=
  { previousTip := some previous
    remove := w.changedSlots.filterMap fun os => os.2.current.map fun _ => os.1
    restore := w.changedSlots.filterMap fun os => os.2.loaded.map fun c => (os.1, c) }

end WorkingSet

end Chainstate
