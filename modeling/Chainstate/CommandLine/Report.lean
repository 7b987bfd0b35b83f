-- SUMMARY: What the commands report, and the fields of each report.
import Chainstate.Coin.Undo
import Chainstate.Target.Compact
import Chainstate.Text.Json

namespace Chainstate

namespace CommandLine

/-! ## Reports -/

structure InfoReport where
  network : String
  backend : String
  genesis : Digest
  proofOfStake : Bool
  workLimit : CompactTarget
  targetSpacing : Nat
  coinbaseMaturity : Nat
  maxReorganization : Nat
  tip : Option Tip

inductive Report where
  | tip (t : Tip)
  /-- The number and the total value of all coins, and the coins to show. -/
  | coins (count : Nat) (total : Int) (shown : List (OutPoint × Coin))
  | undoRecord (height : Nat) (record : Option UndoRecord)
  | info (i : InfoReport)
  | failure (message : String)

/-! ## Fields -/

namespace Report

def ofNat (n : Nat) : Json := .int n

def orNull (f : α → Json) : Option α → Json
  | some a => f a
  | none => .null

def ofTip (t : Tip) : Json :=
  .object [("hash", .string t.digest.toHex), ("height", ofNat t.height)]

/-- A coin's time is left out where it has none. -/
def ofCoin (o : OutPoint) (c : Coin) : Json :=
  .object ([("txid", .string o.txid.toHex), ("vout", ofNat o.index.toNat),
      ("value", .int c.amount), ("height", ofNat c.height), ("coinbase", .bool c.fromCoinbase),
      ("coinstake", .bool c.fromCoinstake)]
    ++ (match c.time with
      | some t => [("time", ofNat t.toNat)]
      | none => [])
    ++ [("script_pubkey", .string (Hex.encode c.output.script.bytes))])

def ofUndo (height : Nat) (r : UndoRecord) : Json :=
  .object [("height", ofNat height),
    ("previous_tip", orNull ofTip r.previousTip),
    ("outputs_to_remove", .array (r.remove.map fun o => .string o.text)),
    ("outputs_to_restore", .array (r.restore.map fun oc => ofCoin oc.1 oc.2))]

def ofInfo (i : InfoReport) : Json :=
  .object [("network", .string i.network), ("backend", .string i.backend),
    ("genesis", .string i.genesis.toHex), ("proof_of_stake", .bool i.proofOfStake),
    ("pow_limit_bits", .string i.workLimit.text), ("pow_target_spacing", ofNat i.targetSpacing),
    ("coinbase_maturity", ofNat i.coinbaseMaturity),
    ("max_reorg_length", ofNat i.maxReorganization), ("tip", orNull ofTip i.tip)]

def toJson : Report → Json
  | tip t => ofTip t
  | coins count total shown =>
    .object [("count", ofNat count), ("total_value", .int total),
      ("coins", .array (shown.map fun oc => ofCoin oc.1 oc.2))]
  | undoRecord height record => orNull (ofUndo height) record
  | info i => ofInfo i
  | failure message => .object [("ok", .bool false), ("err", .string message)]

/-- The report as it is printed, without the line break at its end. -/
def text (r : Report) : String := r.toJson.text

end Report

end CommandLine

end Chainstate
