-- SUMMARY: Unspent outputs with the context for spending them, and their stored form.
import Chainstate.Transaction

/-!
# Coins

A coin is an unspent output together with where it came from. Its stored form is the height, a
byte of flags, the time where one is known, and the output; a flag outside the three known ones
is refused, so each stored byte string stands for at most one coin.
-/

namespace Chainstate

structure Coin where
  height : Nat
  output : TxOut
  fromCoinbase : Bool
  fromCoinstake : Bool
  /-- Time of the creating block on proof-of-stake networks. -/
  time : Option UInt32
  deriving DecidableEq

namespace Coin

/-- Never stored: no one can spend it. -/
def isPrunable (c : Coin) : Bool := c.output.script.isUnspendable

def amount (c : Coin) : Int := c.output.amount

/-! ## Stored form -/

def flags (c : Coin) : Nat :=
  c.fromCoinbase.toNat + 2 * c.fromCoinstake.toNat + 4 * c.time.isSome.toNat

def encode (c : Coin) : Bytes :=
  Bytes.littleEndian 4 c.height ++ UInt8.ofNat c.flags :: c.time.elim [] Encode.u32
    ++ c.output.encode

def decode : Decoder Coin := do
  let height ← Decoder.number 4 .u32
  let flags ← Decoder.number 1 .u8
  if 8 ≤ flags then throw .unknownCoinFlags
  let time ← if flags / 4 % 2 = 1 then do pure (some (← Decoder.u32)) else pure none
  let output ← TxOut.decode
  pure ⟨height, output, flags % 2 = 1, flags / 2 % 2 = 1, time⟩

def ofBytes (bs : Bytes) : Except DecodeError Coin := Decoder.exactly decode bs

end Coin

/-- What becomes of an outpoint: a coin, or nothing where it is spent or unknown. -/
structure CoinChange where
  outpoint : OutPoint
  coin : Option Coin
  deriving DecidableEq

end Chainstate
