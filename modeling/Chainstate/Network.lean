-- SUMMARY: Networks: a name, parameters, a genesis block and registered rules.
import Chainstate.Chain
import Chainstate.Network.Genesis
import Chainstate.Network.Params
import Chainstate.Network.Rules

namespace Chainstate

structure Network where
  name : String
  params : Params
  genesis : Block
  rules : RuleSet

namespace Network

def main : Network :=
  ⟨"main", Params.main, Genesis.work 1231006505 2083236893 0x1d00ffff, RuleSet.work⟩

def test : Network :=
  ⟨"test", Params.test, Genesis.work 1296688602 414098458 0x1d00ffff, RuleSet.work⟩

def regtest : Network :=
  ⟨"regtest", Params.regtest, Genesis.work 1296688602 2 0x207fffff, RuleSet.work⟩

def stakeMain : Network :=
  ⟨"stake-main", Params.stakeMain, Genesis.stake 1470467000 1831645 0x1e0fffff, RuleSet.stake⟩

def stakeRegtest : Network :=
  ⟨"stake-regtest", Params.stakeRegtest, Genesis.stake 1470467000 2433759 0x207fffff,
    RuleSet.stake⟩

def ofName? : String → Option Network
  | "main" => some main
  | "test" => some test
  | "testnet" => some test
  | "regtest" => some regtest
  | "stake-main" => some stakeMain
  | "stake-regtest" => some stakeRegtest
  | _ => none

def genesisDigest (net : Network) : Digest := net.genesis.digest

/-- The chain that holds only the genesis. -/
def genesisChain (net : Network) : Chain := .genesis net.genesis.header

end Network

end Chainstate
