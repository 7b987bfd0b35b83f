-- SUMMARY: Reachable databases: each holds the ledger of the connected blocks, and can go back.
import Chainstate.Proofs.Session

/-!
# Reachable databases

`Ledger.Holds` ties the tip, the coins and every undo record of a database to a list of blocks. It
holds of an opened database and no blocks, connecting a block extends the list, and a rewind takes
its first block away (`holds_of_connected`, `rewind_of_holds`). A session keeps it through every
request.

The blocks of the ledger are the connected blocks (`Session.database_run`), except on one kind of
network: rules of proof of work with parameters that call for stake records. Such an engine commits
a block and then fails, so its database runs ahead of the blocks that it has accepted, which are
none.
-/

namespace Chainstate

/-! ## Ledgers in steps -/

namespace Ledger

theorem Holds.of_sameLedger {net : Network} {blocks : List (Chain × Block)} {db db' : MemoryStore}
    (h : Holds net blocks db) (hsame : SameLedger db db') : Holds net blocks db' := by
  refine ⟨hsame.tip.trans h.tip, ?_, ?_⟩
  · rw [hsame.coins]
    exact h.coins
  · rw [hsame.undo]
    exact h.undo

/-- A block that is connected on top of a database stands one above the blocks that it holds. -/
theorem Holds.height_eq {net : Network} {blocks : List (Chain × Block)} {db db' : MemoryStore}
    (h : Holds net blocks db) {p : Params} {c : Chain} {b : Block} {time : Option UInt32}
    {fees : Int} (hconnected : Connected p c b time fees db db') :
    c.height = blocks.length + 1 := by
  obtain ⟨parent, hparent, htip⟩ := hconnected.parent
  rw [h.tip, Option.some.injEq] at htip
  rw [Chain.height_of_parent? hparent, ← tip_height net blocks, htip]

/-- Connecting a block extends the ledger by it. -/
theorem holds_of_connected {net : Network} {blocks : List (Chain × Block)} {db db' : MemoryStore}
    (h : Holds net blocks db) {p : Params} {c : Chain} {b : Block} {fees : Int}
    (hconnected : Connected p c b (coinTime net b) fees db db') :
    Holds net ((c, b) :: blocks) db' := by
  have hheight := h.height_eq hconnected
  have hcoins : coins net ((c, b) :: blocks) = some db'.coinTable := by
    rw [coins, h.coins, ← hheight]
    exact hconnected.coins
  refine ⟨?_, hcoins, ?_⟩
  · rw [hconnected.tip, hheight]
    rfl
  · intro height
    rw [hconnected.undo _ h.tip, Table.getElem?_insert, undo?, hcoins, h.coins, hheight]
    by_cases heq : height = blocks.length + 1
    · rw [if_pos heq.symm, if_pos heq]
      rfl
    · rw [if_neg (Ne.symm heq), if_neg heq, h.undo]

/-- Taking the newest block back leaves the ledger of the blocks below it. -/
theorem rewind_of_holds {net : Network} {c : Chain} {b : Block} {older : List (Chain × Block)}
    {db : MemoryStore} (h : Holds net ((c, b) :: older) db) :
    ∃ db', MemoryStore.rewind db = .ok (tip net older, db') ∧ Holds net older db' := by
  obtain ⟨before, hbefore, happly⟩ := coins_cons_eq_some h.coins
  have hundo : db.undoTable[older.length + 1]?
      = some (UndoRecord.between (tip net older) before db.coinTable) := by
    rw [h.undo, undo?, if_pos rfl, hbefore, h.coins]
    rfl
  refine ⟨_, MemoryStore.rewind_of_between h.tip hundo, rfl, hbefore, ?_⟩
  intro height
  change (db.undoTable.erase (older.length + 1))[height]? = _
  rw [Table.getElem?_erase]
  by_cases heq : older.length + 1 = height
  · rw [if_pos heq, undo?_eq_none_of_lt (by omega)]
  · rw [if_neg heq, h.undo, undo?, if_neg (Ne.symm heq)]

/-- Nothing can be taken back from a database that holds only the genesis. -/
theorem rewind_of_holds_nil {net : Network} {db : MemoryStore} (h : Holds net [] db) :
    ∃ f, MemoryStore.rewind db = .error f := by
  have htip : db.tip = some ⟨net.genesisDigest, 0⟩ := h.tip
  have hundo : db.undoTable[0]? = none := h.undo 0
  refine ⟨.missingUndo 0, ?_⟩
  unfold MemoryStore.rewind
  simp only [htip, hundo]

/-- There is a record for each block and no other. -/
theorem isSome_undo? {net : Network} {blocks : List (Chain × Block)} {t : Table OutPoint Coin}
    (h : coins net blocks = some t) (height : Nat) :
    (undo? net blocks height).isSome ↔ 1 ≤ height ∧ height ≤ blocks.length := by
  induction blocks generalizing t with
  | nil => simp [undo?]; omega
  | cons cb older ih =>
    obtain ⟨c, b⟩ := cb
    obtain ⟨before, hbefore, happly⟩ := coins_cons_eq_some h
    rw [undo?, List.length_cons]
    split
    · next heq =>
      rw [hbefore, h]
      simp [heq]
    · next hne =>
      rw [ih hbefore]
      omega

/-- The record of a block leads from the coins after it to the coins before it. -/
theorem undo?_append {net : Network} (newer : List (Chain × Block)) {c : Chain} {b : Block}
    {older : List (Chain × Block)} {t : Table OutPoint Coin}
    (h : coins net (newer ++ (c, b) :: older) = some t) :
    ∃ before after, coins net older = some before ∧ coins net ((c, b) :: older) = some after
      ∧ undo? net (newer ++ (c, b) :: older) (older.length + 1)
        = some (UndoRecord.between (tip net older) before after) := by
  induction newer generalizing t with
  | nil =>
    rw [List.nil_append] at h ⊢
    obtain ⟨before, hbefore, -⟩ := coins_cons_eq_some h
    refine ⟨before, t, hbefore, h, ?_⟩
    rw [undo?, if_pos rfl, hbefore, h]
    rfl
  | cons cb newer ih =>
    obtain ⟨c', b'⟩ := cb
    rw [List.cons_append] at h ⊢
    obtain ⟨t', ht', -⟩ := coins_cons_eq_some h
    obtain ⟨before, after, hbefore, hafter, hundo⟩ := ih ht'
    refine ⟨before, after, hbefore, hafter, ?_⟩
    have hne : older.length + 1 ≠ (newer ++ (c, b) :: older).length + 1 := by
      simp only [List.length_append, List.length_cons]
      omega
    rw [undo?, if_neg hne]
    exact hundo

/-- The undo records of a database are those of blocks: one under the height of each block, which
names the tip below the block and turns the coins after it into those before it. -/
structure Reversible (net : Network) (blocks : List (Chain × Block)) (db : MemoryStore) : Prop where
  heights : ∀ height : Nat,
    db.undoTable[height]?.isSome ↔ 1 ≤ height ∧ height ≤ blocks.length
  records : ∀ newer c b older, blocks = newer ++ (c, b) :: older →
    ∃ before after record, coins net older = some before
      ∧ coins net ((c, b) :: older) = some after
      ∧ db.undoTable[older.length + 1]? = some record
      ∧ record.previousTip = some (tip net older)
      ∧ MemoryStore.addCoins (MemoryStore.removeCoins after record.remove) record.restore = before

theorem Holds.reversible {net : Network} {blocks : List (Chain × Block)} {db : MemoryStore}
    (h : Holds net blocks db) : Reversible net blocks db := by
  refine ⟨?_, ?_⟩
  · intro height
    rw [h.undo]
    exact isSome_undo? h.coins height
  · intro newer c b older heq
    subst heq
    obtain ⟨before, after, hbefore, hafter, hundo⟩ := undo?_append newer h.coins
    refine ⟨before, after, UndoRecord.between (Ledger.tip net older) before after, hbefore,
      hafter, ?_, rfl, UndoRecord.restores_between _ _ _⟩
    rw [h.undo]
    exact hundo

/-- Every one of some blocks was admitted on top of a database that held the ones below it. -/
def Valid (net : Network) : List (Chain × Block) → Prop
  | [] => True
  | (c, b) :: older =>
    (∃ db db', Holds net older db ∧ Holds net ((c, b) :: older) db'
      ∧ Engine.Admitted net c b db db') ∧ Valid net older

/-- Every block of a valid ledger was admitted on some database. -/
theorem admitted_of_mem {net : Network} {blocks : List (Chain × Block)} (h : Valid net blocks)
    {cb : Chain × Block} (hcb : cb ∈ blocks) :
    ∃ db db', Engine.Admitted net cb.1 cb.2 db db' := by
  induction blocks with
  | nil => cases hcb
  | cons first older ih =>
    obtain ⟨⟨db, db', -, -, hadmitted⟩, holder⟩ := h
    rcases List.mem_cons.1 hcb with rfl | hcb
    · exact ⟨db, db', hadmitted⟩
    · exact ih holder hcb

theorem coinTime_of_work {net : Network} (h : net.rules = RuleSet.work) (b : Block) :
    coinTime net b = none := by
  rw [coinTime, h]
  rfl

theorem coinTime_of_stake {net : Network} (h : net.rules = RuleSet.stake) (b : Block) :
    coinTime net b = some b.header.time := by
  rw [coinTime, h]
  rfl

theorem connected_of_admitted {net : Network} {c : Chain} {b : Block} {db db' : MemoryStore}
    (h : Engine.CoinsAdmitted net c b db db') :
    ∃ fees, Connected net.params c b (coinTime net b) fees db db' := by
  rcases h with ⟨hrules, fees, hconnected, -⟩ | ⟨hrules, fees, stakeIn, hconnected, -⟩
  · rw [coinTime_of_work hrules]
    exact ⟨fees, hconnected⟩
  · rw [coinTime_of_stake hrules]
    exact ⟨fees, hconnected⟩

/-- Admitting a block extends the ledger by it. -/
theorem holds_of_admitted {net : Network} {blocks : List (Chain × Block)} {db db' : MemoryStore}
    (h : Holds net blocks db) {c : Chain} {b : Block} (hadmitted : Engine.Admitted net c b db db') :
    Holds net ((c, b) :: blocks) db' := by
  obtain ⟨fees, hconnected⟩ := connected_of_admitted hadmitted.coins
  exact holds_of_connected h hconnected

end Ledger

/-! ## The invariant of a session -/

/-- The parameters of the network call for stake records only where its rules make them. -/
def Network.Coherent (net : Network) : Prop :=
  net.rules = RuleSet.stake ∨ net.rules = RuleSet.work ∧ net.params.isProofOfStake = false

/-- A new engine keeps stake records exactly where its parameters call for them. -/
theorem Engine.isSome_stakes_ofStore {σ : Type} (net : Network) (store : σ) :
    (ofStore net store).stakes.isSome = net.params.isProofOfStake := by
  unfold ofStore
  cases net.params.isProofOfStake with
  | true => rfl
  | false => rfl

namespace Session

/-- The database of the session holds the ledger of blocks that were all admitted. These are the
connected blocks where the network is coherent, and no block is connected where it is not. -/
structure Keeps (net : Network) (s : Session) (blocks : List (Chain × Block)) : Prop where
  network : s.engine.network = net
  stakes : s.engine.stakes.isSome = net.params.isProofOfStake
  holds : Ledger.Holds net blocks s.engine.store
  valid : Ledger.Valid net blocks
  connected : net.Coherent → s.connected = blocks
  stuck : ¬net.Coherent → s.connected = []

theorem Keeps.coherent_iff {net : Network} {s : Session} {blocks : List (Chain × Block)}
    (h : s.Keeps net blocks) : s.engine.Coherent ↔ net.Coherent := by
  unfold Engine.Coherent Network.Coherent
  rw [h.network, h.stakes]

/-- The session keeps the ledger of some blocks that all have a property. -/
def Inv (net : Network) (P : Chain × Block → Prop) (s : Session) : Prop :=
  ∃ blocks, s.Keeps net blocks ∧ ∀ cb ∈ blocks, P cb

variable {ε α : Type} {net : Network} {P : Chain × Block → Prop}

/-- Operations of the engine that leave the ledger alone preserve the invariant. -/
theorem preserves_inv_onEngine {x : EStateM ε (Engine MemoryStore) α}
    (hx : ∀ e, Engine.SameKind e (endState (x e)) ∧ SameLedger e.store (endState (x e)).store) :
    Preserves (Inv net P) (onEngine x) := by
  rintro s ⟨blocks, hs, hblocks⟩
  obtain ⟨hkind, hledger⟩ := hx s.engine
  rw [endState_onEngine]
  exact ⟨blocks, ⟨hkind.network.trans hs.network, hkind.stakes.trans hs.stakes,
    hs.holds.of_sameLedger hledger, hs.valid, hs.connected, hs.stuck⟩, hblocks⟩

/-- A validation adds the block that it has accepted, and otherwise adds none, except where the
network is not coherent. -/
theorem preserves_inv_validateBlock (hnet : Engine.BuiltIn net) (now : UInt32) {c : Chain}
    {b : Block} (hcb : P (c, b)) : Preserves (Inv net P) (validateBlock now c b) := by
  rintro s ⟨blocks, hs, hblocks⟩
  have hbuiltIn : Engine.BuiltIn s.engine.network := by
    rw [hs.network]
    exact hnet
  obtain ⟨hkind, hok, herror⟩ := Engine.validateBlock_outcome now c b hbuiltIn
    (Ledger.coins_spendable hs.holds.coins)
  rw [hs.network, hs.coherent_iff] at hok herror
  cases hrun : Engine.validateBlock now c b s.engine with
  | ok u e =>
    rw [hrun, endState_ok] at hkind
    obtain ⟨hadmitted, hcoherent⟩ := hok e hrun
    have hholds := Ledger.holds_of_admitted hs.holds hadmitted
    rw [validateBlock_of_ok hrun, endState_ok]
    refine ⟨(c, b) :: blocks, ⟨hkind.network.trans hs.network, hkind.stakes.trans hs.stakes, hholds,
      ⟨⟨_, _, hs.holds, hholds, hadmitted⟩, hs.valid⟩, ?_, fun h => absurd hcoherent h⟩,
      List.forall_mem_cons.2 ⟨hcb, hblocks⟩⟩
    intro _
    rw [← hs.connected hcoherent]
  | error f e =>
    rw [hrun, endState_error] at hkind
    rw [validateBlock_of_error hrun, endState_error]
    rcases herror f e hrun with hsame | ⟨hadmitted, hincoherent⟩
    · exact ⟨blocks, ⟨hkind.network.trans hs.network, hkind.stakes.trans hs.stakes,
        hs.holds.of_sameLedger hsame, hs.valid, hs.connected, hs.stuck⟩, hblocks⟩
    · have hholds := Ledger.holds_of_admitted hs.holds hadmitted
      exact ⟨(c, b) :: blocks, ⟨hkind.network.trans hs.network, hkind.stakes.trans hs.stakes,
        hholds, ⟨⟨_, _, hs.holds, hholds, hadmitted⟩, hs.valid⟩,
        (fun h => absurd h hincoherent), hs.stuck⟩, List.forall_mem_cons.2 ⟨hcb, hblocks⟩⟩

/-- A rewind takes the newest block away, or fails and changes nothing. -/
theorem preserves_inv_rewind : Preserves (Inv net P) rewind := by
  rintro s ⟨blocks, hs, hblocks⟩
  cases blocks with
  | nil =>
    obtain ⟨f, hfails⟩ := Ledger.rewind_of_holds_nil hs.holds
    rw [rewind_of_error (Engine.rewind_error hfails)]
    exact ⟨[], hs, hblocks⟩
  | cons cb older =>
    obtain ⟨c, b⟩ := cb
    obtain ⟨db', hrewind, hholds⟩ := Ledger.rewind_of_holds hs.holds
    rw [rewind_of_ok (Engine.rewind_ok hrewind), endState_ok]
    refine ⟨older, ⟨hs.network, hs.stakes, hholds, hs.valid.2, ?_, ?_⟩,
      (List.forall_mem_cons.1 hblocks).2⟩
    · intro hcoherent
      rw [hs.connected hcoherent]
      rfl
    · intro hincoherent
      rw [hs.stuck hincoherent]
      rfl

theorem preserves_inv_flush : Preserves (Inv net P) (onEngine Engine.flush) := by
  apply preserves_inv_onEngine
  intro e
  obtain ⟨e', hflush, hkind, hledger⟩ := Engine.flushStakes_memory true e
  have hrun : Engine.flush e = .ok () e' := hflush
  rw [hrun]
  exact ⟨hkind, hledger⟩

theorem preserves_inv_loadStakes (c : Chain) :
    Preserves (Inv net P) (onEngine (Engine.loadStakes c)) := by
  apply preserves_inv_onEngine
  intro e
  unfold Engine.loadStakes
  cases hstakes : e.stakes with
  | none => exact ⟨Engine.SameKind.refl e, SameLedger.refl _⟩
  | some cache =>
    simp only
    cases StakeCache.load e.store c cache with
    | ok u cache' => exact ⟨⟨rfl, by rw [hstakes]; rfl⟩, SameLedger.refl _⟩
    | error f cache' => exact ⟨⟨rfl, by rw [hstakes]; rfl⟩, SameLedger.refl _⟩

theorem inv_perform (hnet : Engine.BuiltIn net) {r : Request} (hr : ∀ cb ∈ r.blocks, P cb)
    {s : Session} (hs : s.Inv net P) : (s.perform r).Inv net P :=
  preserves_perform (fun now _ cb hcb => preserves_inv_validateBlock hnet now (hr cb hcb))
    preserves_inv_rewind preserves_inv_flush preserves_inv_loadStakes hs

theorem inv_start (net : Network) (P : Chain × Block → Prop) : (start net).Inv net P := by
  refine ⟨[], ⟨rfl, Engine.isSome_stakes_ofStore net _, ⟨rfl, rfl, ?_⟩, trivial, fun _ => rfl,
    fun _ => rfl⟩, fun _ h => nomatch h⟩
  intro height
  change (∅ : Table Nat UndoRecord)[height]? = none
  simp

/-- After any requests the session keeps the ledger of some blocks. -/
theorem inv_run (hnet : Engine.BuiltIn net) (requests : List Request) :
    ∃ blocks, (run net requests).Keeps net blocks := by
  have hrun : (run net requests).Inv net fun _ => True :=
    List.foldlRecOn requests perform (inv_start net _) fun _ hs _ _ =>
      inv_perform hnet (fun _ _ => trivial) hs
  obtain ⟨blocks, hkeeps, -⟩ := hrun
  exact ⟨blocks, hkeeps⟩

/-- After any requests the database holds the ledger of some blocks, with the records that lead
back from each of them. On a coherent network these are the connected blocks. On any other network
no block is ever connected. -/
theorem database_run (hnet : Engine.BuiltIn net) (requests : List Request) :
    ∃ blocks, Ledger.Holds net blocks (run net requests).engine.store
      ∧ Ledger.Reversible net blocks (run net requests).engine.store
      ∧ (net.Coherent → blocks = (run net requests).connected)
      ∧ (¬net.Coherent → (run net requests).connected = []) := by
  obtain ⟨blocks, hkeeps⟩ := inv_run hnet requests
  refine ⟨blocks, hkeeps.holds, hkeeps.holds.reversible, ?_, hkeeps.stuck⟩
  intro hcoherent
  exact (hkeeps.connected hcoherent).symm

end Session

/-! ## A block on top of a genesis -/

namespace Regtest

def coinbase : Transaction :=
  ⟨1, [⟨OutPoint.null, ⟨[0x51, 0x00]⟩, 0xffffffff⟩], [⟨5000000000, ⟨[0x51]⟩⟩], 0⟩

def block : Block :=
  Block.withMerkleRoot
    ⟨⟨1, Network.regtest.genesisDigest, Digest.zero, 1296689202, ⟨0x207fffff⟩, 0⟩, [coinbase], []⟩

def chain : Chain := .extend block.header Network.regtest.genesisChain

def requests : List Request := [.validate 2000000000 chain block]

/-- The test network where the next block may spend a coinbase. -/
def quick : Network :=
  { Network.regtest with params := { Params.regtest with coinbaseMaturity := 1 } }

/-- A block on top of the first one. Its coinbase takes `taken`, and a payment leaves `paid` of the
coinbase of the first block. -/
def successor (taken paid : Int64) (nonce : UInt32) : Block :=
  Block.withMerkleRoot
    ⟨⟨1, block.header.digest, Digest.zero, 1296689802, ⟨0x207fffff⟩, nonce⟩,
      [{ coinbase with
          inputs := [⟨OutPoint.null, ⟨[0x52, 0x00]⟩, 0xffffffff⟩]
          outputs := [⟨taken, ⟨[0x51]⟩⟩] },
        ⟨1, [⟨⟨coinbase.txid, 0⟩, ⟨[]⟩, 0xffffffff⟩], [⟨paid, ⟨[0x51]⟩⟩], 0⟩], []⟩

/-- A payment that leaves a fee, which the coinbase takes. -/
def spending : Block := successor 5000001000 4999999000 0

/-- A payment of more than it spends. -/
def overspending : Block := successor 5000000000 6000000000 1

def onTop (b : Block) : Request := .validate 2000000000 (.extend b.header chain) b

/-- Two blocks that spend the first one: one is refused, and the other is accepted, taken back and
accepted again. -/
def spends : List Request :=
  requests ++ [onTop overspending, onTop spending, .rewind, onTop spending]

/-- The test network with stake records, which its rules never make. -/
def staking : Network :=
  { Network.regtest with params := { Params.regtest with isProofOfStake := true } }

set_option maxRecDepth 10000

theorem connected_spends :
    (Session.run quick spends).connected.map Prod.snd = [spending, block] := by
  decide +kernel

/-- The block that spends is accepted, and the database holds it with its record. -/
theorem database_run_spends : Engine.BuiltIn quick
    ∧ (Session.run quick spends).connected.map Prod.snd = [spending, block]
    ∧ ∃ blocks, Ledger.Holds quick blocks (Session.run quick spends).engine.store
      ∧ Ledger.Reversible quick blocks (Session.run quick spends).engine.store
      ∧ (quick.Coherent → blocks = (Session.run quick spends).connected)
      ∧ (¬quick.Coherent → (Session.run quick spends).connected = []) :=
  ⟨.inl rfl, connected_spends, Session.database_run (.inl rfl) spends⟩

/-- With stake records the first block is refused, and yet its coins stay in the database. -/
theorem staking_run_requests : (Session.run staking requests).connected.length = 0
    ∧ (Session.run staking requests).engine.store.tip = some ⟨chain.digest, 1⟩ := by
  decide +kernel

end Regtest

end Chainstate
