-- SUMMARY: Maturity: the coins of coinbases and coinstakes are spent only where they are deep.
import Chainstate.Proofs.Uniqueness

/-!
# Maturity

The check of an input reads the height and the kind that are stored with the coin. These are the
height and the kind of the last transaction that has created the outpoint: `Ledger.Created` says so
of a table of coins and the transactions that have led to it, and holds of the ledger of any blocks
(`Ledger.Created.apply` is the step, `Ledger.created_of_coins` the run). An admitted block has made
the check against the ledger below it, for each transaction where it stands
(`Ledger.spendsDeep_of_valid`).
-/

namespace Chainstate

/-! ## Created coins -/

/-- The coin has the height and the kind of the transaction. -/
structure Coin.MadeBy (coin : Coin) (height : Nat) (tx : Transaction) : Prop where
  height : coin.height = height
  fromCoinbase : coin.fromCoinbase = tx.isCoinbase
  fromCoinstake : coin.fromCoinstake = tx.isCoinstake

namespace Transaction

/-- The transaction puts a coin under the outpoint, which names one of its outputs that someone can
spend. -/
def creates (tx : Transaction) (o : OutPoint) : Bool :=
  (tx.outPoints.zip tx.outputs).any fun oo => oo.1 == o && !oo.2.script.isUnspendable

variable {tx : Transaction} {height : Nat} {time : Option UInt32}

theorem creates_iff {o : OutPoint} :
    tx.creates o = true ↔ o ∈ (tx.createdCoins height time).map Prod.fst := by
  simp [creates, createdCoins, List.zip_map_right, List.filter_map, Coin.isPrunable,
    Function.comp_def]

theorem madeBy_of_mem_createdCoins {oc : OutPoint × Coin} (h : oc ∈ tx.createdCoins height time) :
    oc.2.MadeBy height tx := by
  obtain ⟨n, out, -, -, -, hc⟩ := mem_createdCoins_iff.1 h
  rw [hc]
  exact ⟨rfl, rfl, rfl⟩

end Transaction

namespace Ledger

/-- Transactions of a block of a height on top of others, newest first. -/
def place (height : Nat) : List Transaction → List (Nat × Transaction) → List (Nat × Transaction)
  | [], below => below
  | tx :: rest, below => place height rest ((height, tx) :: below)

/-- The transactions of blocks with the heights of these, newest first. -/
def placed : List (Chain × Block) → List (Nat × Transaction)
  | [] => []
  | (_, b) :: older => place (older.length + 1) b.transactions (placed older)

/-- The last transaction that has created an outpoint, with its height. -/
def creator? (o : OutPoint) (txs : List (Nat × Transaction)) : Option (Nat × Transaction) :=
  txs.find? fun ht => ht.2.creates o

variable {net : Network} {p : Params} {height : Nat} {time : Option UInt32} {tx : Transaction}
  {txs : List Transaction} {below : List (Nat × Transaction)} {t t' : Table OutPoint Coin}
  {blocks : List (Chain × Block)}

theorem height_le_of_mem_place {ht : Nat × Transaction} (h : ht ∈ place height txs below)
    (hbelow : ∀ ht ∈ below, ht.1 ≤ height) : ht.1 ≤ height := by
  induction txs generalizing below with
  | nil => exact hbelow ht h
  | cons tx rest ih => exact ih h (List.forall_mem_cons.2 ⟨Nat.le_refl _, hbelow⟩)

theorem height_le_of_mem_placed {ht : Nat × Transaction} (h : ht ∈ placed blocks) :
    ht.1 ≤ blocks.length := by
  induction blocks generalizing ht with
  | nil => cases h
  | cons cb older ih =>
    exact height_le_of_mem_place h fun ht hht => Nat.le_succ_of_le (ih hht)

/-- Each coin was made by the last transaction that has created its outpoint. -/
def Created (txs : List (Nat × Transaction)) (t : Table OutPoint Coin) : Prop :=
  ∀ (o : OutPoint) (coin : Coin), t[o]? = some coin →
    ∃ height tx, creator? o txs = some (height, tx) ∧ coin.MadeBy height tx

theorem Created.apply (h : Created below t) (happly : apply height time tx t = some t') :
    Created ((height, tx) :: below) t' := by
  obtain ⟨rest, hrest, rfl⟩ := apply_eq_some happly
  intro o coin hcoin
  rw [creator?, List.find?_cons]
  cases hcreates : tx.creates o with
  | true =>
    have hmade := MemoryStore.mem_of_addCoins hcoin (Transaction.creates_iff.1 hcreates)
    exact ⟨height, tx, rfl, Transaction.madeBy_of_mem_createdCoins hmade⟩
  | false =>
    -- the coin was there before, and it is still the last one under its outpoint
    rw [MemoryStore.getElem?_addCoins_of_notMem _ fun ho => ?_] at hcoin
    · exact h o coin (getElem?_of_unspent hrest hcoin)
    · rw [Transaction.creates_iff.2 ho] at hcreates
      cases hcreates

theorem Created.applyAll (h : Created below t) (happly : applyAll height time txs t = some t') :
    Created (place height txs below) t' := by
  induction txs generalizing below t with
  | nil =>
    cases happly
    exact h
  | cons tx rest ih =>
    obtain ⟨t₁, hfirst, hrest⟩ := applyAll_cons_eq_some happly
    exact ih (h.apply hfirst) hrest

/-- The coins of a ledger were made by the last transactions that have created their outpoints. -/
theorem created_of_coins (h : coins net blocks = some t) : Created (placed blocks) t := by
  induction blocks generalizing t with
  | nil =>
    cases h
    intro o coin hcoin
    simp at hcoin
  | cons cb older ih =>
    obtain ⟨c, b⟩ := cb
    obtain ⟨before, hbefore, happly⟩ := coins_cons_eq_some h
    exact (ih hbefore).applyAll happly

/-! ## Spent coins -/

theorem Mature.spendsMature {earlier later : List Transaction}
    (h : Mature p height time (earlier ++ tx :: later) t)
    (happly : Ledger.applyAll height time earlier t = some t') : SpendsMature p height t' tx := by
  induction earlier generalizing t with
  | nil =>
    cases happly
    exact h.1
  | cons first earlier ih =>
    obtain ⟨t₁, hfirst, hrest⟩ := applyAll_cons_eq_some happly
    exact ih (h.2 t₁ hfirst) hrest

theorem depth_of_checkMaturity {coin : Coin} (h : WorkingSet.checkMaturity p height coin = .ok ())
    (hkind : coin.fromCoinbase = true ∨ coin.fromCoinstake = true) :
    p.coinbaseMaturity ≤ height - coin.height := by
  unfold WorkingSet.checkMaturity at h
  simp only at h
  split at h
  · cases h
  · next hcoinbase =>
    split at h
    · cases h
    · next hcoinstake =>
      rcases hkind with hkind | hkind
      · exact Nat.not_lt.1 fun hlt => hcoinbase ⟨hkind, hlt⟩
      · exact Nat.not_lt.1 fun hlt => hcoinstake ⟨hkind, hlt⟩

/-- Every coin that the transactions of some blocks spend was created below or earlier in its block,
and if the last transaction to create it was a coinbase or a coinstake, that was `depth` blocks
below or more. -/
def SpendsDeep (depth : Nat) (blocks : List (Chain × Block)) : Prop :=
  ∀ newer c b older, blocks = newer ++ (c, b) :: older →
    ∀ earlier tx later, b.transactions = earlier ++ tx :: later → tx.isCoinbase = false →
      ∀ i ∈ tx.inputs, ∃ height creator,
        creator? i.prevout (place (older.length + 1) earlier (placed older))
          = some (height, creator)
        ∧ (creator.isCoinbase = true ∨ creator.isCoinstake = true →
          height + depth ≤ older.length + 1)

/-- Admitted blocks spend only coins that are deep enough. -/
theorem spendsDeep_of_valid (hvalid : Valid net blocks) (h : coins net blocks = some t) :
    SpendsDeep net.params.coinbaseMaturity blocks := by
  intro newer c b older heq earlier tx later htxs hplain i hi
  subst heq
  obtain ⟨t₁, ht₁⟩ := coins_of_append h
  obtain ⟨db, db', hadmitted, hheight, hbefore, -⟩ := admitted_of_valid (valid_of_append hvalid) ht₁
  obtain ⟨fees, hconnected⟩ := connected_of_admitted hadmitted.coins
  have hmature := hconnected.mature
  have happly := hconnected.coins
  rw [hheight, htxs] at hmature happly
  rw [applyAll_append] at happly
  obtain ⟨t₂, hearlier, -⟩ := Option.bind_eq_some_iff.1 happly
  -- The transaction was checked against the coins as the ones before it have left them.
  have hcreated := (created_of_coins hbefore).applyAll hearlier
  obtain ⟨coin, hcoin, hcheck⟩ := hmature.spendsMature hearlier hplain i hi
  obtain ⟨height, creator, hcreator, hmade⟩ := hcreated _ coin hcoin
  refine ⟨height, creator, hcreator, fun hkind => ?_⟩
  rw [← hmade.fromCoinbase, ← hmade.fromCoinstake] at hkind
  have hdepth := depth_of_checkMaturity hcheck hkind
  have hle : height ≤ older.length + 1 :=
    height_le_of_mem_place (List.mem_of_find?_eq_some hcreator) fun ht hht =>
      Nat.le_succ_of_le (height_le_of_mem_placed hht)
  rw [hmade.height] at hdepth
  omega

end Ledger

/-! ## Reachable databases -/

namespace Session

variable {net : Network}

/-- Whatever an engine goes through, the coins of coinbases and coinstakes are spent on the chain
that its database holds only where they are deep enough. -/
theorem spendsDeep_history (hnet : Engine.BuiltIn net) (events : List Event) :
    ∃ blocks, Ledger.Holds net blocks (history net events).engine.store
      ∧ (net.Coherent → blocks = (history net events).connected)
      ∧ (¬net.Coherent → (history net events).connected = [])
      ∧ Ledger.SpendsDeep net.params.coinbaseMaturity blocks := by
  obtain ⟨blocks, hkeeps, -⟩ := inv_history hnet (P := fun _ => True) fun _ _ _ _ => trivial
  exact ⟨blocks, hkeeps.holds, fun hcoherent => (hkeeps.connected hcoherent).symm, hkeeps.stuck,
    Ledger.spendsDeep_of_valid hkeeps.valid hkeeps.holds.coins⟩

end Session

namespace Regtest

/-- A block on top of the genesis that spends its own coinbase. -/
def hasty : Block :=
  Block.withMerkleRoot
    ⟨⟨1, Network.regtest.genesisDigest, Digest.zero, 1296689202, ⟨0x207fffff⟩, 2⟩,
      [coinbase, ⟨1, [⟨⟨coinbase.txid, 0⟩, ⟨[]⟩, 0xffffffff⟩], [⟨5000000000, ⟨[0x51]⟩⟩], 0⟩], []⟩

/-- A coinbase is spent in its own block, which is refused, and then in the next block, which is
taken back and connected again by a new engine. -/
def maturing : List Event :=
  [.request (.validate 2000000000 (.extend hasty.header Network.regtest.genesisChain) hasty),
    .request (.validate 2000000000 chain block), .request (onTop spending), .request .rewind,
    .restart, .request (onTop spending)]

set_option maxRecDepth 10000

theorem spendsDeep_history_maturing : Engine.BuiltIn quick ∧ quick.params.coinbaseMaturity = 1
    ∧ (Session.history quick maturing).connected.map Prod.snd = [spending, block]
    ∧ ∃ blocks, Ledger.Holds quick blocks (Session.history quick maturing).engine.store
      ∧ (quick.Coherent → blocks = (Session.history quick maturing).connected)
      ∧ (¬quick.Coherent → (Session.history quick maturing).connected = [])
      ∧ Ledger.SpendsDeep quick.params.coinbaseMaturity blocks :=
  ⟨.inl rfl, rfl, by decide +kernel, Session.spendsDeep_history (.inl rfl) maturing⟩

end Regtest

end Chainstate
