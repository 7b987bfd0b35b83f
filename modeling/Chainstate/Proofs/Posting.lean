-- SUMMARY: Posting transactions: a working set that is committed is the ledger, and can be undone.
import Chainstate.Proofs.Faults
import Chainstate.Proofs.Reachable

/-!
# Posting transactions

Transactions can be posted to a table of coins directly, or to a working set whose changes are
committed. The working set accepts those that the table accepts (`WorkingSet.post_ok`,
`WorkingSet.exists_post`), whatever becomes of an outpoint on the way: its slot holds what the table
holds before and after, and only the two count. The main statement is
`WorkingSet.rewind_commit_post`.
-/

namespace Chainstate

/-- A transaction with the height and the time of the coins that it creates. -/
structure Posting where
  transaction : Transaction
  height : Nat
  time : Option UInt32

/-- The outpoints of its outputs and of its inputs. -/
def Posting.touched (p : Posting) : List OutPoint :=
  p.transaction.outPoints ++ p.transaction.inputs.map TxIn.prevout

/-- What a table has under some outpoints. -/
def Table.rows (t : Table OutPoint Coin) (os : List OutPoint) : List CoinChange :=
  os.map fun o => ⟨o, t[o]?⟩

/-- The table after postings, one after the other. -/
def Ledger.post : List Posting → Table OutPoint Coin → Option (Table OutPoint Coin)
  | [], t => some t
  | p :: rest, t => do post rest (← apply p.height p.time p.transaction t)

namespace WorkingSet

def post : List Posting → WorkingM Fault Unit
  | [] => pure ()
  | p :: rest => do
    apply p.transaction p.height p.time
    post rest

variable {w w' : WorkingSet} {before after : Table OutPoint Coin} {ps : List Posting}

/-! ## Single postings -/

/-- What has a slot is found as it is in the table. -/
theorem Tracks.coin?_eq (h : w.Tracks before after) {o : OutPoint} (ho : o ∈ w.slots) :
    w.coin? o = after[o]? := by
  obtain ⟨s, hs⟩ := Option.isSome_iff_exists.1 (Std.ExtTreeMap.mem_iff_isSome_getElem?.1 ho)
  rw [← h.current o s hs, coin?, hs]
  rfl

/-- A working set accepts what the table accepts, where what is spent has slots. -/
theorem exists_apply {tx : Transaction} {height : Nat} {time : Option UInt32}
    {t : Table OutPoint Coin} (h : w.Tracks before after)
    (hcover : w.Covers (tx.inputs.map TxIn.prevout))
    (happly : Ledger.apply height time tx after = some t) :
    ∃ w', apply tx height time w = .ok () w' := by
  unfold apply
  split
  · exact ⟨_, rfl⟩
  · next hcoinbase =>
    obtain ⟨rest, hrest, -⟩ := Ledger.apply_eq_some happly
    rw [Ledger.unspent, if_neg hcoinbase] at hrest
    obtain ⟨hnodup, hthere, -⟩ := Ledger.spend_eq_some hrest
    have hfound : ∀ i ∈ tx.inputs, (w.coin? i.prevout).isSome := by
      intro i hi
      rw [h.coin?_eq (hcover _ (List.mem_map_of_mem hi))]
      exact Std.ExtTreeMap.mem_iff_isSome_getElem?.1 (hthere i hi)
    obtain ⟨w₁, hspend⟩ := spendAll_of_nodup hnodup hfound
    rw [step_bind_of_ok hspend]
    exact ⟨_, rfl⟩

/-! ## Lists of postings -/

/-- Postings whose outputs have slots are accepted by the table, and the slots follow it. -/
theorem post_ok (h : w.Tracks before after)
    (hcover : ∀ p ∈ ps, w.Covers p.transaction.outPoints) (hpost : post ps w = .ok () w') :
    ∃ after', Ledger.post ps after = some after' ∧ w'.Tracks before after' := by
  induction ps generalizing w after with
  | nil =>
    obtain ⟨-, rfl⟩ := step_pure_ok.1 hpost
    exact ⟨after, rfl, h⟩
  | cons p rest ih =>
    obtain ⟨_, w₁, hfirst, hrest⟩ := step_bind_ok.1 hpost
    obtain ⟨t, ht, htracks, hext⟩ := apply_ok h (hcover p List.mem_cons_self) hfirst
    obtain ⟨after', hafter', htracks'⟩ :=
      ih htracks (fun q hq => hext.covers (hcover q (List.mem_cons_of_mem _ hq))) hrest
    refine ⟨after', ?_, htracks'⟩
    rw [Ledger.post, ht]
    exact hafter'

/-- Postings that the table accepts are accepted by a working set with slots for all they touch. -/
theorem exists_post {t : Table OutPoint Coin} (h : w.Tracks before after)
    (hcover : ∀ p ∈ ps, w.Covers p.touched) (hpost : Ledger.post ps after = some t) :
    ∃ w', post ps w = .ok () w' := by
  induction ps generalizing w after with
  | nil => exact ⟨w, rfl⟩
  | cons p rest ih =>
    obtain ⟨t₁, hfirst, hrest⟩ := Option.bind_eq_some_iff.1 hpost
    have htouched := hcover p List.mem_cons_self
    obtain ⟨w₁, happly⟩ :=
      exists_apply h (fun o ho => htouched o (List.mem_append_right _ ho)) hfirst
    obtain ⟨t', ht', htracks, hext⟩ :=
      apply_ok h (fun o ho => htouched o (List.mem_append_left _ ho)) happly
    obtain rfl : t' = t₁ := Option.some.inj (ht'.symm.trans hfirst)
    obtain ⟨w', hw'⟩ :=
      ih htracks (fun q hq => hext.covers (hcover q (List.mem_cons_of_mem _ hq))) hrest
    refine ⟨w', ?_⟩
    rw [post, step_bind_of_ok happly]
    exact hw'

/-- Postings add no coin that cannot be spent, even to a table that has some. -/
theorem addsSpendable_post {t t' : Table OutPoint Coin} (h : Ledger.AddsSpendable before t)
    (hpost : Ledger.post ps t = some t') : Ledger.AddsSpendable before t' := by
  induction ps generalizing t with
  | nil =>
    cases hpost
    exact h
  | cons p rest ih =>
    obtain ⟨t₁, hfirst, hrest⟩ := Option.bind_eq_some_iff.1 hpost
    exact ih (h.apply hfirst) hrest

/-! ## Committing and rewinding -/

/-- The rows of distinct outpoints are loaded without fail. -/
theorem exists_load_rows (t : Table OutPoint Coin) {os : List OutPoint} (h : os.Nodup) :
    ∃ w, load (t.rows os) empty = .ok () w ∧ w.Tracks t t ∧ w.Covers os := by
  have houtpoints : (t.rows os).map CoinChange.outpoint = os := by
    rw [Table.rows, List.map_map]
    exact List.map_id os
  have hrows : ∀ c ∈ t.rows os, c.coin = t[c.outpoint]? := by
    intro c hc
    obtain ⟨o, -, rfl⟩ := List.mem_map.1 hc
    rfl
  rw [← houtpoints] at h
  obtain ⟨w, hload⟩ := load_of_nodup (w := empty) h fun c _ hc => by simp [empty] at hc
  obtain ⟨htracks, hcovers⟩ := tracks_of_load hrows hload
  rw [houtpoints] at hcovers
  exact ⟨w, hload, htracks, hcovers⟩

/-- Postings to a working set that was loaded with all they touch. They are accepted when the table
accepts them; then a commit on top of the tip stores the table after them, and a rewind brings back
the database as it was. -/
theorem rewind_commit_post {db : MemoryStore} {old new : Tip} (htip : db.tip = some old)
    (hheight : new.height = old.height + 1) (hfresh : db.undoTable[new.height]? = none)
    {os : List OutPoint} (hdistinct : os.Nodup)
    (htouched : ∀ p ∈ ps, ∀ o ∈ p.touched, o ∈ os) :
    ∃ w, load (db.coinTable.rows os) empty = .ok () w
      ∧ ((∃ w', post ps w = .ok () w') ↔ (Ledger.post ps db.coinTable).isSome)
      ∧ ∀ w', post ps w = .ok () w' →
        ∃ db', db.commit w'.changes old new (w'.undo old) = .ok db' ∧ db'.tip = some new
          ∧ Ledger.post ps db.coinTable = some db'.coinTable ∧ db'.rewind = .ok (old, db) := by
  obtain ⟨w, hload, htracks, hcovers⟩ := exists_load_rows db.coinTable hdistinct
  have hslots : ∀ p ∈ ps, w.Covers p.touched := fun p hp o ho => hcovers o (htouched p hp o ho)
  have houtputs : ∀ p ∈ ps, w.Covers p.transaction.outPoints :=
    fun p hp o ho => hslots p hp o (List.mem_append_left _ ho)
  refine ⟨w, hload, ⟨?_, ?_⟩, ?_⟩
  · rintro ⟨w', hpost⟩
    obtain ⟨after, hafter, -⟩ := post_ok htracks houtputs hpost
    rw [hafter]
    rfl
  · intro hsome
    obtain ⟨after, hafter⟩ := Option.isSome_iff_exists.1 hsome
    exact exists_post htracks hslots hafter
  · intro w' hpost
    obtain ⟨after, hafter, htracks'⟩ := post_ok htracks houtputs hpost
    have hcommit := commit_of_tracks htracks' (addsSpendable_post (.refl _) hafter) htip new
    have hundo : (db.undoTable.insert (old.height + 1)
        (.between old db.coinTable after))[new.height]?
        = some (.between old db.coinTable after) := by
      rw [Table.getElem?_insert, if_pos hheight.symm]
    refine ⟨_, hcommit, rfl, hafter, (MemoryStore.rewind_of_between rfl hundo).trans ?_⟩
    simp only [hheight, Table.erase_insert] at hfresh ⊢
    rw [Table.erase_of_getElem?_eq_none hfresh, ← htip]

end WorkingSet

/-! ## A block that touches every kind of outpoint -/

namespace Regtest

def paid : OutPoint := ⟨Digest.zero, 0⟩

/-- Spends a coin of the table; one of its outputs cannot be spent. -/
def firstSpender : Transaction :=
  ⟨1, [⟨paid, ⟨[]⟩, 0xffffffff⟩], [⟨60, ⟨[0x51]⟩⟩, ⟨0, ⟨[0x6a]⟩⟩], 0⟩

/-- Spends the other output. -/
def secondSpender : Transaction :=
  ⟨1, [⟨⟨firstSpender.txid, 0⟩, ⟨[]⟩, 0xffffffff⟩], [⟨50, ⟨[0x51]⟩⟩], 0⟩

/-- A coinbase and the two spenders. -/
def postings : List Posting :=
  [⟨coinbase, 7, none⟩, ⟨firstSpender, 7, none⟩, ⟨secondSpender, 7, none⟩]

/-- All that they touch. -/
def loaded : List OutPoint :=
  OutPoint.null :: paid :: coinbase.outPoints ++ firstSpender.outPoints ++ secondSpender.outPoints

/-- The tips before and after them. -/
def below : Tip := ⟨Network.regtest.genesisDigest, 6⟩
def above : Tip := ⟨Digest.zero, 7⟩

/-- A database with the coin that is spent and one that the same coinbase created before. -/
def funded : MemoryStore where
  tip := some below
  coinTable := MemoryStore.addCoins ∅
    ((paid, ⟨1, ⟨70, ⟨[0x51]⟩⟩, false, false, none⟩) :: coinbase.createdCoins 3 none)
  undoTable := ∅
  stakeTable := ∅

set_option maxRecDepth 10000

/-- Two outpoints hold a coin after the postings: that of the coinbase, now with a later height, and
that of the last transaction. -/
theorem post_funded :
    (Ledger.post postings funded.coinTable).map (fun t => (t.size, (coinbase.outPoints.map fun o =>
      t[o]?.map Coin.height))) = some (2, [some 7]) := by
  decide +kernel

theorem touched_postings : ∀ p ∈ postings, ∀ o ∈ p.touched, o ∈ loaded := by
  intro p hp o ho
  simp only [postings, List.mem_cons, List.not_mem_nil, or_false] at hp
  rcases hp with rfl | rfl | rfl
  · rcases List.mem_append.1 ho with houtput | hinput
    · simp [loaded, houtput]
    · obtain rfl : o = OutPoint.null := List.mem_singleton.1 hinput
      simp [loaded]
  · rcases List.mem_append.1 ho with houtput | hinput
    · simp [loaded, houtput]
    · obtain rfl : o = paid := List.mem_singleton.1 hinput
      simp [loaded]
  · rcases List.mem_append.1 ho with houtput | hinput
    · simp [loaded, houtput]
    · obtain rfl : o = ⟨firstSpender.txid, 0⟩ := List.mem_singleton.1 hinput
      have hspent : ⟨firstSpender.txid, 0⟩ ∈ firstSpender.outPoints :=
        List.mem_map.2 ⟨0, by decide, rfl⟩
      simp [loaded, hspent]

/-- The postings are committed and rewound. -/
theorem rewind_commit_post_funded :
    ∃ w w' db', WorkingSet.load (funded.coinTable.rows loaded) .empty = .ok () w
      ∧ WorkingSet.post postings w = .ok () w'
      ∧ funded.commit w'.changes below above (w'.undo below) = .ok db'
      ∧ db'.coinTable.size = 2 ∧ db'.rewind = .ok (below, funded) := by
  have htip : funded.tip = some below := rfl
  have hheight : above.height = below.height + 1 := rfl
  have hfresh : funded.undoTable[above.height]? = none := rfl
  have hdistinct : loaded.Nodup := by decide +kernel
  obtain ⟨w, hload, haccepts, hcommits⟩ :=
    WorkingSet.rewind_commit_post htip hheight hfresh hdistinct touched_postings
  obtain ⟨t, ht, hsize⟩ := Option.map_eq_some_iff.1 post_funded
  obtain ⟨w', hpost⟩ := haccepts.2 (by rw [ht]; rfl)
  obtain ⟨db', hcommit, -, hcoins, hrewind⟩ := hcommits w' hpost
  obtain rfl : t = db'.coinTable := Option.some.inj (ht.symm.trans hcoins)
  exact ⟨w, w', db', hload, hpost, hcommit, congrArg Prod.fst hsize, hrewind⟩

end Regtest

end Chainstate
