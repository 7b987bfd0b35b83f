-- SUMMARY: The database of rows and the database of values answer every sequence of calls alike.
import Chainstate.Proofs.RowTable
import Chainstate.Proofs.WorkingSet

/-!
# The coin databases agree

A sequence of calls is made on a coin database, failing calls included. `MemoryStore.Refines` says
that rows of bytes stand for the tables of a database of values; each call keeps it and is answered
alike, so the answers to a whole sequence agree.

Both databases check first and write afterwards. To say so, `StoreTables` names the single changes
that the operations of a database are made of, and `StoreCall.performInPlace` makes them one by one
without taking any back: it does what the operation does, and where it fails it has made none.
-/

namespace Chainstate

/-! ## Calls -/

/-- The calls of a coin database; its owner can also close and reopen it. -/
inductive StoreCall where
  | begin (genesis : Digest)
  | tip
  | fetch (os : List OutPoint)
  | commit (changes : List CoinChange) (old new : Tip) (undo : UndoRecord)
  | rewind
  | undo (height : Nat)
  | putStakes (items : List (Digest × StakeRecord))
  | stake (block : Digest)
  | coins
  | reopen

inductive StoreAnswer where
  | done
  | tip (t : Option Tip)
  | fetched (coins : Table OutPoint (Option Coin))
  | reached (t : Tip)
  | undo (r : Option UndoRecord)
  | stake (r : Option StakeRecord)
  | coins (coins : List (OutPoint × Coin))

namespace StoreCall

/-- What is written by the call has lengths and heights within the limits of the stored forms. -/
def Sized : StoreCall → Prop
  | .commit changes old new record =>
    (∀ c ∈ changes, ∀ coin, c.coin = some coin → coin.Sized) ∧
      old.height + 1 < Bytes.capacity 4 ∧ new.Sized ∧ record.Sized
  | .undo height => height < Bytes.capacity 4
  | _ => True

variable {σ : Type}

section Calls

variable [CoinStore σ]

/-- The answer to a call, and the database after it. -/
def apply : StoreCall → σ → Except Fault (StoreAnswer × σ)
  | .begin genesis, s => do pure (.done, ← CoinStore.begin s genesis)
  | .tip, s => do pure (.tip (← CoinStore.tip? s), s)
  | .fetch os, s => do pure (.fetched (← CoinStore.fetch s os), s)
  | .commit changes old new record, s => do
    pure (.done, ← CoinStore.commit s changes old new record)
  | .rewind, s => do
    let (t, s) ← CoinStore.rewind s
    pure (.reached t, s)
  | .undo height, s => do pure (.undo (← CoinStore.undo? s height), s)
  | .putStakes items, s => do pure (.done, ← CoinStore.putStakes s items)
  | .stake block, s => do pure (.stake (← CoinStore.stake? s block), s)
  | .coins, s => do pure (.coins (← CoinStore.coins s), s)
  | .reopen, s => pure (.done, s)

/-- Makes a call: the database it gives back takes the place of the one before. -/
def perform (call : StoreCall) : EStateM Fault σ StoreAnswer := fun s =>
  match call.apply s with
  | .ok (a, s') => .ok a s'
  | .error f => .error f s

/-- The database after a sequence of calls, of which some may have failed. -/
def performAll (calls : List StoreCall) (s : σ) : σ :=
  calls.foldl (fun s call => endState (call.perform s)) s

/-- The answers to a sequence of calls. -/
def answers : List StoreCall → σ → List (Except Fault StoreAnswer)
  | [], _ => []
  | call :: calls, s => (call.apply s).map Prod.fst :: answers calls (endState (call.perform s))

end Calls

end StoreCall

/-! ## Single changes -/

/-- A coin database whose operations check first, and then write tips, coins, undo records and
stake records one at a time. -/
class StoreTables (σ : Type) extends CoinStore σ where
  setTip : Tip → σ → σ
  removeCoin : OutPoint → σ → σ
  putCoin : OutPoint × Coin → σ → σ
  putUndo : (height : Nat) → UndoRecord → σ → σ
  dropUndo : (height : Nat) → σ → σ
  putStake : Digest × StakeRecord → σ → σ
  begin_eq : ∀ s genesis, begin s genesis = do
    match ← tip? s with
    | some _ => pure s
    | none => pure (setTip ⟨genesis, 0⟩ s)
  commit_eq : ∀ s changes old new undo, commit s changes old new undo = do
    Tip.check (← tip? s) old
    let s := (CoinChange.deletions changes).foldl (fun s o => removeCoin o s) s
    let s := (CoinChange.insertions changes).foldl (fun s oc => putCoin oc s) s
    pure (setTip new (putUndo (old.height + 1) undo s))
  rewind_eq : ∀ s, rewind s = do
    match ← tip? s with
    | none => throw .uninitialized
    | some tip =>
      match ← undo? s tip.height with
      | none => throw (.missingUndo tip.height)
      | some undo =>
        let previous ← undo.target tip.height
        let s := undo.remove.foldl (fun s o => removeCoin o s) s
        let s := undo.restore.foldl (fun s oc => putCoin oc s) s
        pure (previous, setTip previous (dropUndo tip.height s))
  putStakes_eq : ∀ s items, putStakes s items = .ok (items.foldl (fun s i => putStake i s) s)

namespace StoreCall

open CoinStore StoreTables

variable {σ α β : Type}

/-- Reads something off the database. -/
def observe (f : σ → Except Fault α) : EStateM Fault σ α := fun s =>
  match f s with
  | .ok a => .ok a s
  | .error e => .error e s

theorem observe_bind {f : σ → Except Fault α} {g : α → EStateM Fault σ β} {s : σ} :
    (observe f >>= g) s = match f s with
      | .ok a => g a s
      | .error e => .error e s := by
  change EStateM.bind (observe f) g s = _
  unfold EStateM.bind observe
  cases f s <;> rfl

/-- Makes one change for each element of a list. -/
def changeEach (f : α → σ → σ) (as : List α) : EStateM Fault σ Unit :=
  as.forM fun a => modify (f a)

theorem changeEach_eq (f : α → σ → σ) (as : List α) (s : σ) :
    changeEach f as s = .ok () (as.foldl (fun s a => f a s) s) := by
  induction as generalizing s with
  | nil => rfl
  | cons a as ih => exact ih (f a s)

/-- Makes a call change by change. What has been changed when the call fails stays changed. -/
def performInPlace [StoreTables σ] : StoreCall → EStateM Fault σ StoreAnswer
  | .begin genesis => do
    match ← observe tip? with
    | some _ => pure .done
    | none =>
      modify (setTip ⟨genesis, 0⟩)
      pure .done
  | .tip => do pure (.tip (← observe tip?))
  | .fetch os => do pure (.fetched (← observe fun s => CoinStore.fetch s os))
  | .commit changes old new record => do
    let stored ← observe tip?
    observe fun _ => Tip.check stored old
    changeEach removeCoin (CoinChange.deletions changes)
    changeEach putCoin (CoinChange.insertions changes)
    modify (putUndo (old.height + 1) record)
    modify (setTip new)
    pure .done
  | .rewind => do
    match ← observe tip? with
    | none => throw .uninitialized
    | some top =>
      match ← observe fun s => undo? s top.height with
      | none => throw (.missingUndo top.height)
      | some record =>
        let previous ← observe fun _ => record.target top.height
        changeEach removeCoin record.remove
        changeEach putCoin record.restore
        modify (dropUndo top.height)
        modify (setTip previous)
        pure (.reached previous)
  | .undo height => do pure (.undo (← observe fun s => undo? s height))
  | .putStakes items => do
    changeEach putStake items
    pure .done
  | .stake block => do pure (.stake (← observe fun s => stake? s block))
  | .coins => do pure (.coins (← observe CoinStore.coins))
  | .reopen => pure .done

/-- A reading call made in place reads. -/
theorem observe_bind_pure (f : σ → Except Fault α) (g : α → StoreAnswer) (s : σ) :
    (do pure (g (← observe f)) : EStateM Fault σ StoreAnswer) s =
      match (do pure (g (← f s), s) : Except Fault (StoreAnswer × σ)) with
      | .ok (a, s') => .ok a s'
      | .error e => .error e s := by
  rw [observe_bind]
  cases f s <;> rfl

theorem check_ok_bind (a : α) (f : α → Except Fault β) : (Except.ok a >>= f) = f a := rfl

/-- Making the changes of a call one by one comes to the same as making the call: whatever makes it
fail is found out before the first change. -/
theorem performInPlace_eq [StoreTables σ] (call : StoreCall) (s : σ) :
    call.performInPlace s = call.perform s := by
  cases call with
  | begin genesis =>
    simp only [performInPlace, perform, apply, begin_eq, observe_bind]
    cases htip : tip? s with
    | error e => rfl
    | ok t? => cases t? <;> rfl
  | tip => exact observe_bind_pure _ _ s
  | fetch os => exact observe_bind_pure _ _ s
  | commit changes old new record =>
    simp only [performInPlace, perform, apply, commit_eq, observe_bind]
    cases htip : tip? s with
    | error e => rfl
    | ok stored =>
      simp only [check_ok_bind]
      cases hcheck : Tip.check stored old with
      | error e => rfl
      | ok u =>
        simp only [step_bind_of_ok (changeEach_eq _ _ _)]
        rfl
  | rewind =>
    simp only [performInPlace, perform, apply, rewind_eq, observe_bind]
    cases htip : tip? s with
    | error e => rfl
    | ok t? =>
      cases t? with
      | none => rfl
      | some top =>
        simp only [check_ok_bind, observe_bind]
        cases hundo : undo? s top.height with
        | error e => rfl
        | ok record? =>
          cases record? with
          | none => rfl
          | some record =>
            simp only [check_ok_bind, observe_bind]
            cases htarget : record.target top.height with
            | error e => rfl
            | ok previous =>
              simp only [step_bind_of_ok (changeEach_eq _ _ _)]
              rfl
  | undo height => exact observe_bind_pure _ _ s
  | putStakes items =>
    simp only [performInPlace, perform, apply, putStakes_eq, step_bind_of_ok (changeEach_eq _ _ _)]
    rfl
  | stake block => exact observe_bind_pure _ _ s
  | coins => exact observe_bind_pure _ _ s
  | reopen => rfl

/-- A call that fails in place has changed nothing. -/
theorem performInPlace_error [StoreTables σ] {call : StoreCall} {s s' : σ} {e : Fault}
    (h : call.performInPlace s = .error e s') : s' = s := by
  rw [performInPlace_eq, perform] at h
  cases happly : call.apply s with
  | ok out =>
    rw [happly] at h
    cases h
  | error f =>
    rw [happly] at h
    cases h
    rfl

end StoreCall

namespace MemoryStore

theorem foldl_erase (os : List OutPoint) (db : MemoryStore) :
    os.foldl (fun (db : MemoryStore) o => { db with coinTable := db.coinTable.erase o }) db
      = { db with coinTable := removeCoins db.coinTable os } := by
  induction os generalizing db with
  | nil => rfl
  | cons o os ih => exact ih _

theorem foldl_insert (ocs : List (OutPoint × Coin)) (db : MemoryStore) :
    ocs.foldl (fun (db : MemoryStore) oc =>
        { db with coinTable := db.coinTable.insert oc.1 oc.2 }) db
      = { db with coinTable := addCoins db.coinTable ocs } := by
  induction ocs generalizing db with
  | nil => rfl
  | cons oc ocs ih => exact ih _

instance : StoreTables MemoryStore where
  setTip t db := { db with tip := some t }
  removeCoin o db := { db with coinTable := db.coinTable.erase o }
  putCoin oc db := { db with coinTable := db.coinTable.insert oc.1 oc.2 }
  putUndo height r db := { db with undoTable := db.undoTable.insert height r }
  dropUndo height db := { db with undoTable := db.undoTable.erase height }
  putStake i db := { db with stakeTable := db.stakeTable.insert i.1 i.2 }
  begin_eq db genesis := by
    simp only [CoinStore.begin, CoinStore.tip?, MemoryStore.begin]
    cases htip : db.tip <;> rfl
  commit_eq db changes old new undo := by
    simp only [foldl_erase, foldl_insert]
    rfl
  rewind_eq db := by
    simp only [foldl_erase, foldl_insert]
    simp only [CoinStore.rewind, CoinStore.tip?, CoinStore.undo?, MemoryStore.rewind,
      StoreCall.check_ok_bind]
    cases htip : db.tip with
    | none => rfl
    | some tip =>
      simp only
      cases hundo : db.undoTable[tip.height]? <;> rfl
  putStakes_eq db items := by
    have h : ∀ db : MemoryStore, items.foldl (fun (db : MemoryStore) i =>
        { db with stakeTable := db.stakeTable.insert i.1 i.2 }) db = db.putStakes items := by
      induction items with
      | nil => exact fun _ => rfl
      | cons i items ih => exact fun db => ih _
    rw [h]
    rfl

end MemoryStore

namespace RowStore

theorem foldl_erase (os : List OutPoint) (db : RowStore) :
    os.foldl (fun (db : RowStore) o => { db with coinRows := db.coinRows.erase o.key }) db
      = { db with coinRows := removeRows db.coinRows os } := by
  induction os generalizing db with
  | nil => rfl
  | cons o os ih => exact ih _

theorem foldl_insert (ocs : List (OutPoint × Coin)) (db : RowStore) :
    ocs.foldl (fun (db : RowStore) oc =>
        { db with coinRows := db.coinRows.insert oc.1.key oc.2.encode }) db
      = { db with coinRows := addRows db.coinRows ocs } := by
  induction ocs generalizing db with
  | nil => rfl
  | cons oc ocs ih => exact ih _

instance : StoreTables RowStore where
  setTip t db := db.setTip t
  removeCoin o db := { db with coinRows := db.coinRows.erase o.key }
  putCoin oc db := { db with coinRows := db.coinRows.insert oc.1.key oc.2.encode }
  putUndo height r db := { db with undoRows := db.undoRows.insert (undoKey height) r.encode }
  dropUndo height db := { db with undoRows := db.undoRows.erase (undoKey height) }
  putStake i db := { db with stakeRows := db.stakeRows.insert i.1.bytes i.2.encode }
  begin_eq db genesis := rfl
  commit_eq db changes old new undo := by
    simp only [foldl_erase, foldl_insert]
    rfl
  rewind_eq db := by
    simp only [foldl_erase, foldl_insert]
    rfl
  putStakes_eq db items := by
    have h : ∀ db : RowStore, items.foldl (fun (db : RowStore) i =>
        { db with stakeRows := db.stakeRows.insert i.1.bytes i.2.encode }) db
          = db.putStakes items := by
      induction items with
      | nil => exact fun _ => rfl
      | cons i items ih => exact fun db => ih _
    rw [h]
    rfl

end RowStore

/-! ## Rows that stand for a database of values -/

/-- What is written in a canonical format is read back. -/
theorem Canonical.read_encode {α : Type} {ofBytes : Bytes → Except DecodeError α}
    {encode : α → Bytes} {Sized : α → Prop} (h : Canonical ofBytes encode Sized)
    (corrupt : DecodeError → Fault) {a : α} (ha : Sized a) :
    (ofBytes (encode a)).mapError corrupt = .ok a :=
  check_mapError_ok.2 (h.roundTrip a ha)

namespace RowStore

def coinLayout : RowLayout OutPoint Coin where
  key := OutPoint.key
  encode := Coin.encode
  read := readCoin
  Key _ := True
  Value := Coin.Sized
  key_injective _ _ h := OutPoint.key_injective h
  read_encode h := Coin.decode_inverts.canonical.read_encode _ h

def undoLayout : RowLayout Nat UndoRecord where
  key := undoKey
  encode := UndoRecord.encode
  read := readUndo
  Key height := height < Bytes.capacity 4
  Value := UndoRecord.Sized
  key_injective ha hb h := Bytes.bigEndian_injective ha hb h
  read_encode h := UndoRecord.decode_inverts.canonical.read_encode _ h

def stakeLayout : RowLayout Digest StakeRecord where
  key := Digest.bytes
  encode := StakeRecord.encode
  read := readStake
  Key _ := True
  Value _ := True
  key_injective _ _ h := Digest.ext h
  read_encode h := StakeRecord.decode_inverts.canonical.read_encode _ h

/-- The rows stand for the tables of a database of values: the tip under its one key, and the
entries of each table under theirs. -/
structure Refines (rows : RowStore) (mem : MemoryStore) : Prop where
  tipSized : ∀ t, mem.tip = some t → t.Sized
  tip : ∀ bs, rows.tipRows[bs]? = if tipKey = bs then mem.tip.map Tip.encode else none
  coins : coinLayout.Represents mem.coinTable rows.coinRows
  undos : undoLayout.Represents mem.undoTable rows.undoRows
  stakes : stakeLayout.Represents mem.stakeTable rows.stakeRows

theorem refines_empty : empty.Refines MemoryStore.empty where
  tipSized t h := by cases h
  tip bs := by simp [empty, MemoryStore.empty]
  coins := coinLayout.represents_empty
  undos := undoLayout.represents_empty
  stakes := stakeLayout.represents_empty

namespace Refines

variable {rows : RowStore} {mem : MemoryStore}

/-! ### Readings -/

theorem tip?_eq (h : rows.Refines mem) : rows.tip? = .ok mem.tip := by
  rw [tip?, h.tip, if_pos rfl]
  cases htip : mem.tip with
  | none => rfl
  | some t =>
    have hread : readTip t.encode = .ok t :=
      Tip.decode_inverts.canonical.read_encode _ (h.tipSized t htip)
    simp only [Option.map_some, look, hread]
    rfl

theorem coin?_eq (h : rows.Refines mem) (o : OutPoint) : rows.coin? o = .ok mem.coinTable[o]? :=
  h.coins.look trivial

theorem fetch_eq (h : rows.Refines mem) (os : List OutPoint) :
    rows.fetch os = .ok (mem.fetch os) := by
  have hfrom : ∀ t : Table OutPoint (Option Coin),
      os.foldlM (fun t o => do pure (t.insert o (← rows.coin? o))) t
        = .ok (os.foldl (fun t o => t.insert o mem.coinTable[o]?) t) := by
    induction os with
    | nil => exact fun _ => rfl
    | cons o os ih =>
      intro t
      rw [List.foldlM_cons, h.coin?_eq]
      exact ih _
  exact hfrom ∅

theorem undo?_eq (h : rows.Refines mem) {height : Nat} (hheight : height < Bytes.capacity 4) :
    rows.undo? height = .ok mem.undoTable[height]? :=
  h.undos.look hheight

theorem stake?_eq (h : rows.Refines mem) (block : Digest) :
    rows.stake? block = .ok mem.stakeTable[block]? :=
  h.stakes.look trivial

theorem coins_eq (h : rows.Refines mem) : rows.coins = .ok mem.coinTable.toList := by
  have hsized : ∀ oc ∈ mem.coinTable.toList, oc.2.Sized := by
    rintro ⟨o, c⟩ hoc
    exact (h.coins.sized o c (Std.ExtTreeMap.mem_toList_iff_getElem?_eq_some.1 hoc)).2
  rw [RowStore.coins, h.coins.toList fun _ _ => rfl]
  generalize mem.coinTable.toList = ocs at hsized ⊢
  induction ocs with
  | nil => rfl
  | cons oc ocs ih =>
    obtain ⟨hoc, hocs⟩ := List.forall_mem_cons.1 hsized
    have hkey : readCoinKey (coinLayout.key oc.1) = .ok oc.1 := by
      simp only [readCoinKey, coinLayout, OutPoint.ofKey?_key]
    have hcoin : readCoin (coinLayout.encode oc.2) = .ok oc.2 := coinLayout.read_encode hoc
    rw [List.map_cons, List.mapM_cons, ih hocs, hkey, hcoin]
    rfl

/-! ### Changes -/

theorem setTip (h : rows.Refines mem) {t : Tip} (ht : t.Sized) :
    (StoreTables.setTip t rows).Refines (StoreTables.setTip t mem) where
  tipSized t' ht' := by
    cases ht'
    exact ht
  tip bs := by
    change (rows.tipRows.insert tipKey t.encode)[bs]? = _
    rw [Table.getElem?_insert]
    split
    · rfl
    · next hne => rw [h.tip, if_neg hne]
  coins := h.coins
  undos := h.undos
  stakes := h.stakes

theorem removeCoin (h : rows.Refines mem) (o : OutPoint) :
    (StoreTables.removeCoin o rows).Refines (StoreTables.removeCoin o mem) :=
  { h with coins := h.coins.erase trivial }

theorem putCoin (h : rows.Refines mem) {oc : OutPoint × Coin} (hoc : oc.2.Sized) :
    (StoreTables.putCoin oc rows).Refines (StoreTables.putCoin oc mem) :=
  { h with coins := h.coins.insert trivial hoc }

theorem putUndo (h : rows.Refines mem) {height : Nat} {r : UndoRecord}
    (hheight : height < Bytes.capacity 4) (hr : r.Sized) :
    (StoreTables.putUndo height r rows).Refines (StoreTables.putUndo height r mem) :=
  { h with undos := h.undos.insert hheight hr }

theorem dropUndo (h : rows.Refines mem) {height : Nat} (hheight : height < Bytes.capacity 4) :
    (StoreTables.dropUndo height rows).Refines (StoreTables.dropUndo height mem) :=
  { h with undos := h.undos.erase hheight }

theorem putStake (h : rows.Refines mem) (i : Digest × StakeRecord) :
    (StoreTables.putStake i rows).Refines (StoreTables.putStake i mem) :=
  { h with stakes := h.stakes.insert trivial trivial }

/-- What single changes keep, a list of them keeps. -/
theorem foldl {α : Type} {f : α → RowStore → RowStore} {g : α → MemoryStore → MemoryStore}
    {as : List α} (hstep : ∀ a ∈ as, ∀ {rows mem}, rows.Refines mem → (f a rows).Refines (g a mem))
    (h : rows.Refines mem) :
    (as.foldl (fun s a => f a s) rows).Refines (as.foldl (fun s a => g a s) mem) := by
  induction as generalizing rows mem with
  | nil => exact h
  | cons a as ih =>
    obtain ⟨ha, has⟩ := List.forall_mem_cons.1 hstep
    exact ih has (ha h)

theorem replaceCoins (h : rows.Refines mem) (os : List OutPoint) {ocs : List (OutPoint × Coin)}
    (hocs : ∀ oc ∈ ocs, oc.2.Sized) :
    (ocs.foldl (fun s oc => StoreTables.putCoin oc s)
        (os.foldl (fun s o => StoreTables.removeCoin o s) rows)).Refines
      (ocs.foldl (fun s oc => StoreTables.putCoin oc s)
        (os.foldl (fun s o => StoreTables.removeCoin o s) mem)) :=
  foldl (fun _ hoc _ _ h => h.putCoin (hocs _ hoc)) (foldl (fun o _ _ _ h => h.removeCoin o) h)

/-! ### Calls -/

/-- Two calls have given the same answer and related databases, or have failed alike. -/
inductive Agree : Except Fault (StoreAnswer × RowStore) → Except Fault (StoreAnswer × MemoryStore) →
    Prop
  | ok (a : StoreAnswer) {rows : RowStore} {mem : MemoryStore} (h : rows.Refines mem) :
    Agree (.ok (a, rows)) (.ok (a, mem))
  | error (e : Fault) : Agree (.error e) (.error e)

theorem commit (h : rows.Refines mem) {changes : List CoinChange} {old new : Tip}
    {undo : UndoRecord} (hchanges : ∀ c ∈ changes, ∀ coin, c.coin = some coin → coin.Sized)
    (hold : old.height + 1 < Bytes.capacity 4) (hnew : new.Sized) (hundo : undo.Sized) :
    Agree ((StoreCall.commit changes old new undo).apply rows)
      ((StoreCall.commit changes old new undo).apply mem) := by
  have hinsertions : ∀ oc ∈ CoinChange.insertions changes, oc.2.Sized := by
    intro oc hoc
    obtain ⟨c, hc, hins⟩ := CoinChange.mem_insertions.1 hoc
    exact hchanges c hc oc.2 (CoinChange.insertion?_eq_some.1 hins).2.1
  have hrows : CoinStore.tip? rows = .ok mem.tip := h.tip?_eq
  have hmem : CoinStore.tip? mem = .ok mem.tip := rfl
  simp only [StoreCall.apply, StoreTables.commit_eq, hrows, hmem, StoreCall.check_ok_bind]
  cases Tip.check mem.tip old with
  | error e => exact .error e
  | ok u => exact .ok _ (((h.replaceCoins _ hinsertions).putUndo hold hundo).setTip hnew)

theorem rewind (h : rows.Refines mem) :
    Agree (StoreCall.rewind.apply rows) (StoreCall.rewind.apply mem) := by
  have hrows : CoinStore.tip? rows = .ok mem.tip := h.tip?_eq
  have hmem : CoinStore.tip? mem = .ok mem.tip := rfl
  simp only [StoreCall.apply, StoreTables.rewind_eq, hrows, hmem, StoreCall.check_ok_bind]
  cases htip : mem.tip with
  | none => exact .error _
  | some tip =>
    have hheight : tip.height < Bytes.capacity 4 := h.tipSized tip htip
    have hundoRows : CoinStore.undo? rows tip.height = .ok mem.undoTable[tip.height]? :=
      h.undo?_eq hheight
    have hundoMem : CoinStore.undo? mem tip.height = .ok mem.undoTable[tip.height]? := rfl
    simp only [hundoRows, hundoMem, StoreCall.check_ok_bind]
    cases hundo : mem.undoTable[tip.height]? with
    | none => exact .error _
    | some undo =>
      have hsized : undo.Sized := (h.undos.sized _ _ hundo).2
      cases hprevious : undo.previousTip with
      | none =>
        simp only [UndoRecord.target, hprevious]
        exact .error _
      | some previous =>
        simp only [UndoRecord.target, hprevious]
        exact .ok _ (((h.replaceCoins _ hsized.restore.2).dropUndo hheight).setTip
          (hsized.previousTip previous hprevious))

/-- A call within the limits is answered alike, and rows that stand for a database of values stand
for it afterwards. -/
theorem apply (h : rows.Refines mem) {call : StoreCall} (hcall : call.Sized) :
    Agree (call.apply rows) (call.apply mem) := by
  cases call with
  | begin genesis =>
    have hrows : CoinStore.tip? rows = .ok mem.tip := h.tip?_eq
    have hmem : CoinStore.tip? mem = .ok mem.tip := rfl
    simp only [StoreCall.apply, StoreTables.begin_eq, hrows, hmem, StoreCall.check_ok_bind]
    cases mem.tip with
    | some t => exact .ok _ h
    | none => exact .ok _ (h.setTip (show 0 < Bytes.capacity 4 by decide))
  | tip =>
    simp only [StoreCall.apply, CoinStore.tip?, h.tip?_eq]
    exact .ok _ h
  | fetch os =>
    simp only [StoreCall.apply, CoinStore.fetch, h.fetch_eq]
    exact .ok _ h
  | commit changes old new undo =>
    obtain ⟨hchanges, hold, hnew, hundo⟩ := hcall
    exact h.commit hchanges hold hnew hundo
  | rewind => exact h.rewind
  | undo height =>
    simp only [StoreCall.apply, CoinStore.undo?, h.undo?_eq hcall]
    exact .ok _ h
  | putStakes items =>
    simp only [StoreCall.apply, StoreTables.putStakes_eq]
    exact .ok _ (foldl (fun i _ _ _ h => h.putStake i) h)
  | stake block =>
    simp only [StoreCall.apply, CoinStore.stake?, h.stake?_eq]
    exact .ok _ h
  | coins =>
    simp only [StoreCall.apply, CoinStore.coins, h.coins_eq]
    exact .ok _ h
  | reopen => exact .ok _ h

/-! ### Sequences of calls -/

/-- A sequence of calls within the limits is answered alike, and rows that stand for a database of
values stand for it afterwards. -/
theorem performAll (h : rows.Refines mem) {calls : List StoreCall}
    (hcalls : ∀ call ∈ calls, call.Sized) :
    StoreCall.answers calls rows = StoreCall.answers calls mem ∧
      (StoreCall.performAll calls rows).Refines (StoreCall.performAll calls mem) := by
  induction calls generalizing rows mem with
  | nil => exact ⟨rfl, h⟩
  | cons call calls ih =>
    obtain ⟨hcall, hrest⟩ := List.forall_mem_cons.1 hcalls
    have hagree := h.apply hcall
    simp only [StoreCall.answers, StoreCall.performAll, List.foldl_cons, StoreCall.perform]
    generalize call.apply rows = x, call.apply mem = y at hagree
    cases hagree with
    | ok a hnext =>
      obtain ⟨hanswers, hend⟩ := ih hnext hrest
      exact ⟨congrArg _ hanswers, hend⟩
    | error e =>
      obtain ⟨hanswers, hend⟩ := ih h hrest
      exact ⟨congrArg _ hanswers, hend⟩

end Refines

end RowStore

/-- The database of rows refines the database of values. Made on empty databases, every sequence of
calls is answered alike call by call, faults included, and the rows stand for the tables throughout.
Both list the coins by transaction id and then by index. A call that fails has changed neither
database, although its changes are made one at a time. -/
theorem rowStore_refines_memoryStore {calls : List StoreCall}
    (hcalls : ∀ call ∈ calls, call.Sized) :
    StoreCall.answers calls RowStore.empty = StoreCall.answers calls MemoryStore.empty ∧
      ∃ rows mem, StoreCall.performAll calls RowStore.empty = rows ∧
        StoreCall.performAll calls MemoryStore.empty = mem ∧ rows.Refines mem ∧
        (∃ coins, rows.coins = .ok coins ∧ mem.coinTable.toList = coins ∧
          coins.Pairwise fun a b =>
            (compare a.1.txid b.1.txid).then (compare a.1.index b.1.index) = .lt) ∧
        ∀ call : StoreCall,
          (call.performInPlace rows = call.perform rows ∧
            ∀ e rows', call.performInPlace rows = .error e rows' → rows' = rows) ∧
          (call.performInPlace mem = call.perform mem ∧
            ∀ e mem', call.performInPlace mem = .error e mem' → mem' = mem) := by
  obtain ⟨hanswers, hrefines⟩ := RowStore.refines_empty.performAll hcalls
  refine ⟨hanswers, _, _, rfl, rfl, hrefines, ⟨_, hrefines.coins_eq, rfl, ?_⟩, ?_⟩
  · refine (StoreCall.performAll calls MemoryStore.empty).coinTable.ordered_keys_toList.imp ?_
    intro a b hlt
    rw [← OutPoint.compare_eq, hlt]
  · intro call
    exact ⟨⟨call.performInPlace_eq _, fun _ _ h => StoreCall.performInPlace_error h⟩,
      ⟨call.performInPlace_eq _, fun _ _ h => StoreCall.performInPlace_error h⟩⟩

namespace StoreSample

def genesis : Tip := ⟨Digest.zero, 0⟩

def next : Tip := ⟨⟨List.replicate 32 1, by simp⟩, 1⟩

def coin : Coin := ⟨1, ⟨50, ⟨[0x51]⟩⟩, true, false, none⟩

/-- A rewind and a commit that fail, and coins under indices whose low bytes are in the other
order. -/
def calls : List StoreCall :=
  [.rewind, .begin genesis.digest, .commit [] next next (UndoRecord.ofTip next),
    .commit [⟨⟨Digest.zero, 256⟩, some coin⟩, ⟨⟨Digest.zero, 1⟩, some coin⟩] genesis next
      ⟨some genesis, [⟨Digest.zero, 256⟩, ⟨Digest.zero, 1⟩], []⟩,
    .coins, .reopen, .rewind, .undo 1, .coins]

theorem coin_sized : coin.Sized := ⟨by decide, (by decide : 1 ≤ CompactSize.maxSize)⟩

theorem calls_sized : ∀ call ∈ calls, call.Sized := by
  have hundo : ∀ os, os.length ≤ CompactSize.maxSize →
      UndoRecord.Sized ⟨some genesis, os, []⟩ := fun os hos =>
    { previousTip := by
        rintro _ ⟨⟩
        exact (by decide : 0 < Bytes.capacity 4)
      remove := ⟨hos, fun _ _ => trivial⟩
      restore := ⟨Nat.zero_le _, fun _ h => nomatch h⟩ }
  have hnext : (UndoRecord.ofTip next).Sized :=
    { previousTip := by
        rintro _ ⟨⟩
        exact (by decide : 1 < Bytes.capacity 4)
      remove := ⟨Nat.zero_le _, fun _ _ => trivial⟩
      restore := ⟨Nat.zero_le _, fun _ h => nomatch h⟩ }
  have hone : next.Sized := (by decide : 1 < Bytes.capacity 4)
  intro call hcall
  simp only [calls, List.mem_cons, List.not_mem_nil, or_false] at hcall
  rcases hcall with rfl | rfl | rfl | rfl | rfl | rfl | rfl | rfl | rfl
  case inr.inr.inl => exact ⟨by simp, by decide, hone, hnext⟩
  case inr.inr.inr.inl =>
    refine ⟨?_, by decide, hone, hundo _ (by decide)⟩
    intro c hc o ho
    simp only [List.mem_cons, List.not_mem_nil, or_false] at hc
    rcases hc with rfl | rfl <;> cases ho <;> exact coin_sized
  case inr.inr.inr.inr.inr.inr.inr.inl => exact (by decide : 1 < Bytes.capacity 4)
  all_goals trivial

/-- The two calls that fail are the rewind of an empty database and the commit on another tip. -/
theorem answers_calls : (∀ call ∈ calls, call.Sized) ∧
    StoreCall.answers calls RowStore.empty = StoreCall.answers calls MemoryStore.empty ∧
    (StoreCall.answers calls MemoryStore.empty).map Except.isOk
      = [false, true, false, true, true, true, true, true, true] :=
  ⟨calls_sized, (rowStore_refines_memoryStore calls_sized).1, by decide +kernel⟩

end StoreSample

end Chainstate
