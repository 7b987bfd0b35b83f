-- SUMMARY: Heights at the start of coinbases: a script starts with the push of at most one height.
import Chainstate.Proofs.ScriptNumber
import Chainstate.Proofs.Spending

/-!
# Heights in coinbases

A script starts with the push of one integer (`ScriptNumber.eq_of_startsWith_push`). So a coinbase,
whose script is short, can only start with the height of one block.
-/

namespace Chainstate

namespace Transaction

/-- The short script of the first input starts with the push of a height. -/
def MarkedWith (tx : Transaction) (height : Nat) : Prop :=
  ∃ i rest, tx.inputs = i :: rest ∧ i.script.bytes.length ≤ 100
    ∧ (ScriptNumber.push height).isPrefixOf i.script.bytes = true

/-- No transaction is marked with two heights. -/
theorem MarkedWith.unique {tx : Transaction} {a b : Nat} (ha : tx.MarkedWith a)
    (hb : tx.MarkedWith b) : a = b := by
  obtain ⟨i, rest, hins, hlen, ha⟩ := ha
  obtain ⟨i', rest', hins', -, hb⟩ := hb
  rw [hins, List.cons.injEq] at hins'
  rw [← hins'.1] at hb
  have hshort {height : Nat} (h : ScriptNumber.push height <+: i.script.bytes) :
      (ScriptNumber.push height).length < 0x100000000 :=
    Nat.lt_of_le_of_lt (Nat.le_trans h.length_le hlen) (by decide)
  rw [List.isPrefixOf_iff_prefix] at ha hb
  exact Int.ofNat_inj.1 (ScriptNumber.eq_of_startsWith_push (hshort ha) (hshort hb) ha hb)

/-- A coinbase that passes its own checks has a short script in its only input. -/
theorem Checked.length_script {p : Params} {tx : Transaction} (h : tx.Checked p)
    (hcoinbase : tx.isCoinbase = true) : ∃ i, tx.inputs = [i] ∧ i.script.bytes.length ≤ 100 := by
  obtain ⟨i, hins⟩ : ∃ i, tx.inputs = [i] := by
    unfold isCoinbase at hcoinbase
    split at hcoinbase
    · next i hins => exact ⟨i, hins⟩
    · cases hcoinbase
  have hprevouts := h.prevouts
  simp only [checkPrevouts, hcoinbase, hins, if_true, List.head?_cons, Option.elim_some] at hprevouts
  refine ⟨i, hins, ?_⟩
  split at hprevouts
  · cases hprevouts
  · omega

end Transaction

/-- The coinbase of a block that passes the height check is marked with the height. -/
theorem Block.markedWith_of_checkCoinbaseHeight {b : Block} {p : Params} {height : Nat}
    (h : b.checkCoinbaseHeight height = .ok ()) {coinbase : Transaction} {rest : List Transaction}
    (htxs : b.transactions = coinbase :: rest) (hcheck : coinbase.Checked p)
    (hcoinbase : coinbase.isCoinbase = true) : coinbase.MarkedWith height := by
  obtain ⟨i, hins, hlen⟩ := hcheck.length_script hcoinbase
  refine ⟨i, [], hins, hlen, ?_⟩
  unfold checkCoinbaseHeight coinbaseScript at h
  simp only [htxs, hins, List.head?_cons, Option.elim_some] at h
  split at h
  · next hpush => exact hpush
  · cases h

end Chainstate
