-- SUMMARY: Reading scripts: how instructions are written, what they are read from, and where reading stops.
import Chainstate.Script.Instruction

/-!
# Reading scripts

An instruction is written in one of four forms (`Instruction.Spells`): a push of nothing, of up to 75
bytes, of data behind its length, or an opcode alone. What is written in one of them is read back,
whatever follows, and what is read was written in one of them, unless it is a push that needs more
bytes than there are (`Instruction.RunsOut`). So reading inverts writing, uses up every byte once, and
stops early at nothing but a push that is cut off by the end (`Script.instructions_exact`).
-/

namespace Chainstate

namespace Instruction

variable {i : Instruction} {first code : UInt8} {width : Nat} {bs field data taken rest : Bytes}

/-! ## Written forms -/

/-- The opcodes of pushes whose length follows, with the width of the length. -/
inductive Sized : (code : UInt8) → (width : Nat) → Prop where
  | one : Sized Opcode.pushData1 1
  | two : Sized Opcode.pushData2 2
  | four : Sized Opcode.pushData4 4

/-- The forms in which instructions are written. -/
inductive Spells : Instruction → Bytes → Prop where
  | nothing : Spells (push []) [Opcode.zero]
  | short {first : UInt8} {data : Bytes} : 0 < data.length → data.length ≤ 0x4b →
    first.toNat = data.length → Spells (push data) (first :: data)
  | sized {code : UInt8} {width : Nat} {field data : Bytes} : Sized code width →
    field.length = width → Bytes.ofLittleEndian field = data.length →
    Spells (push data) (code :: (field ++ data))
  | op {code : UInt8} : Opcode.negate1 ≤ code → Spells (op code) [code]

/-- A push that needs more bytes than there are, for its data or already for its length. -/
inductive RunsOut : Bytes → Prop where
  | short {first : UInt8} {bs : Bytes} : first.toNat ≤ 0x4b → bs.length < first.toNat →
    RunsOut (first :: bs)
  | length {code : UInt8} {width : Nat} {bs : Bytes} : Sized code width → bs.length < width →
    RunsOut (code :: bs)
  | data {code : UInt8} {width : Nat} {field bs : Bytes} : Sized code width →
    field.length = width → bs.length < Bytes.ofLittleEndian field →
    RunsOut (code :: (field ++ bs))

theorem Spells.ne_nil (h : Spells i taken) : taken ≠ [] := by
  cases h <;> exact List.cons_ne_nil _ _

theorem RunsOut.ne_nil (h : RunsOut bs) : bs ≠ [] := by
  cases h <;> exact List.cons_ne_nil _ _

theorem Spells.ne_truncated (h : Spells i taken) : i ≠ truncated := by
  cases h <;> exact Instruction.noConfusion

/-- Pushed data is part of what is written. -/
theorem Spells.length_le (h : Spells (push data) taken) : data.length ≤ taken.length := by
  cases h with
  | nothing => exact Nat.zero_le _
  | short => exact Nat.le_succ _
  | sized =>
    rw [List.length_cons, List.length_append]
    omega

/-! ## One instruction -/

theorem pushAfter_append (hfield : field.length = width)
    (hdata : Bytes.ofLittleEndian field = data.length) (rest : Bytes) :
    pushAfter width (field ++ (data ++ rest)) = some (data, rest) := by
  subst hfield
  unfold pushAfter
  rw [List.take_left, List.drop_left, if_neg (Nat.lt_irrefl _), hdata]
  dsimp only
  rw [List.take_left, List.drop_left, if_neg (Nat.lt_irrefl _)]

theorem pushAfter_of_short (h : bs.length < width) : pushAfter width bs = none := by
  unfold pushAfter
  rw [if_pos]
  rw [List.length_take]
  omega

theorem pushAfter_of_cut (hfield : field.length = width)
    (hcut : bs.length < Bytes.ofLittleEndian field) : pushAfter width (field ++ bs) = none := by
  subst hfield
  unfold pushAfter
  rw [List.take_left, List.drop_left, if_neg (Nat.lt_irrefl _)]
  dsimp only
  rw [if_pos]
  rw [List.length_take]
  omega

/-- The bytes after a length opcode are a length, as much data and a rest, or they run out. -/
theorem pushAfter_cases (width : Nat) (bs : Bytes) :
    (∃ field data rest, bs = field ++ (data ++ rest) ∧ field.length = width
      ∧ Bytes.ofLittleEndian field = data.length)
    ∨ bs.length < width
    ∨ ∃ field rest, bs = field ++ rest ∧ field.length = width
      ∧ rest.length < Bytes.ofLittleEndian field := by
  by_cases hwidth : bs.length < width
  · exact .inr (.inl hwidth)
  · have hsplit : bs = bs.take width ++ bs.drop width := (List.take_append_drop width bs).symm
    have hfield : (bs.take width).length = width := by
      rw [List.length_take]
      omega
    by_cases hdata : (bs.drop width).length < Bytes.ofLittleEndian (bs.take width)
    · exact .inr (.inr ⟨_, _, hsplit, hfield, hdata⟩)
    · refine .inl ⟨bs.take width, (bs.drop width).take (Bytes.ofLittleEndian (bs.take width)),
        (bs.drop width).drop (Bytes.ofLittleEndian (bs.take width)), ?_, hfield, ?_⟩
      · rw [List.take_append_drop, List.take_append_drop]
      · rw [List.length_take]
        omega

theorem read_of_sized (h : Sized code width) (bs : Bytes) :
    read code bs = match pushAfter width bs with
      | some (data, rest) => (push data, rest)
      | none => (truncated, []) := by
  cases h <;> rfl

theorem read_of_op (h : Opcode.negate1 ≤ code) (bs : Bytes) : read code bs = (op code, bs) := by
  have hcode : 0x4f ≤ code.toNat := UInt8.le_iff_toNat_le.1 h
  have hne (other : UInt8) (hother : other.toNat < 0x4f) : code ≠ other := by
    rintro rfl
    omega
  rw [read, if_neg (hne _ (by decide)), if_neg (by omega), if_neg (hne _ (by decide)),
    if_neg (hne _ (by decide)), if_neg (hne _ (by decide))]

theorem read_of_short (hpos : 0 < first.toNat) (hshort : first.toNat ≤ 0x4b) (bs : Bytes) :
    read first bs = if bs.length < first.toNat then (truncated, [])
      else (push (bs.take first.toNat), bs.drop first.toNat) := by
  have hne : first ≠ Opcode.zero := by
    rintro rfl
    exact absurd hpos (by decide)
  rw [read, if_neg hne, if_pos hshort, List.length_take]
  by_cases hcut : bs.length < first.toNat
  · rw [if_pos hcut, if_pos (by omega)]
  · rw [if_neg hcut, if_neg (by omega)]

/-- What is written in one of the forms is read back, whatever follows. -/
theorem Spells.read (h : Spells i taken) (rest : Bytes) :
    ∃ first bs, taken ++ rest = first :: bs ∧ read first bs = (i, rest) := by
  cases h with
  | nothing => exact ⟨_, _, rfl, rfl⟩
  | @short first data hpos hshort hfirst =>
    refine ⟨_, _, rfl, ?_⟩
    rw [List.append_eq, read_of_short (by omega) (by omega), List.length_append, if_neg (by omega),
      hfirst, List.take_left, List.drop_left]
  | @sized code width field data hsized hfield hdata =>
    refine ⟨_, _, rfl, ?_⟩
    rw [List.append_eq, List.append_assoc, read_of_sized hsized, pushAfter_append hfield hdata]
  | op hcode => exact ⟨_, _, rfl, read_of_op hcode _⟩

/-- Bytes start with the form of one instruction. -/
theorem Spells.eq_of_append {j : Instruction} {taken' rest' : Bytes} (h : Spells i taken)
    (h' : Spells j taken') (hsame : taken ++ rest = taken' ++ rest') : i = j := by
  obtain ⟨first, bs, heq, hread⟩ := h.read rest
  obtain ⟨first', bs', heq', hread'⟩ := h'.read rest'
  rw [hsame, heq', List.cons.injEq] at heq
  obtain ⟨rfl, rfl⟩ := heq
  rw [hread, Prod.mk.injEq] at hread'
  exact hread'.1

theorem RunsOut.read (h : RunsOut (first :: bs)) : read first bs = (truncated, []) := by
  cases h with
  | short hshort hcut => rw [read_of_short (by omega) hshort, if_pos hcut]
  | length hsized hcut => rw [read_of_sized hsized, pushAfter_of_short hcut]
  | data hsized hfield hcut => rw [read_of_sized hsized, pushAfter_of_cut hfield hcut]

theorem first_cases (first : UInt8) : first = Opcode.zero
    ∨ (0 < first.toNat ∧ first.toNat ≤ 0x4b) ∨ (∃ width, Sized first width)
    ∨ Opcode.negate1 ≤ first := by
  have heq (code : UInt8) (h : first.toNat = code.toNat) : first = code := UInt8.toNat_inj.1 h
  by_cases hop : 0x4f ≤ first.toNat
  · exact .inr (.inr (.inr (UInt8.le_iff_toNat_le.2 hop)))
  · obtain hzero | hshort | hone | htwo | hfour : first.toNat = 0
        ∨ (0 < first.toNat ∧ first.toNat ≤ 0x4b) ∨ first.toNat = 0x4c ∨ first.toNat = 0x4d
        ∨ first.toNat = 0x4e := by omega
    · exact .inl (heq Opcode.zero hzero)
    · exact .inr (.inl hshort)
    · exact .inr (.inr (.inl ⟨1, heq Opcode.pushData1 hone ▸ .one⟩))
    · exact .inr (.inr (.inl ⟨2, heq Opcode.pushData2 htwo ▸ .two⟩))
    · exact .inr (.inr (.inl ⟨4, heq Opcode.pushData4 hfour ▸ .four⟩))

/-- Bytes start with an instruction in one of its forms, or they are a push that runs out. -/
theorem spells_or_runsOut (first : UInt8) (bs : Bytes) :
    (∃ i taken rest, first :: bs = taken ++ rest ∧ Spells i taken) ∨ RunsOut (first :: bs) := by
  obtain rfl | ⟨hpos, hshort⟩ | ⟨width, hsized⟩ | hop := first_cases first
  · exact .inl ⟨_, [_], bs, rfl, .nothing⟩
  · by_cases hcut : bs.length < first.toNat
    · exact .inr (.short hshort hcut)
    · have hlength : (bs.take first.toNat).length = first.toNat := by
        rw [List.length_take]
        omega
      refine .inl ⟨_, first :: bs.take first.toNat, bs.drop first.toNat, ?_,
        .short (by omega) (by omega) hlength.symm⟩
      rw [List.cons_append, List.take_append_drop]
  · obtain ⟨field, data, rest, rfl, hfield, hdata⟩ | hcut | ⟨field, rest, rfl, hfield, hcut⟩ :=
      pushAfter_cases width bs
    · refine .inl ⟨_, first :: (field ++ data), rest, ?_, .sized hsized hfield hdata⟩
      rw [List.cons_append, List.append_assoc]
    · exact .inr (.length hsized hcut)
    · exact .inr (.data hsized hfield hcut)
  · exact .inl ⟨_, [first], bs, rfl, .op hop⟩

/-! ## All instructions -/

/-- Every byte string ends, starts with an instruction in one of its forms, or is a push that runs
out. -/
@[elab_as_elim]
theorem reading_induction {motive : Bytes → Prop} (nil : motive [])
    (spelled : ∀ i taken rest, Spells i taken → motive rest → motive (taken ++ rest))
    (cut : ∀ bs, RunsOut bs → motive bs) (bs : Bytes) : motive bs := by
  induction hlength : bs.length using Nat.strongRecOn generalizing bs with
  | ind n ih =>
    cases bs with
    | nil => exact nil
    | cons first bs =>
      obtain ⟨i, taken, rest, heq, hspells⟩ | hcut := spells_or_runsOut first bs
      · rw [heq] at hlength ⊢
        have hpos : 0 < taken.length := List.length_pos_iff.2 hspells.ne_nil
        rw [List.length_append] at hlength
        exact spelled i taken rest hspells (ih rest.length (by omega) rest rfl)
      · exact cut _ hcut

theorem Spells.all_append (h : Spells i taken) (rest : Bytes) :
    all (taken ++ rest) = i :: all rest := by
  obtain ⟨first, bs, heq, hread⟩ := h.read rest
  rw [heq, all, hread]

theorem RunsOut.all (h : RunsOut bs) : all bs = [truncated] := by
  obtain ⟨first, bs, rfl⟩ := List.exists_cons_of_ne_nil h.ne_nil
  rw [Instruction.all, h.read, Instruction.all]

/-- Instructions in one of their forms are read one after the other, up to what follows them. -/
theorem all_flatMap {parts : List (Instruction × Bytes)} (h : ∀ x ∈ parts, Spells x.1 x.2)
    (rest : Bytes) : all (parts.flatMap Prod.snd ++ rest) = parts.map Prod.fst ++ all rest := by
  induction parts with
  | nil => rfl
  | cons x parts ih =>
    obtain ⟨hx, hparts⟩ := List.forall_mem_cons.1 h
    rw [List.flatMap_cons, List.append_assoc, hx.all_append, ih hparts]
    rfl

theorem truncated_notMem_dropLast (bs : Bytes) : truncated ∉ (all bs).dropLast := by
  induction bs using reading_induction with
  | nil =>
    rw [all]
    exact List.not_mem_nil
  | spelled i taken rest h ih =>
    rw [h.all_append]
    cases hrest : all rest with
    | nil => exact List.not_mem_nil
    | cons j js =>
      rw [hrest] at ih
      rw [List.dropLast_cons_cons, List.mem_cons, not_or]
      exact ⟨h.ne_truncated.symm, ih⟩
  | cut bs h =>
    rw [h.all]
    exact List.not_mem_nil

/-- Complete instructions, and then a push that runs out. -/
def CutOff (bs : Bytes) : Prop :=
  ∃ (parts : List (Instruction × Bytes)) (cut : Bytes), (∀ x ∈ parts, Spells x.1 x.2)
    ∧ RunsOut cut ∧ bs = parts.flatMap Prod.snd ++ cut

/-- Reading fails where the script ends in a push that runs out, and nowhere else. -/
theorem truncated_mem_all_iff (bs : Bytes) : truncated ∈ all bs ↔ CutOff bs := by
  constructor
  · intro hmem
    induction bs using reading_induction with
    | nil =>
      rw [all] at hmem
      cases hmem
    | spelled i taken rest h ih =>
      rw [h.all_append] at hmem
      obtain heq | hmem := List.mem_cons.1 hmem
      · exact absurd heq.symm h.ne_truncated
      · obtain ⟨parts, cut, hparts, hcut, rfl⟩ := ih hmem
        refine ⟨(i, taken) :: parts, cut, List.forall_mem_cons.2 ⟨h, hparts⟩, hcut, ?_⟩
        rw [List.flatMap_cons, List.append_assoc]
    | cut bs h => exact ⟨[], bs, fun x hx => absurd hx List.not_mem_nil, h, rfl⟩
  · rintro ⟨parts, cut, hparts, hcut, rfl⟩
    rw [all_flatMap hparts, hcut.all]
    exact List.mem_append_right _ List.mem_cons_self

/-! ## Bytes of instructions -/

/-- The instructions of a byte string, each with the bytes that it was read from. -/
def spans : Bytes → List (Instruction × Bytes)
  | [] => []
  | first :: bs =>
    ((read first bs).1, (first :: bs).take (bs.length + 1 - (read first bs).2.length))
      :: spans (read first bs).2
termination_by bs => bs.length
decreasing_by
  have h := length_read_le first bs
  simp only [List.length_cons]
  omega

theorem Spells.spans_append (h : Spells i taken) (rest : Bytes) :
    spans (taken ++ rest) = (i, taken) :: spans rest := by
  obtain ⟨first, bs, heq, hread⟩ := h.read rest
  have hlength : bs.length + 1 - rest.length = taken.length := by
    rw [← List.length_cons (a := first), ← heq, List.length_append, Nat.add_sub_cancel]
  rw [heq, spans, hread]
  dsimp only
  rw [hlength, ← heq, List.take_left]

theorem RunsOut.spans (h : RunsOut bs) : spans bs = [(truncated, bs)] := by
  obtain ⟨first, bs, rfl⟩ := List.exists_cons_of_ne_nil h.ne_nil
  rw [Instruction.spans, h.read, Instruction.spans]
  dsimp only
  rw [List.length_nil, Nat.sub_zero, ← List.length_cons (a := first), List.take_length]

theorem map_fst_spans (bs : Bytes) : (spans bs).map Prod.fst = all bs := by
  induction bs using reading_induction with
  | nil => rw [spans, all, List.map_nil]
  | spelled i taken rest h ih => rw [h.spans_append, h.all_append, List.map_cons, ih]
  | cut bs h => rw [h.spans, h.all, List.map_singleton]

/-- Every byte belongs to one instruction, in the order in which they are read. -/
theorem flatMap_snd_spans (bs : Bytes) : (spans bs).flatMap Prod.snd = bs := by
  induction bs using reading_induction with
  | nil => rw [spans, List.flatMap_nil]
  | spelled i taken rest h ih => rw [h.spans_append, List.flatMap_cons, ih]
  | cut bs h => rw [h.spans, List.flatMap_singleton]

theorem of_mem_spans {x : Instruction × Bytes} (hx : x ∈ spans bs) :
    Spells x.1 x.2 ∨ (x.1 = truncated ∧ RunsOut x.2) := by
  induction bs using reading_induction with
  | nil =>
    rw [spans] at hx
    cases hx
  | spelled i taken rest h ih =>
    rw [h.spans_append] at hx
    obtain rfl | hx := List.mem_cons.1 hx
    · exact .inl h
    · exact ih hx
  | cut bs h =>
    rw [h.spans, List.mem_singleton] at hx
    subst hx
    exact .inr ⟨rfl, h⟩

/-- A byte string has no more instructions than bytes. -/
theorem length_all_le (bs : Bytes) : (all bs).length ≤ bs.length := by
  induction bs using reading_induction with
  | nil =>
    rw [all]
    exact Nat.le_refl _
  | spelled i taken rest h ih =>
    have hpos : 0 < taken.length := List.length_pos_iff.2 h.ne_nil
    rw [h.all_append, List.length_cons, List.length_append]
    omega
  | cut bs h =>
    rw [h.all]
    exact List.length_pos_iff.2 h.ne_nil

/-- What an instruction pushes is part of the bytes. -/
theorem length_le_of_push_mem (h : push data ∈ all bs) : data.length ≤ bs.length := by
  induction bs using reading_induction with
  | nil =>
    rw [all] at h
    cases h
  | spelled i taken rest hspells ih =>
    rw [hspells.all_append] at h
    rw [List.length_append]
    obtain rfl | h := List.mem_cons.1 h
    · exact Nat.le_add_right_of_le hspells.length_le
    · exact Nat.le_add_left_of_le (ih h)
  | cut bs hcut =>
    rw [hcut.all] at h
    cases List.mem_singleton.1 h

/-! ## Writing -/

/-- A push of less than `2 ^ 32` bytes, or a single opcode that is no push. -/
def Writable : Instruction → Prop
  | push data => data.length < 0x100000000
  | op code => Opcode.negate1 ≤ code
  | truncated => False

/-- The shortest form of an instruction. -/
def write : Instruction → Bytes
  | push data => Script.pushData data
  | op code => [code]
  | truncated => []

theorem spells_littleEndian (hsized : Sized code width) (h : data.length < Bytes.capacity width) :
    Spells (push data) (code :: (Bytes.littleEndian width data.length ++ data)) :=
  .sized hsized (Bytes.length_littleEndian ..)
    ((Bytes.ofLittleEndian_littleEndian ..).trans (Nat.mod_eq_of_lt h))

theorem spells_pushData (h : data.length < 0x100000000) :
    Spells (push data) (Script.pushData data) := by
  unfold Script.pushData Script.pushHeader
  split
  · next hempty =>
    rw [List.eq_nil_of_length_eq_zero hempty]
    exact .nothing
  · next hne =>
    split
    · next hshort =>
      refine .short (Nat.pos_of_ne_zero hne) hshort ?_
      rw [UInt8.toNat_ofNat']
      omega
    split
    · next hone => exact spells_littleEndian .one (Nat.lt_succ_of_le hone)
    split
    · next htwo => exact spells_littleEndian .two (Nat.lt_succ_of_le htwo)
    · exact spells_littleEndian .four h

theorem Writable.spells (h : i.Writable) : Spells i i.write := by
  cases i with
  | push data => exact spells_pushData h
  | op code => exact .op h
  | truncated => exact h.elim

theorem all_flatMap_write {is : List Instruction} (h : ∀ i ∈ is, i.Writable) :
    all (is.flatMap write) = is := by
  induction is with
  | nil =>
    rw [List.flatMap_nil, all]
  | cons i is ih =>
    obtain ⟨hi, his⟩ := List.forall_mem_cons.1 h
    rw [List.flatMap_cons, hi.spells.all_append, ih his]

end Instruction

/-- Reading inverts writing, and it accounts for every byte. Written instructions are read back. Of
any bytes there are at most as many instructions as bytes; those that the instructions were read from
follow one another and are all there are; each instruction is written in those it was read from,
unless they are a push that runs out; and that is the last one, where the script ends in one. -/
theorem Script.instructions_exact :
    (∀ is : List Instruction, (∀ i ∈ is, i.Writable) →
      Script.instructions ⟨is.flatMap Instruction.write⟩ = is)
    ∧ ∀ s : Script, s.instructions.length ≤ s.bytes.length
      ∧ (Instruction.spans s.bytes).map Prod.fst = s.instructions
      ∧ (Instruction.spans s.bytes).flatMap Prod.snd = s.bytes
      ∧ (∀ x ∈ Instruction.spans s.bytes, x.2 ≠ [] ∧ (x.1 ≠ .truncated → Instruction.Spells x.1 x.2)
        ∧ (x.1 = .truncated → Instruction.RunsOut x.2))
      ∧ .truncated ∉ s.instructions.dropLast
      ∧ (.truncated ∈ s.instructions ↔ Instruction.CutOff s.bytes) := by
  refine ⟨fun is his => ?_, fun s => ⟨Instruction.length_all_le _, Instruction.map_fst_spans _,
    Instruction.flatMap_snd_spans _, fun x hx => ?_, Instruction.truncated_notMem_dropLast _,
    Instruction.truncated_mem_all_iff _⟩⟩
  · exact Instruction.all_flatMap_write his
  · obtain hspells | ⟨htruncated, hcut⟩ := Instruction.of_mem_spans hx
    · exact ⟨hspells.ne_nil, fun _ => hspells, fun h => absurd h hspells.ne_truncated⟩
    · exact ⟨hcut.ne_nil, fun hne => absurd htruncated hne, fun _ => hcut⟩

end Chainstate
