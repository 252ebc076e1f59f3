import Z80.Proofs.Encoding

/-! The opcode behind the prefixes. The first opcode that is no index prefix settles what an
instruction can be, whether it came from memory or from the data lines, and PC stands right
behind it if it came from memory. -/
namespace Z80

/-- The opcode that leads to the instruction, for the kinds of which that is known. -/
def Instr.lead : Instr → Option Byte
  | ei => some 0xFB
  | halt => some 0x76
  | block .. => some 0xED
  | _ => none

theorem Instr.eq_of_lead {i : Instr} {op b : Byte} (leads : i.lead = none ∨ i.lead = some op)
    (h : i.lead = some b) : op = b := by
  rw [h] at leads
  rcases leads with unknown | known
  · contradiction
  · exact (Option.some.inj known).symm

namespace Opcode

def Leads (op : Byte) : Opcode → Prop
  | .instr x => x.lead = none ∨ x.lead = some op
  | .bits => True
  | .extended => op = 0xED
  | .index _ => isIndex op

instance (op : Byte) : DecidablePred (Leads op)
  | .instr _ => inferInstanceAs (Decidable (_ ∨ _))
  | .bits => isTrue trivial
  | .extended => inferInstanceAs (Decidable (_ = _))
  | .index _ => inferInstanceAs (Decidable (isIndex op))

theorem leads_decode (i : Option Index) (op : Byte) : Leads op (decode i op) := by
  revert op
  rcases i with _ | _ | _ <;> decide +kernel

theorem lead_decodeBits (op : Byte) : (decodeBits op).lead = none := by
  revert op
  decide +kernel

theorem lead_decodeIndexedBits (i : Index) (d op : Byte) :
    (decodeIndexedBits i d op).lead = none := by
  unfold decodeIndexedBits
  cases updateOf op <;> rfl

theorem lead_decodeExtended (op : Byte) :
    (decodeExtended op).lead = none ∨ (decodeExtended op).lead = some 0xED := by
  revert op
  decide +kernel

end Opcode

namespace Table

variable {t : Table} {op b : Byte} {indexed : Bool} {f : Nat → Byte}

theorem lead_bits (op : Byte) (i : Option Index) (d : Byte) : (bits.instr op i d).lead = none := by
  cases i with
  | none => exact Opcode.lead_decodeBits op
  | some i => exact Opcode.lead_decodeIndexedBits i d op

theorem lead_eq (spells : t.Spells op indexed f) {i : Option Index} {d : Byte}
    (h : (t.instr op i d).lead = some b) : f 0 = b := by
  cases t with
  | main =>
    have leads := Opcode.leads_decode i op
    rw [Opcode.decode_main i d op spells.2] at leads
    exact spells.1.trans (Instr.eq_of_lead leads h)
  | bits =>
    rw [lead_bits] at h
    contradiction
  | extended => exact spells.1.trans (Instr.eq_of_lead (Opcode.lead_decodeExtended op) h)

theorem eq_main (spells : t.Spells op indexed f) (lead : f 0 ∉ [0xCB, 0xED]) :
    t = main ∧ f 0 = op := by
  cases t with
  | main => exact ⟨rfl, spells.1⟩
  | bits | extended => simp [spells.1] at lead

end Table

namespace Encoding

variable {e : Encoding} {f : Nat → Byte} {b : Byte}

theorem lead_eq (spells : e.Spells f) (h : (e.instr f).lead = some b) : f e.chain = b :=
  Table.lead_eq spells.last h

theorem instr_eq_ei_iff (spells : e.Spells f) : e.instr f = .ei ↔ f e.chain = 0xFB := by
  constructor
  · intro ei
    exact lead_eq spells (congrArg Instr.lead ei)
  · intro lead
    obtain ⟨n, t, op⟩ := e
    obtain ⟨rfl, code⟩ := Table.eq_main spells.last (by simp [lead])
    obtain rfl : op = 0xFB := code.symm.trans lead
    exact instr_main (i := index ⟨n, .main, 0xFB⟩ f) rfl rfl

/-- Behind its lead an instruction has one more opcode if that is ED. -/
theorem size_of_lead (spells : e.Spells f) (h : (e.instr f).lead = some b) :
    e.size = e.chain + (if b = 0xED then 2 else 1) := by
  have lead := lead_eq spells h
  have last := spells.last
  obtain ⟨n, t, op⟩ := e
  cases t with
  | main =>
    have other : b ≠ 0xED := by
      rintro rfl
      exact last.2 (by simp [← last.1.symm.trans lead])
    rw [if_neg other]
    rfl
  | bits =>
    rw [instr, Table.lead_bits] at h
    contradiction
  | extended =>
    obtain rfl : (0xED : Byte) = b := last.1.symm.trans lead
    rfl

end Encoding

end Z80
