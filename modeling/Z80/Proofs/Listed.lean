import Z80.Proofs.Executed

/-! What there is to be found. An instruction that a step runs stands in one of the opcode
tables, under the index prefix that was read last; so what holds of every entry of the tables
holds of every instruction that is run. -/
namespace Z80

/-- The instructions that there are under the index register `j`. -/
inductive Opcode.Listed (j : Option Index) : Instr → Prop
  | main {x : Instr} (op : Byte) (code : decode j op = .instr x) : Listed j x
  | bits (op : Byte) (plain : j = none) : Listed j (decodeBits op)
  | indexedBits (i : Index) (d op : Byte) (prefixed : j = some i) :
      Listed j (decodeIndexedBits i d op)
  | extended (op : Byte) : Listed j (decodeExtended op)

def Opcode.passes (good : Instr → Bool) : Opcode → Bool
  | instr i => good i
  | _ => true

theorem Opcode.Listed.good {j : Option Index} {x : Instr} (listed : Listed j x)
    (good : Instr → Bool) (main : ∀ op, (decode j op).passes good = true)
    (bits : ∀ op, good (decodeBits op) = true)
    (indexedBits : ∀ i d op, good (decodeIndexedBits i d op) = true)
    (extended : ∀ op, good (decodeExtended op) = true) : good x = true := by
  cases listed with
  | main op code =>
    have passes := main op
    rw [code] at passes
    exact passes
  | bits op plain => exact bits op
  | indexedBits i d op prefixed => exact indexedBits i d op
  | extended op => exact extended op

theorem Encoding.listed {e : Encoding} {f : Nat → Byte} (spells : e.Spells f) :
    Opcode.Listed (e.index f) (e.instr f) := by
  have last := spells.last
  obtain ⟨n, t, op⟩ := e
  cases t with
  | main => exact .main op (Opcode.decode_main _ _ op last.2)
  | bits =>
    unfold instr
    cases hi : index ⟨n, .bits, op⟩ f with
    | none => exact .bits op rfl
    | some i => exact .indexedBits i _ op rfl
  | extended => exact .extended op

namespace Cpu

variable {β : Type} [Bus β] {c : Cpu} {bus : β} {e : Effect β} {i : Instr}

theorem listed_of_effect (h : c.effect bus = some e) (executed : .executed i ∈ e.marks) :
    Opcode.Listed (c.index bus) i := by
  have ran := executes_of_effect h executed
  rw [index, if_pos ran.fetching, ran.instr]
  exact Encoding.listed ran.spells

end Cpu

end Z80
