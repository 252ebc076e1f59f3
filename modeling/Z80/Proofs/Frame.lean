import Z80.Proofs.Clockless

/-! What an instruction leaves alone. A reading of the registers is apart when it sees
none of those through which data flow: no pair, not PC, the latch or R. All but nine
kinds of instructions keep every such reading, whatever the bus does, so a frame fact
needs one look at those nine and no other case analysis. -/
namespace Z80

variable {α β γ δ : Type}

structure Registers.Apart (view : Registers → γ) : Prop where
  set (r : Registers) (x : Reg16) (w : Word) : view (r.set x w) = view r
  pc (r : Registers) (w : Word) : view { r with pc := w } = view r
  sh (r : Registers) (w : Word) : view { r with sh := w } = view r
  r (r : Registers) (v : Byte) : view { r with r := v } = view r

namespace Registers.Apart

variable {view : Registers → γ} (hv : Apart view) (r : Registers)

include hv

theorem sp (w : Word) : view { r with sp := w } = view r := hv.set r .sp w

theorem bc (w : Word) : view { r with bc := w } = view r := hv.set r .bc w

theorem pairs {bc de hl : Word} : view { r with bc, de, hl } = view r :=
  calc view { r with bc, de, hl }
    _ = view { r with bc, de } := hv.set { r with bc, de } .hl hl
    _ = view { r with bc } := hv.set { r with bc } .de de
    _ = view r := hv.set r .bc bc

theorem reg8 (x : Reg8) (v : Byte) : view (x.set v r) = view r := hv.set ..

theorem setA (v : Byte) : view (r.setA v) = view r := hv.set r .af _

theorem setFlags (f : Flags) : view (r.setFlags f) = view r := hv.set r .af _

end Registers.Apart

namespace Exec

/-- The action ends in registers that read as those in which it began. -/
abbrev Keeps (view : Registers → γ) (x : Exec β α) : Prop := ∀ s, view (x s).2.regs = view s.regs

namespace Keeps

variable {view : Registers → γ}

section Data

variable (hv : Registers.Apart view)

include hv

theorem setPC (w : Word) : Keeps view (setPC w : Exec β Unit) := fun s => hv.pc s.regs w

theorem setSH (w : Word) : Keeps view (setSH w : Exec β Unit) := fun s => hv.sh s.regs w

theorem setFlags (f : Flags) : Keeps view (setFlags f : Exec β Unit) :=
  fun s => hv.setFlags s.regs f

theorem setResult (v : Result 8) : Keeps view (setResult v : Exec β Unit) := by
  intro s
  simp only [Exec.setResult, change_apply, hv.setFlags, hv.setA]

theorem m1 : Keeps view (m1 : Exec β Unit) := fun s => hv.r s.regs _

theorem arith16 (dst src : Reg16) (op : Word → Word → Flags → Result 16) :
    Keeps view (arith16 dst src op : Exec β Unit) := by
  intro s
  simp only [Exec.arith16, store16, bind_apply, regs_apply, change_apply, charge_apply,
    hv.setFlags, hv.set, setSH hv]

theorem loadSpecial (v : Registers → Byte) : Keeps view (loadSpecial v : Exec β Unit) := by
  intro s
  simp only [Exec.loadSpecial, bind_apply, regs_apply, charge_apply, setResult hv]

theorem pushWith {store : Word → Byte → Exec β Unit} (hs : ∀ a v, Keeps view (store a v))
    (w : Word) : Keeps view (pushWith store w) := by
  intro s
  simp only [Exec.pushWith, bind_apply, regs_apply, change_apply, hs, hv.sp]

theorem popWith {load : Word → Exec β Byte} (hl : ∀ a, Keeps view (load a)) :
    Keeps view (popWith load) := by
  intro s
  simp only [Exec.popWith, bind_apply, pure_apply, regs_apply, change_apply, hl, hv.sp]

end Data

variable [Bus β]

theorem readBus (a : Word) : Keeps view (readBus a : Exec β Byte) := fun _ => rfl

theorem writeBus (a : Word) (v : Byte) : Keeps view (writeBus a v : Exec β Unit) := fun _ => rfl

theorem read (a : Word) : Keeps view (read a : Exec β Byte) := fun _ => rfl

theorem write (a : Word) (v : Byte) : Keeps view (write a v : Exec β Unit) := fun _ => rfl

theorem readWord (a : Word) : Keeps view (readWord a : Exec β Word) := fun _ => rfl

theorem writeWord (a w : Word) : Keeps view (writeWord a w : Exec β Unit) := fun _ => rfl

variable (hv : Registers.Apart view)

include hv

theorem fetchByte : Keeps view (fetchByte : Exec β Byte) := fun s => hv.pc s.regs _

theorem fetchWord : Keeps view (fetchWord : Exec β Word) := by
  intro s
  simp only [Exec.fetchWord, bind_apply, pure_apply, fetchByte hv]

theorem input (port : Word) : Keeps view (input port : Exec β Byte) := fun s => hv.sh s.regs _

theorem output (port : Word) (v : Byte) : Keeps view (output port v : Exec β Unit) :=
  fun s => hv.sh s.regs _

theorem push (w : Word) : Keeps view (push w : Exec β Unit) := pushWith hv write w

theorem pop : Keeps view (pop : Exec β Word) := popWith hv read

theorem jumpRelative (taken : Bool) : Keeps view (jumpRelative taken : Exec β Unit) := by
  intro s
  unfold Exec.jumpRelative
  cases taken <;> simp [bind_apply, pure_apply, regs_apply, charge_apply, fetchByte hv, setPC hv,
    setSH hv]

theorem returnTo : Keeps view (returnTo : Exec β Unit) := by
  intro s
  simp only [Exec.returnTo, bind_apply, pop hv, setPC hv, setSH hv]

theorem updateAt (u : Update) (a : Word) : Keeps view (updateAt u a : Exec β Byte) := by
  intro s
  simp only [Exec.updateAt, bind_apply, pure_apply, regs_apply, charge_apply, read, write,
    setFlags hv]

theorem rotateDigit (digits : Byte → Byte → Byte × Byte) :
    Keeps view (rotateDigit digits : Exec β Unit) := by
  intro s
  simp only [Exec.rotateDigit, bind_apply, regs_apply, charge_apply, read, write, setSH hv,
    setResult hv]

theorem address (m : Mem) : Keeps view (m.address : Exec β Word) := by
  intro s
  cases m <;> simp only [Mem.address, bind_apply, pure_apply, regs_apply, charge_apply,
    fetchByte hv, setSH hv]

theorem load (loc : Loc) : Keeps view (loc.read : Exec β Byte) := by
  intro s
  cases loc <;> simp only [Loc.read, bind_apply, pure_apply, regs_apply, read, address hv]

theorem store (v : Byte) (loc : Loc) : Keeps view (loc.write v : Exec β Unit) := by
  intro s
  cases loc <;> simp only [Loc.write, bind_apply, change_apply, hv.reg8, write, address hv]

theorem round (dir : Direction) (op : BlockOp) : Keeps view (op.round dir : Exec β Bool) := by
  intro s
  cases op <;>
    simp only [BlockOp.round, BlockOp.moveOne, BlockOp.searchOne, BlockOp.inputOne,
      BlockOp.outputOne, bind_apply, pure_apply, regs_apply, change_apply, charge_apply, read,
      write, hv.pairs, setFlags hv, input hv, output hv]

theorem block (op : BlockOp) (dir : Direction) (repeats : Bool) :
    Keeps view (op.exec dir repeats : Exec β Unit) := by
  intro s
  simp only [BlockOp.exec, bind_apply]
  split <;> simp only [bind_apply, pure_apply, change_apply, charge_apply, hv.pc, round hv]

theorem ldImm (dst : Loc) : Keeps view (Instr.execLdImm dst : Exec β Unit) := by
  intro s
  rcases dst with _ | _ | _ <;>
    simp only [Instr.execLdImm, bind_apply, regs_apply, change_apply, charge_apply, hv.reg8,
      write, fetchByte hv, setSH hv]

theorem update (u : Update) (loc : Loc) : Keeps view (Instr.execUpdate u loc : Exec β Unit) := by
  intro s
  cases loc <;>
    simp only [Instr.execUpdate, bind_apply, pure_apply, change_apply, hv.setFlags, hv.reg8,
      address hv, updateAt hv]

theorem bitAt (n : BitVec 3) (a : Word) : Keeps view (Instr.execBitAt n a : Exec β Unit) := by
  intro s
  simp only [Instr.execBitAt, bind_apply, regs_apply, read, setFlags hv]

end Keeps

end Exec

/-- The nine kinds of instructions that write beside the data path. -/
def Instr.system : Instr → Bool
  | exAF | exx | ldIA | ldRA | im _ | di | ei | retn | halt => true
  | _ => false

open Exec

variable [Bus β] {view : Registers → γ} {pins : Pins}

theorem Instr.exec_keeps (hv : Registers.Apart view) {i : Instr} (data : i.system = false) :
    Keeps view (i.exec pins : Exec β Unit) := by
  intro s
  cases i with
  | exAF | exx | ldIA | ldRA | im | di | ei | retn | halt => contradiction
  | ld dst src => simp only [exec, bind_apply, Keeps.load hv, Keeps.store hv]
  | ldImm dst => exact Keeps.ldImm hv dst s
  | update u loc => exact Keeps.update hv u loc s
  | block op dir repeats => exact Keeps.block hv op dir repeats s
  | exDEHL => exact hv.pairs s.regs
  | alu op src => simp only [exec, bind_apply, regs_apply, Keeps.load hv, Keeps.setResult hv]
  | bitMem n | bitIndexed n i d =>
    simp only [exec, bind_apply, regs_apply, charge_apply, Keeps.setSH hv, Keeps.bitAt hv]
  | updateIndexed u i d copy =>
    cases copy <;>
      simp only [exec, bind_apply, pure_apply, regs_apply, change_apply, charge_apply, hv.reg8,
        Keeps.setSH hv, Keeps.updateAt hv]
  | inC dst =>
    cases dst <;>
      simp only [exec, bind_apply, regs_apply, change_apply, hv.setFlags, hv.reg8, Keeps.input hv]
  | jp cond =>
    simp only [exec, bind_apply]
    split <;>
      simp only [pure_apply, taken_state, Keeps.fetchWord hv, Keeps.setSH hv, Keeps.setPC hv]
  | jr cond => simp only [exec, bind_apply, taken_state, Keeps.jumpRelative hv]
  | djnz =>
    simp only [exec, bind_apply, regs_apply, change_apply, charge_apply, hv.bc,
      Keeps.jumpRelative hv]
  | call cond =>
    simp only [exec, bind_apply]
    split <;>
      simp only [bind_apply, pure_apply, regs_apply, charge_apply, taken_state,
        Keeps.fetchWord hv, Keeps.setSH hv, Keeps.setPC hv, Keeps.push hv]
  | ret cond =>
    cases cond with
    | none => exact Keeps.returnTo hv s
    | some k =>
      simp only [exec, bind_apply]
      split <;> simp only [pure_apply, charge_apply, taken_state, Keeps.returnTo hv]
  | _ =>
    simp only [exec, bind_apply, pure_apply, regs_apply, change_apply, charge_apply, hv.set,
      hv.sp, hv.setA, hv.setFlags, Keeps.read, Keeps.write, Keeps.readWord, Keeps.writeWord,
      Keeps.fetchByte hv, Keeps.fetchWord hv, Keeps.input hv, Keeps.output hv, Keeps.setPC hv,
      Keeps.setSH hv, Keeps.setResult hv, Keeps.push hv, Keeps.pop hv, Keeps.arith16 hv,
      Keeps.rotateDigit hv, Keeps.loadSpecial hv]

namespace Exec.Keeps

variable (hf : Keeps view (Exec.fetchByte : Exec β Byte))
  (hm : Keeps view (Exec.m1 : Exec β Unit))

include hf hm

theorem resolve (fuel : Nat) (i : Option Index) (op : Byte) :
    Keeps view (resolve fuel i op : Exec β (Option Instr)) := by
  have opcode : Keeps view (Exec.fetchOpcode : Exec β Byte) := by
    intro s
    simp only [Exec.fetchOpcode, bind_apply, pure_apply, hf, hm]
  induction fuel generalizing i op with
  | zero =>
    intro s
    unfold Exec.resolve
    cases Opcode.decode i op with
    | bits =>
      cases i <;> simp only [bind_apply, pure_apply, charge_apply, opcode, hf]
    | _ => simp only [bind_apply, pure_apply, opcode]
  | succ fuel ih =>
    intro s
    unfold Exec.resolve
    cases Opcode.decode i op with
    | bits =>
      cases i <;> simp only [bind_apply, pure_apply, charge_apply, opcode, hf]
    | _ => simp only [bind_apply, pure_apply, opcode, ih _ _ _]

theorem instructionFrom (op : Byte) :
    Keeps view (instructionFrom op : Exec β (Option Instr)) := by
  intro s
  simp only [Exec.instructionFrom, bind_apply, hm, resolve hf hm]

theorem nextInstruction : Keeps view (nextInstruction : Exec β (Option Instr)) := by
  intro s
  simp only [Exec.nextInstruction, bind_apply, hf, instructionFrom hf hm]

theorem supply (op : Byte) : Keeps view (supply op : Exec β (Option Instr)) := by
  intro s
  simp only [Exec.supply, bind_apply, charge_apply, instructionFrom hf hm]

end Exec.Keeps

end Z80
