import Z80.Cpu.Step

/-! Instructions apart from the clock. A core has registers and a bus, and of the time it only
writes down the delays that are met; its clock shows nothing. An instruction does to a whole
processor what it does to a core, and moves its clock on by these delays; so all that an
instruction does can be looked at without a clock. -/
namespace Z80

variable {α β γ σ τ : Type}

structure Core (β : Type) where
  regs : Registers
  bus : β
  /-- The delays met so far, the latest first. -/
  charges : List Delay := []

abbrev Exec (β : Type) := Action (Core β)

namespace Core

instance : Carrier (Core β) where
  regs := Core.regs
  setRegs s regs := { s with regs }
  now _ := 0
  charge s d := { s with charges := d :: s.charges }
  redraw s _ := s

instance [Bus β] : Bus (Core β) where
  read s address := let (v, bus) := Bus.read s.bus address; (v, { s with bus })
  write s address v := { s with bus := Bus.write s.bus address v }
  input s port := let (v, bus) := Bus.input s.bus port; (v, { s with bus })
  output s port v := { s with bus := Bus.output s.bus port v }

end Core

/-- A map between two kinds of state that all steps go along with but those that read the clock
or draw the horizon. -/
structure Carrier.Hom [Carrier σ] [Bus σ] [Carrier τ] [Bus τ] (φ : σ → τ) : Prop where
  regs (s : σ) : Carrier.regs (φ s) = Carrier.regs s
  setRegs (s : σ) (r : Registers) : Carrier.setRegs (φ s) r = φ (Carrier.setRegs s r)
  charge (s : σ) (d : Delay) : Carrier.charge (φ s) d = φ (Carrier.charge s d)
  read (s : σ) (a : Word) : Bus.read (φ s) a = ((Bus.read s a).1, φ (Bus.read s a).2)
  write (s : σ) (a : Word) (v : Byte) : Bus.write (φ s) a v = φ (Bus.write s a v)
  input (s : σ) (a : Word) : Bus.input (φ s) a = ((Bus.input s a).1, φ (Bus.input s a).2)
  output (s : σ) (a : Word) (v : Byte) : Bus.output (φ s) a v = φ (Bus.output s a v)

namespace Exec

theorem bind_apply (x : Action σ α) (f : α → Action σ γ) (s : σ) :
    (x >>= f) s = f (x s).1 (x s).2 := rfl

theorem pure_apply (a : α) (s : σ) : (pure a : Action σ α) s = (a, s) := rfl

section

variable (s : Core β)

theorem regs_apply : (regs : Exec β Registers) s = (s.regs, s) := rfl

theorem change_apply (f : Registers → Registers) :
    (change f : Exec β Unit) s = ((), { s with regs := f s.regs }) := rfl

theorem charge_apply (d : Delay) :
    (charge d : Exec β Unit) s = ((), { s with charges := d :: s.charges }) := rfl

theorem redraw_apply : (redraw : Exec β Unit) s = ((), s) := rfl

theorem taken_state (cond : Option Condition) : ((taken cond : Exec β Bool) s).2 = s := rfl

end

/-- `y` does after `φ` what `x` does before it. -/
abbrev Follows (φ : σ → τ) (y : Action τ α) (x : Action σ α) : Prop :=
  ∀ s, y (φ s) = ((x s).1, φ (x s).2)

namespace Follows

variable {φ : σ → τ}

variable [Carrier σ] [Bus σ] [Carrier τ] [Bus τ] (h : Carrier.Hom φ)

include h

theorem regs : Follows φ regs regs := by
  intro s
  change (Carrier.regs (φ s), φ s) = _
  rw [h.regs]
  rfl

theorem change (f : Registers → Registers) : Follows φ (change f) (change f) := by
  intro s
  change ((), Carrier.setRegs (φ s) (f (Carrier.regs (φ s)))) = _
  rw [h.regs, h.setRegs]
  rfl

theorem charge (d : Delay) : Follows φ (charge d) (charge d) :=
  fun s => congrArg (Prod.mk ()) (h.charge s d)

theorem readBus (a : Word) : Follows φ (readBus a) (readBus a) := fun s => h.read s a

theorem writeBus (a : Word) (v : Byte) : Follows φ (writeBus a v) (writeBus a v) :=
  fun s => congrArg (Prod.mk ()) (h.write s a v)

theorem readPort (port : Word) : Follows φ (readPort port) (readPort port) :=
  fun s => h.input s port

theorem writePort (port : Word) (v : Byte) : Follows φ (writePort port v) (writePort port v) :=
  fun s => congrArg (Prod.mk ()) (h.output s port v)

theorem setPC (w : Word) : Follows φ (setPC w) (setPC w) := change h _

theorem setSH (w : Word) : Follows φ (setSH w) (setSH w) := change h _

theorem setFlags (f : Flags) : Follows φ (setFlags f) (setFlags f) := change h _

theorem setResult (v : Result 8) : Follows φ (setResult v) (setResult v) := change h _

theorem m1 : Follows φ m1 m1 := by
  intro s
  simp only [Exec.m1, bind_apply, change h, charge h]

theorem read (a : Word) : Follows φ (read a) (read a) := by
  intro s
  simp only [Exec.read, bind_apply, charge h, readBus h]

theorem write (a : Word) (v : Byte) : Follows φ (write a v) (write a v) := by
  intro s
  simp only [Exec.write, bind_apply, charge h, writeBus h]

theorem readWord (a : Word) : Follows φ (readWord a) (readWord a) := by
  intro s
  simp only [Exec.readWord, bind_apply, pure_apply, read h]

theorem writeWord (a w : Word) : Follows φ (writeWord a w) (writeWord a w) := by
  intro s
  simp only [Exec.writeWord, bind_apply, write h]

theorem fetchByte : Follows φ fetchByte fetchByte := by
  intro s
  simp only [Exec.fetchByte, bind_apply, regs h, setPC h, charge h, readBus h]

theorem fetchWord : Follows φ fetchWord fetchWord := by
  intro s
  simp only [Exec.fetchWord, bind_apply, pure_apply, fetchByte h]

theorem fetchOpcode : Follows φ fetchOpcode fetchOpcode := by
  intro s
  simp only [Exec.fetchOpcode, bind_apply, pure_apply, fetchByte h, m1 h]

theorem input (port : Word) : Follows φ (input port) (input port) := by
  intro s
  simp only [Exec.input, bind_apply, pure_apply, setSH h, charge h, readPort h]

theorem output (port : Word) (v : Byte) : Follows φ (output port v) (output port v) := by
  intro s
  simp only [Exec.output, bind_apply, setSH h, charge h, writePort h]

theorem push (w : Word) : Follows φ (push w) (push w) := by
  intro s
  simp only [Exec.push, pushWith, bind_apply, regs h, write h, change h]

theorem pushUntimed (w : Word) : Follows φ (pushUntimed w) (pushUntimed w) := by
  intro s
  simp only [Exec.pushUntimed, pushWith, bind_apply, regs h, writeBus h, change h]

theorem pop : Follows φ pop pop := by
  intro s
  simp only [Exec.pop, popWith, bind_apply, pure_apply, regs h, read h, change h]

theorem taken (cond : Option Condition) : Follows φ (taken cond) (taken cond) := by
  intro s
  simp only [Exec.taken, bind_apply, pure_apply, regs h]

theorem jumpRelative (taken : Bool) : Follows φ (jumpRelative taken) (jumpRelative taken) := by
  intro s
  unfold Exec.jumpRelative
  cases taken <;> simp [bind_apply, pure_apply, fetchByte h, regs h, setPC h, setSH h, charge h]

theorem returnTo : Follows φ returnTo returnTo := by
  intro s
  simp only [Exec.returnTo, bind_apply, pop h, setPC h, setSH h]

theorem arith16 (dst src : Reg16) (op : Word → Word → Flags → Result 16) :
    Follows φ (arith16 dst src op) (arith16 dst src op) := by
  intro s
  simp only [Exec.arith16, store16, bind_apply, regs h, setSH h, change h, charge h]

theorem updateAt (u : Update) (a : Word) : Follows φ (updateAt u a) (updateAt u a) := by
  intro s
  simp only [Exec.updateAt, bind_apply, pure_apply, read h, regs h, setFlags h, charge h, write h]

theorem rotateDigit (digits : Byte → Byte → Byte × Byte) :
    Follows φ (rotateDigit digits) (rotateDigit digits) := by
  intro s
  simp only [Exec.rotateDigit, bind_apply, regs h, read h, setSH h, charge h, write h, setResult h]

theorem loadSpecial (v : Registers → Byte) : Follows φ (loadSpecial v) (loadSpecial v) := by
  intro s
  simp only [Exec.loadSpecial, bind_apply, regs h, setResult h, charge h]

theorem address (m : Mem) : Follows φ m.address m.address := by
  intro s
  cases m <;>
    simp only [Mem.address, bind_apply, pure_apply, regs h, fetchByte h, charge h, setSH h]

theorem load (loc : Loc) : Follows φ loc.read loc.read := by
  intro s
  cases loc <;> simp only [Loc.read, bind_apply, pure_apply, regs h, address h, read h]

theorem store (loc : Loc) (v : Byte) : Follows φ (loc.write v) (loc.write v) := by
  intro s
  cases loc <;> simp only [Loc.write, bind_apply, change h, address h, write h]

theorem ldImm (loc : Loc) : Follows φ (Instr.execLdImm loc) (Instr.execLdImm loc) := by
  intro s
  rcases loc with _ | _ | _ <;>
    simp only [Instr.execLdImm, bind_apply, fetchByte h, change h, regs h, charge h, setSH h,
      write h]

theorem update (u : Update) (loc : Loc) :
    Follows φ (Instr.execUpdate u loc) (Instr.execUpdate u loc) := by
  intro s
  cases loc <;>
    simp only [Instr.execUpdate, bind_apply, pure_apply, change h, address h, updateAt h]

theorem bitAt (n : BitVec 3) (a : Word) :
    Follows φ (Instr.execBitAt n a) (Instr.execBitAt n a) := by
  intro s
  simp only [Instr.execBitAt, bind_apply, read h, regs h, setFlags h]

theorem round (op : BlockOp) (dir : Direction) : Follows φ (op.round dir) (op.round dir) := by
  intro s
  cases op <;>
    simp only [BlockOp.round, BlockOp.moveOne, BlockOp.searchOne, BlockOp.inputOne,
      BlockOp.outputOne, bind_apply, pure_apply, regs h, read h, write h, charge h, change h,
      setFlags h, input h, output h]

theorem block (op : BlockOp) (dir : Direction) (repeats : Bool) :
    Follows φ (op.exec dir repeats) (op.exec dir repeats) := by
  intro s
  simp only [BlockOp.exec, bind_apply, round h]
  split <;> simp only [bind_apply, pure_apply, charge h, change h]

end Follows

end Exec

/-- Whether the instruction can change what the processor must decide next, so that it draws the
horizon when it is done. -/
def Instr.reschedules : Instr → Bool
  | di | ei | retn | halt => true
  | _ => false

open Exec Follows

section

variable [Carrier σ] [Bus σ] [Carrier τ] [Bus τ] {φ : σ → τ} (h : Carrier.Hom φ)

include h

theorem Instr.exec_follows (pins : Pins) {i : Instr} (plain : i.reschedules = false) :
    Follows φ (i.exec pins) (i.exec pins) := by
  intro s
  cases i with
  | di | ei | retn | halt => contradiction
  | ld dst src => simp only [exec, bind_apply, load h, store h]
  | ldImm dst => exact Follows.ldImm h dst s
  | update u loc => exact Follows.update h u loc s
  | block op dir repeats => exact Follows.block h op dir repeats s
  | alu op src => simp only [exec, bind_apply, load h, regs h, setResult h]
  | bitMem n | bitIndexed n i d =>
    simp only [exec, bind_apply, charge h, regs h, setSH h, bitAt h]
  | updateIndexed u i d copy =>
    cases copy <;>
      simp only [exec, bind_apply, pure_apply, regs h, setSH h, charge h, updateAt h, change h]
  | inC dst => cases dst <;> simp only [exec, bind_apply, regs h, Follows.input h, change h]
  | jp cond =>
    simp only [exec, bind_apply, fetchWord h, setSH h, taken h]
    split <;> simp only [pure_apply, setPC h]
  | jr cond => simp only [exec, bind_apply, taken h, jumpRelative h]
  | djnz => simp only [exec, bind_apply, charge h, regs h, change h, jumpRelative h]
  | call cond =>
    simp only [exec, bind_apply, fetchWord h, setSH h, taken h]
    split <;> simp only [bind_apply, pure_apply, charge h, regs h, Follows.push h, setPC h]
  | ret cond =>
    cases cond with
    | none => exact Follows.returnTo h s
    | some k =>
      simp only [exec, bind_apply, charge h, taken h]
      split <;> simp only [pure_apply, returnTo h]
  | _ =>
    simp only [exec, bind_apply, pure_apply, regs h, change h, charge h, read h, write h,
      readWord h, writeWord h, fetchByte h, fetchWord h, input h, output h, setPC h, setSH h,
      setResult h, Follows.push h, Follows.pop h, arith16 h, rotateDigit h, loadSpecial h]

end

namespace Exec.Follows

variable [Carrier σ] [Bus σ] [Carrier τ] [Bus τ] {φ : σ → τ}

section

variable (byte : Follows φ Exec.fetchByte Exec.fetchByte) (refresh : Follows φ Exec.m1 Exec.m1)
  (wait : ∀ d, Follows φ (Exec.charge d) (Exec.charge d))

include byte refresh wait

theorem resolve (fuel : Nat) (i : Option Index) (op : Byte) :
    Follows φ (resolve fuel i op) (resolve fuel i op) := by
  have opcode : Follows φ Exec.fetchOpcode Exec.fetchOpcode := by
    intro s
    simp only [Exec.fetchOpcode, bind_apply, pure_apply, byte, refresh]
  induction fuel generalizing i op with
  | zero =>
    intro s
    unfold Exec.resolve
    cases Opcode.decode i op with
    | bits => cases i <;> simp only [bind_apply, pure_apply, opcode, byte, wait]
    | _ => simp only [bind_apply, pure_apply, opcode]
  | succ fuel ih =>
    intro s
    unfold Exec.resolve
    cases Opcode.decode i op with
    | bits => cases i <;> simp only [bind_apply, pure_apply, opcode, byte, wait]
    | _ => simp only [bind_apply, pure_apply, opcode, ih _ _ _]

theorem instructionFrom (op : Byte) : Follows φ (instructionFrom op) (instructionFrom op) := by
  intro s
  simp only [Exec.instructionFrom, bind_apply, refresh, resolve byte refresh wait]

theorem nextInstruction : Follows φ nextInstruction nextInstruction := by
  intro s
  simp only [Exec.nextInstruction, bind_apply, byte, instructionFrom byte refresh wait]

theorem supply (op : Byte) : Follows φ (supply op) (supply op) := by
  intro s
  simp only [Exec.supply, bind_apply, wait, instructionFrom byte refresh wait]

end

variable (h : Carrier.Hom φ)

include h

theorem serveNmi : Follows φ serveNmi serveNmi := by
  intro s
  simp only [Exec.serveNmi, bind_apply, regs h, pushUntimed h, change h, m1 h, charge h]

theorem serveVector (vector : Word) : Follows φ (serveVector vector) (serveVector vector) := by
  intro s
  simp only [Exec.serveVector, bind_apply, regs h, pushUntimed h, readBus h, setPC h, m1 h,
    charge h]

end Exec.Follows

namespace Cpu

variable [Bus β] (c : Cpu)

omit [Bus β] in
def settle (s : Core β) : Cpu :=
  { c with regs := s.regs, now := c.now + c.timing.total s.charges }

/-- The processor with the registers and the bus of a core, when the delays have passed. -/
def clocked (s : Core β) : Clocked β := ⟨c.settle s, s.bus⟩

theorem clocked_hom : Carrier.Hom (c.clocked : Core β → Clocked β) where
  charge s d := by
    have later : c.now + c.timing.total s.charges + c.timing.cost d =
        c.now + c.timing.total (d :: s.charges) := by
      rw [Timing.total_cons, BitVec.add_assoc, BitVec.add_comm (c.timing.cost d)]
    exact congrArg (fun now => (⟨{ c with regs := s.regs, now }, s.bus⟩ : Clocked β)) later
  regs _ := rfl
  setRegs _ _ := rfl
  read _ _ := rfl
  write _ _ _ := rfl
  input _ _ := rfl
  output _ _ _ := rfl

omit [Bus β] in
theorem clocked_start (bus : β) : c.clocked { regs := c.regs, bus } = ⟨c, bus⟩ := by
  simp [clocked, settle]

/-- On a whole processor an instruction does what it does on a core. The clock is moved on by the
delays that it names, and DI, EI, RETN and HALT draw the horizon by the time at which they end. -/
theorem exec_clocked (pins : Pins) (i : Instr) (s : Core β) :
    (i.exec pins (c.clocked s)).2 =
      { c.clocked (i.exec pins s).2 with
        cpu := if i.reschedules then (c.settle (i.exec pins s).2).refresh
          else c.settle (i.exec pins s).2 } := by
  cases plain : i.reschedules with
  | false =>
    rw [i.exec_follows c.clocked_hom pins plain]
    rfl
  | true =>
    cases i with
    | retn =>
      simp only [Instr.exec, bind_apply, Follows.change c.clocked_hom,
        Follows.returnTo c.clocked_hom]
      rfl
    | di | ei | halt =>
      simp only [Instr.exec, Exec.halt, bind_apply, Follows.change c.clocked_hom]
      rfl
    | _ => contradiction

end Cpu

end Z80
