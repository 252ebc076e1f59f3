import Z80.Proofs.Ran

/-! Pairs that change places. An instruction reaches HL, IX and IY through its operands, so with
two of them exchanged in the registers and in the operands it does the same as before. What
reaches HL without naming it does so only as long as HL stays where it is. -/
namespace Z80

variable {α β γ : Type}

inductive Swap where
  | hl (i : Index)
  | index
  deriving DecidableEq

namespace Swap

def pair (σ : Swap) : Reg16 → Reg16
  | .hl => match σ with
    | hl i => i.pair
    | index => .hl
  | .ix => match σ with
    | hl .ix => .hl
    | hl .iy => .ix
    | index => .iy
  | .iy => match σ with
    | hl .ix => .iy
    | hl .iy => .hl
    | index => .ix
  | x => x

def reg8 (σ : Swap) : Reg8 → Reg8
  | .h => match σ with
    | hl i => i.high
    | index => .h
  | .l => match σ with
    | hl i => i.low
    | index => .l
  | .ixh => match σ with
    | hl .ix => .h
    | hl .iy => .ixh
    | index => .iyh
  | .ixl => match σ with
    | hl .ix => .l
    | hl .iy => .ixl
    | index => .iyl
  | .iyh => match σ with
    | hl .ix => .iyh
    | hl .iy => .h
    | index => .ixh
  | .iyl => match σ with
    | hl .ix => .iyl
    | hl .iy => .l
    | index => .ixl
  | x => x

/-- The index register that takes the place of another. HL cannot, as it has no displacement. -/
def base (σ : Swap) (i : Index) : Index :=
  match σ, i with
  | hl _, i => i
  | index, .ix => .iy
  | index, .iy => .ix

def mem (σ : Swap) : Mem → Mem
  | .hl => .hl
  | .indexed i => .indexed (σ.base i)

def loc (σ : Swap) : Loc → Loc
  | .reg x => .reg (σ.reg8 x)
  | .mem m => .mem (σ.mem m)

def regs (σ : Swap) (r : Registers) : Registers :=
  { r with hl := r.get (σ.pair .hl), ix := r.get (σ.pair .ix), iy := r.get (σ.pair .iy) }

def core (σ : Swap) (s : Core β) : Core β := { s with regs := σ.regs s.regs }

variable (σ : Swap) (r : Registers)

@[simp] theorem regs_regs : σ.regs (σ.regs r) = r := by
  rcases σ with (_ | _) | _ <;> rfl

@[simp] theorem get_regs (x : Reg16) : (σ.regs r).get (σ.pair x) = r.get x := by
  rcases σ with (_ | _) | _ <;> cases x <;> rfl

theorem regs_set (x : Reg16) (w : Word) :
    (σ.regs r).set (σ.pair x) w = σ.regs (r.set x w) := by
  rcases σ with (_ | _) | _ <;> cases x <;> rfl

theorem pair_reg8 (x : Reg8) : (σ.reg8 x).pair = σ.pair x.pair := by
  rcases σ with (_ | _) | _ <;> cases x <;> rfl

theorem isHigh_reg8 (x : Reg8) : (σ.reg8 x).isHigh = x.isHigh := by
  rcases σ with (_ | _) | _ <;> cases x <;> rfl

@[simp] theorem reg8_get (x : Reg8) : (σ.reg8 x).get (σ.regs r) = x.get r := by
  rw [Reg8.get, Reg8.get, pair_reg8, isHigh_reg8, get_regs]

theorem reg8_set (x : Reg8) (v : Byte) : (σ.reg8 x).set v (σ.regs r) = σ.regs (x.set v r) := by
  rw [Reg8.set, Reg8.set, pair_reg8, isHigh_reg8, get_regs, regs_set]

theorem regs_setFlags (f : Flags) : (σ.regs r).setFlags f = σ.regs (r.setFlags f) :=
  σ.regs_set r .af _

theorem regs_setA (v : Byte) : (σ.regs r).setA v = σ.regs (r.setA v) := σ.regs_set r .af _

theorem set_pc (w : Word) : { σ.regs r with pc := w } = σ.regs { r with pc := w } := by
  rcases σ with (_ | _) | _ <;> rfl

theorem set_sh (w : Word) : { σ.regs r with sh := w } = σ.regs { r with sh := w } := by
  rcases σ with (_ | _) | _ <;> rfl

@[simp] theorem regs_pc : (σ.regs r).pc = r.pc := rfl

@[simp] theorem regs_sp : (σ.regs r).sp = r.sp := rfl

@[simp] theorem regs_bc : (σ.regs r).bc = r.bc := rfl

@[simp] theorem regs_sh : (σ.regs r).sh = r.sh := rfl

@[simp] theorem regs_iff1 : (σ.regs r).iff1 = r.iff1 := rfl

@[simp] theorem regs_a : (σ.regs r).a = r.a := rfl

@[simp] theorem regs_flags : (σ.regs r).flags = r.flags := rfl

@[simp] theorem index_hl : (index.regs r).hl = r.hl := rfl

@[simp] theorem index_displaced (i : Index) (d : Byte) :
    Mem.displaced (index.base i) d (index.regs r) = Mem.displaced i d r := by
  cases i <;> rfl

@[simp] theorem core_regs (s : Core β) : (σ.core s).regs = σ.regs s.regs := rfl

end Swap

/-- Whether an operand is a register, which can be exchanged by name. -/
def Loc.isReg : Loc → Bool
  | reg _ => true
  | mem _ => false

namespace Instr

def named : Instr → Bool
  | ld dst src => dst.isReg && src.isReg
  | ldImm loc | alu _ loc | update _ loc => loc.isReg
  | bitMem _ | updateIndexed .. | bitIndexed .. | exDEHL | exx | adcHL _ | sbcHL _ | rrd | rld
  | block .. => false
  | _ => true

def swap (σ : Swap) : Instr → Instr
  | ld dst src => ld (σ.loc dst) (σ.loc src)
  | ldImm dst => ldImm (σ.loc dst)
  | ldPair dst => ldPair (σ.pair dst)
  | loadPair dst => loadPair (σ.pair dst)
  | storePair src => storePair (σ.pair src)
  | loadA pointer => loadA (σ.pair pointer)
  | storeA pointer => storeA (σ.pair pointer)
  | ldSp src => ldSp (σ.pair src)
  | push src => push (σ.pair src)
  | pop dst => pop (σ.pair dst)
  | exStack x => exStack (σ.pair x)
  | alu op src => alu op (σ.loc src)
  | .update u loc => .update u (σ.loc loc)
  | bit n x => bit n (σ.reg8 x)
  | updateIndexed u i d copy => updateIndexed u (σ.base i) d (copy.map σ.reg8)
  | bitIndexed n i d => bitIndexed n (σ.base i) d
  | incPair x => incPair (σ.pair x)
  | decPair x => decPair (σ.pair x)
  | addPair dst src => addPair (σ.pair dst) (σ.pair src)
  | adcHL src => adcHL (σ.pair src)
  | sbcHL src => sbcHL (σ.pair src)
  | jpPair target => jpPair (σ.pair target)
  | inC dst => inC (dst.map σ.reg8)
  | outC src => outC (src.map σ.reg8)
  | i => i

theorem reschedules_swap (σ : Swap) (i : Instr) : (i.swap σ).reschedules = i.reschedules := by
  cases i <;> rfl

end Instr

namespace Exec

/-- From exchanged registers `y` does what `x` does, and leaves them exchanged. -/
abbrev Mirrors (σ : Swap) (x y : Exec β α) : Prop := Follows σ.core y x

namespace Mirrors

variable {σ : Swap}

theorem charge (d : Delay) : Mirrors σ (charge d : Exec β Unit) (charge d) := fun _ => rfl

theorem change {f f' : Registers → Registers} (h : ∀ r, f' (σ.regs r) = σ.regs (f r)) :
    Mirrors σ (change f : Exec β Unit) (change f') :=
  fun s => Prod.ext rfl (congrArg (fun regs => { s with regs }) (h s.regs))

theorem setFlags (f : Flags) : Mirrors σ (setFlags f : Exec β Unit) (setFlags f) :=
  change fun r => σ.regs_setFlags r f

theorem setPC (w : Word) : Mirrors σ (setPC w : Exec β Unit) (setPC w) :=
  change fun r => σ.set_pc r w

theorem setSH (w : Word) : Mirrors σ (setSH w : Exec β Unit) (setSH w) :=
  change fun r => σ.set_sh r w

theorem setSP (w : Word) :
    Mirrors σ (Exec.change fun r => { r with sp := w } : Exec β Unit)
      (Exec.change fun r => { r with sp := w }) :=
  change fun r => σ.regs_set r .sp w

theorem setPair (x : Reg16) (w : Word) :
    Mirrors σ (Exec.change (·.set x w) : Exec β Unit) (Exec.change (·.set (σ.pair x) w)) :=
  change fun r => σ.regs_set r x w

theorem mapPair (dst src : Reg16) (f : Word → Word) :
    Mirrors σ (Exec.change fun r => r.set dst (f (r.get src)) : Exec β Unit)
      (Exec.change fun r => r.set (σ.pair dst) (f (r.get (σ.pair src)))) :=
  change fun r => by rw [σ.get_regs, σ.regs_set]

theorem setReg (x : Reg8) (v : Byte) :
    Mirrors σ (Exec.change (x.set v) : Exec β Unit) (Exec.change ((σ.reg8 x).set v)) :=
  change fun r => σ.reg8_set r x v

theorem setA (v : Byte) :
    Mirrors σ (Exec.change (·.setA v) : Exec β Unit) (Exec.change (·.setA v)) :=
  change fun r => σ.regs_setA r v

theorem mapFlags {f : Registers → Flags} (h : ∀ r, f (σ.regs r) = f r) :
    Mirrors σ (Exec.change fun r => r.setFlags (f r) : Exec β Unit)
      (Exec.change fun r => r.setFlags (f r)) :=
  change fun r => by rw [h, σ.regs_setFlags]

theorem setResult (v : Result 8) : Mirrors σ (setResult v : Exec β Unit) (setResult v) :=
  change fun r => by rw [σ.regs_setA, σ.regs_setFlags]

theorem taken (cond : Option Condition) : Mirrors σ (taken cond : Exec β Bool) (taken cond) :=
  fun _ => rfl

theorem halt (pins : Pins) : Mirrors σ (halt pins : Exec β Unit) (halt pins) := by
  intro s
  refine Prod.ext rfl (congrArg (fun regs => { s with regs }) ?_)
  change (if pins.eligible s.regs.iff1 then _ else _) =
    σ.regs (if pins.eligible s.regs.iff1 then _ else _)
  split <;> rcases σ with (_ | _) | _ <;> rfl

theorem arith16 (dst src : Reg16) (op : Word → Word → Flags → Result 16) :
    Mirrors σ (arith16 dst src op : Exec β Unit) (arith16 (σ.pair dst) (σ.pair src) op) := by
  have stored (v : Result 16) : Mirrors σ (store16 dst v : Exec β Unit) (store16 (σ.pair dst) v) :=
    change fun r => by rw [σ.regs_set, σ.regs_setFlags]
  intro s
  simp only [Exec.arith16, bind_apply, regs_apply, σ.core_regs, σ.get_regs, σ.regs_flags,
    setSH, stored, charge]

theorem loadSpecial {v : Registers → Byte} (h : ∀ r, v (σ.regs r) = v r) :
    Mirrors σ (loadSpecial v : Exec β Unit) (loadSpecial v) := by
  have iff2 (r : Registers) : (σ.regs r).iff2 = r.iff2 := rfl
  intro s
  simp only [Exec.loadSpecial, bind_apply, regs_apply, σ.core_regs, h, iff2, σ.regs_flags,
    setResult, charge]

variable [Bus β]

theorem read (a : Word) : Mirrors σ (read a : Exec β Byte) (read a) := fun _ => rfl

theorem write (a : Word) (v : Byte) : Mirrors σ (write a v : Exec β Unit) (write a v) :=
  fun _ => rfl

theorem readWord (a : Word) : Mirrors σ (readWord a : Exec β Word) (readWord a) := fun _ => rfl

theorem writeWord (a w : Word) : Mirrors σ (writeWord a w : Exec β Unit) (writeWord a w) :=
  fun _ => rfl

theorem push (w : Word) : Mirrors σ (push w : Exec β Unit) (push w) := by
  intro s
  simp only [Exec.push, pushWith, bind_apply, regs_apply, σ.core_regs, σ.regs_sp, write, setSP]

theorem pop : Mirrors σ (pop : Exec β Word) pop := by
  intro s
  simp only [Exec.pop, popWith, bind_apply, pure_apply, regs_apply, σ.core_regs, σ.regs_sp, read,
    setSP]

theorem fetchByte : Mirrors σ (fetchByte : Exec β Byte) fetchByte := by
  have readBus (a : Word) : Mirrors σ (readBus a : Exec β Byte) (readBus a) := fun _ => rfl
  intro s
  simp only [Exec.fetchByte, bind_apply, regs_apply, σ.core_regs, σ.regs_pc, setPC, charge,
    readBus]

theorem fetchWord : Mirrors σ (fetchWord : Exec β Word) fetchWord := by
  intro s
  simp only [Exec.fetchWord, bind_apply, pure_apply, fetchByte]

theorem input (port : Word) : Mirrors σ (input port : Exec β Byte) (input port) := by
  have readPort (a : Word) : Mirrors σ (readPort a : Exec β Byte) (readPort a) := fun _ => rfl
  intro s
  simp only [Exec.input, bind_apply, pure_apply, setSH, charge, readPort]

theorem output (port : Word) (v : Byte) :
    Mirrors σ (output port v : Exec β Unit) (output port v) := by
  have writePort : Mirrors σ (writePort port v : Exec β Unit) (writePort port v) := fun _ => rfl
  intro s
  simp only [Exec.output, bind_apply, setSH, charge, writePort]

theorem jumpRelative (taken : Bool) :
    Mirrors σ (jumpRelative taken : Exec β Unit) (jumpRelative taken) := by
  intro s
  unfold Exec.jumpRelative
  cases taken <;>
    simp [bind_apply, pure_apply, regs_apply, fetchByte, setPC, setSH, charge]

theorem returnTo : Mirrors σ (returnTo : Exec β Unit) returnTo := by
  intro s
  simp only [Exec.returnTo, bind_apply, pop, setPC, setSH]

theorem updateAt (u : Update) (a : Word) :
    Mirrors σ (updateAt u a : Exec β Byte) (updateAt u a) := by
  intro s
  simp only [Exec.updateAt, bind_apply, pure_apply, regs_apply, σ.core_regs, σ.regs_flags, read,
    setFlags, charge, write]

theorem bitAt (n : BitVec 3) (a : Word) :
    Mirrors σ (Instr.execBitAt n a : Exec β Unit) (Instr.execBitAt n a) := by
  intro s
  simp only [Instr.execBitAt, bind_apply, regs_apply, σ.core_regs, σ.regs_flags, σ.regs_sh, read,
    setFlags]

theorem address (m : Mem) :
    Mirrors .index (m.address : Exec β Word) (Mem.address (Swap.mem .index m)) := by
  intro s
  cases m <;>
    simp only [Swap.mem, Mem.address, bind_apply, pure_apply, regs_apply, Swap.core_regs,
      Swap.index_hl, Swap.index_displaced, fetchByte, charge, setSH]

theorem load {loc : Loc} (h : σ = .index ∨ loc.isReg = true) :
    Mirrors σ (loc.read : Exec β Byte) (Loc.read (σ.loc loc)) := by
  intro s
  cases loc with
  | reg x =>
    simp only [Swap.loc, Loc.read, bind_apply, pure_apply, regs_apply, σ.core_regs, σ.reg8_get]
  | mem m =>
    obtain rfl : σ = .index := by simpa [Loc.isReg] using h
    simp only [Swap.loc, Loc.read, bind_apply, address, read]

theorem store {loc : Loc} (h : σ = .index ∨ loc.isReg = true) (v : Byte) :
    Mirrors σ (loc.write v : Exec β Unit) (Loc.write (σ.loc loc) v) := by
  intro s
  cases loc with
  | reg x => exact setReg x v s
  | mem m =>
    obtain rfl : σ = .index := by simpa [Loc.isReg] using h
    simp only [Swap.loc, Loc.write, bind_apply, address, write]

theorem ldImm {loc : Loc} (h : σ = .index ∨ loc.isReg = true) :
    Mirrors σ (Instr.execLdImm loc : Exec β Unit) (Instr.execLdImm (σ.loc loc)) := by
  intro s
  cases loc with
  | reg x => simp only [Swap.loc, Instr.execLdImm, bind_apply, fetchByte, setReg]
  | mem m =>
    obtain rfl : σ = .index := by simpa [Loc.isReg] using h
    cases m <;>
      simp only [Swap.loc, Swap.mem, Instr.execLdImm, bind_apply, regs_apply, Swap.core_regs,
        Swap.index_hl, Swap.index_displaced, fetchByte, charge, setSH, write]

theorem update (u : Update) {loc : Loc} (h : σ = .index ∨ loc.isReg = true) :
    Mirrors σ (Instr.execUpdate u loc : Exec β Unit) (Instr.execUpdate u (σ.loc loc)) := by
  cases loc with
  | reg x =>
    simp only [Swap.loc, Instr.execUpdate]
    refine change fun r => ?_
    rw [σ.reg8_get, σ.regs_flags, σ.reg8_set, σ.regs_setFlags]
  | mem m =>
    obtain rfl : σ = .index := by simpa [Loc.isReg] using h
    intro s
    simp only [Swap.loc, Instr.execUpdate, bind_apply, pure_apply, address, updateAt]

theorem rotateDigit (digits : Byte → Byte → Byte × Byte) :
    Mirrors .index (rotateDigit digits : Exec β Unit) (rotateDigit digits) := by
  intro s
  simp only [Exec.rotateDigit, bind_apply, regs_apply, Swap.core_regs, Swap.index_hl,
    Swap.regs_a, Swap.regs_flags, read, setSH, charge, write, setResult]

theorem block (op : BlockOp) (dir : Direction) (repeats : Bool) :
    Mirrors .index (op.exec dir repeats : Exec β Unit) (op.exec dir repeats) := by
  have round : Mirrors .index (op.round dir : Exec β Bool) (op.round dir) := by
    cases op <;> exact fun _ => rfl
  have back : Mirrors .index (Exec.change fun r => { r with pc := r.pc - 2 } : Exec β Unit)
      (Exec.change fun r => { r with pc := r.pc - 2 }) := fun _ => rfl
  intro s
  simp only [BlockOp.exec, bind_apply, round]
  split <;> simp only [bind_apply, pure_apply, charge, back]

end Mirrors

end Exec

open Exec Mirrors

variable [Bus β] {σ : Swap} {pins : Pins}

/-- What reaches HL without naming it needs HL to stay where it is. -/
theorem Instr.exec_swap (i : Instr) (h : σ = .index ∨ i.named = true) :
    Mirrors σ (i.exec pins : Exec β Unit) ((i.swap σ).exec pins) := by
  intro s
  cases i with
  | ld dst src =>
    have both : (σ = .index ∨ dst.isReg = true) ∧ (σ = .index ∨ src.isReg = true) := by
      simpa [named, or_and_left] using h
    simp only [exec, swap, bind_apply, load both.2, store both.1]
  | ldImm dst => exact Mirrors.ldImm h s
  | alu op src =>
    simp only [exec, swap, bind_apply, regs_apply, σ.core_regs, σ.regs_a, σ.regs_flags, load h,
      Mirrors.setResult]
  | update u loc => exact Mirrors.update u h s
  | exDEHL | exx =>
    obtain rfl : σ = .index := h.resolve_right Bool.false_ne_true
    rfl
  | bitMem n =>
    obtain rfl : σ = .index := h.resolve_right Bool.false_ne_true
    simp only [exec, swap, bind_apply, regs_apply, Swap.core_regs, Swap.index_hl, Mirrors.charge,
      Mirrors.bitAt]
  | updateIndexed u i d copy =>
    obtain rfl : σ = .index := h.resolve_right Bool.false_ne_true
    cases copy <;>
      simp only [exec, swap, bind_apply, pure_apply, regs_apply, Swap.core_regs,
        Swap.index_displaced, Option.map_none, Option.map_some, Mirrors.setSH, Mirrors.charge,
        Mirrors.updateAt, setReg]
  | bitIndexed n i d =>
    obtain rfl : σ = .index := h.resolve_right Bool.false_ne_true
    simp only [exec, swap, bind_apply, regs_apply, Swap.core_regs, Swap.index_displaced,
      Mirrors.setSH, Mirrors.charge, Mirrors.bitAt]
  | adcHL src =>
    obtain rfl : σ = .index := h.resolve_right Bool.false_ne_true
    have arith : Mirrors .index (arith16 .hl src _ : Exec β Unit) _ :=
      Mirrors.arith16 .hl src fun x y f => Alu.adc16 x y f.c
    exact arith s
  | sbcHL src =>
    obtain rfl : σ = .index := h.resolve_right Bool.false_ne_true
    have arith : Mirrors .index (arith16 .hl src _ : Exec β Unit) _ :=
      Mirrors.arith16 .hl src fun x y f => Alu.sbc16 x y f.c
    exact arith s
  | rrd | rld =>
    obtain rfl : σ = .index := h.resolve_right Bool.false_ne_true
    simp only [exec, swap, Mirrors.rotateDigit]
  | block op dir repeats =>
    obtain rfl : σ = .index := h.resolve_right Bool.false_ne_true
    exact Mirrors.block op dir repeats s
  | exAF | im | di | ei | ldIA | ldRA => rcases σ with (_ | _) | _ <;> rfl
  | addPair dst src => exact Mirrors.arith16 dst src _ s
  | ldSp src =>
    have loaded : Mirrors σ (Exec.change fun r => { r with sp := r.get src } : Exec β Unit)
        (Exec.change fun r => { r with sp := r.get (σ.pair src) }) := mapPair .sp src id
    simp only [exec, swap, bind_apply, loaded, Mirrors.charge]
  | incPair x =>
    have raised : Mirrors σ (Exec.change fun r => r.set x (r.get x + 1) : Exec β Unit)
        (Exec.change fun r => r.set (σ.pair x) (r.get (σ.pair x) + 1)) := mapPair x x (· + 1)
    simp only [exec, swap, bind_apply, raised, Mirrors.charge]
  | decPair x =>
    have lowered : Mirrors σ (Exec.change fun r => r.set x (r.get x - 1) : Exec β Unit)
        (Exec.change fun r => r.set (σ.pair x) (r.get (σ.pair x) - 1)) := mapPair x x (· - 1)
    simp only [exec, swap, bind_apply, lowered, Mirrors.charge]
  | bit n x =>
    unfold exec swap
    refine Mirrors.change (fun r => ?_) s
    rw [σ.reg8_get, σ.regs_flags, σ.regs_setFlags]
  | scf => exact mapFlags (f := fun r => Alu.scf r.a r.flags) (fun _ => rfl) s
  | ccf => exact mapFlags (f := fun r => Alu.ccf r.a r.flags) (fun _ => rfl) s
  | ldAI | ldAR => exact Mirrors.loadSpecial (fun _ => rfl) s
  | halt => exact Mirrors.halt pins s
  | retn =>
    have restored : Mirrors σ (Exec.change fun r => { r with iff1 := r.iff2 } : Exec β Unit)
        (Exec.change fun r => { r with iff1 := r.iff2 }) := by
      rcases σ with (_ | _) | _ <;> exact fun _ => rfl
    simp only [exec, swap, bind_apply, redraw_apply, restored, Mirrors.returnTo]
  | inC dst =>
    have flagged (v : Byte) : Mirrors σ
        (Exec.change fun r => r.setFlags { Flags.ofParity v with c := r.flags.c } : Exec β Unit)
        (Exec.change fun r => r.setFlags { Flags.ofParity v with c := r.flags.c }) :=
      mapFlags fun _ => rfl
    cases dst <;>
      simp only [exec, swap, Option.map_none, Option.map_some, bind_apply, regs_apply,
        σ.core_regs, σ.regs_bc, Mirrors.input, setReg, flagged]
  | outC src =>
    cases src <;>
      simp only [exec, swap, Option.map_none, Option.map_some, Option.elim, bind_apply,
        regs_apply, σ.core_regs, σ.regs_bc, σ.reg8_get, Mirrors.output]
  | djnz =>
    have counted (b : Byte) : Mirrors σ
        (Exec.change fun r => { r with bc := r.bc.withHigh b } : Exec β Unit)
        (Exec.change fun r => { r with bc := r.bc.withHigh b }) :=
      Mirrors.change fun r => σ.regs_set r .bc _
    simp only [exec, swap, bind_apply, regs_apply, σ.core_regs, σ.regs_bc, counted,
      Mirrors.charge, Mirrors.jumpRelative]
    rfl
  | jp cond =>
    simp only [exec, swap, bind_apply, Mirrors.fetchWord, Mirrors.setSH, Mirrors.taken]
    split <;> simp only [pure_apply, Mirrors.setPC]
  | call cond =>
    simp only [exec, swap, bind_apply, Mirrors.fetchWord, Mirrors.setSH, Mirrors.taken]
    split <;>
      simp only [bind_apply, pure_apply, regs_apply, σ.core_regs, σ.regs_pc, Mirrors.charge,
        Mirrors.push, Mirrors.setPC]
  | ret cond =>
    cases cond with
    | none => exact Mirrors.returnTo s
    | some k =>
      simp only [exec, swap, bind_apply, Mirrors.charge, Mirrors.taken]
      split <;> simp only [pure_apply, Mirrors.returnTo]
  | _ =>
    simp only [exec, swap, bind_apply, pure_apply, regs_apply, σ.core_regs, σ.get_regs, σ.regs_a,
      σ.regs_flags, σ.regs_pc, σ.regs_sp, Mirrors.charge, Mirrors.setPC, Mirrors.setSH,
      setPair, Mirrors.setA, Mirrors.setResult, Mirrors.taken, Mirrors.jumpRelative,
      Mirrors.read, Mirrors.write, Mirrors.readWord, Mirrors.writeWord, Mirrors.fetchByte,
      Mirrors.fetchWord, Mirrors.push, Mirrors.pop, Mirrors.input, Mirrors.output]

end Z80
