import Z80.Exec.Block
import Z80.Pins
import Z80.Alu.Adjust

/-! What each instruction does, once its opcode has been read. -/
namespace Z80

open Exec

variable {σ : Type} [Carrier σ] [Bus σ]

namespace Exec

def setResult (v : Result 8) : Action σ Unit := change fun r => (r.setA v.value).setFlags v.flags

def taken (cond : Option Condition) : Action σ Bool := do
  let f := (← regs).flags
  return cond.all (·.holds f)

def jumpRelative (taken : Bool) : Action σ Unit := do
  let d ← fetchByte
  if taken then
    let target := (← regs).pc.displace d
    setPC target
    setSH target
    charge .add8

def returnTo : Action σ Unit := do
  let target ← pop
  setPC target
  setSH target

def store16 (x : Reg16) (v : Result 16) : Action σ Unit :=
  change fun r => (r.set x v.value).setFlags v.flags

def arith16 (dst src : Reg16) (op : Word → Word → Flags → Result 16) : Action σ Unit := do
  let r ← regs
  setSH (r.get dst + 1)
  store16 dst (op (r.get dst) (r.get src) r.flags)
  charge .add16

def updateAt (u : Update) (address : Word) : Action σ Byte := do
  let v ← read address
  let changed := u.apply v (← regs).flags
  setFlags changed.flags
  charge .inc
  write address changed.value
  return changed.value

def rotateDigit (digits : (a v : Byte) → Byte × Byte) : Action σ Unit := do
  let r ← regs
  let v ← read r.hl
  setSH (r.hl + 1)
  let (a, changed) := digits r.a v
  charge .rld
  write r.hl changed
  setResult ⟨a, { Flags.ofParity a with c := r.flags.c }⟩

/-- Reading I or R reports the saved interrupt enable as parity. -/
def loadSpecial (v : Registers → Byte) : Action σ Unit := do
  let r ← regs
  setResult ⟨v r, { Flags.ofValue (v r) with p := r.iff2, c := r.flags.c }⟩
  charge .ld

/-- Stays on its own opcode until an interrupt can be taken, and then falls through. -/
def halt (pins : Pins) : Action σ Unit := do
  change fun r =>
    if pins.eligible r.iff1 then { r with halt := false }
    else { r with pc := r.pc - 1, halt := true }
  redraw

end Exec

namespace Instr

/-- The displaced address is added up while the operand is fetched. -/
def execLdImm : Loc → Action σ Unit
  | .reg x => do change (x.set (← fetchByte))
  | .mem .hl => do write (← regs).hl (← fetchByte)
  | .mem (.indexed i) => do
    let address := Mem.displaced i (← fetchByte) (← regs)
    let v ← fetchByte
    charge .parallel
    setSH address
    write address v

def execUpdate (u : Update) : Loc → Action σ Unit
  | .reg x => change fun r =>
      let changed := u.apply (x.get r) r.flags
      (x.set changed.value r).setFlags changed.flags
  | .mem m => do let _ ← updateAt u (← m.address)

/-- What a memory bit test copies to Y and X is the high byte of the latch. -/
def execBitAt (n : BitVec 3) (address : Word) : Action σ Unit := do
  let v ← read address
  let r ← regs
  setFlags (Alu.bit n v r.sh.high r.flags)

def exec (pins : Pins) : Instr → Action σ Unit
  | nop => return
  | ld dst src => do dst.write (← src.read)
  | ldImm dst => execLdImm dst
  | ldPair dst => do
    let w ← fetchWord
    change (·.set dst w)
  | loadPair dst => do
    let address ← fetchWord
    let w ← readWord address
    setSH (address + 1)
    change (·.set dst w)
  | storePair src => do
    let w := (← regs).get src
    let address ← fetchWord
    writeWord address w
    setSH (address + 1)
  | loadA pointer => do
    let v ← read ((← regs).get pointer)
    change (·.setA v)
  | storeA pointer => do
    let r ← regs
    write (r.get pointer) r.a
  | loadADirect => do
    let address ← fetchWord
    setSH (address + 1)
    let v ← read address
    change (·.setA v)
  | storeADirect => do
    let address ← fetchWord
    let a := (← regs).a
    setSH (.ofBytes a 0)
    write address a
  | ldSp src => do
    change fun r => { r with sp := r.get src }
    charge .ldSpHl
  | push src => do
    charge .push
    Exec.push ((← regs).get src)
  | pop dst => do
    let w ← Exec.pop
    change (·.set dst w)
  | exAF => change Registers.exchangeAF
  | exDEHL => change fun r => { r with de := r.hl, hl := r.de }
  | exx => change Registers.exchangeBank
  | exStack x => do
    let r ← regs
    let old ← readWord r.sp
    write (r.sp + 1) (r.get x).high
    write r.sp (r.get x).low
    setSH old
    charge .exSpHl
    change (·.set x old)
  | alu op src => do
    let v ← src.read
    let r ← regs
    setResult (op.apply r.a v r.flags)
  | aluImm op => do
    let v ← fetchByte
    let r ← regs
    setResult (op.apply r.a v r.flags)
  | rotateA s => do
    let r ← regs
    setResult (s.applyA r.a r.flags)
  | daa => do
    let r ← regs
    setResult (Alu.daa r.a r.flags)
  | cpl => do
    let r ← regs
    setResult (Alu.cpl r.a r.flags)
  | scf => change fun r => r.setFlags (Alu.scf r.a r.flags)
  | ccf => change fun r => r.setFlags (Alu.ccf r.a r.flags)
  | neg => do
    let r ← regs
    setResult (Alu.sub 0 r.a false)
  | .update u loc => execUpdate u loc
  | bit n x => change fun r => r.setFlags (Alu.bit n (x.get r) (x.get r) r.flags)
  | bitMem n => do
    charge .bit
    execBitAt n (← regs).hl
  | updateIndexed u i d copy => do
    let address := Mem.displaced i d (← regs)
    setSH address
    charge .bit
    let v ← updateAt u address
    if let some x := copy then change (x.set v)
  | bitIndexed n i d => do
    charge .bitIx
    let address := Mem.displaced i d (← regs)
    setSH address
    execBitAt n address
  | incPair x => do
    change fun r => r.set x (r.get x + 1)
    charge .inc16
  | decPair x => do
    change fun r => r.set x (r.get x - 1)
    charge .inc16
  | addPair dst src => arith16 dst src Alu.add16
  | adcHL src => arith16 .hl src fun x y f => Alu.adc16 x y f.c
  | sbcHL src => arith16 .hl src fun x y f => Alu.sbc16 x y f.c
  | jp cond => do
    let target ← fetchWord
    setSH target
    if ← taken cond then setPC target
  | jpPair target => do setPC ((← regs).get target)
  | jr cond => do jumpRelative (← taken cond)
  | djnz => do
    charge .djnz
    let b := (← regs).bc.high - 1
    change fun r => { r with bc := r.bc.withHigh b }
    jumpRelative (b ≠ 0)
  | call cond => do
    let target ← fetchWord
    setSH target
    if ← taken cond then
      charge .call
      Exec.push (← regs).pc
      setPC target
  | ret none => returnTo
  | ret (some k) => do
    charge .ret
    if ← taken (some k) then returnTo
  | retn => do
    change fun r => { r with iff1 := r.iff2 }
    returnTo
    redraw
  | rst n => do
    charge .push
    Exec.push (← regs).pc
    let target := (n ++ 0#3).setWidth 16
    setPC target
    setSH target
  | inA => do
    let a := (← regs).a
    let v ← input (.ofBytes a (← fetchByte))
    change (·.setA v)
  | outA => do
    let a := (← regs).a
    output (.ofBytes a (← fetchByte)) a
  | inC dst => do
    let v ← input (← regs).bc
    if let some x := dst then change (x.set v)
    change fun r => r.setFlags { Flags.ofParity v with c := r.flags.c }
  | outC src => do
    let r ← regs
    output r.bc (src.elim 0 (·.get r))
  | ldIA => do
    change fun r => { r with i := r.a }
    charge .ld
  | ldRA => do
    change fun r => { r with r := r.a, r2 := r.a }
    charge .ld
  | ldAI => loadSpecial (·.i)
  | ldAR => loadSpecial (·.visibleR)
  | rrd => rotateDigit fun a v =>
      (a.extractLsb' 4 4 ++ v.extractLsb' 0 4, a.extractLsb' 0 4 ++ v.extractLsb' 4 4)
  | rld => rotateDigit fun a v =>
      (a.extractLsb' 4 4 ++ v.extractLsb' 4 4, v.extractLsb' 0 4 ++ a.extractLsb' 0 4)
  | block op dir repeats => op.exec dir repeats
  | im mode => change fun r => { r with im := mode }
  | di => do
    change fun r => { r with iff1 := false, iff2 := false }
    redraw
  | ei => do
    change fun r => { r with iff1 := true, iff2 := true, eiMode := true }
    redraw
  | halt => Exec.halt pins

end Instr

end Z80
