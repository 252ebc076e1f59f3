import Z80.Timing
import Z80.Bus
import Z80.Instr.Operand

/-! The steps from which instructions are built. They run on any state that has registers, a
clock and a bus. The clock can be read, and it is charged with every delay; what a delay comes to
is for the state to say, so an instruction only names it. -/
namespace Z80

class Carrier (σ : Type) where
  regs : σ → Registers
  setRegs : σ → Registers → σ
  now : σ → Ticks
  charge : σ → Delay → σ
  /-- The horizon is drawn anew, by what the clock shows. -/
  redraw : σ → Ticks → σ

abbrev Action (σ : Type) := StateM σ

namespace Exec

variable {σ : Type} [Carrier σ]

def regs : Action σ Registers := return Carrier.regs (← get)

def change (f : Registers → Registers) : Action σ Unit :=
  modify fun s => Carrier.setRegs s (f (Carrier.regs s))

def charge (d : Delay) : Action σ Unit := modify (Carrier.charge · d)

def now : Action σ Ticks := return Carrier.now (← get)

def redraw : Action σ Unit := do
  let t ← now
  modify (Carrier.redraw · t)

def setFlags (f : Flags) : Action σ Unit := change (·.setFlags f)

def setPC (w : Word) : Action σ Unit := change fun r => { r with pc := w }

def setSH (w : Word) : Action σ Unit := change fun r => { r with sh := w }

def m1 : Action σ Unit := do
  change fun r => { r with r := r.r + 1 }
  charge .m1

section

variable [Bus σ]

def readBus (address : Word) : Action σ Byte := modifyGet (Bus.read · address)

def writeBus (address : Word) (v : Byte) : Action σ Unit := modify (Bus.write · address v)

def readPort (port : Word) : Action σ Byte := modifyGet (Bus.input · port)

def writePort (port : Word) (v : Byte) : Action σ Unit := modify (Bus.output · port v)

def read (address : Word) : Action σ Byte := do
  charge .mem
  readBus address

def write (address : Word) (v : Byte) : Action σ Unit := do
  charge .mem
  writeBus address v

def fetchByte : Action σ Byte := do
  let pc := (← regs).pc
  setPC (pc + 1)
  charge .memOp
  readBus pc

def fetchWord : Action σ Word := do
  let low ← fetchByte
  let high ← fetchByte
  return .ofBytes high low

def fetchOpcode : Action σ Byte := do
  let op ← fetchByte
  m1
  return op

def input (port : Word) : Action σ Byte := do
  setSH (port + 1)
  charge .preIo
  let v ← readPort port
  charge .postIo
  return v

def output (port : Word) (v : Byte) : Action σ Unit := do
  setSH (port + 1)
  charge .preIo
  writePort port v
  charge .postIo

def readWord (address : Word) : Action σ Word := do
  let low ← read address
  let high ← read (address + 1)
  return .ofBytes high low

def writeWord (address : Word) (w : Word) : Action σ Unit := do
  write address w.low
  write (address + 1) w.high

end

/-- The stack grows downwards and takes the high byte first. -/
def pushWith (store : Word → Byte → Action σ Unit) (w : Word) : Action σ Unit := do
  let sp := (← regs).sp
  store (sp - 1) w.high
  store (sp - 2) w.low
  change fun r => { r with sp := sp - 2 }

def popWith (load : Word → Action σ Byte) : Action σ Word := do
  let sp := (← regs).sp
  let low ← load sp
  let high ← load (sp + 1)
  change fun r => { r with sp := sp + 2 }
  return .ofBytes high low

variable [Bus σ]

def push (w : Word) : Action σ Unit := pushWith write w

def pop : Action σ Word := popWith read

/-- A push whose time an acknowledge has counted already. -/
def pushUntimed (w : Word) : Action σ Unit := pushWith writeBus w

def popUntimed : Action σ Word := popWith readBus

end Exec

variable {σ : Type} [Carrier σ] [Bus σ]

namespace Mem

def displaced (i : Index) (d : Byte) (r : Registers) : Word := (r.get i.pair).displace d

/-- Where the operand lies. An index register takes its displacement from the
instruction stream and leaves the address in the latch. -/
def address : Mem → Action σ Word
  | hl => return (← Exec.regs).hl
  | indexed i => do
    let d ← Exec.fetchByte
    let a := displaced i d (← Exec.regs)
    Exec.charge .add8
    Exec.setSH a
    return a

end Mem

namespace Loc

def read : Loc → Action σ Byte
  | reg r => return r.get (← Exec.regs)
  | mem m => do Exec.read (← m.address)

def write (loc : Loc) (v : Byte) : Action σ Unit :=
  match loc with
  | reg r => Exec.change (r.set v)
  | mem m => do Exec.write (← m.address) v

end Loc

end Z80
