import Z80.Cpu.Clocked
import Z80.Exec.Run
import Z80.Exec.Fetch

/-! One decision of the processor: the instruction after EI, an acknowledge, or the next
instruction. There is no next state only where the memory holds nothing but prefixes. -/
namespace Z80

namespace Exec

variable {σ : Type} [Carrier σ] [Bus σ]

def perform (pins : Pins) (find : Action σ (Option Instr)) : Action σ (Option Instr) := do
  let found ← find
  if let some i := found then i.exec pins
  return found

def serveNmi : Action σ Unit := do
  pushUntimed (← regs).pc
  change fun r => { r with iff1 := false, pc := 0x0066 }
  m1
  charge .nmi

def serveVector (vector : Word) : Action σ Unit := do
  pushUntimed (← regs).pc
  let low ← readBus vector
  let high ← readBus (vector + 1)
  setPC (.ofBytes high low)
  m1
  charge .im2

end Exec

namespace Cpu

variable {β : Type}

/-- The window after EI is over. -/
def shut (c : Cpu) : Cpu := { c with regs := { c.regs with eiMode := false } }

def disabled (c : Cpu) : Cpu := { c with regs := { c.regs with iff1 := false, iff2 := false } }

/-- The maskable request has been taken, and what was on the data lines with it. -/
def released (c : Cpu) : Cpu := { c.disabled with pins := c.pins.release }

def refreshed (s : Cpu × β) : Cpu × β := (s.1.refresh, s.2)

inductive Decision where
  | afterEI | acknowledge | instruction
  deriving DecidableEq

def decision (c : Cpu) : Decision :=
  if c.regs.eiMode then .afterEI
  else if !c.regs.halt && c.eligible then .acknowledge
  else .instruction

variable [Bus β]

def run (c : Cpu) (bus : β) (find : Action (Clocked β) (Option Instr)) : Option (Cpu × β) :=
  let (found, s) := Exec.perform c.pins find ⟨c, bus⟩
  found.map fun _ => (s.cpu, s.bus)

def serve (c : Cpu) (bus : β) (action : Action (Clocked β) Unit) : Cpu × β :=
  let s := (action ⟨c, bus⟩).2
  (s.cpu, s.bus)

def next (c : Cpu) (bus : β) : Option (Cpu × β) := c.run bus Exec.nextInstruction

def acknowledgeNmi (c : Cpu) (bus : β) : Cpu × β :=
  serve { c with pins := { c.pins with nmi := .low } } bus Exec.serveNmi

/-- Mode 0 runs the opcode that the device drives, mode 1 always `RST 38`; any other
mode fetches the routine's address from the table that I and the data byte point into. -/
def acknowledgeInt (c : Cpu) (bus : β) : Option (Cpu × β) :=
  if c.regs.im = 0 then c.released.run bus (Exec.supply c.pins.data)
  else if c.regs.im = 1 then c.disabled.run bus (Exec.supply 0xFF)
  else some (c.released.serve bus (Exec.serveVector (.ofBytes c.regs.i c.pins.data)))

def acknowledge (c : Cpu) (bus : β) : Option (Cpu × β) :=
  let served := if c.pins.nmi = .edge then some (c.acknowledgeNmi bus) else c.acknowledgeInt bus
  served.map refreshed

/-- The instruction after EI, which no interrupt can forestall. -/
def nextAfterEI (c : Cpu) (bus : β) : Option (Cpu × β) := (c.shut.next bus).map refreshed

def step (c : Cpu) (bus : β) : Option (Cpu × β) :=
  match c.decision with
  | .afterEI => c.nextAfterEI bus
  | .acknowledge => c.acknowledge bus
  | .instruction => (c.next bus).map refreshed

/-- Returns from a subroutine without the passing of time. -/
def forceReturn (c : Cpu) (bus : β) : Cpu × β :=
  c.serve bus do
    let target ← Exec.popUntimed
    Exec.setPC target

end Cpu

end Z80
