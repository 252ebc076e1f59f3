import Z80.Cpu.Step
import Z80.Machine.Message

/-! A processor on its bus, with a journal of what it reports. The journal only ever
grows, and nothing that the machine does depends on it. -/
namespace Z80

structure Machine (β : Type) where
  cpu : Cpu
  bus : β
  journal : Array Message := #[]

def Message.ofControl (c : Cpu) : Cpu.Control → Option Message
  | .stop => some (.stop c.now)
  | .resetAt t => some (.reset t)
  | _ => none

def Message.ofAcknowledge (c : Cpu) : Message :=
  if c.pins.nmi = .edge then .nmi c.regs.pc else .int c.regs.im c.regs.pc

namespace Machine

variable {β : Type}

def report (m : Machine β) (message : Message) : Machine β :=
  { m with journal := m.journal.push message }

/-- The machine after a move of its processor and bus; the journal is untouched. -/
def move (m : Machine β) (f : Cpu → β → Option (Cpu × β)) : Option (Machine β) :=
  (f m.cpu m.bus).map fun (cpu, bus) => { m with cpu, bus }

def control (m : Machine β) (k : Cpu.Control) : Machine β :=
  let done := { m with cpu := m.cpu.control k }
  (Message.ofControl m.cpu k).elim done done.report

def reset (m : Machine β) : Machine β := m.control (.resetAt m.cpu.now)

def interrupt (m : Machine β) : Bool × Machine β := (m.cpu.regs.iff1, m.control .setInt)

variable [Bus β]

def next (m : Machine β) : Option (Machine β) := m.move Cpu.next

def nextAfterEI (m : Machine β) : Option (Machine β) := m.move Cpu.nextAfterEI

def acknowledge (m : Machine β) : Option (Machine β) :=
  (m.report (.ofAcknowledge m.cpu)).move Cpu.acknowledge

def step (m : Machine β) : Option (Machine β) :=
  match m.cpu.decision with
  | .acknowledge => (m.report (.ofAcknowledge m.cpu)).move Cpu.step
  | _ => m.move Cpu.step

def forceReturn (m : Machine β) : Machine β :=
  let (cpu, bus) := m.cpu.forceReturn m.bus
  { m with cpu, bus }

end Machine

end Z80
