import Z80.Registers
import Z80.Timing
import Z80.Pins

/-! The processor between two instructions, and what its surroundings may do to it then.
Before the horizon instructions run without a look at the interrupt inputs, so every
operation that bears on them has to draw it anew. -/
namespace Z80

structure Cpu where
  regs : Registers := .powerOn
  pins : Pins := {}
  timing : Timing := .z80
  now : Ticks := 0
  /-- When the surroundings want to be called. -/
  timeout : Ticks := 0
  horizon : Ticks := 0
  /-- The run loop has been asked to return; only a reset takes that back. -/
  stopped : Bool := false
  deriving DecidableEq

namespace Cpu

def eligible (c : Cpu) : Bool := c.pins.eligible c.regs.iff1

/-- The horizon that the state calls for: at once, if there is something to decide. -/
def due (c : Cpu) : Ticks :=
  if !c.regs.halt && (c.regs.eiMode || c.eligible) then c.now else c.timeout

def refresh (c : Cpu) : Cpu := { c with horizon := c.due }

@[simp] theorem horizon_refresh (c : Cpu) : c.refresh.horizon = c.due := rfl

@[simp] theorem due_refresh (c : Cpu) : c.refresh.due = c.due := rfl

@[simp] theorem refresh_refresh (c : Cpu) : c.refresh.refresh = c.refresh := rfl

theorem refresh_eq_self {c : Cpu} (h : c.horizon = c.due) : c.refresh = c := by
  simp [refresh, ← h]

def ofTiming (t : Timing) : Cpu := refresh { timing := t }

/-- What the surroundings may do between two instructions. -/
inductive Control where
  | setInt | clearInt | setNmi | clearNmi
  | setTimeout (t : Ticks)
  | setData (v : Byte)
  | setDataIdle (v idle : Byte)
  | stop
  | resetAt (t : Ticks)
  deriving DecidableEq

def resetAt (c : Cpu) (t : Ticks) : Cpu :=
  refresh { timing := c.timing, timeout := c.timeout, now := t }

def setNmi (c : Cpu) : Cpu :=
  if c.pins.nmi = .high then refresh { c with pins := { c.pins with nmi := .edge } } else c

def control (c : Cpu) : Control → Cpu
  | .setInt => refresh { c with pins := { c.pins with int := .low } }
  | .clearInt => refresh { c with pins := { c.pins with int := .high } }
  | .setNmi => c.setNmi
  | .clearNmi => refresh { c with pins := { c.pins with nmi := .high } }
  | .setTimeout t => refresh { c with timeout := t }
  | .setData v => { c with pins := { c.pins with data := v } }
  | .setDataIdle v idle => { c with pins := { c.pins with data := v, idleData := idle } }
  | .stop => { c with stopped := true }
  | .resetAt t => c.resetAt t

theorem control_setNmi {c : Cpu} (high : c.pins.nmi = .high) :
    c.control .setNmi = refresh { c with pins := { c.pins with nmi := .edge } } := if_pos high

theorem control_setNmi_eq_self {c : Cpu} (h : c.pins.nmi ≠ .high) : c.control .setNmi = c :=
  if_neg h

end Cpu

end Z80
