import Z80.Word

/-! The interrupt inputs. The maskable request is a level, held until it is released;
the non-maskable one is an edge, latched once and spent when it is acknowledged. -/
namespace Z80

inductive IntLine where
  | high | low
  deriving DecidableEq

/-- `edge` is a request not yet served, `low` one that was; only `high` can fall again. -/
inductive NmiLine where
  | high | edge | low
  deriving DecidableEq

def IntLine.name : IntLine → String
  | high => "high"
  | low => "low"

def NmiLine.name : NmiLine → String
  | high => "high"
  | edge => "edge"
  | low => "low"

structure Pins where
  int : IntLine := .high
  nmi : NmiLine := .high
  /-- What the interrupting device drives during an acknowledge. -/
  data : Byte := 0xFF
  /-- What is driven once the acknowledge has read `data`. -/
  idleData : Byte := 0xFF
  deriving DecidableEq

def Pins.eligible (p : Pins) (iff1 : Bool) : Bool := (p.int = .low && iff1) || p.nmi = .edge

def Pins.release (p : Pins) : Pins := { p with data := p.idleData }

end Z80
