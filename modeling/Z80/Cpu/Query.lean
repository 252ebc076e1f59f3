import Z80.Cpu

/-! Inspection by path. The paths are listed for those who want to show the whole state; a query
reads what its path names, whichever pair, half or single flag that is. -/
namespace Z80

inductive Value where
  | bool (b : Bool)
  | byte (v : Byte)
  | word (v : Word)
  | ticks (v : Ticks)
  | name (s : String)
  deriving DecidableEq

namespace Cpu

def paths : List String :=
  ["a", "f", "b", "c", "d", "e", "h", "l",
    "af", "bc", "de", "hl",
    "af'", "bc'", "de'", "hl'",
    "ix", "iy", "ixh", "ixl", "iyh", "iyl",
    "sp", "pc", "sh", "i", "r", "r2",
    "flags.s", "flags.z", "flags.y", "flags.h",
    "flags.x", "flags.p", "flags.n", "flags.c",
    "iff1", "iff2", "im", "halted", "ei_mode", "int_line", "nmi_line",
    "system_time", "timeout", "fast_timeout", "data_bus", "default_data_bus"]

def query (c : Cpu) (path : String) : Option Value :=
  match path with
  | "a" => some (.byte c.regs.af.high)
  | "f" => some (.byte c.regs.af.low)
  | "b" => some (.byte c.regs.bc.high)
  | "c" => some (.byte c.regs.bc.low)
  | "d" => some (.byte c.regs.de.high)
  | "e" => some (.byte c.regs.de.low)
  | "h" => some (.byte c.regs.hl.high)
  | "l" => some (.byte c.regs.hl.low)
  | "af" => some (.word c.regs.af)
  | "bc" => some (.word c.regs.bc)
  | "de" => some (.word c.regs.de)
  | "hl" => some (.word c.regs.hl)
  | "af'" => some (.word c.regs.shadow.af)
  | "bc'" => some (.word c.regs.shadow.bc)
  | "de'" => some (.word c.regs.shadow.de)
  | "hl'" => some (.word c.regs.shadow.hl)
  | "ix" => some (.word c.regs.ix)
  | "iy" => some (.word c.regs.iy)
  | "ixh" => some (.byte c.regs.ix.high)
  | "ixl" => some (.byte c.regs.ix.low)
  | "iyh" => some (.byte c.regs.iy.high)
  | "iyl" => some (.byte c.regs.iy.low)
  | "sp" => some (.word c.regs.sp)
  | "pc" => some (.word c.regs.pc)
  | "sh" => some (.word c.regs.sh)
  | "i" => some (.byte c.regs.i)
  | "r" => some (.byte c.regs.visibleR)
  | "r2" => some (.byte c.regs.r2)
  | "flags.s" => some (.bool c.regs.flags.s)
  | "flags.z" => some (.bool c.regs.flags.z)
  | "flags.y" => some (.bool c.regs.flags.y)
  | "flags.h" => some (.bool c.regs.flags.h)
  | "flags.x" => some (.bool c.regs.flags.x)
  | "flags.p" => some (.bool c.regs.flags.p)
  | "flags.n" => some (.bool c.regs.flags.n)
  | "flags.c" => some (.bool c.regs.flags.c)
  | "iff1" => some (.bool c.regs.iff1)
  | "iff2" => some (.bool c.regs.iff2)
  | "im" => some (.byte c.regs.im)
  | "halted" => some (.bool c.regs.halt)
  | "ei_mode" => some (.bool c.regs.eiMode)
  | "int_line" => some (.name c.pins.int.name)
  | "nmi_line" => some (.name c.pins.nmi.name)
  | "system_time" => some (.ticks c.now)
  | "timeout" => some (.ticks c.timeout)
  | "fast_timeout" => some (.ticks c.horizon)
  | "data_bus" => some (.byte c.pins.data)
  | "default_data_bus" => some (.byte c.pins.idleData)
  | _ => none

end Cpu

end Z80
