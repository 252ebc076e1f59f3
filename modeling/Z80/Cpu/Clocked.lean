import Z80.Cpu
import Z80.Exec.Action

/-! A processor on its bus, as its instructions find it. The clock goes along with the registers:
a delay moves it on at once, and the horizon is drawn by what it then shows. -/
namespace Z80

structure Clocked (β : Type) where
  cpu : Cpu
  bus : β

namespace Clocked

variable {β : Type}

instance : Carrier (Clocked β) where
  regs s := s.cpu.regs
  setRegs s regs := { s with cpu := { s.cpu with regs } }
  charge s d := { s with cpu := { s.cpu with now := s.cpu.now + s.cpu.timing.cost d } }
  now s := s.cpu.now
  redraw s now := { s with cpu := { s.cpu with horizon := { s.cpu with now }.due } }

instance [Bus β] : Bus (Clocked β) where
  read s address := let (v, bus) := Bus.read s.bus address; (v, { s with bus })
  write s address v := { s with bus := Bus.write s.bus address v }
  input s port := let (v, bus) := Bus.input s.bus port; (v, { s with bus })
  output s port v := { s with bus := Bus.output s.bus port v }

end Clocked

end Z80
