import Z80.Bus

/-! A bus that notes each access as it is made, in order, and otherwise behaves as the
bus that it wraps. -/
namespace Z80

inductive Access where
  | read (address : Word) (value : Byte)
  | write (address : Word) (value : Byte)
  | input (port : Word) (value : Byte)
  | output (port : Word) (value : Byte)
  deriving DecidableEq

structure Recorded (β : Type) where
  bus : β
  accesses : Array Access := #[]

namespace Recorded

def note (b : Recorded β) (access : Access) (bus : β) : Recorded β :=
  ⟨bus, b.accesses.push access⟩

def clear (b : Recorded β) : Recorded β := ⟨b.bus, #[]⟩

instance [Bus β] : Bus (Recorded β) where
  read b address :=
    let (v, bus) := Bus.read b.bus address
    (v, b.note (.read address v) bus)
  write b address v := b.note (.write address v) (Bus.write b.bus address v)
  input b port :=
    let (v, bus) := Bus.input b.bus port
    (v, b.note (.input port v) bus)
  output b port v := b.note (.output port v) (Bus.output b.bus port v)

end Recorded

end Z80
