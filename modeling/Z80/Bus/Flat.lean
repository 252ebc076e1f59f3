import Z80.Bus
import Z80.Store

/-! The plainest bus: memory in all 65,536 places, a latch behind each input port, and
a record of what was sent out. Ports are told apart by their low byte. -/
namespace Z80

structure FlatBus where
  memory : Store Byte 16
  ports : Store Byte 8
  /-- Port writes with the whole port word, oldest first. -/
  outputs : Array (Word × Byte)

namespace FlatBus

def empty : FlatBus := ⟨.replicate 0 16, .replicate 0xFF 8, #[]⟩

def peek (b : FlatBus) (address : Word) : Byte := b.memory.get address

def peekWord (b : FlatBus) (address : Word) : Word :=
  .ofBytes (b.peek (address + 1)) (b.peek address)

def poke (b : FlatBus) (address : Word) (v : Byte) : FlatBus :=
  { b with memory := b.memory.set address v }

@[simp] theorem peek_poke (b : FlatBus) (address x : Word) (v : Byte) :
    (b.poke address v).peek x = if x = address then v else b.peek x :=
  Store.get_set ..

/-- Writes `data` upwards from `address`, going round at the top of memory. -/
def load (b : FlatBus) (address : Word) : List Byte → FlatBus
  | [] => b
  | v :: rest => (b.poke address v).load (address + 1) rest

def setPort (b : FlatBus) (port v : Byte) : FlatBus :=
  { b with ports := b.ports.set port v }

instance : Bus FlatBus where
  read b address := (b.peek address, b)
  write := poke
  input b port := (b.ports.get port.low, b)
  output b port v := { b with outputs := b.outputs.push (port, v) }

end FlatBus

end Z80
