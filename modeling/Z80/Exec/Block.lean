import Z80.Exec.Action
import Z80.Instr
import Z80.Alu.Block

/-! The block instructions: move, search and transfer one byte, step the pointers and
count down. A repeating form moves PC back over itself until its count runs out. -/
namespace Z80.BlockOp

open Exec

variable {σ : Type} [Carrier σ] [Bus σ]

def moveOne (dir : Direction) : Action σ Bool := do
  let r ← regs
  let v ← read r.hl
  write r.de v
  charge .ldi
  let more : Bool := r.bc - 1 ≠ 0
  change fun r => { r with hl := dir.next r.hl, de := dir.next r.de, bc := r.bc - 1 }
  setFlags (Alu.moveFlags r.flags r.a v more)
  return more

def searchOne (dir : Direction) : Action σ Bool := do
  let r ← regs
  let v ← read r.hl
  charge .block
  let more : Bool := r.bc - 1 ≠ 0
  change fun r => { r with hl := dir.next r.hl, bc := r.bc - 1 }
  setFlags (Alu.searchFlags r.flags r.a v more)
  return more && r.a ≠ v

/-- The port word shows the count after it was lowered. -/
def inputOne (dir : Direction) : Action σ Bool := do
  charge .inout
  let r ← regs
  let b := r.bc.high - 1
  let port := r.bc.withHigh b
  change fun r => { r with bc := port }
  let v ← Exec.input port
  write r.hl v
  change fun r => { r with hl := dir.next r.hl }
  setFlags (Alu.transferFlags { s := b.msb, z := b == 0 } b v (dir.next r.bc.low))
  return b ≠ 0

def outputOne (dir : Direction) : Action σ Bool := do
  charge .inout
  let r ← regs
  let v ← read r.hl
  let hl : Word := dir.next r.hl
  change fun r => { r with hl }
  Exec.output r.bc v
  let b := r.bc.high - 1
  change fun r => { r with bc := r.bc.withHigh b }
  setFlags (Alu.transferFlags (.ofValue b) b v hl.low)
  return b ≠ 0

/-- One round; the answer is whether a repeating form goes on. -/
def round : BlockOp → Direction → Action σ Bool
  | .move => moveOne
  | .search => searchOne
  | .input => inputOne
  | .output => outputOne

def exec (op : BlockOp) (dir : Direction) (repeats : Bool) : Action σ Unit := do
  let more ← op.round dir
  if repeats && more then
    charge .block
    change fun r => { r with pc := r.pc - 2 }

end Z80.BlockOp
