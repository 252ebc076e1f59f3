import Z80.Exec.Action
import Z80.Instr.Decode

/-! From opcodes to instructions. Index prefixes may follow one another without end; the
last one counts. A chain that has been followed right round memory has no instruction
in it, and is the one way for a fetch to fail. -/
namespace Z80.Exec

variable {σ : Type} [Carrier σ] [Bus σ]

/-- The instruction that starts with the opcode `op`, read with the index register `i`,
if no more than `fuel` further prefixes stand before it. -/
def resolve (fuel : Nat) (i : Option Index) (op : Byte) : Action σ (Option Instr) :=
  match Opcode.decode i op, i with
  | .instr x, _ => return some x
  | .bits, none => return some (Opcode.decodeBits (← fetchOpcode))
  | .bits, some i => do
    let d ← fetchByte
    let op ← fetchByte
    charge .m1
    return some (Opcode.decodeIndexedBits i d op)
  | .extended, _ => return some (Opcode.decodeExtended (← fetchOpcode))
  | .index i, _ =>
    match fuel with
    | 0 => return none
    | fuel + 1 => do resolve fuel (some i) (← fetchOpcode)

/-- Every address once. The limit is exact where reads leave the bus as it is, for then a chain as
long as this comes round to where it began. On a bus that a read can change, a longer chain could
still end, and is given up here. -/
def chainLimit : Nat := 65536

/-- The instruction whose first opcode is already on the data lines. -/
def instructionFrom (op : Byte) : Action σ (Option Instr) := do
  m1
  resolve chainLimit none op

def nextInstruction : Action σ (Option Instr) := do instructionFrom (← fetchByte)

/-- The fetch in a mode 0 or mode 1 acknowledge. -/
def supply (op : Byte) : Action σ (Option Instr) := do
  charge .im
  instructionFrom op

end Z80.Exec
