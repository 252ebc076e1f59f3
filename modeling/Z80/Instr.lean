import Z80.Instr.Operand
import Z80.Alu.Shift

/-! Instructions with their operands named. Immediate operands are absent: they stand in
the instruction stream and are fetched when the instruction runs. -/
namespace Z80

inductive Update where
  | inc
  | dec
  | shift (s : Shift)
  | res (n : BitVec 3)
  | set (n : BitVec 3)
  deriving DecidableEq

inductive BlockOp where
  | move | search | input | output
  deriving DecidableEq

inductive Direction where
  | up | down
  deriving DecidableEq

inductive Instr where
  | nop
  | ld (dst src : Loc)
  | ldImm (dst : Loc)
  | ldPair (dst : Reg16)
  | loadPair (dst : Reg16) | storePair (src : Reg16)
  | loadA (pointer : Reg16) | storeA (pointer : Reg16)
  | loadADirect | storeADirect
  | ldSp (src : Reg16)
  | push (src : Reg16) | pop (dst : Reg16)
  | exAF | exDEHL | exx
  | exStack (x : Reg16)
  | alu (op : AluOp) (src : Loc) | aluImm (op : AluOp)
  | rotateA (s : Shift)
  | daa | cpl | scf | ccf | neg
  | update (u : Update) (loc : Loc)
  | bit (n : BitVec 3) (r : Reg8) | bitMem (n : BitVec 3)
  /-- Forms whose displacement stands before the opcode; the changed byte is also copied
  to `copy`. -/
  | updateIndexed (u : Update) (i : Index) (d : Byte) (copy : Option Reg8)
  | bitIndexed (n : BitVec 3) (i : Index) (d : Byte)
  | incPair (x : Reg16) | decPair (x : Reg16)
  | addPair (dst src : Reg16) | adcHL (src : Reg16) | sbcHL (src : Reg16)
  | jp (cond : Option Condition) | jpPair (target : Reg16)
  | jr (cond : Option Condition) | djnz
  | call (cond : Option Condition) | ret (cond : Option Condition)
  | retn
  | rst (n : BitVec 3)
  | inA | outA
  | inC (dst : Option Reg8)
  | outC (src : Option Reg8)
  | ldIA | ldRA | ldAI | ldAR
  | rrd | rld
  | block (op : BlockOp) (dir : Direction) (repeats : Bool)
  | im (mode : Byte)
  | di | ei | halt
  deriving DecidableEq

namespace Update

def apply (u : Update) (v : Byte) (f : Flags) : Result 8 :=
  match u with
  | inc => Alu.inc v f
  | dec => Alu.dec v f
  | shift s => s.apply v f
  | res n => ⟨Alu.res n v, f⟩
  | set n => ⟨Alu.set n v, f⟩

end Update

def Direction.next (d : Direction) (w : BitVec n) : BitVec n :=
  match d with
  | up => w + 1
  | down => w - 1

end Z80
