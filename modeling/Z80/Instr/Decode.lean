import Z80.Instr

/-! Decoding. An opcode splits into the fields `x` (2 bits), `y` and `z` (3 bits each),
and `y` again into `p` and `q`. One function decodes the plain and the prefixed table:
a prefix only puts an index register in the place of HL. -/
namespace Z80

/-- What an opcode says. All but the first need another fetch. -/
inductive Opcode where
  | instr (i : Instr)
  | bits
  | extended
  | index (i : Index)
  deriving DecidableEq

namespace Opcode

def x (op : Byte) : BitVec 2 := op.extractLsb' 6 2
def y (op : Byte) : BitVec 3 := op.extractLsb' 3 3
def z (op : Byte) : BitVec 3 := op.extractLsb' 0 3
def p (op : Byte) : BitVec 2 := op.extractLsb' 4 2
def q (op : Byte) : Bool := op.getLsbD 3

def decodeLow (i : Option Index) (op : Byte) : Instr :=
  match z op with
  | 0 =>
    match y op with
    | 0 => .nop
    | 1 => .exAF
    | 2 => .djnz
    | 3 => .jr none
    | _ => .jr (some (.ofField (y op - 4)))
  | 1 => if q op then .addPair (.hlUnder i) (.ofField i (p op)) else .ldPair (.ofField i (p op))
  | 2 =>
    match p op, q op with
    | 0, false => .storeA .bc
    | 0, true => .loadA .bc
    | 1, false => .storeA .de
    | 1, true => .loadA .de
    | 2, false => .storePair (.hlUnder i)
    | 2, true => .loadPair (.hlUnder i)
    | _, false => .storeADirect
    | _, true => .loadADirect
  | 3 => if q op then .decPair (.ofField i (p op)) else .incPair (.ofField i (p op))
  | 4 => .update .inc (.ofField i (y op))
  | 5 => .update .dec (.ofField i (y op))
  | 6 => .ldImm (.ofField i (y op))
  | _ =>
    match y op with
    | 4 => .daa
    | 5 => .cpl
    | 6 => .scf
    | 7 => .ccf
    | s => .rotateA (.ofField s)

/-- Opcodes from 40 to 7F. Beside an operand in memory H and L keep their plain meaning. -/
def decodeLoad (i : Option Index) (op : Byte) : Instr :=
  match Reg8.ofField (y op), Reg8.ofField (z op) with
  | none, none => .halt
  | none, some src => .ld (.mem (.under i)) (.reg src)
  | some dst, none => .ld (.reg dst) (.mem (.under i))
  | some dst, some src => .ld (.reg (dst.under i)) (.reg (src.under i))

def decodeHigh (i : Option Index) (op : Byte) : Opcode :=
  match z op with
  | 0 => .instr (.ret (some (.ofField (y op))))
  | 1 =>
    if q op then
      match p op with
      | 0 => .instr (.ret none)
      | 1 => .instr .exx
      | 2 => .instr (.jpPair (.hlUnder i))
      | _ => .instr (.ldSp (.hlUnder i))
    else .instr (.pop (.ofStackField i (p op)))
  | 2 => .instr (.jp (some (.ofField (y op))))
  | 3 =>
    match y op with
    | 0 => .instr (.jp none)
    | 1 => .bits
    | 2 => .instr .outA
    | 3 => .instr .inA
    | 4 => .instr (.exStack (.hlUnder i))
    | 5 => .instr .exDEHL
    | 6 => .instr .di
    | _ => .instr .ei
  | 4 => .instr (.call (some (.ofField (y op))))
  | 5 =>
    if q op then
      match p op with
      | 0 => .instr (.call none)
      | 1 => .index .ix
      | 2 => .extended
      | _ => .index .iy
    else .instr (.push (.ofStackField i (p op)))
  | 6 => .instr (.aluImm (.ofField (y op)))
  | _ => .instr (.rst (y op))

def decode (i : Option Index) (op : Byte) : Opcode :=
  match x op with
  | 0 => .instr (decodeLow i op)
  | 1 => .instr (decodeLoad i op)
  | 2 => .instr (.alu (.ofField (y op)) (.ofField i (z op)))
  | _ => decodeHigh i op

def updateOf (op : Byte) : Option Update :=
  match x op with
  | 0 => some (.shift (.ofField (y op)))
  | 1 => none
  | 2 => some (.res (y op))
  | _ => some (.set (y op))

def decodeBits (op : Byte) : Instr :=
  match updateOf op, Reg8.ofField (z op) with
  | some u, _ => .update u (.ofField none (z op))
  | none, some r => .bit (y op) r
  | none, none => .bitMem (y op)

def decodeIndexedBits (i : Index) (d op : Byte) : Instr :=
  match updateOf op with
  | some u => .updateIndexed u i d (Reg8.ofField (z op))
  | none => .bitIndexed (y op) i d

def decodeSpecial (op : Byte) : Instr :=
  match y op with
  | 0 => .ldIA
  | 1 => .ldRA
  | 2 => .ldAI
  | 3 => .ldAR
  | 4 => .rrd
  | 5 => .rld
  | _ => .nop

def blockOf (z : BitVec 3) : Option BlockOp :=
  match z with
  | 0 => some .move
  | 1 => some .search
  | 2 => some .input
  | 3 => some .output
  | _ => none

/-- The extended table, in which no prefix counts; what it leaves free does nothing. -/
def decodeExtended (op : Byte) : Instr :=
  match x op with
  | 1 =>
    match z op with
    | 0 => .inC (Reg8.ofField (y op))
    | 1 => .outC (Reg8.ofField (y op))
    | 2 => if q op then .adcHL (.ofField none (p op)) else .sbcHL (.ofField none (p op))
    | 3 => if q op then .loadPair (.ofField none (p op)) else .storePair (.ofField none (p op))
    | 4 => .neg
    | 5 => .retn
    | 6 => .im ([0, 0, 1, 2, 0, 0, 1, 2].get (y op).toFin)
    | _ => decodeSpecial op
  | 2 =>
    if y op < 4 then .nop
    else match blockOf (z op) with
      | some b => .block b (if q op then .down else .up) ((y op).getLsbD 1)
      | none => .nop
  | _ => .nop

end Opcode

end Z80
