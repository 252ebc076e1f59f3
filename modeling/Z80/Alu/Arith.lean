import Z80.Flags

/-! Addition, subtraction and the bitwise operations. Every arithmetic flag is a carry:
the half carry leaves bit 3 of the top byte, the carry leaves the top bit, and the
signed result overflows exactly when the carries into and out of the top bit differ. -/
namespace Z80

structure Result (w : Nat) where
  value : BitVec w
  flags : Flags
  deriving DecidableEq

namespace Alu

def sum (x y : BitVec w) (c : Bool) : BitVec w := x + y + (BitVec.ofBool c).setWidth w

def difference (x y : BitVec w) (c : Bool) : BitVec w := x - y - (BitVec.ofBool c).setWidth w

/-- The borrow that the low `i` bits of `x - y - c` take from bit `i`. -/
def borrow (i : Nat) (x y : BitVec w) (c : Bool) : Bool :=
  decide ((x.setWidth i).toNat < (y.setWidth i).toNat + c.toNat)

def add (a v : Byte) (c : Bool) : Result 8 where
  value := sum a v c
  flags :=
    { Flags.ofValue (sum a v c) with
      h := BitVec.carry 4 a v c
      p := BitVec.carry 7 a v c ^^ BitVec.carry 8 a v c
      c := BitVec.carry 8 a v c }

def sub (a v : Byte) (c : Bool) : Result 8 where
  value := difference a v c
  flags :=
    { Flags.ofValue (difference a v c) with
      h := borrow 4 a v c
      p := borrow 7 a v c ^^ borrow 8 a v c
      n := true
      c := borrow 8 a v c }

/-- The flags of a comparison: those of `a - v`, with the copies taken from the operand. -/
def compare (a v : Byte) : Flags := (sub a v false).flags.copyXY v

def and (a v : Byte) : Result 8 := ⟨a &&& v, { Flags.ofParity (a &&& v) with h := true }⟩

def xor (a v : Byte) : Result 8 := ⟨a ^^^ v, Flags.ofParity (a ^^^ v)⟩

def or (a v : Byte) : Result 8 := ⟨a ||| v, Flags.ofParity (a ||| v)⟩

def keepCarry (r : Result 8) (f : Flags) : Result 8 := { r with flags := { r.flags with c := f.c } }

def inc (v : Byte) (f : Flags) : Result 8 := keepCarry (add v 1 false) f

def dec (v : Byte) (f : Flags) : Result 8 := keepCarry (sub v 1 false) f

/-- Adding words sets only the flags that the upper byte can tell, and keeps S, Z and P. -/
def add16 (x y : Word) (f : Flags) : Result 16 where
  value := sum x y false
  flags :=
    Flags.copyXY
      { f with h := BitVec.carry 12 x y false, n := false, c := BitVec.carry 16 x y false }
      (Word.high (sum x y false))

def ofWord (w : Word) : Flags := { Flags.ofValue w.high with z := w == 0 }

def adc16 (x y : Word) (c : Bool) : Result 16 where
  value := sum x y c
  flags :=
    { ofWord (sum x y c) with
      h := BitVec.carry 12 x y c
      p := BitVec.carry 15 x y c ^^ BitVec.carry 16 x y c
      c := BitVec.carry 16 x y c }

def sbc16 (x y : Word) (c : Bool) : Result 16 where
  value := difference x y c
  flags :=
    { ofWord (difference x y c) with
      h := borrow 12 x y c
      p := borrow 15 x y c ^^ borrow 16 x y c
      n := true
      c := borrow 16 x y c }

end Alu

inductive AluOp where
  | add | adc | sub | sbc | and | xor | or | cp
  deriving DecidableEq

namespace AluOp

def all : List AluOp := [.add, .adc, .sub, .sbc, .and, .xor, .or, .cp]

def ofField (y : BitVec 3) : AluOp := all.get y.toFin

def apply (op : AluOp) (a v : Byte) (f : Flags) : Result 8 :=
  match op with
  | add => Alu.add a v false
  | adc => Alu.add a v f.c
  | sub => Alu.sub a v false
  | sbc => Alu.sub a v f.c
  | and => Alu.and a v
  | xor => Alu.xor a v
  | or => Alu.or a v
  | cp => ⟨a, Alu.compare a v⟩

end AluOp

end Z80
