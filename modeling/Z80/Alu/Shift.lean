import Z80.Alu.Arith

/-! Shifts and rotates. Each moves the byte by one place; they differ only in the bit
that enters, and the bit that leaves always becomes the carry. -/
namespace Z80

inductive Shift where
  | rlc | rrc | rl | rr | sla | sra | sll | srl
  deriving DecidableEq

namespace Shift

def all : List Shift := [.rlc, .rrc, .rl, .rr, .sla, .sra, .sll, .srl]

def ofField (y : BitVec 3) : Shift := all.get y.toFin

def isLeft : Shift → Bool
  | rlc | rl | sla | sll => true
  | rrc | rr | sra | srl => false

/-- The bit that enters at the free end; only `rl` and `rr` look at the carry. -/
def incoming (s : Shift) (v : Byte) (c : Bool) : Bool :=
  match s with
  | rlc | sra => v.msb
  | rrc => v.getLsbD 0
  | rl | rr => c
  | sla | srl => false
  | sll => true

def moved (s : Shift) (v : Byte) (c : Bool) : Byte :=
  let bit := BitVec.ofBool (s.incoming v c)
  if s.isLeft then v.setWidth 7 ++ bit else bit ++ v.extractLsb' 1 7

def outgoing (s : Shift) (v : Byte) : Bool := if s.isLeft then v.msb else v.getLsbD 0

def apply (s : Shift) (v : Byte) (f : Flags) : Result 8 where
  value := s.moved v f.c
  flags := { Flags.ofParity (s.moved v f.c) with c := s.outgoing v }

def applyA (s : Shift) (a : Byte) (f : Flags) : Result 8 where
  value := s.moved a f.c
  flags := Flags.copyXY { f with h := false, n := false, c := s.outgoing a } (s.moved a f.c)

end Shift

namespace Alu

def mask (n : BitVec 3) : Byte := 1#8 <<< n

/-- Testing a bit keeps the carry; `xy` is the byte whose bits 5 and 3 are copied. -/
def bit (n : BitVec 3) (v xy : Byte) (f : Flags) : Flags :=
  { Flags.copyXY (Flags.ofTest (v &&& mask n)) xy with c := f.c }

def res (n : BitVec 3) (v : Byte) : Byte := v &&& ~~~mask n

def set (n : BitVec 3) (v : Byte) : Byte := v ||| mask n

end Alu

end Z80
