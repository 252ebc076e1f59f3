import Z80.Word

/-! The flag register. A flag set is eight independent truths; the byte is only the
form in which they are stored and pushed, and the two forms determine each other. -/
namespace Z80

/-- From bit 7 down: sign, zero, copy of bit 5, half carry, copy of bit 3, parity or
overflow, subtraction, carry. -/
structure Flags where
  s : Bool := false
  z : Bool := false
  y : Bool := false
  h : Bool := false
  x : Bool := false
  p : Bool := false
  n : Bool := false
  c : Bool := false
  deriving DecidableEq

namespace Flags

open BitVec (ofBool) in
def toByte (f : Flags) : Byte :=
  ofBool f.s ++ ofBool f.z ++ ofBool f.y ++ ofBool f.h ++
    ofBool f.x ++ ofBool f.p ++ ofBool f.n ++ ofBool f.c

def ofByte (b : Byte) : Flags where
  s := b.getLsbD 7
  z := b.getLsbD 6
  y := b.getLsbD 5
  h := b.getLsbD 4
  x := b.getLsbD 3
  p := b.getLsbD 2
  n := b.getLsbD 1
  c := b.getLsbD 0

@[simp] theorem toByte_ofByte (b : Byte) : (ofByte b).toByte = b := by
  revert b; decide

@[simp] theorem ofByte_toByte (f : Flags) : ofByte f.toByte = f := by
  obtain ⟨s, z, y, h, x, p, n, c⟩ := f
  revert s z y h x p n c
  decide

/-- The two undocumented flags, copied from bits 5 and 3 of `b`. -/
def copyXY (f : Flags) (b : Byte) : Flags :=
  { f with y := b.getLsbD 5, x := b.getLsbD 3 }

def ofValue (b : Byte) : Flags :=
  copyXY { s := b.msb, z := b == 0 } b

def evenParity (b : Byte) : Bool := b.cpop.toNat % 2 == 0

def ofParity (b : Byte) : Flags := { ofValue b with p := evenParity b }

/-- The outcome of testing `b` under a mask: a clear bit reads as zero and as even. -/
def ofTest (b : Byte) : Flags :=
  { s := b.msb, z := b == 0, h := true, p := evenParity b }

end Flags

end Z80
