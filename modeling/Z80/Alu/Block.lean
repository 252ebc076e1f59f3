import Z80.Alu.Arith

/-! Flags of the block instructions, which move, search or transfer one byte and count
down. `more` says that the counter has not reached zero. -/
namespace Z80.Alu

def copyBlockXY (f : Flags) (b : Byte) : Flags :=
  { f with y := b.getLsbD 1, x := b.getLsbD 3 }

def moveFlags (f : Flags) (a v : Byte) (more : Bool) : Flags :=
  copyBlockXY { f with h := false, p := more, n := false } (a + v)

/-- A search compares without touching the carry; its copies come from `a - v - h`. -/
def searchFlags (f : Flags) (a v : Byte) (more : Bool) : Flags :=
  let r := sub a v false
  copyBlockXY { r.flags with p := more, c := f.c } (difference a v r.flags.h)

/-- A transfer reports, beside what the counter `b` shows in `base`, the carry out of
the byte plus `addend`. -/
def transferFlags (base : Flags) (b v addend : Byte) : Flags :=
  let carry := BitVec.carry 8 v addend false
  { base with
    h := carry
    p := Flags.evenParity (((v + addend) &&& 7) ^^^ b)
    n := v.msb
    c := carry }

end Z80.Alu
