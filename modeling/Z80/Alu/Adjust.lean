import Z80.Alu.Arith

/-! Adjustments of the accumulator and of single flags. After a sum or difference of
packed decimal bytes, each digit that left its range is brought back by six. -/
namespace Z80.Alu

def lowDigit (a : Byte) : Nat := a.toNat % 16

/-- What decimal adjustment adds or takes away: six at each digit that overflowed. -/
def correction (a : Byte) (f : Flags) : Byte :=
  (if f.h || 9 < lowDigit a then 0x06 else 0) + (if f.c || 0x99 < a.toNat then 0x60 else 0)

def daa (a : Byte) (f : Flags) : Result 8 :=
  let value := if f.n then a - correction a f else a + correction a f
  { value
    flags :=
      { Flags.ofParity value with
        h := if f.n then f.h && lowDigit a < 6 else 9 < lowDigit a
        n := f.n
        c := f.c || 0x99 < a.toNat } }

def cpl (a : Byte) (f : Flags) : Result 8 where
  value := ~~~a
  flags := Flags.copyXY { f with h := true, n := true } (~~~a)

def scf (a : Byte) (f : Flags) : Flags :=
  Flags.copyXY { f with h := false, n := false, c := true } a

/-- The old carry moves to the half carry before it is inverted. -/
def ccf (a : Byte) (f : Flags) : Flags :=
  Flags.copyXY { f with h := f.c, n := false, c := !f.c } a

end Z80.Alu
