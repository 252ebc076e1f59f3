import Z80.Registers

/-! Operands. A byte register is one half of a pair, so everything known about reading
and writing pairs carries over to bytes. -/
namespace Z80

inductive Reg16 where
  | bc | de | hl | sp | af | ix | iy
  deriving DecidableEq

inductive Reg8 where
  | b | c | d | e | h | l | a | ixh | ixl | iyh | iyl
  deriving DecidableEq

inductive Index where
  | ix | iy
  deriving DecidableEq

inductive Condition where
  | nz | z | nc | c | po | pe | p | m
  deriving DecidableEq

/-- A byte in memory: under HL, or under an index register with a displacement. -/
inductive Mem where
  | hl
  | indexed (i : Index)
  deriving DecidableEq

inductive Loc where
  | reg (r : Reg8)
  | mem (m : Mem)
  deriving DecidableEq

namespace Registers

def get (r : Registers) : Reg16 → Word
  | .bc => r.bc
  | .de => r.de
  | .hl => r.hl
  | .sp => r.sp
  | .af => r.af
  | .ix => r.ix
  | .iy => r.iy

def set (r : Registers) (x : Reg16) (w : Word) : Registers :=
  match x with
  | .bc => { r with bc := w }
  | .de => { r with de := w }
  | .hl => { r with hl := w }
  | .sp => { r with sp := w }
  | .af => { r with af := w }
  | .ix => { r with ix := w }
  | .iy => { r with iy := w }

theorem get_set (r : Registers) (x y : Reg16) (w : Word) :
    (r.set x w).get y = if y = x then w else r.get y := by
  cases x <;> cases y <;> rfl

end Registers

namespace Reg8

def pair : Reg8 → Reg16
  | b | c => .bc
  | d | e => .de
  | h | l => .hl
  | a => .af
  | ixh | ixl => .ix
  | iyh | iyl => .iy

def isHigh : Reg8 → Bool
  | b | d | h | a | ixh | iyh => true
  | c | e | l | ixl | iyl => false

def get (x : Reg8) (r : Registers) : Byte :=
  if x.isHigh then (r.get x.pair).high else (r.get x.pair).low

def set (x : Reg8) (v : Byte) (r : Registers) : Registers :=
  r.set x.pair (if x.isHigh then (r.get x.pair).withHigh v else (r.get x.pair).withLow v)

theorem get_set (x y : Reg8) (v : Byte) (r : Registers) :
    y.get (x.set v r) = if y = x then v else y.get r := by
  cases x <;> cases y <;> simp [get, set, isHigh, pair, Registers.get_set]

def ofField (z : BitVec 3) : Option Reg8 :=
  [some b, some c, some d, some e, some h, some l, none, some a].get z.toFin

end Reg8

namespace Index

def pair : Index → Reg16
  | ix => .ix
  | iy => .iy

def high : Index → Reg8
  | ix => .ixh
  | iy => .iyh

def low : Index → Reg8
  | ix => .ixl
  | iy => .iyl

end Index

/-- HL, or what stands in for it. -/
def Reg16.hlUnder : Option Index → Reg16
  | none => .hl
  | some i => i.pair

/-- A register under a prefix: H and L become the halves of the index register. -/
def Reg8.under (x : Reg8) : Option Index → Reg8
  | none => x
  | some i =>
    match x with
    | h => i.high
    | l => i.low
    | x => x

def Mem.under : Option Index → Mem
  | none => .hl
  | some i => .indexed i

def Loc.ofField (i : Option Index) (z : BitVec 3) : Loc :=
  match Reg8.ofField z with
  | none => .mem (.under i)
  | some r => .reg (r.under i)

def Reg16.ofField (i : Option Index) (p : BitVec 2) : Reg16 :=
  [bc, de, hlUnder i, sp].get p.toFin

/-- The pair field of the stack instructions, which reach AF where the others reach SP. -/
def Reg16.ofStackField (i : Option Index) (p : BitVec 2) : Reg16 :=
  [bc, de, hlUnder i, af].get p.toFin

namespace Condition

def ofField (y : BitVec 3) : Condition := [nz, z, nc, c, po, pe, p, m].get y.toFin

def holds (k : Condition) (f : Flags) : Bool :=
  match k with
  | nz => !f.z
  | z => f.z
  | nc => !f.c
  | c => f.c
  | po => !f.p
  | pe => f.p
  | p => !f.s
  | m => f.s

end Condition

end Z80
