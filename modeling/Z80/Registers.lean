import Z80.Flags

/-! The register file. Pairs are stored as words, so a pair and its halves can never
disagree; the flag register is the low half of AF. -/
namespace Z80

structure Bank where
  af : Word := 0
  bc : Word := 0
  de : Word := 0
  hl : Word := 0
  deriving DecidableEq

structure Registers where
  af : Word := 0
  bc : Word := 0
  de : Word := 0
  hl : Word := 0
  ix : Word := 0
  iy : Word := 0
  sp : Word := 0
  pc : Word := 0
  shadow : Bank := {}
  /-- The internal address latch, which shows only in the flags of a memory bit test. -/
  sh : Word := 0
  i : Byte := 0
  /-- Counts opcode fetches in all eight bits, of which seven can be read. -/
  r : Byte := 0
  /-- What was last loaded into R; its bit 7 is read back. -/
  r2 : Byte := 0
  iff1 : Bool := false
  iff2 : Bool := false
  im : Byte := 0
  halt : Bool := false
  /-- The last instruction was EI: no interrupt is taken before the next one has run. -/
  eiMode : Bool := false
  deriving DecidableEq

namespace Registers

def powerOn : Registers :=
  { af := 0xFFFF, bc := 0xFFFF, de := 0xFFFF, hl := 0xFFFF, ix := 0xFFFF, iy := 0xFFFF
    sp := 0xFFFF, sh := 0xFFFF, shadow := ⟨0xFFFF, 0xFFFF, 0xFFFF, 0xFFFF⟩ }

def a (r : Registers) : Byte := r.af.high

def flags (r : Registers) : Flags := .ofByte r.af.low

def setA (r : Registers) (v : Byte) : Registers := { r with af := r.af.withHigh v }

def setFlags (r : Registers) (f : Flags) : Registers := { r with af := r.af.withLow f.toByte }

@[simp] theorem a_setA (r : Registers) (v : Byte) : (r.setA v).a = v := by simp [a, setA]

@[simp] theorem flags_setA (r : Registers) (v : Byte) : (r.setA v).flags = r.flags := by
  simp [flags, setA]

@[simp] theorem a_setFlags (r : Registers) (f : Flags) : (r.setFlags f).a = r.a := by
  simp [a, setFlags]

@[simp] theorem flags_setFlags (r : Registers) (f : Flags) : (r.setFlags f).flags = f := by
  simp [flags, setFlags]

def visibleR (r : Registers) : Byte := (r.r &&& 0x7F) ||| (r.r2 &&& 0x80)

theorem msb_visibleR (r : Registers) : r.visibleR.msb = r.r2.msb := by
  have low : (0x7F : Byte).msb = false := rfl
  have top : (0x80 : Byte).msb = true := rfl
  rw [visibleR, BitVec.msb_or, BitVec.msb_and, BitVec.msb_and, low, top, Bool.and_false,
    Bool.and_true, Bool.false_or]

def exchangeAF (r : Registers) : Registers :=
  { r with af := r.shadow.af, shadow := { r.shadow with af := r.af } }

def exchangeBank (r : Registers) : Registers :=
  { r with
    bc := r.shadow.bc, de := r.shadow.de, hl := r.shadow.hl
    shadow := ⟨r.shadow.af, r.bc, r.de, r.hl⟩ }

@[simp] theorem exchangeAF_exchangeAF (r : Registers) : r.exchangeAF.exchangeAF = r := rfl

@[simp] theorem exchangeBank_exchangeBank (r : Registers) :
    r.exchangeBank.exchangeBank = r := rfl

end Registers

end Z80
