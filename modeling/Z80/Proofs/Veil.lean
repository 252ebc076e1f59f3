import Z80.Proofs.Clockless
import Z80.Instr

/-! State that is not documented: the latch, and the copies of bits 5 and 3 in the two flag
bytes. A veil puts other contents in these places, and what is read of the registers otherwise
does not tell the difference. -/
namespace Z80

variable {β : Type}

def Flags.documented (f : Flags) : Flags := f.copyXY 0

structure Result.Alike (u u' : Result n) : Prop where
  value : u.value = u'.value
  flags : u.flags.documented = u'.flags.documented

/-- The flags that stand in the low byte, with other copies. -/
def Word.copyXY (w : Word) (b : Byte) : Word := w.withLow ((Flags.ofByte w.low).copyXY b).toByte

/-- Contents of the undocumented places. For a flag byte it is any byte with these copies. -/
structure Veil where
  sh : Word
  f : Byte
  shadow : Byte

def Veil.regs (v : Veil) (r : Registers) : Registers :=
  { r with
    sh := v.sh
    af := r.af.copyXY v.f
    shadow := { r.shadow with af := r.shadow.af.copyXY v.shadow } }

def Veil.core (v : Veil) (s : Core β) : Core β := { s with regs := v.regs s.regs }

namespace Flags

theorem copyXY_toByte {f g : Flags} (h : f.documented = g.documented) :
    f.copyXY g.toByte = g := by
  have bits (k : Flags) : g.copyXY k.toByte = { g with y := k.y, x := k.x } :=
    congrArg (fun l : Flags => { g with y := l.y, x := l.x }) (ofByte_toByte k)
  calc f.copyXY g.toByte
    _ = f.documented.copyXY g.toByte := rfl
    _ = g.copyXY g.toByte := by rw [h]; rfl
    _ = g := bits g

end Flags

namespace Word

theorem withLow_withLow (w : Word) (a b : Byte) : (w.withLow a).withLow b = w.withLow b := by
  simp [withLow]

theorem withLow_withHigh (w : Word) (a b : Byte) :
    (w.withHigh a).withLow b = (w.withLow b).withHigh a := by
  simp [withLow, withHigh]

@[simp] theorem high_copyXY (w : Word) (b : Byte) : (w.copyXY b).high = w.high := by
  simp [copyXY]

theorem copyXY_low (w : Word) : w.copyXY w.low = w := by
  have flags : (Flags.ofByte w.low).copyXY w.low = Flags.ofByte w.low := rfl
  rw [copyXY, flags, Flags.toByte_ofByte, withLow, ofBytes_high_low]

theorem copyXY_copyXY (w : Word) (a b : Byte) : (w.copyXY a).copyXY b = w.copyXY b := by
  have flags : (Flags.ofByte (w.copyXY a).low).copyXY b = (Flags.ofByte w.low).copyXY b := by
    rw [copyXY, low_withLow, Flags.ofByte_toByte]
    rfl
  rw [copyXY, flags, copyXY, copyXY, withLow_withLow]

theorem withLow_copyXY (w : Word) {f g : Flags} (h : f.documented = g.documented) :
    (w.withLow f.toByte).copyXY g.toByte = w.withLow g.toByte := by
  rw [copyXY, low_withLow, Flags.ofByte_toByte, Flags.copyXY_toByte h, withLow_withLow]

theorem withHigh_copyXY (w : Word) (a b : Byte) :
    (w.withHigh a).copyXY b = (w.copyXY b).withHigh a := by
  rw [copyXY, low_withHigh, withLow_withHigh, ← copyXY]

end Word

namespace Veil

variable (v : Veil) (r : Registers)

@[simp] theorem a_regs : (v.regs r).a = r.a := Word.high_copyXY r.af v.f

theorem flags_regs : (v.regs r).flags = r.flags.copyXY v.f := by
  change Flags.ofByte (r.af.copyXY v.f).low = _
  rw [Word.copyXY, Word.low_withLow, Flags.ofByte_toByte]
  rfl

theorem get_regs {x : Reg16} (h : x ≠ .af) : (v.regs r).get x = r.get x := by
  cases x <;> first | rfl | contradiction

@[simp] theorem reg8_get (x : Reg8) : x.get (v.regs r) = x.get r := by
  cases x
  case a => exact v.a_regs r
  all_goals rfl

theorem regs_set {x : Reg16} (h : x ≠ .af) (w : Word) :
    (v.regs r).set x w = v.regs (r.set x w) := by
  cases x <;> first | rfl | contradiction

theorem regs_setFlags {f g : Flags} (h : f.documented = g.documented) :
    (v.regs r).setFlags g = { v with f := g.toByte }.regs (r.setFlags f) := by
  have af : (r.af.copyXY v.f).withLow g.toByte = (r.af.withLow f.toByte).copyXY g.toByte := by
    rw [Word.withLow_copyXY r.af h, Word.copyXY, Word.withLow_withLow]
  exact congrArg (fun af => { v.regs r with af }) af

theorem regs_setA (x : Byte) : (v.regs r).setA x = v.regs (r.setA x) :=
  congrArg (fun af => { v.regs r with af }) (Word.withHigh_copyXY r.af x v.f).symm

theorem reg8_set (x : Reg8) (b : Byte) : x.set b (v.regs r) = v.regs (x.set b r) := by
  cases x
  case a => exact v.regs_setA r b
  all_goals rfl

end Veil

end Z80
