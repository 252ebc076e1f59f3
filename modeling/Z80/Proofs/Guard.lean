import Z80.Proofs.Frame

/-! The four truths on which the next decision rests: the two interrupt enables, the
halt, and the window after EI. Instructions act on them by themselves, without a look at
the data, and all but DI, EI, RETN and HALT leave them alone. -/
namespace Z80

variable {β : Type}

structure Guard where
  iff1 : Bool := false
  iff2 : Bool := false
  halt : Bool := false
  eiMode : Bool := false
  deriving DecidableEq

def Registers.guard (r : Registers) : Guard := ⟨r.iff1, r.iff2, r.halt, r.eiMode⟩

theorem Registers.guard_apart : Registers.Apart guard where
  set _ x _ := by cases x <;> rfl
  pc _ _ := rfl
  sh _ _ := rfl
  r _ _ := rfl

def Instr.guard (pins : Pins) (i : Instr) (g : Guard) : Guard :=
  match i with
  | di => { g with iff1 := false, iff2 := false }
  | ei => { g with iff1 := true, iff2 := true, eiMode := true }
  | retn => { g with iff1 := g.iff2 }
  | halt => { g with halt := !pins.eligible g.iff1 }
  | _ => g

theorem Instr.guard_of_not_reschedules {i : Instr} (h : i.reschedules = false) (pins : Pins)
    (g : Guard) : i.guard pins g = g := by
  cases i <;> first | rfl | contradiction

theorem Instr.exec_halt [Bus β] (pins : Pins) (s : Core β) :
    (halt.exec pins s).2 =
      { s with
        regs :=
          if pins.eligible s.regs.iff1 then { s.regs with halt := false }
          else { s.regs with pc := s.regs.pc - 1, halt := true } } := rfl

open Registers (guard_apart)

theorem Instr.exec_guard [Bus β] (pins : Pins) (i : Instr) (s : Core β) :
    (i.exec pins s).2.regs.guard = i.guard pins s.regs.guard := by
  cases hi : i.system with
  | false =>
    rw [exec_keeps guard_apart hi]
    cases i <;> first | rfl | contradiction
  | true =>
    cases i with
    | retn =>
      simp only [exec, Exec.bind_apply, Exec.change_apply, Exec.redraw_apply,
        Exec.Keeps.returnTo guard_apart]
      rfl
    | halt =>
      rw [exec_halt]
      split <;> simp [Registers.guard, guard, *]
    | exAF | exx | ldIA | ldRA | im | di | ei => rfl
    | _ => contradiction

namespace Exec

variable [Bus β]

theorem serveNmi_guard (s : Core β) :
    (serveNmi s).2.regs.guard = { s.regs.guard with iff1 := false } := by
  have pushed (w : Word) : (pushUntimed w s).2.regs.guard = s.regs.guard :=
    Keeps.pushWith guard_apart Keeps.writeBus w s
  simp only [serveNmi, bind_apply, regs_apply, change_apply, charge_apply, Keeps.m1 guard_apart,
    ← pushed s.regs.pc]
  rfl

theorem serveVector_guard (vector : Word) :
    Keeps Registers.guard (serveVector vector : Exec β Unit) := by
  intro s
  have pushed (w : Word) : (pushUntimed w s).2.regs.guard = s.regs.guard :=
    Keeps.pushWith guard_apart Keeps.writeBus w s
  simp only [serveVector, bind_apply, regs_apply, charge_apply, Keeps.readBus, pushed,
    Keeps.setPC guard_apart, Keeps.m1 guard_apart]

theorem keeps_guard_next : Keeps Registers.guard (nextInstruction : Exec β (Option Instr)) :=
  Keeps.nextInstruction (Keeps.fetchByte guard_apart) (Keeps.m1 guard_apart)

theorem keeps_guard_supply (op : Byte) :
    Keeps Registers.guard (supply op : Exec β (Option Instr)) :=
  Keeps.supply (Keeps.fetchByte guard_apart) (Keeps.m1 guard_apart) op

end Exec

end Z80
