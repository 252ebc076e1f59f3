import Z80.Proofs.Effect

/-! What a step leaves for the next decision. The ways in which a step can come about are told
apart by the marks it makes, and each says how the guard comes out of it. -/
namespace Z80

variable {β : Type}

namespace Cpu

open Exec

variable {c d : Cpu}

theorem settled_of_acknowledge (served : c.decision = .acknowledge) :
    c.regs.eiMode = false ∧ c.regs.halt = false ∧ c.eligible = true := by
  unfold decision at served
  split at served <;> simp_all

theorem regs_control {k : Control} (h : ∀ t, k ≠ .resetAt t) : (c.control k).regs = c.regs := by
  cases k with
  | resetAt t => exact absurd rfl (h t)
  | setNmi =>
    change Cpu.regs (if _ then _ else _) = _
    split <;> rfl
  | _ => rfl

variable [Bus β] {bus bus' : β} {find : Exec β (Option Instr)} {i : Instr}

structure RanBy (c : Cpu) (bus : β) (find : Exec β (Option Instr)) (i : Instr) (d : Cpu)
    (bus' : β) : Prop where
  found : c.found bus find = some i
  regs : d.regs = (c.ranCore bus find i).regs
  bus : bus' = (c.ranCore bus find i).bus

theorem RanBy.guard (h : c.RanBy bus find i d bus') (hf : Keeps Registers.guard find) :
    d.regs.guard = i.guard c.pins c.regs.guard := by
  rw [h.regs, ranCore, Instr.exec_guard, hf]

inductive Stepped (c : Cpu) (bus : β) (d : Cpu) (bus' : β) : Prop
  | instruction (i : Instr) (running : c.decision ≠ .acknowledge)
      (marks : c.marks bus = [.executed i]) (ran : c.shut.RanBy bus nextInstruction i d bus')
  | nmi (served : c.decision = .acknowledge) (edge : c.pins.nmi = .edge)
      (marks : c.marks bus = [.nmi c.regs.iff2])
      (guard : d.regs.guard = { c.regs.guard with iff1 := false })
  | supplied (i : Instr) (served : c.decision = .acknowledge) (maskable : c.pins.nmi ≠ .edge)
      (mode : c.regs.im = 0) (marks : c.marks bus = [.int, .executed i])
      (ran : c.released.RanBy bus (supply c.pins.data) i d bus')
  | restart (served : c.decision = .acknowledge) (maskable : c.pins.nmi ≠ .edge)
      (mode : c.regs.im = 1) (marks : c.marks bus = [.int, .executed (.rst 7)])
      (ran : c.disabled.RanBy bus (supply 0xFF) (.rst 7) d bus')
  | vector (served : c.decision = .acknowledge) (maskable : c.pins.nmi ≠ .edge)
      (zero : c.regs.im ≠ 0) (one : c.regs.im ≠ 1) (marks : c.marks bus = [.int])
      (guard : d.regs.guard = c.disabled.regs.guard)

theorem stepped_of_step (h : c.step bus = some (d, bus')) : Stepped c bus d bus' := by
  obtain ⟨e, he, rfl, rfl⟩ := effect_of_step h
  have marks : c.marks bus = e.marks := marks_of_effect he
  cases arises_of_effect he with
  | instruction i running found => exact .instruction i running marks ⟨found, rfl, rfl⟩
  | nmi served edge => exact .nmi served edge marks (serveNmi_guard { regs := c.regs, bus })
  | supplied i served maskable mode found =>
    exact .supplied i served maskable mode marks ⟨found, rfl, rfl⟩
  | restart served maskable mode =>
    have found : c.disabled.found bus (supply 0xFF) = some (.rst 7) := found_supply_rst ..
    exact .restart served maskable mode marks ⟨found, rfl, rfl⟩
  | vector served maskable zero one =>
    exact .vector served maskable zero one marks
      (serveVector_guard _ { regs := c.disabled.regs, bus })

end Cpu

end Z80
