import Z80.Proofs.Guard

/-! A run of one instruction, seen from outside: which instruction is found, and what it
does to everything that bears on the next decision. -/
namespace Z80

open Exec

namespace Exec

variable {σ : Type} [Carrier σ] [Bus σ] {pins : Pins} {find : Action σ (Option Instr)} {s : σ}

theorem perform_of_some {i : Instr} (h : (find s).1 = some i) :
    perform pins find s = (some i, (i.exec pins (find s).2).2) := by
  unfold perform
  rw [bind_apply, h]
  rfl

theorem perform_of_none (h : (find s).1 = none) : perform pins find s = (none, (find s).2) := by
  unfold perform
  rw [bind_apply, h]
  rfl

end Exec

variable {β : Type}

namespace Cpu

variable {c d : Cpu} {bus bus' : β} {find : Exec β (Option Instr)}
  {live : Action (Clocked β) (Option Instr)}

def found (c : Cpu) (bus : β) (find : Exec β (Option Instr)) : Option Instr :=
  (find { regs := c.regs, bus }).1

/-- A fetch that the processor makes comes upon what it comes upon without a clock. -/
theorem live_eq (same : Follows c.clocked live find) (bus : β) :
    live ⟨c, bus⟩ = (c.found bus find, c.clocked (find { regs := c.regs, bus }).2) := by
  rw [← clocked_start, same]
  rfl

theorem serve_eq {action : Exec β Unit} {live : Action (Clocked β) Unit}
    (same : Follows c.clocked live action) (bus : β) :
    c.serve bus live =
      (c.settle (action { regs := c.regs, bus }).2, (action { regs := c.regs, bus }).2.bus) := by
  unfold serve
  rw [← clocked_start, same]
  rfl

theorem eq_refresh_of_refreshed {moved : Option (Cpu × β)}
    (h : moved.map refreshed = some (d, bus')) :
    ∃ c' : Cpu, moved = some (c', bus') ∧ d = c'.refresh := by
  obtain ⟨⟨c', b⟩, hm, hd⟩ := Option.map_eq_some_iff.mp h
  cases hd
  exact ⟨c', hm, rfl⟩

variable [Bus β]

def ranCore (c : Cpu) (bus : β) (find : Exec β (Option Instr)) (i : Instr) : Core β :=
  (i.exec c.pins (find { regs := c.regs, bus }).2).2

theorem run_of_found {i : Instr} (same : Follows c.clocked live find)
    (h : c.found bus find = some i) :
    c.run bus live =
      some (if i.reschedules then (c.settle (c.ranCore bus find i)).refresh
        else c.settle (c.ranCore bus find i), (c.ranCore bus find i).bus) := by
  have fetched := live_eq same bus
  unfold run
  rw [perform_of_some ((congrArg Prod.fst fetched).trans h), fetched, exec_clocked]
  rfl

theorem run_of_not_found (same : Follows c.clocked live find) (h : c.found bus find = none) :
    c.run bus live = none := by
  have fetched := live_eq same bus
  unfold run
  rw [perform_of_none ((congrArg Prod.fst fetched).trans h)]
  rfl

theorem follows_next (c : Cpu) :
    Follows c.clocked (nextInstruction : Action (Clocked β) (Option Instr)) nextInstruction :=
  Follows.nextInstruction (.fetchByte c.clocked_hom) (.m1 c.clocked_hom) (.charge c.clocked_hom)

theorem follows_supply (c : Cpu) (op : Byte) :
    Follows c.clocked (supply op : Action (Clocked β) (Option Instr)) (supply op) :=
  Follows.supply (.fetchByte c.clocked_hom) (.m1 c.clocked_hom) (.charge c.clocked_hom) op

theorem next_of_found {i : Instr} (h : c.found bus nextInstruction = some i) :
    c.next bus =
      some (if i.reschedules then (c.settle (c.ranCore bus nextInstruction i)).refresh
        else c.settle (c.ranCore bus nextInstruction i), (c.ranCore bus nextInstruction i).bus) :=
  run_of_found c.follows_next h

/-- `d` is `c` after the instruction `i`, in all that bears on what comes next. -/
structure Ran (c : Cpu) (i : Instr) (d : Cpu) : Prop where
  guard : d.regs.guard = i.guard c.pins c.regs.guard
  pins : d.pins = c.pins
  timing : d.timing = c.timing
  timeout : d.timeout = c.timeout
  stopped : d.stopped = c.stopped
  horizon : d.horizon = if i.reschedules then d.due else c.horizon

theorem ran_of_run (same : Follows c.clocked live find) (hf : Keeps Registers.guard find)
    (h : c.run bus live = some (d, bus')) : ∃ i, c.found bus find = some i ∧ Ran c i d := by
  cases hi : c.found bus find with
  | none => simp [run_of_not_found same hi] at h
  | some i =>
    have hg : (c.ranCore bus find i).regs.guard = i.guard c.pins c.regs.guard := by
      rw [ranCore, Instr.exec_guard, hf]
    rw [run_of_found same hi, Option.some.injEq, Prod.mk.injEq] at h
    obtain ⟨rfl, -⟩ := h
    refine ⟨i, rfl, ?_⟩
    split
    · exact ⟨hg, rfl, rfl, rfl, rfl, by simp [*]⟩
    · exact ⟨hg, rfl, rfl, rfl, rfl, by simp [*, settle]⟩

end Cpu

end Z80
