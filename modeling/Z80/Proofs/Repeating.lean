import Mathlib.Logic.Function.Iterate
import Z80.Proofs.Charges
import Z80.Proofs.Effect

/-! A repeating block instruction as what it is, a loop. Each step of the processor is one
round and finds the instruction again at PC, until a round is the last; so a whole run of it is
the round iterated, and its length and its time come from counting the rounds. -/
namespace Z80

def BlockOp.once {β : Type} [Bus β] (op : BlockOp) (dir : Direction) (s : Registers × β) :
    Registers × β :=
  let t := (op.round dir ({ regs := s.1, bus := s.2 } : Core β)).2
  (t.regs, t.bus)

def BlockOp.goesOn {β : Type} [Bus β] (op : BlockOp) (s : Registers × β) : Bool :=
  op.test.passes s.1 s.2

theorem Exec.nextInstruction_extended (regs : Registers) {bus : FlatBus} {i : Instr}
    (lead : bus.peek regs.pc = 0xED) (code : Opcode.decodeExtended (bus.peek (regs.pc + 1)) = i) :
    (nextInstruction : Exec FlatBus _) { regs, bus } =
      (some i, { regs := regs.past 2 2, bus, charges := [.m1, .memOp, .m1, .memOp] }) := by
  have spells : Encoding.Spells ⟨0, .extended, bus.peek (regs.pc + 1)⟩
      (Bus.stream bus regs.pc) := ⟨by simp, lead, rfl⟩
  rw [nextInstruction_spelled spells (Nat.zero_le _), ← code]
  rfl

namespace BlockOp

variable {β : Type} [Bus β] (op : BlockOp) (dir : Direction) (regs : Registers) (bus : β)
  (pc : Word) (r : Byte) (charges : List Delay)

theorem round_apply :
    (op.round dir : Exec β Bool) { regs := { regs with pc, r }, bus, charges } =
      (op.goesOn (regs, bus),
        { regs := { (op.once dir (regs, bus)).1 with pc, r }
          bus := (op.once dir (regs, bus)).2
          charges := op.delays.reverse ++ charges }) := by
  cases op <;> rfl

theorem exec_apply :
    ((op.exec dir true : Exec β Unit) { regs := { regs with pc, r }, bus, charges }).2 =
      { regs :=
          { (op.once dir (regs, bus)).1 with
            pc := if op.goesOn (regs, bus) then pc - 2 else pc
            r }
        bus := (op.once dir (regs, bus)).2
        charges :=
          (if op.goesOn (regs, bus) then [.block] else []) ++ op.delays.reverse ++ charges } := by
  unfold exec
  rw [Exec.bind_apply, round_apply]
  cases op.goesOn (regs, bus) <;> rfl

theorem guard_rounds (s : Registers × β) (k : Nat) :
    ((op.once dir)^[k] s).1.guard = s.1.guard := by
  induction k with
  | zero => rfl
  | succ k ih =>
    rw [Function.iterate_succ_apply', ← ih]
    exact Exec.Keeps.round Registers.guard_apart dir op _

theorem total_round (goesOn : Bool) :
    (Timing.z80.total ((if goesOn then [.block] else []) ++ op.delays.reverse ++
      [.m1, .memOp, .m1, .memOp])).toNat = if goesOn then 21 else 16 := by
  cases op <;> cases goesOn <;> decide

end BlockOp

structure FlatBus.Repeats (bus : FlatBus) (op : BlockOp) (dir : Direction) (p : Word) : Prop where
  lead : bus.peek p = 0xED
  code : Opcode.decodeExtended (bus.peek (p + 1)) = .block op dir true

namespace Cpu

open Exec

/-- `n` steps, and the ticks that they take together. -/
inductive Runs {β : Type} [Bus β] (c : Cpu) (bus : β) : (n ticks : Nat) → Cpu → β → Prop
  | start : Runs c bus 0 0 c bus
  | step {n ticks : Nat} {d e : Cpu} {bus' bus'' : β} (before : Runs c bus n ticks d bus')
      (last : d.step bus' = some (e, bus'')) :
      Runs c bus (n + 1) (ticks + (e.now.since d.now).toNat) e bus''

theorem running_of_quiet {c : Cpu} (quiet : c.eligible = false) : c.decision ≠ .acknowledge := by
  unfold decision
  split
  · decide
  · simp [quiet]

variable {c : Cpu} {op : BlockOp} {dir : Direction} {regs : Registers} {bus : FlatBus}
  {pc : Word} {r : Byte}

theorem ranCore_block (at_pc : c.regs = { regs with pc, r }) (here : bus.Repeats op dir pc) :
    c.found bus nextInstruction = some (.block op dir true) ∧
      c.ranCore bus nextInstruction (.block op dir true) =
        { regs :=
            { (op.once dir (regs, bus)).1 with
              pc := if op.goesOn (regs, bus) then pc else pc + 2
              r := r + 2 }
          bus := (op.once dir (regs, bus)).2
          charges :=
            (if op.goesOn (regs, bus) then [.block] else []) ++ op.delays.reverse ++
              [.m1, .memOp, .m1, .memOp] } := by
  have fetched := nextInstruction_extended { regs with pc, r } here.lead here.code
  unfold found ranCore
  rw [at_pc, fetched]
  refine ⟨rfl, ?_⟩
  refine (op.exec_apply dir regs bus (pc + 2) (r + 2) [.m1, .memOp, .m1, .memOp]).trans ?_
  rw [BitVec.add_sub_cancel]

theorem step_once (quiet : c.eligible = false) (at_pc : c.shut.regs = { regs with pc, r })
    (here : bus.Repeats op dir pc) :
    ∃ d, c.step bus = some (d, (op.once dir (regs, bus)).2) ∧
      d.regs =
        { (op.once dir (regs, bus)).1 with
          pc := if op.goesOn (regs, bus) then pc else pc + 2
          r := r + 2 } ∧
      d.pins = c.pins ∧ d.timing = c.timing ∧
      (c.timing = .z80 →
        (d.now.since c.now).toNat = if op.goesOn (regs, bus) then 21 else 16) := by
  obtain ⟨found, core⟩ := ranCore_block at_pc here
  rw [step_of_running (running_of_quiet quiet), next_of_found found, core]
  refine ⟨_, rfl, rfl, rfl, rfl, fun timed => ?_⟩
  rw [← op.total_round, ← timed]
  exact congrArg BitVec.toNat (Ticks.since_add c.now _)

theorem refreshes_succ (r : Byte) (n : Nat) :
    r + .ofNat 8 (2 * n) + 2 = r + .ofNat 8 (2 * (n + 1)) := by
  rw [Nat.mul_succ, BitVec.ofNat_add, ← BitVec.add_assoc]
  rfl

theorem quiet_of_rounds {d : Cpu} {n : Nat} (quiet : c.eligible = false) (pins : d.pins = c.pins)
    (hd : d.shut.regs = { ((op.once dir)^[n] (c.shut.regs, bus)).1 with pc, r }) :
    d.eligible = false := by
  have enabled : d.regs.iff1 = c.regs.iff1 :=
    (congrArg Registers.iff1 hd).trans
      (congrArg Guard.iff1 (op.guard_rounds dir (c.shut.regs, bus) n))
  unfold eligible
  rw [pins, enabled]
  exact quiet

/-- The loop so far: `n` rounds, after each of which the instruction is found again. -/
theorem runs_rounds (quiet : c.eligible = false) {n : Nat}
    (kept : ∀ k < n, ((op.once dir)^[k] (c.shut.regs, bus)).2.Repeats op dir c.regs.pc)
    (goes : ∀ k < n, op.goesOn ((op.once dir)^[k] (c.shut.regs, bus)) = true) :
    ∃ t d, c.Runs bus n t d ((op.once dir)^[n] (c.shut.regs, bus)).2 ∧
      d.shut.regs =
        { ((op.once dir)^[n] (c.shut.regs, bus)).1 with
          pc := c.regs.pc, r := c.regs.r + .ofNat 8 (2 * n) } ∧
      d.pins = c.pins ∧ d.timing = c.timing ∧ (c.timing = .z80 → t = 21 * n) := by
  induction n with
  | zero => exact ⟨0, c, .start, by simp; rfl, rfl, rfl, fun _ => rfl⟩
  | succ n ih =>
    obtain ⟨t, d, before, hd, pins, timing, ticks⟩ :=
      ih (fun k hk => kept k (by omega)) (fun k hk => goes k (by omega))
    obtain ⟨e, step, he, pins', timing', ticks'⟩ :=
      step_once (quiet_of_rounds quiet pins hd) hd (kept n (by omega))
    rw [goes n (by omega), refreshes_succ] at he
    rw [goes n (by omega)] at ticks'
    have window : e.regs.eiMode = false := by
      have guard := congrArg Guard.eiMode (op.guard_rounds dir (c.shut.regs, bus) (n + 1))
      rw [Function.iterate_succ_apply'] at guard
      exact (congrArg Registers.eiMode he).trans guard
    rw [← shut_eq_self window] at he
    rw [Function.iterate_succ_apply']
    refine ⟨_, e, before.step step, he, pins'.trans pins, timing'.trans timing, fun timed => ?_⟩
    rw [ticks' (timing.trans timed), ticks timed]
    rfl

theorem runs_within (quiet : c.eligible = false) {n : Nat}
    (kept : ∀ k < n, ((op.once dir)^[k] (c.shut.regs, bus)).2.Repeats op dir c.regs.pc)
    (goes : ∀ k < n,
      op.goesOn ((op.once dir)^[k] (c.shut.regs, bus)) = decide (k + 1 ≠ n)) {k : Nat}
    (hk : k < n) :
    ∃ t d, c.Runs bus k t d ((op.once dir)^[k] (c.shut.regs, bus)).2 ∧
      d.shut.regs =
        { ((op.once dir)^[k] (c.shut.regs, bus)).1 with
          pc := c.regs.pc, r := c.regs.r + .ofNat 8 (2 * k) } ∧
      d.pins = c.pins ∧ d.timing = c.timing ∧ (c.timing = .z80 → t = 21 * k) := by
  apply runs_rounds quiet
  · intro j hj
    exact kept j (by omega)
  · intro j hj
    rw [goes j (by omega), decide_eq_true_eq]
    omega

/-- The whole loop, if of `n` rounds only the last is not followed by another. -/
theorem runs_repeat (quiet : c.eligible = false) {n : Nat} (pos : 0 < n)
    (kept : ∀ k < n, ((op.once dir)^[k] (c.shut.regs, bus)).2.Repeats op dir c.regs.pc)
    (goes : ∀ k < n,
      op.goesOn ((op.once dir)^[k] (c.shut.regs, bus)) = decide (k + 1 ≠ n)) :
    (∀ k < n, ∃ t d bus', c.Runs bus k t d bus' ∧ d.regs.pc = c.regs.pc) ∧
    ∃ t d, c.Runs bus n t d ((op.once dir)^[n] (c.shut.regs, bus)).2 ∧
      d.regs =
        { ((op.once dir)^[n] (c.shut.regs, bus)).1 with
          pc := c.regs.pc + 2, r := c.regs.r + .ofNat 8 (2 * n) } ∧
      (c.timing = .z80 → t = 21 * (n - 1) + 16) := by
  obtain ⟨n, rfl⟩ : ∃ m, n = m + 1 := Nat.exists_eq_add_one.mpr pos
  constructor
  · intro k hk
    obtain ⟨t, d, run, hd, -⟩ := runs_within quiet kept goes hk
    have here : d.shut.regs.pc = c.regs.pc := by rw [hd]
    exact ⟨t, d, _, run, here⟩
  · have ends : op.goesOn ((op.once dir)^[n] (c.shut.regs, bus)) = false := by
      rw [goes n (by omega)]
      simp
    obtain ⟨t, d, before, hd, pins, timing, ticks⟩ := runs_within quiet kept goes n.lt_add_one
    obtain ⟨e, step, he, -, -, ticks'⟩ :=
      step_once (quiet_of_rounds quiet pins hd) hd (kept n (by omega))
    rw [ends, refreshes_succ] at he
    rw [ends] at ticks'
    rw [Function.iterate_succ_apply']
    refine ⟨_, e, before.step step, he, fun timed => ?_⟩
    rw [ticks' (timing.trans timed), ticks timed]
    rfl

end Cpu

end Z80
