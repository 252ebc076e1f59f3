import Z80.Proofs.Service

/-! Waiting in HALT. A halted processor runs HALT again and again, which takes time and refreshes
the memory but changes nothing else. Once an interrupt can be taken, HALT is run for the last time
and falls through; the acknowledge comes with the step after that, and returns behind HALT. -/
namespace Z80

theorem Instr.exec_halt_pc {β : Type} [Bus β] (pins : Pins) (s : Core β) :
    (halt.exec pins s).2 =
      { s with
        regs := { s.regs with
          pc := if pins.eligible s.regs.iff1 then s.regs.pc else s.regs.pc - 1
          halt := !pins.eligible s.regs.iff1 } } := by
  rw [exec_halt]
  cases pins.eligible s.regs.iff1 <;> rfl

theorem Timing.total_fetch (t : Timing) : t.total [.m1, .memOp] = t.opcodeFetch := by
  simp [opcodeFetch, BitVec.add_comm]

namespace Cpu

open Exec

structure Waiting (c : Cpu) (bus : FlatBus) : Prop where
  halted : c.regs.halt = true
  shut : c.regs.eiMode = false
  opcode : bus.peek c.regs.pc = 0x76

def waited (c : Cpu) (n : Nat) : Cpu :=
  { c with
    regs := { c.regs with r := c.regs.r + .ofNat 8 n }
    now := c.now + .ofNat 32 n * c.timing.opcodeFetch
    horizon := if n = 0 then c.horizon else c.timeout }

theorem fetches_succ (r : Byte) (n : Nat) : r + .ofNat 8 n + 1 = r + .ofNat 8 (n + 1) := by
  rw [BitVec.ofNat_add, ← BitVec.add_assoc]
  rfl

theorem now_waited_succ (c : Cpu) (n : Nat) :
    (c.waited (n + 1)).now = (c.waited n).now + c.timing.opcodeFetch := by
  simp only [waited, BitVec.ofNat_add]
  grind

variable {c d : Cpu} {bus bus' : FlatBus}

namespace Waiting

variable (waiting : c.Waiting bus)

include waiting

theorem step_eq :
    c.step bus =
      some (c.arrive
        { c.regs with
          pc := if c.eligible then c.regs.pc + 1 else c.regs.pc
          r := c.regs.r + 1
          halt := !c.eligible }
        c.pins [.m1, .memOp], bus) := by
  have running : c.decision ≠ .acknowledge := by
    simp [decision, waiting.shut, waiting.halted]
  have code : Opcode.decode none 0x76 = .instr .halt := rfl
  rw [step_of_single running waiting.opcode code, shut_eq_self waiting.shut]
  dsimp only
  rw [Instr.exec_halt_pc]
  simp only [Registers.past, BitVec.add_sub_cancel]
  rfl

theorem again (n : Nat) : (c.waited n).Waiting bus :=
  ⟨waiting.halted, waiting.shut, waiting.opcode⟩

theorem step_waited (quiet : c.eligible = false) (n : Nat) :
    (c.waited n).step bus = some (c.waited (n + 1), bus) := by
  have still : (c.waited n).eligible = false := quiet
  have regs : { (c.waited n).regs with r := (c.waited n).regs.r + 1, halt := !false } =
      (c.waited (n + 1)).regs := by
    unfold waited
    rw [← fetches_succ, Bool.not_false, ← waiting.halted]
  have horizon : (c.waited (n + 1)).refresh = c.waited (n + 1) := by
    apply refresh_eq_self
    simp [due, waited, waiting.halted]
  have arrived : (c.waited n).arrive (c.waited (n + 1)).regs c.pins [.m1, .memOp] =
      (c.waited (n + 1)).refresh := by
    unfold arrive
    rw [Timing.total_fetch]
    exact congrArg (fun now => refresh { c.waited (n + 1) with now }) (c.now_waited_succ n).symm
  rw [(waiting.again n).step_eq, still, ← horizon, ← arrived, ← regs]
  rfl

theorem runs_waited (quiet : c.eligible = false) (n : Nat) :
    c.Runs bus n (n * c.timing.opcodeFetch.toNat) (c.waited n) bus := by
  induction n with
  | zero =>
    have start : c.waited 0 = c := by simp [waited]
    rw [start, Nat.zero_mul]
    exact .start
  | succ n ih =>
    have run := ih.step (waiting.step_waited quiet n)
    rw [now_waited_succ, Ticks.since_add] at run
    rw [Nat.succ_mul]
    exact run

theorem step_woken (asked : c.eligible = true) : ∃ d, c.step bus = some (d, bus) ∧
    d.regs =
      { c.regs with pc := c.regs.pc + 1, r := c.regs.r + 1, halt := false } ∧
    d.pins = c.pins ∧ d.decision = .acknowledge := by
  have step := waiting.step_eq
  rw [asked] at step
  have acknowledged {d : Cpu} (shut : d.regs.eiMode = c.regs.eiMode)
      (awake : d.regs.halt = false) (still : d.eligible = c.eligible) :
      d.decision = .acknowledge := by
    simp [decision, shut, waiting.shut, awake, still, asked]
  exact ⟨_, step, rfl, rfl, acknowledged rfl rfl rfl⟩

end Waiting

theorem halt_of_ran {c₀ : Cpu} {find : Exec FlatBus (Option Instr)}
    (kept : Keeps Registers.guard find) (pins : d.pins = c₀.pins)
    (regs : d.regs = (c₀.ranCore bus find .halt).regs) :
    d.regs.halt = (!c₀.eligible) ∧ d.eligible = c₀.eligible := by
  have guard : d.regs.guard = Instr.halt.guard c₀.pins c₀.regs.guard := by
    rw [regs, ranCore, Instr.exec_guard, kept]
  have iff1 : d.regs.iff1 = c₀.regs.iff1 := congrArg Guard.iff1 guard
  have still : d.eligible = c₀.eligible := by rw [eligible, pins, iff1, eligible]
  exact ⟨congrArg Guard.halt guard, still⟩

/-- After a step that has run HALT the processor is halted if and only if there is nothing to
serve. A request that has brought HALT with it has been taken by then. -/
theorem halted_iff (hs : c.step bus = some (d, bus')) (executed : .executed .halt ∈ c.marks bus) :
    (d.regs.halt = true ↔ d.eligible = false) ∧
      d.eligible = (decide (c.decision ≠ .acknowledge) && c.eligible) := by
  obtain ⟨e, he, hd, -⟩ := effect_of_step hs
  rw [marks_of_effect he] at executed
  cases arises_of_effect he with
  | instruction i running found =>
    obtain rfl : .halt = i := by simpa using executed
    have pins : d.pins = c.shut.pins := by rw [hd]; rfl
    have regs : d.regs = (c.shut.ranCore bus nextInstruction .halt).regs := by rw [hd]; rfl
    obtain ⟨halt, still⟩ := halt_of_ran keeps_guard_next pins regs
    have same : c.shut.eligible = c.eligible := rfl
    rw [halt, still, same]
    simp [running]
  | supplied i served maskable mode found =>
    obtain rfl : .halt = i := by simpa using executed
    have pins : d.pins = c.released.pins := by rw [hd]; rfl
    have regs : d.regs = (c.released.ranCore bus (supply c.pins.data) .halt).regs := by
      rw [hd]; rfl
    obtain ⟨halt, still⟩ := halt_of_ran (keeps_guard_supply c.pins.data) pins regs
    have taken : c.released.eligible = false := by
      simp [eligible, Pins.eligible, released, disabled, Pins.release, maskable]
    rw [halt, still, taken]
    simp [served]
  | nmi served edge => simp at executed
  | restart served maskable mode => simp at executed
  | vector served maskable zero one => simp at executed

/-- A processor waits in HALT until an interrupt can be taken, for as many steps as that may be,
and is then interrupted behind it. It does not begin to wait with an interrupt to be taken. -/
theorem halt_waits (c : Cpu) (bus : FlatBus) :
    (c.Waiting bus → c.eligible = false → ∀ n : Nat,
      c.Runs bus n (n * c.timing.opcodeFetch.toNat) (c.waited n) bus ∧
      ∀ ks : List Control, (∀ t, .resetAt t ∉ ks) →
        let w := ks.foldl control (c.waited n)
        w.eligible = true →
        ∃ d, w.step bus = some (d, bus) ∧
          d.regs =
            { c.regs with
              pc := c.regs.pc + 1, r := c.regs.r + .ofNat 8 (n + 1), halt := false } ∧
          d.pins = w.pins ∧ d.decision = .acknowledge ∧
          ((w.pins.nmi = .edge ∨ c.regs.im ≠ 0 ∨
              ∃ k : BitVec 3, w.pins.data = 3#2 ++ k ++ 7#3) →
            ∃ s, d.service bus = some s ∧
              d.step bus = some (d.entered s, bus.pushed c.regs.sp (c.regs.pc + 1)))) ∧
    ∀ d bus', c.step bus = some (d, bus') → .executed .halt ∈ c.marks bus →
      (d.regs.halt = true ↔ d.eligible = false) ∧
        d.eligible = (decide (c.decision ≠ .acknowledge) && c.eligible) := by
  constructor
  · intro waiting quiet n
    refine ⟨waiting.runs_waited quiet n, ?_⟩
    intro ks kept w asked
    have regs : w.regs = (c.waited n).regs := regs_controls kept
    have waiting : w.Waiting bus := by
      constructor <;> rw [regs]
      · exact waiting.halted
      · exact waiting.shut
      · exact waiting.opcode
    obtain ⟨d, step, hd, pins, served⟩ := waiting.step_woken asked
    rw [regs] at hd
    refine ⟨d, step, ?_, pins, served, ?_⟩
    · rw [hd, ← fetches_succ]
      rfl
    · intro calls
      have mode : d.regs.im = c.regs.im := by rw [hd]; rfl
      obtain ⟨s, service⟩ : ∃ s, d.service bus = some s := by
        apply exists_service
        rw [pins, mode]
        exact calls
      have entered := step_of_service served service
      rw [hd] at entered
      exact ⟨s, service, entered⟩
  · intro d bus' hs executed
    exact halted_iff hs executed

theorem halt_waits_requested : ∃ (c d e f : Cpu) (bus bus' : FlatBus),
    c.Runs bus 3 12 d bus ∧ (d.control .setInt).step bus = some (e, bus) ∧
      e.regs.halt = false ∧ e.step bus = some (f, bus') ∧ bus'.peekWord 0xFFFD = 0x101 := by
  let c : Cpu :=
    { regs := { Registers.powerOn with pc := 0x100, halt := true, iff1 := true, im := 1 } }
  let bus : FlatBus := FlatBus.empty.load 0x100 [0x76]
  have waiting : c.Waiting bus := ⟨rfl, rfl, by decide +kernel⟩
  obtain ⟨run, wakes⟩ := (halt_waits c bus).1 waiting rfl 3
  obtain ⟨e, step, -, -, served, calls⟩ := wakes [.setInt] (by simp) rfl
  obtain ⟨s, -, entered⟩ := calls (by decide)
  obtain ⟨halts, asked⟩ :=
    (halt_waits ((c.waited 3).control .setInt) bus).2 e bus step (by decide +kernel)
  have awake : e.regs.halt = false := by
    have still : e.eligible = true := asked.trans rfl
    simpa [still] using halts
  have pushed : (bus.pushed c.regs.sp (c.regs.pc + 1)).peekWord 0xFFFD = 0x101 :=
    FlatBus.peekWord_pushed bus 0xFFFF 0x101
  exact ⟨c, _, e, _, bus, _, run, step, awake, entered, pushed⟩

end Cpu

end Z80
