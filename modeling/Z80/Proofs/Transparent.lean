import Z80.Proofs.Operation
import Z80.Proofs.Service

/-! What an interrupt leaves behind if its routine does nothing but return. The acknowledge pushes
PC and puts out the first enable or both; a return pops PC and sets the first enable from the
second. So the program goes on where it was, unless the push has written over the routine. -/
namespace Z80

/-- The `n` bytes from `a` on are none of the two that a push at `sp` writes. -/
def Clear (sp a : Word) (n : Nat) : Prop := ∀ k < n, a + .ofNat 16 k ∉ [sp - 1, sp - 2]

instance (sp a : Word) (n : Nat) : Decidable (Clear sp a n) :=
  inferInstanceAs (Decidable (∀ k < n, _))

theorem Clear.here {sp a : Word} {n : Nat} (clear : Clear sp a (n + 1)) :
    a ∉ [sp - 1, sp - 2] := by
  have first := clear 0 n.succ_pos
  rw [BitVec.add_zero] at first
  exact first

theorem Clear.next {sp a : Word} {n : Nat} (clear : Clear sp a (n + 1)) : Clear sp (a + 1) n := by
  intro k hk
  rw [← Word.add_ofNat_succ]
  exact clear (k + 1) (Nat.succ_lt_succ hk)

namespace FlatBus

variable {bus : FlatBus} {sp w a : Word}

theorem Holds.pushed {bytes : List Byte} (held : bus.Holds a bytes)
    (clear : Clear sp a bytes.length) : (bus.pushed sp w).Holds a bytes :=
  held.congr fun k hk => peek_pushed bus sp w (clear k hk)

theorem peekWord_of_clear (clear : Clear sp a 2) :
    (bus.pushed sp w).peekWord a = bus.peekWord a := by
  rw [peekWord, peek_pushed bus sp w clear.here, peek_pushed bus sp w clear.next.here, peekWord]

end FlatBus

namespace Cpu

open Exec

def Control.drive : IntLine → Control
  | .low => .setInt
  | .high => .clearInt

theorem arrive_driven (c : Cpu) (regs : Registers) (pins : Pins) (path : List Delay)
    (levels : List IntLine) :
    (levels.map Control.drive).foldl control (c.arrive regs pins path) =
      c.arrive regs { pins with int := levels.getLastD pins.int } path := by
  induction levels generalizing pins with
  | nil => rfl
  | cons level levels ih =>
    have first : (c.arrive regs pins path).control (.drive level) =
        c.arrive regs { pins with int := level } path := by
      cases level <;> rfl
    rw [List.map_cons, List.foldl_cons, first, ih, List.getLastD_cons]

variable {c : Cpu} {bus : FlatBus}

theorem step_ei (running : c.decision ≠ .acknowledge) (held : bus.peek c.regs.pc = 0xFB) :
    c.step bus =
      some (c.arrive
        { c.regs with
          pc := c.regs.pc + 1, r := c.regs.r + 1, iff1 := true, iff2 := true, eiMode := true }
        c.pins [.m1, .memOp], bus) :=
  step_of_single running held rfl

/-- RETN, of which RETI is another form. -/
theorem step_retn (running : c.decision ≠ .acknowledge) (lead : bus.peek c.regs.pc = 0xED)
    (code : Opcode.decodeExtended (bus.peek (c.regs.pc + 1)) = .retn) :
    c.step bus =
      some (c.arrive
        { c.regs with
          pc := bus.peekWord c.regs.sp
          sh := bus.peekWord c.regs.sp
          sp := c.regs.sp + 2
          r := c.regs.r + 2
          iff1 := c.regs.iff2
          eiMode := false }
        c.pins [.mem, .mem, .m1, .memOp, .m1, .memOp], bus) := by
  rw [step_of_found running (nextInstruction_extended c.shut.regs lead code)]
  rfl

theorem step_back {r : Byte} {sh a : Word} {iff1 iff2 eiMode : Bool} {pins : Pins}
    {path : List Delay} :
    let after := bus.pushed c.regs.sp c.regs.pc
    let within :=
      c.arrive { c.regs with sp := c.regs.sp - 2, pc := a, r, sh, iff1, iff2, eiMode } pins path
    within.decision ≠ .acknowledge → after.peek a = 0xED →
      Opcode.decodeExtended (after.peek (a + 1)) = .retn →
      within.step after =
        some (c.arrive
          { c.regs with sh := c.regs.pc, r := r + 2, iff1 := iff2, iff2, eiMode := false }
          pins ([.mem, .mem, .m1, .memOp, .m1, .memOp] ++ path), after) := by
  intro after within running lead code
  have popped : after.peekWord within.regs.sp = c.regs.pc :=
    bus.peekWord_pushed c.regs.sp c.regs.pc
  have sp : within.regs.sp + 2 = c.regs.sp := BitVec.sub_add_cancel c.regs.sp 2
  rw [step_retn running lead code, popped, sp, ← arrive_arrive]
  rfl

theorem nmi_returns (awake : c.regs.halt = false) (shut : c.regs.eiMode = false)
    (edge : c.pins.nmi = .edge) (held : bus.Holds 0x66 [0xED, 0x45])
    (clear : Clear c.regs.sp 0x66 2) :
    let after := bus.pushed c.regs.sp c.regs.pc
    ∃ d, c.step bus = some (d, after) ∧
      d.step after =
        some (c.arrive
          { c.regs with sh := c.regs.pc, r := c.regs.r + 3, iff1 := c.regs.iff2 }
          { c.pins with nmi := .low }
          [.mem, .mem, .m1, .memOp, .m1, .memOp, .nmi, .m1], after) := by
  intro after
  have served : c.decision = .acknowledge := by
    simp [decision, shut, awake, eligible, Pins.eligible, edge]
  have service : c.service bus = some
      { routine := 0x66, sh := c.regs.sh, iff2 := c.regs.iff2
        pins := { c.pins with nmi := .low }, path := [.nmi, .m1] } := if_pos edge
  have entered := step_of_service served service
  obtain ⟨lead, code, -⟩ := held.pushed (w := c.regs.pc) clear
  have r : c.regs.r + 1 + 2 = c.regs.r + 3 := BitVec.add_assoc ..
  refine ⟨_, entered, ?_⟩
  refine (step_back ?_ lead ?_).trans ?_
  · apply running_of_quiet
    simp [eligible, Pins.eligible, arrive, refresh]
  · rw [code]
    rfl
  · rw [r, ← shut]
    rfl

theorem int_returns {s : Service} (served : c.decision = .acknowledge)
    (service : c.service bus = some s) (spent : s.pins.nmi ≠ .edge)
    (held : bus.Holds s.routine [0xFB, 0xED, 0x4D]) (clear : Clear c.regs.sp s.routine 3)
    (levels levels' : List IntLine) :
    let after := bus.pushed c.regs.sp c.regs.pc
    ∃ d e, c.step bus = some (d, after) ∧
      ((levels.map Control.drive).foldl control d).step after = some (e, after) ∧
      ((levels'.map Control.drive).foldl control e).step after =
        some (c.arrive
          { c.regs with
            sh := c.regs.pc, r := c.regs.r + 4, iff1 := true, iff2 := true, eiMode := false }
          { s.pins with int := levels'.getLastD (levels.getLastD s.pins.int) }
          ([.mem, .mem, .m1, .memOp, .m1, .memOp, .m1, .memOp] ++ s.path), after) := by
  intro after
  obtain ⟨ei, lead, code, -⟩ := held.pushed (w := c.regs.pc) clear
  let before : Cpu := c.arrive
    { c.regs with
      sp := c.regs.sp - 2, pc := s.routine, r := c.regs.r + 1, sh := s.sh
      iff1 := false, iff2 := s.iff2 }
    { s.pins with int := levels.getLastD s.pins.int } s.path
  have quiet : before.eligible = false := by
    simp [before, eligible, Pins.eligible, arrive, refresh, spent]
  have enabled := step_ei (running_of_quiet quiet) ei
  have r : c.regs.r + 1 + 1 + 2 = c.regs.r + 4 := by
    rw [BitVec.add_assoc, BitVec.add_assoc]
    rfl
  have driven : (levels.map Control.drive).foldl control (c.entered s) = before :=
    arrive_driven ..
  rw [arrive_arrive] at enabled
  refine ⟨_, _, step_of_service served service,
    (congrArg (step · after) driven).trans enabled, ?_⟩
  rw [arrive_driven, ← r]
  apply step_back
  · simp [decision, arrive, refresh]
  · exact lead
  · exact (congrArg Opcode.decodeExtended code).trans rfl

theorem exists_service_maskable (bus : FlatBus) (maskable : c.pins.nmi ≠ .edge)
    (mode : c.regs.im = 1 ∨ c.regs.im = 2)
    (apart : c.regs.im = 2 → Clear c.regs.sp (.ofBytes c.regs.i c.pins.data) 2) :
    ∃ s, c.service bus = some s ∧
      (s.routine = if c.regs.im = 1 then 0x38
        else bus.peekWord (.ofBytes c.regs.i c.pins.data)) ∧
      s.pins =
        { c.pins with data := if c.regs.im = 1 then c.pins.data else c.pins.idleData } ∧
      s.path = if c.regs.im = 1 then [.mem, .mem, .push, .m1, .im] else [.im2, .m1] := by
  unfold service
  rcases mode with one | two
  · have zero : c.regs.im ≠ 0 := by rw [one]; decide
    simp only [if_neg maskable, if_neg zero, if_pos one]
    exact ⟨_, rfl, rfl, rfl, rfl⟩
  · have zero : c.regs.im ≠ 0 := by rw [two]; decide
    have one : c.regs.im ≠ 1 := by rw [two]; decide
    simp only [if_neg maskable, if_neg zero, if_neg one]
    exact ⟨_, rfl, FlatBus.peekWord_of_clear (apart two), rfl, rfl⟩

/-- A program that is interrupted by a routine that only returns goes on as if it had not been. -/
theorem interrupt_transparent (c : Cpu) (bus : FlatBus) (awake : c.regs.halt = false)
    (shut : c.regs.eiMode = false) :
    let after := bus.pushed c.regs.sp c.regs.pc
    (c.pins.nmi = .edge → bus.Holds 0x66 [0xED, 0x45] → Clear c.regs.sp 0x66 2 →
      ∃ d, c.decision = .acknowledge ∧ c.step bus = some (d, after) ∧
        d.step after =
          some (c.arrive
            { c.regs with sh := c.regs.pc, r := c.regs.r + 3, iff1 := c.regs.iff2 }
            { c.pins with nmi := .low }
            [.mem, .mem, .m1, .memOp, .m1, .memOp, .nmi, .m1], after)) ∧
    (c.pins.nmi ≠ .edge → c.pins.int = .low → c.regs.iff1 = true → c.regs.iff2 = true →
      c.regs.im = 1 ∨ c.regs.im = 2 →
      let table : Word := .ofBytes c.regs.i c.pins.data
      let routine := if c.regs.im = 1 then 0x38 else bus.peekWord table
      bus.Holds routine [0xFB, 0xED, 0x4D] → Clear c.regs.sp routine 3 →
      (c.regs.im = 2 → Clear c.regs.sp table 2) →
      ∀ levels levels' : List IntLine,
        ∃ d e, c.decision = .acknowledge ∧ c.step bus = some (d, after) ∧
          ((levels.map Control.drive).foldl control d).step after = some (e, after) ∧
          ((levels'.map Control.drive).foldl control e).step after =
            some (c.arrive
              { c.regs with sh := c.regs.pc, r := c.regs.r + 4 }
              { c.pins with
                int := levels'.getLastD (levels.getLastD .low)
                data := if c.regs.im = 1 then c.pins.data else c.pins.idleData }
              ([.mem, .mem, .m1, .memOp, .m1, .memOp, .m1, .memOp] ++
                if c.regs.im = 1 then [.mem, .mem, .push, .m1, .im] else [.im2, .m1]), after)) := by
  intro after
  constructor
  · intro edge held clear
    have served : c.decision = .acknowledge := by
      simp [decision, shut, awake, eligible, Pins.eligible, edge]
    obtain ⟨d, entered, back⟩ := nmi_returns awake shut edge held clear
    exact ⟨d, served, entered, back⟩
  · intro maskable low iff1 iff2 mode table routine held clear apart levels levels'
    have served : c.decision = .acknowledge := by
      simp [decision, shut, awake, eligible, Pins.eligible, low, iff1]
    obtain ⟨s, service, address, pins, path⟩ :=
      exists_service_maskable bus maskable mode apart
    have address : s.routine = routine := address
    have spent : s.pins.nmi ≠ .edge := by
      rw [pins]
      exact maskable
    have regs : { c.regs with
          sh := c.regs.pc, r := c.regs.r + 4, iff1 := true, iff2 := true, eiMode := false } =
        { c.regs with sh := c.regs.pc, r := c.regs.r + 4 } := by
      simp [iff1, iff2, shut]
    rw [← address] at held clear
    obtain ⟨d, e, entered, enabled, back⟩ :=
      int_returns served service spent held clear levels levels'
    rw [pins, path, regs, low] at back
    exact ⟨d, e, served, entered, enabled, back⟩

theorem interrupt_transparent_wrapped :
    (∃ (c d e : Cpu) (bus bus' : FlatBus), c.step bus = some (d, bus') ∧
      d.step bus' = some (e, bus') ∧ e.regs.pc = c.regs.pc ∧ e.regs.sp = 1 ∧
      bus'.peekWord 0xFFFF = c.regs.pc) ∧
    ∃ (c d e f : Cpu) (bus bus' : FlatBus), c.step bus = some (d, bus') ∧
      d.step bus' = some (e, bus') ∧ e.step bus' = some (f, bus') ∧
      f.regs.pc = c.regs.pc ∧ f.regs.iff1 = true ∧ f.pins.int = .low := by
  constructor
  · let c : Cpu :=
      { regs := { Registers.powerOn with pc := 0x100, sp := 1 }, pins := { nmi := .edge } }
    let bus : FlatBus := FlatBus.empty.load 0x66 [0xED, 0x45]
    have held : bus.Holds 0x66 [0xED, 0x45] := ⟨by decide +kernel, by decide +kernel, trivial⟩
    obtain ⟨returns, -⟩ := interrupt_transparent c bus rfl rfl
    obtain ⟨d, -, entered, back⟩ := returns rfl held (by decide)
    exact ⟨c, d, _, bus, _, entered, back, rfl, rfl, bus.peekWord_pushed 1 0x100⟩
  · let c : Cpu :=
      { regs := { Registers.powerOn with
          pc := 0x100, i := 0x20, im := 2, iff1 := true, iff2 := true }
        pins := { int := .low } }
    let bus : FlatBus := FlatBus.empty.load 0 [0xFB, 0xED, 0x4D]
    have address : (if c.regs.im = 1 then 0x38
        else bus.peekWord (.ofBytes c.regs.i c.pins.data)) = 0 := by decide +kernel
    have held : bus.Holds 0 [0xFB, 0xED, 0x4D] :=
      ⟨by decide +kernel, by decide +kernel, by decide +kernel, trivial⟩
    have clear : Clear c.regs.sp 0 3 := by decide
    rw [← address] at held clear
    obtain ⟨-, returns⟩ := interrupt_transparent c bus rfl rfl
    obtain ⟨d, e, -, entered, enabled, back⟩ :=
      returns (by decide) rfl rfl rfl (.inr rfl) held clear (by decide) [] []
    exact ⟨c, d, e, _, bus, _, entered, enabled, back, rfl, rfl, rfl⟩

end Cpu

end Z80
