import Z80.Proofs.Durations
import Z80.Proofs.Repeating
import Z80.Proofs.Window

/-! How the service of an interrupt begins. In all modes it is a call: PC goes to the stack and
the routine is entered. The modes differ in where they have its address from, and in what becomes
of the request and of the second enable. -/
namespace Z80

namespace FlatBus

def pushed (bus : FlatBus) (sp w : Word) : FlatBus :=
  (bus.poke (sp - 1) w.high).poke (sp - 2) w.low

variable (bus : FlatBus) (sp w : Word)

theorem peek_pushed {x : Word} (apart : x ∉ [sp - 1, sp - 2]) :
    (bus.pushed sp w).peek x = bus.peek x := by
  simp only [List.mem_cons, List.not_mem_nil, or_false, not_or] at apart
  rw [pushed, peek_poke, if_neg apart.2, peek_poke, if_neg apart.1]

theorem peekWord_pushed : (bus.pushed sp w).peekWord (sp - 2) = w := by
  have above : sp - 2 + 1 = sp - 1 := by grind
  rw [peekWord, above]
  simp [pushed]

end FlatBus

theorem Opcode.decode_rst (n : BitVec 3) : decode none (3#2 ++ n ++ 7#3) = .instr (.rst n) := by
  revert n
  decide

structure Service where
  routine : Word
  sh : Word
  iff2 : Bool
  pins : Pins
  path : List Delay

def Service.restart (n : BitVec 3) (pins : Pins) : Service where
  routine := (n ++ 0#3).setWidth 16
  sh := (n ++ 0#3).setWidth 16
  iff2 := false
  pins
  path := [.mem, .mem, .push, .m1, .im]

namespace Cpu

open Exec

/-- `c` after the delays of a path. -/
def arrive (c : Cpu) (regs : Registers) (pins : Pins) (path : List Delay) : Cpu :=
  refresh { c with regs, pins, now := c.now + c.timing.total path }

theorem arrive_arrive (c : Cpu) (r s : Registers) (p q : Pins) (path more : List Delay) :
    (c.arrive r p path).arrive s q more = c.arrive s q (more ++ path) := by
  have now : c.now + c.timing.total path + c.timing.total more =
      c.now + c.timing.total (more ++ path) := by
    rw [Timing.total_append, BitVec.add_assoc, BitVec.add_comm (c.timing.total path)]
  exact congrArg (fun now => refresh { c with regs := s, pins := q, now }) now

/-- How the request that is next will be served. In mode 0 a device may drive anything, but only
an RST begins a service. -/
def service (c : Cpu) (bus : FlatBus) : Option Service :=
  if c.pins.nmi = .edge then
    some
      { routine := 0x0066
        sh := c.regs.sh
        iff2 := c.regs.iff2
        pins := { c.pins with nmi := .low }
        path := [.nmi, .m1] }
  else if c.regs.im = 0 then
    match Opcode.decode none c.pins.data with
    | .instr (.rst n) => some (Service.restart n c.pins.release)
    | _ => none
  else if c.regs.im = 1 then
    some (Service.restart 7 c.pins)
  else
    -- the push comes first, so it can write over the table
    some
      { routine := (bus.pushed c.regs.sp c.regs.pc).peekWord (.ofBytes c.regs.i c.pins.data)
        sh := c.regs.sh
        iff2 := false
        pins := c.pins.release
        path := [.im2, .m1] }

def entered (c : Cpu) (s : Service) : Cpu :=
  c.arrive
    { c.regs with
      sp := c.regs.sp - 2
      pc := s.routine
      r := c.regs.r + 1
      sh := s.sh
      iff1 := false
      iff2 := s.iff2 }
    s.pins s.path

variable {c : Cpu} {bus : FlatBus}

theorem exists_service (calls : c.pins.nmi = .edge ∨ c.regs.im ≠ 0 ∨
    ∃ n : BitVec 3, c.pins.data = 3#2 ++ n ++ 7#3) : ∃ s, c.service bus = some s := by
  unfold service
  split
  next => exact ⟨_, rfl⟩
  next maskable =>
    split
    next zero =>
      obtain ⟨n, drives⟩ : ∃ n : BitVec 3, c.pins.data = 3#2 ++ n ++ 7#3 := by
        simpa [maskable, zero] using calls
      rw [drives, Opcode.decode_rst]
      exact ⟨_, rfl⟩
    next =>
      split
      · exact ⟨_, rfl⟩
      · exact ⟨_, rfl⟩

theorem step_of_service {s : Service} (served : c.decision = .acknowledge)
    (h : c.service bus = some s) :
    c.step bus = some (c.entered s, bus.pushed c.regs.sp c.regs.pc) := by
  rw [step_eq_effect]
  unfold service at h
  split at h
  next edge =>
    cases h
    rw [effect_of_arises (.nmi served edge)]
    rfl
  next maskable =>
    split at h
    next zero =>
      split at h
      next n code =>
        cases h
        have fetched : (supply c.pins.data : Exec FlatBus _) { regs := c.released.regs, bus } = _ :=
          resolve_instr chainLimit code
        have found : c.released.found bus (supply c.pins.data) = some (.rst n) :=
          congrArg Prod.fst fetched
        rw [effect_of_arises (.supplied _ served maskable zero found), ranCore, fetched]
        rfl
      next => contradiction
    next zero =>
      split at h
      next one =>
        cases h
        rw [effect_of_arises (.restart served maskable one)]
        rfl
      next one =>
        cases h
        rw [effect_of_arises (.vector served maskable zero one)]
        rfl

theorem step_of_found {i : Instr} {s : Core FlatBus} (running : c.decision ≠ .acknowledge)
    (fetched : (nextInstruction : Exec FlatBus _) { regs := c.shut.regs, bus } = (some i, s)) :
    c.step bus =
      some (c.arrive (i.exec c.pins s).2.regs c.pins (i.exec c.pins s).2.charges,
        (i.exec c.pins s).2.bus) := by
  have found : c.shut.found bus nextInstruction = some i := congrArg Prod.fst fetched
  rw [step_eq_effect, effect_of_arises (.instruction i running found), ranCore, fetched]
  rfl

theorem step_of_single {op : Byte} {i : Instr} (running : c.decision ≠ .acknowledge)
    (held : bus.peek c.regs.pc = op) (code : Opcode.decode none op = .instr i) :
    let fetched : Core FlatBus :=
      { regs := c.shut.regs.past 1 1, bus, charges := [.m1, .memOp] }
    let s := (i.exec c.pins fetched).2
    c.step bus = some (c.arrive s.regs c.pins s.charges, s.bus) := by
  apply step_of_found running
  rw [← held] at code
  exact resolve_instr chainLimit code

end Cpu

end Z80
