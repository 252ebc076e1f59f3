import Z80.Proofs.Effect
import Z80.Proofs.Spelled

/-! The instruction that a step runs, as it is spelled out before the step: by the bytes at PC, or
behind the opcode that an acknowledge has on the data lines. -/
namespace Z80

variable {β : Type}

namespace Cpu

variable [Bus β] {c : Cpu} {bus : β} {e : Effect β} {i : Instr} {find : Exec β (Option Instr)}

open Exec

/-- The opcode that an acknowledge in mode 0 or 1 has on the data lines. -/
def given (c : Cpu) : Option Byte :=
  match c.decision with
  | .acknowledge =>
    if c.pins.nmi = .edge then none
    else if c.regs.im = 0 then some c.pins.data
    else if c.regs.im = 1 then some 0xFF
    else none
  | _ => none

/-- Whether the step fetches an instruction, which two of the acknowledges do not. -/
def fetching (c : Cpu) : Bool := c.decision ≠ .acknowledge || c.given.isSome

/-- What the fetch of a step has before it, one byte after another. -/
def bytes (c : Cpu) (bus : β) : Nat → Byte :=
  match c.given with
  | none => Bus.stream bus c.regs.pc
  | some op => followed op (Bus.stream bus c.regs.pc)

def spelled (c : Cpu) (bus : β) : Encoding := .ofBytes (c.bytes bus)

def opcode (c : Cpu) (bus : β) : Option Byte :=
  if c.fetching then some (c.bytes bus (c.spelled bus).chain) else none

def index (c : Cpu) (bus : β) : Option Index :=
  if c.fetching then (c.spelled bus).index (c.bytes bus) else none

def entry (c : Cpu) : Registers :=
  match c.decision with
  | .acknowledge => c.disabled.regs
  | _ => c.shut.regs

/-- All that is to be done before the instruction spelled `x` runs. -/
def fetched (c : Cpu) (bus : β) (x : Encoding) : Core β :=
  match c.given with
  | none => Core.advance { regs := c.entry, bus } x.size x.refreshes x.delays
  | some _ =>
    Core.advance { regs := c.entry, bus } (x.size - 1) x.refreshes (.im :: x.delays.tail)

omit [Bus β] in
theorem given_of_running (running : c.decision ≠ .acknowledge) :
    c.given = none ∧ c.entry = c.shut.regs := by
  unfold given entry
  cases hd : c.decision with
  | acknowledge => contradiction
  | _ => exact ⟨rfl, rfl⟩

omit [Bus β] in
theorem given_of_supplied (served : c.decision = .acknowledge) (maskable : c.pins.nmi ≠ .edge)
    (mode : c.regs.im = 0) : c.given = some c.pins.data := by
  rw [given, served]
  exact (if_neg maskable).trans (if_pos mode)

omit [Bus β] in
theorem given_of_restart (served : c.decision = .acknowledge) (maskable : c.pins.nmi ≠ .edge)
    (mode : c.regs.im = 1) : c.given = some 0xFF := by
  have zero : c.regs.im ≠ 0 := by rw [mode]; decide
  rw [given, served]
  exact (if_neg maskable).trans ((if_neg zero).trans (if_pos mode))

omit [Bus β] in
theorem given_of_vector (served : c.decision = .acknowledge) (maskable : c.pins.nmi ≠ .edge)
    (zero : c.regs.im ≠ 0) (one : c.regs.im ≠ 1) : c.given = none := by
  rw [given, served]
  exact (if_neg maskable).trans ((if_neg zero).trans (if_neg one))

omit [Bus β] in
theorem fetching_of_running (running : c.decision ≠ .acknowledge) : c.fetching = true := by
  simp [fetching, running]

omit [Bus β] in
theorem fetching_of_given {op : Byte} (given : c.given = some op) : c.fetching = true := by
  simp [fetching, given]

omit [Bus β] in
theorem entry_of_served (served : c.decision = .acknowledge) : c.entry = c.disabled.regs := by
  rw [entry, served]

structure Executes (c : Cpu) (bus : β) (i : Instr) (core : Core β) : Prop where
  fetching : c.fetching = true
  spells : (c.spelled bus).Spells (c.bytes bus)
  instr : i = (c.spelled bus).instr (c.bytes bus)
  core : ∃ pins, core = (i.exec pins (c.fetched bus (c.spelled bus))).2

theorem ranCore_eq {y : Instr} {t : Core β}
    (found : c.found bus find = some i) (h : find { regs := c.regs, bus } = (some y, t)) :
    i = y ∧ c.ranCore bus find i = (i.exec c.pins t).2 := by
  rw [Cpu.found, h] at found
  rw [ranCore, h]
  exact ⟨(Option.some.inj found).symm, rfl⟩

theorem executes_of_find {c' : Cpu} (fetching : c.fetching = true)
    (found : c'.found bus find = some i) (spells : (c.spelled bus).Spells (c.bytes bus))
    (fetch : find { regs := c'.regs, bus } =
      (some ((c.spelled bus).instr (c.bytes bus)), c.fetched bus (c.spelled bus))) :
    c.Executes bus i (c'.ranCore bus find i) := by
  obtain ⟨instr, core⟩ := ranCore_eq found fetch
  exact ⟨fetching, spells, instr, c'.pins, core⟩

theorem executes_of_supply {op : Byte} {c' : Cpu} (entry : c.entry = c'.regs)
    (pc : c'.regs.pc = c.regs.pc) (given : c.given = some op)
    (found : c'.found bus (supply op) = some i) :
    c.Executes bus i (c'.ranCore bus (supply op) i) := by
  have bytes : c.bytes bus = followed op (Bus.stream bus c'.regs.pc) := by
    rw [pc, Cpu.bytes, given]
  have spells := spells_of_found (s := (charge .im ({ regs := c'.regs, bus } : Core β)).2)
    (Option.isSome_of_eq_some found) bytes
  refine executes_of_find (fetching_of_given given) found spells.1 ?_
  unfold fetched
  rw [given, entry, bytes]
  exact supply_spelled (bytes ▸ spells.1) spells.2

theorem executes_of_next (running : c.decision ≠ .acknowledge)
    (found : c.shut.found bus nextInstruction = some i) :
    c.Executes bus i (c.shut.ranCore bus nextInstruction i) := by
  obtain ⟨given, entry⟩ := given_of_running running
  have bytes : c.bytes bus = Bus.stream bus c.regs.pc := by rw [Cpu.bytes, given]
  have spells := spells_of_found
    (s := (fetchByte ({ regs := c.shut.regs, bus } : Core β)).2) (Option.isSome_of_eq_some found)
    (bytes.trans (Bus.stream_eq_followed bus c.regs.pc))
  have at_pc : (c.spelled bus).Spells (Bus.stream bus c.regs.pc) := bytes ▸ spells.1
  refine executes_of_find (fetching_of_running running) found spells.1 ?_
  unfold fetched
  rw [given, entry, bytes]
  exact nextInstruction_spelled (s := { regs := c.shut.regs, bus }) at_pc spells.2

/-- A step that runs an instruction runs the one that is spelled out before it. -/
theorem executes_of_effect (h : c.effect bus = some e) (executed : .executed i ∈ e.marks) :
    c.Executes bus i e.core := by
  cases arises_of_effect h with
  | instruction i' running found =>
    obtain rfl : i = i' := by simpa using executed
    exact executes_of_next running found
  | nmi served edge => simp at executed
  | supplied i' served maskable mode found =>
    obtain rfl : i = i' := by simpa using executed
    exact executes_of_supply (entry_of_served served) rfl (given_of_supplied served maskable mode)
      found
  | restart served maskable mode =>
    obtain rfl : i = .rst 7 := by simpa using executed
    exact executes_of_supply (entry_of_served served) rfl (given_of_restart served maskable mode)
      (found_supply_rst c.disabled bus)
  | vector served maskable zero one => simp at executed

end Cpu

end Z80
