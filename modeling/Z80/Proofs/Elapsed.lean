import Z80.Proofs.Durations
import Z80.Proofs.Executed

/-! The time that a step takes. It is the documented one in every state, whichever way the
condition of the instruction falls and however many prefixes stand before it. -/
namespace Z80

namespace Cpu

open Exec

variable {c : Cpu} {bus : FlatBus} {e : Encoding}

/-- A move of the processor that takes `n` ticks. -/
def Takes (c : Cpu) (moved : Option (Cpu × FlatBus)) (n : Nat) : Prop :=
  ∃ d bus', moved = some (d, bus') ∧ (d.now.since c.now).toNat = n

theorem Takes.refreshed {moved : Option (Cpu × FlatBus)} {n : Nat} (h : c.Takes moved n) :
    c.Takes (moved.map refreshed) n := by
  obtain ⟨d, bus', rfl, ht⟩ := h
  exact ⟨d.refresh, bus', rfl, ht⟩

theorem takes_of_found {find : Exec FlatBus (Option Instr)}
    {live : Action (Clocked FlatBus) (Option Instr)} {i : Instr}
    (same : Follows c.clocked live find) (h : c.found bus find = some i) :
    c.Takes (c.run bus live) (c.timing.total (c.ranCore bus find i).charges).toNat := by
  rw [run_of_found same h]
  refine ⟨_, _, rfl, ?_⟩
  split <;> simp [settle, refresh]

theorem takes_next (timed : c.timing = .z80) (h : e.Spells (Bus.stream bus c.regs.pc)) :
    c.Takes (c.next bus) (e.ticks (e.goes c.regs bus)) := by
  have fetched := nextInstruction_spelled (s := { regs := c.regs, bus }) h (Nat.le_of_lt h.short)
  have found : c.found bus nextInstruction = some (e.instr (Bus.stream bus c.regs.pc)) :=
    congrArg Prod.fst fetched
  have index : (e.index (Bus.stream bus c.regs.pc)).isSome = decide (0 < e.chain) := by
    rw [Encoding.index, Opcode.isSome_lastIndex h.chain]
    rfl
  have goes (r : Byte) (n : Word) :
      (e.instr (Bus.stream bus c.regs.pc)).goes (c.regs.past n r) bus = e.goes c.regs bus := by
    rw [Instr.goes, Encoding.instr, Table.test_instr h.last.holds]
    rfl
  have charges : (c.ranCore bus nextInstruction (e.instr (Bus.stream bus c.regs.pc))).charges =
      (e.delays ++ (e.instr (Bus.stream bus c.regs.pc)).delays (e.goes c.regs bus)).reverse := by
    rw [ranCore, fetched, Instr.exec_charges, Core.advance, Bus.past_flat, goes,
      List.reverseAux_eq, List.append_nil, List.reverse_append]
  have takes := takes_of_found c.follows_next found
  rw [charges, timed, Timing.total_reverse, Encoding.instr,
    Encoding.total_delays e.chain _ h.last.holds index, BitVec.toNat_ofNat,
    Nat.mod_eq_of_lt (Encoding.ticks_lt h.short _)] at takes
  exact takes

theorem takes_step (timed : c.timing = .z80) (running : c.decision ≠ .acknowledge)
    (h : e.Spells (Bus.stream bus c.regs.pc)) :
    c.Takes (c.step bus) (e.ticks (e.goes c.regs bus)) := by
  have shut : c.shut.Takes (c.shut.next bus) (e.ticks (e.goes c.regs bus)) :=
    takes_next timed h
  rw [step_of_running running]
  exact shut.refreshed

theorem exists_spells_of_step (running : c.decision ≠ .acknowledge)
    (h : (c.step bus).isSome = true) : ∃ e : Encoding, e.Spells (Bus.stream bus c.regs.pc) := by
  obtain ⟨⟨d, bus'⟩, hs⟩ := Option.isSome_iff_exists.mp h
  obtain ⟨e, he, -, -⟩ := effect_of_step hs
  cases arises_of_effect he with
  | instruction i _ found =>
    have spells := (executes_of_effect (i := i) he (by simp)).spells
    rw [bytes, (given_of_running running).1] at spells
    exact ⟨_, spells⟩
  | nmi served | supplied _ served | restart served | vector served => exact absurd served running

theorem takes_serve {action : Exec FlatBus Unit} {live : Action (Clocked FlatBus) Unit}
    (same : Follows c.clocked live action) (bus : FlatBus) :
    c.Takes (some (c.serve bus live))
      (c.timing.total (action { regs := c.regs, bus }).2.charges).toNat := by
  rw [serve_eq same]
  exact ⟨_, _, rfl, by simp only [settle, Ticks.since_add]⟩

theorem takes_acknowledgeNmi (timed : c.timing = .z80) :
    c.Takes (some (c.acknowledgeNmi bus)) 11 := by
  let d : Cpu := { c with pins := { c.pins with nmi := .low } }
  have takes : c.Takes (some (c.acknowledgeNmi bus)) (c.timing.total [.nmi, .m1]).toNat :=
    takes_serve (c := d) (Follows.serveNmi d.clocked_hom) bus
  rwa [timed] at takes

theorem takes_acknowledgeInt_one (timed : c.timing = .z80) (mode : c.regs.im = 1) :
    c.Takes (c.acknowledgeInt bus) 13 := by
  have fetched : (supply 0xFF : Exec FlatBus _) { regs := c.disabled.regs, bus } =
      (some (.rst 7), _) := resolve_instr chainLimit rfl
  have charges : (c.disabled.ranCore bus (supply 0xFF) (.rst 7)).charges =
      [.mem, .mem, .push, .m1, .im] := by
    rw [ranCore, Instr.exec_charges, fetched]
    rfl
  have takes := takes_of_found (c.disabled.follows_supply 0xFF) (found_supply_rst c.disabled bus)
  rw [charges, show c.disabled.timing = .z80 from timed] at takes
  unfold acknowledgeInt
  simp only [mode]
  exact takes

theorem takes_acknowledgeInt_two (timed : c.timing = .z80) (zero : c.regs.im ≠ 0)
    (one : c.regs.im ≠ 1) : c.Takes (c.acknowledgeInt bus) 19 := by
  have takes : c.Takes _ (c.timing.total [.im2, .m1]).toNat :=
    takes_serve (c := c.released) (Follows.serveVector c.released.clocked_hom
      (.ofBytes c.regs.i c.pins.data)) bus
  rw [timed] at takes
  unfold acknowledgeInt
  rw [if_neg zero, if_neg one]
  exact takes

/-- A step takes the documented time, in every state. If it runs an instruction, that is
the one which lies at PC, and the time depends on its opcodes and on whether it branches or
repeats. -/
theorem step_takes_documented (c : Cpu) (bus : FlatBus) (timed : c.timing = .z80) :
    (c.decision ≠ .acknowledge →
      (∀ e : Encoding, e.Spells (Bus.stream bus c.regs.pc) →
        c.Takes (c.step bus) (e.ticks (e.goes c.regs bus))) ∧
      ((c.step bus).isSome = true → ∃ e : Encoding, e.Spells (Bus.stream bus c.regs.pc))) ∧
    (c.decision = .acknowledge →
      (c.pins.nmi = .edge → c.Takes (c.step bus) 11) ∧
      (c.pins.nmi ≠ .edge → c.regs.im = 1 → c.Takes (c.step bus) 13) ∧
      (c.pins.nmi ≠ .edge → c.regs.im ≠ 0 → c.regs.im ≠ 1 → c.Takes (c.step bus) 19)) := by
  refine ⟨fun running => ⟨fun e h => takes_step timed running h,
    exists_spells_of_step running⟩, fun served => ?_⟩
  have step_eq : c.step bus = c.acknowledge bus := by simp only [step, served]
  rw [step_eq]
  unfold acknowledge
  refine ⟨fun edge => ?_, fun maskable mode => ?_,
    fun maskable zero one => ?_⟩
  · rw [if_pos edge]
    exact (takes_acknowledgeNmi timed).refreshed
  · rw [if_neg maskable]
    exact (takes_acknowledgeInt_one timed mode).refreshed
  · rw [if_neg maskable]
    exact (takes_acknowledgeInt_two timed zero one).refreshed

theorem step_takes_documented_djnz :
    (ofTiming .z80).Takes
      ((ofTiming .z80).step (FlatBus.empty.load 0 [0xDD, 0xFD, 0x10, 0x02])) 21 := by
  have spells : Encoding.Spells ⟨2, .main, 0x10⟩
      (Bus.stream (FlatBus.empty.load 0 [0xDD, 0xFD, 0x10, 0x02]) (ofTiming .z80).regs.pc) :=
    ⟨by decide +kernel, by decide +kernel, by decide⟩
  have goes : Encoding.goes ⟨2, .main, 0x10⟩ (ofTiming .z80).regs
      (FlatBus.empty.load 0 [0xDD, 0xFD, 0x10, 0x02]) = true := by decide +kernel
  obtain ⟨running, -⟩ := step_takes_documented (ofTiming .z80)
    (FlatBus.empty.load 0 [0xDD, 0xFD, 0x10, 0x02]) rfl
  have ht := (running (by decide)).1 _ spells
  rwa [goes] at ht

/-- A table made with all flags clear is not the whole truth about JR Z: its entry is the
time of the branch not taken. -/
theorem mainEntry_falls_short :
    ¬∀ (c : Cpu) (bus : FlatBus), c.timing = .z80 → c.decision ≠ .acknowledge →
      bus.peek c.regs.pc ∉ [0xCB, 0xDD, 0xED, 0xFD] →
      (mainTest (bus.peek c.regs.pc)).all (·.passes c.regs bus) = true →
      c.Takes (c.step bus) (mainEntry (bus.peek c.regs.pc)) := by
  intro h
  obtain ⟨d, bus', hs, ht⟩ := h (ofTiming .z80) (FlatBus.empty.load 0 [0x28, 0x00]) rfl
    (by decide) (by decide +kernel) (by decide +kernel)
  have twelve : ((ofTiming .z80).step (FlatBus.empty.load 0 [0x28, 0x00])).all
      (fun s => (s.1.now.since (ofTiming .z80).now).toNat = 12) = true := by decide +kernel
  have seven : mainEntry ((FlatBus.empty.load 0 [0x28, 0x00]).peek (ofTiming .z80).regs.pc) =
      7 := by decide +kernel
  rw [hs, Option.all_some, decide_eq_true_iff, ht, seven] at twelve
  contradiction

end Cpu

end Z80
