import Z80.Bus.Flat
import Z80.Proofs.Listed
import Z80.Proofs.Spares

/-! What a step leaves as it was. Beside the data path stand registers that one kind of
instruction each can write; an index register is written only under its own prefix, and of the
inputs only what an acknowledge spends is changed. -/
namespace Z80

variable {β γ : Type}

/-- The registers that one kind of instruction each writes. -/
structure Reserve where
  im : Byte
  i : Byte
  r2 : Byte
  shadow : Bank
  deriving DecidableEq

def Registers.reserve (r : Registers) : Reserve := ⟨r.im, r.i, r.r2, r.shadow⟩

theorem Registers.reserve_apart : Registers.Apart reserve where
  set _ x _ := by cases x <;> rfl
  pc _ _ := rfl
  sh _ _ := rfl
  r _ _ := rfl

namespace Instr

def reserve (i : Instr) (r : Registers) : Reserve :=
  match i with
  | exAF => { r.reserve with shadow := { r.shadow with af := r.af } }
  | exx => { r.reserve with shadow := ⟨r.shadow.af, r.bc, r.de, r.hl⟩ }
  | ldIA => { r.reserve with i := r.a }
  | ldRA => { r.reserve with r2 := r.a }
  | im mode => { r.reserve with im := mode }
  | _ => r.reserve

theorem exec_reserve [Bus β] (pins : Pins) (i : Instr) (s : Core β) :
    (i.exec pins s).2.regs.reserve = i.reserve s.regs := by
  cases hi : i.system with
  | false =>
    rw [exec_keeps Registers.reserve_apart hi]
    cases i <;> first | rfl | contradiction
  | true =>
    cases i with
    | retn =>
      simp only [exec, Exec.bind_apply, Exec.change_apply, Exec.redraw_apply,
        Exec.Keeps.returnTo Registers.reserve_apart]
      rfl
    | halt =>
      rw [exec_halt]
      split <;> rfl
    | exAF | exx | ldIA | ldRA | im | di | ei => rfl
    | _ => contradiction

/-- Each part of the reserve has one kind of instruction that writes it. -/
theorem reserve_own (x : Instr) (r : Registers) :
    ((x.reserve r).im = r.im ∨ x = .im (x.reserve r).im) ∧
    ((x.reserve r).i = r.i ∨ x = .ldIA) ∧ ((x.reserve r).r2 = r.r2 ∨ x = .ldRA) ∧
    ((x.reserve r).shadow.af = r.shadow.af ∨ x = .exAF) ∧
    ((x.reserve r).shadow = { r.shadow with af := (x.reserve r).shadow.af } ∨ x = .exx) := by
  cases x <;> simp [reserve, Registers.reserve]

end Instr

open Exec Keeps

namespace Opcode.Listed

variable {j : Option Index}

theorem mode {m : Byte} (listed : Listed j (.im m)) : m ∈ [0, 1, 2] := by
  let known : Instr → Bool
    | .im m => m ∈ [0, 1, 2]
    | _ => true
  have good : known (.im m) = true := by
    refine listed.good known ?_ (by decide +kernel) ?_ (by decide +kernel)
    · rcases j with _ | _ | _ <;> decide +kernel
    · intro i d op
      unfold decodeIndexedBits
      cases updateOf op <;> rfl
  simpa [known] using good

theorem index_of_writes {x : Instr} {k : Index} (listed : Listed j x)
    (writes : x.writes k = true) : j = some k := by
  by_cases under : j = some k
  · exact under
  · have spared : (!x.writes k) = true := by
      refine listed.good (!·.writes k) ?_ ?_ ?_ ?_
      · revert under
        rcases j with _ | _ | _ <;> cases k <;> decide +kernel
      · cases k <;> decide +kernel
      · intro i d op
        have copies : ∀ z x, Reg8.ofField z = some x → x.pair ≠ k.pair := by
          cases k <;> decide
        unfold decodeIndexedBits
        cases updateOf op with
        | none => rfl
        | some u =>
          cases hx : Reg8.ofField (z op) with
          | none => rfl
          | some x => exact congrArg (!·) (decide_eq_false (copies (z op) x hx))
      · cases k <;> decide +kernel
    rw [writes] at spared
    contradiction

end Opcode.Listed

/-- A reading that sees nothing of what finds the next instruction or enters a service routine:
not PC, SP, R or the enables. -/
structure Registers.Around (view : Registers → γ) : Prop where
  pc (r : Registers) (w : Word) : view { r with pc := w } = view r
  sp (r : Registers) (w : Word) : view { r with sp := w } = view r
  r (r : Registers) (v : Byte) : view { r with r := v } = view r
  enables (r : Registers) (iff1 iff2 eiMode : Bool) :
    view { r with iff1, iff2, eiMode } = view r

namespace Registers.Around

variable {view : Registers → γ} (hv : Around view)

include hv

theorem m1 : Keeps view (m1 : Exec β Unit) := fun s => hv.r s.regs _

theorem setPC (w : Word) : Keeps view (setPC w : Exec β Unit) := fun s => hv.pc s.regs w

variable [Bus β]

theorem fetchByte : Keeps view (fetchByte : Exec β Byte) := fun s => hv.pc s.regs _

theorem nextInstruction : Keeps view (nextInstruction : Exec β (Option Instr)) :=
  Keeps.nextInstruction hv.fetchByte hv.m1

theorem supply (op : Byte) : Keeps view (supply op : Exec β (Option Instr)) :=
  Keeps.supply hv.fetchByte hv.m1 op

theorem pushUntimed (w : Word) : Keeps view (pushUntimed w : Exec β Unit) := by
  intro s
  exact hv.sp s.regs _

theorem serveNmi : Keeps view (serveNmi : Exec β Unit) := by
  intro s
  have entered (r : Registers) : view { r with pc := 0x0066, iff1 := false } = view r :=
    (hv.enables { r with pc := 0x0066 } false r.iff2 r.eiMode).trans (hv.pc r _)
  simp only [Exec.serveNmi, bind_apply, regs_apply, change_apply, charge_apply, hv.m1, entered,
    hv.pushUntimed]

theorem serveVector (vector : Word) : Keeps view (serveVector vector : Exec β Unit) := by
  intro s
  simp only [Exec.serveVector, bind_apply, regs_apply, charge_apply, hv.m1, hv.setPC,
    Keeps.readBus, hv.pushUntimed]

theorem of_effect {c : Cpu} {bus : β} {e : Effect β} (h : c.effect bus = some e) :
    view e.core.regs = view c.regs ∨ ∃ (i : Instr) (pins : Pins) (s : Core β),
      .executed i ∈ e.marks ∧ view s.regs = view c.regs ∧ e.core = (i.exec pins s).2 := by
  have disabled : view c.disabled.regs = view c.regs := hv.enables c.regs _ _ _
  cases Cpu.arises_of_effect h with
  | instruction i running found =>
    refine .inr ⟨i, _, _, by simp, (hv.nextInstruction _).trans ?_, rfl⟩
    exact hv.enables c.regs _ _ _
  | nmi served edge => exact .inl (hv.serveNmi _)
  | supplied i served maskable mode found =>
    exact .inr ⟨i, _, _, by simp, (hv.supply _ _).trans disabled, rfl⟩
  | restart served maskable mode =>
    exact .inr ⟨.rst 7, c.pins, _, by simp, (hv.supply _ _).trans disabled, rfl⟩
  | vector served maskable zero one => exact .inl ((hv.serveVector _ _).trans disabled)

end Registers.Around

theorem Registers.reserve_around : Around reserve := ⟨fun _ _ => rfl, fun _ _ => rfl,
  fun _ _ => rfl, fun _ _ _ _ => rfl⟩

theorem Registers.halt_around : Around halt := ⟨fun _ _ => rfl, fun _ _ => rfl,
  fun _ _ => rfl, fun _ _ _ _ => rfl⟩

theorem Registers.index_around (k : Index) : Around (·.get k.pair) := by
  cases k <;> exact ⟨fun _ _ => rfl, fun _ _ => rfl, fun _ _ => rfl, fun _ _ _ _ => rfl⟩

namespace Cpu

variable [Bus β] {c d : Cpu} {bus bus' : β} {e : Effect β}

theorem reserve_of_effect (h : c.effect bus = some e) :
    e.core.regs.reserve = c.regs.reserve ∨ ∃ (x : Instr) (r : Registers),
      .executed x ∈ e.marks ∧ r.reserve = c.regs.reserve ∧ e.core.regs.reserve = x.reserve r := by
  obtain kept | ⟨x, pins, s, executed, before, core⟩ := Registers.reserve_around.of_effect h
  · exact .inl kept
  · exact .inr ⟨x, s.regs, executed, before, by rw [core, x.exec_reserve]⟩

theorem part_of_effect (h : c.effect bus = some e) (part : Reserve → γ) {own : Instr}
    (only : ∀ x r, part (x.reserve r) = part r.reserve ∨ x = own) :
    part e.core.regs.reserve = part c.regs.reserve ∨ .executed own ∈ e.marks := by
  obtain kept | ⟨x, r, executed, before, after⟩ := reserve_of_effect h
  · exact .inl (congrArg part kept)
  · rw [after, ← before]
    refine (only x r).imp_right ?_
    rintro rfl
    exact executed

theorem mode_of_effect (h : c.effect bus = some e) :
    e.core.regs.im = c.regs.im ∨
      .executed (.im e.core.regs.im) ∈ e.marks ∧ e.core.regs.im ∈ [0, 1, 2] := by
  obtain kept | ⟨x, r, executed, before, after⟩ := reserve_of_effect h
  · exact .inl (congrArg Reserve.im kept)
  · have before : r.im = c.regs.im := congrArg Reserve.im before
    have after : e.core.regs.im = (x.reserve r).im := congrArg Reserve.im after
    rw [after]
    refine (x.reserve_own r).1.imp (·.trans before) fun own => ?_
    rw [own] at executed
    exact ⟨executed, (listed_of_effect h executed).mode⟩

theorem index_of_effect (h : c.effect bus = some e) (k : Index) :
    e.core.regs.get k.pair = c.regs.get k.pair ∨ c.index bus = some k := by
  obtain kept | ⟨x, pins, s, executed, before, core⟩ := (Registers.index_around k).of_effect h
  · exact .inl kept
  · cases hw : x.writes k with
    | false =>
      refine .inl ?_
      rw [core]
      exact (x.exec_spares hw s).trans before
    | true => exact .inr ((listed_of_effect h executed).index_of_writes hw)

theorem halt_of_effect (h : c.effect bus = some e) :
    e.core.regs.halt = c.regs.halt ∨ .executed .halt ∈ e.marks := by
  obtain kept | ⟨x, pins, s, executed, before, core⟩ := Registers.halt_around.of_effect h
  · exact .inl kept
  · have after : e.core.regs.halt = (x.guard pins s.regs.guard).halt := by
      rw [← x.exec_guard pins s, ← core]
      rfl
    have only : (x.guard pins s.regs.guard).halt = s.regs.halt ∨ x = .halt := by
      cases x <;> first | exact .inl rfl | exact .inr rfl
    rw [after]
    refine only.imp (·.trans before) ?_
    rintro rfl
    exact executed

theorem levels_of_effect (h : c.effect bus = some e) :
    e.pins.int = c.pins.int ∧ e.pins.idleData = c.pins.idleData := by
  cases arises_of_effect h <;> exact ⟨rfl, rfl⟩

theorem nmi_of_effect (h : c.effect bus = some e) :
    e.pins.nmi = c.pins.nmi ∨
      e.marks = [.nmi c.regs.iff2] ∧ c.pins.nmi = .edge ∧ e.pins.nmi = .low := by
  cases arises_of_effect h with
  | nmi served edge => exact .inr ⟨rfl, edge, rfl⟩
  | _ => exact .inl rfl

theorem data_of_effect (h : c.effect bus = some e) :
    e.pins.data = c.pins.data ∨
      .int ∈ e.marks ∧ c.regs.im ≠ 1 ∧ e.pins.data = c.pins.idleData := by
  cases arises_of_effect h with
  | supplied i served maskable mode found => exact .inr ⟨by simp, by rw [mode]; decide, rfl⟩
  | vector served maskable zero one => exact .inr ⟨by simp, one, rfl⟩
  | _ => exact .inl rfl

/-- Each part of the processor is as it was before the step, or what the step has done says why
it is not. Any mode other than 0 and 1 is served as mode 2. -/
structure Framed (c : Cpu) (bus : β) (d : Cpu) : Prop where
  timing : d.timing = c.timing
  timeout : d.timeout = c.timeout
  stopped : d.stopped = c.stopped
  int : d.pins.int = c.pins.int
  idleData : d.pins.idleData = c.pins.idleData
  nmi : d.pins.nmi = c.pins.nmi ∨
    c.marks bus = [.nmi c.regs.iff2] ∧ c.pins.nmi = .edge ∧ d.pins.nmi = .low
  data : d.pins.data = c.pins.data ∨
    .int ∈ c.marks bus ∧ c.regs.im ≠ 1 ∧ d.pins.data = c.pins.idleData
  im : d.regs.im = c.regs.im ∨ .executed (.im d.regs.im) ∈ c.marks bus ∧ d.regs.im ∈ [0, 1, 2]
  i : d.regs.i = c.regs.i ∨ .executed .ldIA ∈ c.marks bus
  r2 : d.regs.r2 = c.regs.r2 ∨ .executed .ldRA ∈ c.marks bus
  shadowAF : d.regs.shadow.af = c.regs.shadow.af ∨ .executed .exAF ∈ c.marks bus
  shadowPairs : (d.regs.shadow.bc, d.regs.shadow.de, d.regs.shadow.hl) =
    (c.regs.shadow.bc, c.regs.shadow.de, c.regs.shadow.hl) ∨ .executed .exx ∈ c.marks bus
  index (k : Index) : d.regs.get k.pair = c.regs.get k.pair ∨ c.index bus = some k
  halt : d.regs.halt = c.regs.halt ∨ .executed .halt ∈ c.marks bus

theorem step_frames (h : c.step bus = some (d, bus')) : c.Framed bus d := by
  obtain ⟨e, he, rfl, -⟩ := effect_of_step h
  have marks : c.marks bus = e.marks := marks_of_effect he
  have own := Instr.reserve_own
  constructor
  case timing | timeout | stopped => rfl
  case int => exact (levels_of_effect he).1
  case idleData => exact (levels_of_effect he).2
  case index => exact index_of_effect he
  all_goals rw [marks]
  case nmi => exact nmi_of_effect he
  case data => exact data_of_effect he
  case im => exact mode_of_effect he
  case i => exact part_of_effect he Reserve.i fun x r => (own x r).2.1
  case r2 => exact part_of_effect he Reserve.r2 fun x r => (own x r).2.2.1
  case shadowAF => exact part_of_effect he (·.shadow.af) fun x r => (own x r).2.2.2.1
  case shadowPairs =>
    refine part_of_effect he (fun r => (r.shadow.bc, r.shadow.de, r.shadow.hl)) fun x r => ?_
    refine (own x r).2.2.2.2.imp_left fun kept => ?_
    rw [kept]
    rfl
  case halt => exact halt_of_effect he

theorem step_frames_prefixed : ∃ (c d : Cpu) (bus bus' : FlatBus),
    c.step bus = some (d, bus') ∧ c.Framed bus d ∧ c.index bus = some .iy ∧
      d.regs.ix = c.regs.ix ∧ d.regs.iy = 0x1234 := by
  let c : Cpu := .ofTiming .z80
  let bus := FlatBus.empty.load 0 [0xDD, 0xFD, 0x21, 0x34, 0x12]
  have last : c.index bus = some .iy := by decide +kernel
  have loads : ((c.step bus).any fun s => s.1.regs.iy == 0x1234) = true := by decide +kernel
  simp only [Option.any_eq_true, beq_iff_eq] at loads
  obtain ⟨⟨d, bus'⟩, hs, iy⟩ := loads
  have framed := step_frames hs
  have ix : d.regs.ix = c.regs.ix := by
    apply (framed.index .ix).resolve_right
    rw [last]
    decide
  exact ⟨c, d, bus, bus', hs, framed, last, ix, iy⟩

end Cpu

end Z80
