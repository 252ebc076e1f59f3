import Z80.Proofs.Executed
import Z80.Proofs.History
import Z80.Proofs.Leading
import Z80.Proofs.Stepped

/-! The window after EI. It is open exactly after a step that has run EI, so the step that
follows runs an instruction and no acknowledge comes between. On record this reads: what
follows an EI is an instruction or a reset. -/
namespace Z80

variable {β : Type}

theorem Instr.guard_eiMode (pins : Pins) (i : Instr) (g : Guard) :
    (i.guard pins g).eiMode = (decide (i = .ei) || g.eiMode) := by
  cases i <;> rfl

theorem append_cons_cases {α : Type} {xs ys past rest : List α} {x : α}
    (h : xs ++ ys = past ++ x :: rest) :
    (∃ mid, xs = past ++ x :: mid ∧ rest = mid ++ ys) ∨
      ∃ pre, past = xs ++ pre ∧ ys = pre ++ x :: rest := by
  rcases List.append_eq_append_iff.mp h with ⟨pre, hp, hy⟩ | ⟨mid, hx, hr⟩
  · exact .inr ⟨pre, hp, hy⟩
  · cases mid with
    | nil => exact .inr ⟨[], by simpa using hx.symm, by simpa using hr.symm⟩
    | cons y mid =>
      cases hr
      exact .inl ⟨mid, hx, rfl⟩

def Mark.acknowledges : Mark → Bool
  | nmi _ | int => true
  | reset | executed _ => false

theorem ei_mem_of_after {g mid : List Mark}
    (h : After Mark.isEI Mark.disables (g ++ [.executed .di] ++ mid)) : .executed .ei ∈ mid := by
  obtain ⟨past, x, since, split, ei, kept⟩ := h
  have hx : x = .executed .ei := by simpa [Mark.isEI] using ei
  rcases append_cons_cases split with ⟨r, before, rfl⟩ | ⟨pre, -, rfl⟩
  · rcases append_cons_cases before with ⟨r, -, rfl⟩ | ⟨pre, -, last⟩
    · have di := kept (.executed .di) (by simp)
      contradiction
    · rcases pre with _ | ⟨y, pre⟩ <;> simp_all
  · simp [hx]

namespace Cpu

open Exec

variable {c d : Cpu}

theorem regs_controls {ks : List Control} (h : ∀ t, .resetAt t ∉ ks) :
    (ks.foldl control c).regs = c.regs := by
  induction ks generalizing c with
  | nil => rfl
  | cons k ks ih =>
    have first : (c.control k).regs = c.regs :=
      regs_control fun t hk => h t (hk ▸ List.mem_cons_self)
    exact (ih fun t hk => h t (List.mem_cons_of_mem k hk)).trans first

variable [Bus β] {bus bus' : β} {h : List Mark}

theorem RanBy.window {find : Exec β (Option Instr)} {i : Instr} (ran : c.RanBy bus find i d bus')
    (hf : Keeps Registers.guard find) (settled : c.regs.eiMode = false) :
    d.regs.eiMode = true ↔ i = .ei := by
  have window : d.regs.eiMode = _ := congrArg Guard.eiMode (ran.guard hf)
  rw [window, Instr.guard_eiMode]
  simp [Registers.guard, settled]

/-- The window is open after a step if EI was the last that happened in it. -/
theorem eiMode_of_step (hs : c.step bus = some (d, bus')) :
    d.regs.eiMode = true ↔ (c.marks bus).getLast? = some (.executed .ei) := by
  cases stepped_of_step hs with
  | instruction i running marks ran =>
    rw [ran.window keeps_guard_next rfl, marks]
    simp
  | nmi served edge marks guard =>
    have window : d.regs.eiMode = c.regs.eiMode := congrArg Guard.eiMode guard
    rw [window, (settled_of_acknowledge served).1, marks]
    simp
  | supplied i served maskable mode marks ran =>
    rw [ran.window (keeps_guard_supply _) (settled_of_acknowledge served).1, marks]
    simp
  | restart served maskable mode marks ran =>
    rw [ran.window (keeps_guard_supply _) (settled_of_acknowledge served).1, marks]
    simp
  | vector served maskable zero one marks guard =>
    have window : d.regs.eiMode = c.regs.eiMode := congrArg Guard.eiMode guard
    rw [window, (settled_of_acknowledge served).1, marks]
    simp

theorem opcode_of_effect {e : Effect β} {i : Instr} (h : c.effect bus = some e)
    (executed : .executed i ∈ e.marks) : i = .ei ↔ c.opcode bus = some 0xFB := by
  have ran := executes_of_effect h executed
  rw [ran.instr, opcode, if_pos ran.fetching, Option.some.injEq]
  exact Encoding.instr_eq_ei_iff ran.spells

theorem last_mark_ei_iff (hs : c.step bus = some (d, bus')) :
    (c.marks bus).getLast? = some (.executed .ei) ↔ c.opcode bus = some 0xFB := by
  obtain ⟨e, he, -, -⟩ := effect_of_step hs
  rw [marks_of_effect he]
  cases arises_of_effect he with
  | instruction i running found =>
    rw [← opcode_of_effect he (i := i) (by simp)]
    simp
  | supplied i served maskable mode found =>
    rw [← opcode_of_effect he (i := i) (by simp)]
    simp
  | restart served maskable mode =>
    rw [← opcode_of_effect he (i := .rst 7) (by simp)]
    simp
  | nmi served edge => simp [opcode, fetching, given, served, edge]
  | vector served maskable zero one =>
    simp [opcode, fetching, served, given_of_vector served maskable zero one]

theorem decision_after_ei (hs : c.step bus = some (d, bus')) (ei : c.opcode bus = some 0xFB)
    {ks : List Control} (h : ∀ t, .resetAt t ∉ ks) :
    (ks.foldl control d).decision = .afterEI := by
  have window : d.regs.eiMode = true := (eiMode_of_step hs).mpr ((last_mark_ei_iff hs).mpr ei)
  unfold decision
  rw [regs_controls h, window]
  rfl

theorem marks_ne_nil (hs : c.step bus = some (d, bus')) : c.marks bus ≠ [] := by
  cases stepped_of_step hs <;> simp_all

theorem eiMode_of_history (hh : History c bus h) :
    c.regs.eiMode = true ↔ h.getLast? = some (.executed .ei) := by
  induction hh with
  | powerOn => simp [ofTiming, refresh, Registers.powerOn]
  | store _ _ ih => exact ih
  | control before k ih =>
    cases k with
    | resetAt t => simp [Cpu.control, resetAt, refresh, Control.marks, Registers.powerOn]
    | _ =>
      rw [regs_control (by simp)]
      simpa [Control.marks] using ih
  | step before last ih =>
    rw [eiMode_of_step last, List.getLast?_append]
    cases hm : List.getLast? _ with
    | none => exact absurd (List.getLast?_eq_none_iff.mp hm) (marks_ne_nil last)
    | some x => rfl

theorem served_of_marks (hs : c.step bus = some (d, bus')) {pre rest : List Mark} {x : Mark}
    (split : c.marks bus = pre ++ x :: rest) (hx : x.acknowledges = true) :
    pre = [] ∧ c.decision = .acknowledge ∧ (x = .int → c.pins.nmi ≠ .edge) := by
  cases stepped_of_step hs <;> rcases pre with _ | ⟨y, _ | ⟨z, pre⟩⟩ <;>
    simp_all [Mark.acknowledges]

theorem served_of_history (hh : History c bus h) {past rest : List Mark} {x : Mark}
    (split : h = past ++ x :: rest) (hx : x.acknowledges = true) :
    ∃ (c₀ : Cpu) (bus₀ : β), History c₀ bus₀ past ∧ c₀.decision = .acknowledge ∧
      (x = .int → c₀.pins.nmi ≠ .edge) := by
  induction hh generalizing rest with
  | powerOn => simp at split
  | store _ _ ih => exact ih split
  | control before k ih =>
    rcases append_cons_cases split with ⟨mid, earlier, -⟩ | ⟨pre, -, new⟩
    · exact ih earlier
    · cases k with
      | resetAt t =>
        have hreset : x ∈ [Mark.reset] := by
          change [Mark.reset] = _ at new
          rw [new]
          simp
        rw [List.mem_singleton.mp hreset] at hx
        contradiction
      | _ => simp [Control.marks] at new
  | step before last ih =>
    rcases append_cons_cases split with ⟨mid, earlier, -⟩ | ⟨pre, rfl, new⟩
    · exact ih earlier
    · obtain ⟨rfl, served, maskable⟩ := served_of_marks last new hx
      exact ⟨_, _, by simpa using before, served, maskable⟩

theorem after_ei_of_served (hh : History c bus h) (served : c.decision = .acknowledge)
    (maskable : c.pins.nmi ≠ .edge) : After Mark.isEI Mark.disables h := by
  obtain ⟨enabled, implied, -⟩ := accounted_of_history hh
  obtain ⟨-, -, eligible⟩ := settled_of_acknowledge served
  have on : c.regs.iff1 = true := by
    simp [Cpu.eligible, Pins.eligible, maskable] at eligible
    exact eligible.2
  exact enabled.mp (implied on)

/-- EI opens the window, wherever its opcode FB comes from, and nothing else does. The step
after it runs an instruction, whatever happens to the lines in between: what is on record after
any number of EIs is an instruction or a reset. After a DI, directly after an EI or not, no
maskable interrupt is taken until another EI has been run. -/
theorem window_after_ei (hh : History c bus h) :
    (∀ d bus', c.step bus = some (d, bus') →
      (d.regs.eiMode = true ↔ c.opcode bus = some 0xFB) ∧
      ((c.marks bus).getLast? = some (.executed .ei) ↔ c.opcode bus = some 0xFB) ∧
      (c.opcode bus = some 0xFB → ∀ ks : List Control, (∀ t, .resetAt t ∉ ks) →
        (ks.foldl control d).decision = .afterEI)) ∧
    (∀ past k x rest, h = past ++ List.replicate (k + 1) (.executed .ei) ++ x :: rest →
      x = .reset ∨ ∃ i, x = .executed i) ∧
    (∀ past before after, h = past ++ .executed .di :: before ++ .int :: after →
      .executed .ei ∈ before) := by
  refine ⟨fun d bus' hs => ⟨?_, last_mark_ei_iff hs, ?_⟩, ?_, ?_⟩
  · rw [eiMode_of_step hs, last_mark_ei_iff hs]
  · intro ei ks no_reset
    exact decision_after_ei hs ei no_reset
  · intro past k x rest split
    -- an acknowledge would have been made with the window open
    cases hx : x.acknowledges with
    | false => cases x <;> simp_all [Mark.acknowledges]
    | true =>
      obtain ⟨c₀, bus₀, before, served, -⟩ := served_of_history hh split hx
      have window : c₀.regs.eiMode = true := by
        rw [eiMode_of_history before, List.replicate_succ']
        simp
      rw [(settled_of_acknowledge served).1] at window
      contradiction
  · intro past before after split
    obtain ⟨c₀, bus₀, earlier, served, maskable⟩ := served_of_history hh split rfl
    have enabled := after_ei_of_served earlier served (maskable rfl)
    rw [List.append_cons] at enabled
    exact ei_mem_of_after enabled

theorem window_after_ei_latched : ∃ (c d : Cpu) (bus bus' : FlatBus), History c bus [] ∧
    c.step bus = some (d, bus') ∧ ((d.control .setInt).control .setNmi).eligible = true ∧
      ((d.control .setInt).control .setNmi).decision = .afterEI := by
  let c : Cpu := .ofTiming .z80
  let bus : FlatBus := FlatBus.empty.load 0 [0xFB]
  have ei : c.opcode bus = some 0xFB := by decide +kernel
  have latched : (c.step bus).any
      (fun s => ((s.1.control .setInt).control .setNmi).eligible) = true := by decide +kernel
  simp only [Option.any_eq_true] at latched
  obtain ⟨⟨d, bus'⟩, hs, eligible⟩ := latched
  have start : History c bus [] := .powerOn .z80 bus
  obtain ⟨-, -, after⟩ := (window_after_ei start).1 d bus' hs
  exact ⟨c, d, bus, bus', start, hs, eligible, after ei [.setInt, .setNmi] (by simp)⟩

end Cpu

end Z80
