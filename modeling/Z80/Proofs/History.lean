import Z80.Bus.Flat
import Z80.Proofs.Effect

/-! The interrupt enables as a record of the past. A history notes each reset, each
acknowledge and each instruction in the order in which they happened; the two enables can
be read off it, and off nothing less. -/
namespace Z80

variable {β : Type}

namespace Mark

def isEI (x : Mark) : Bool := x = executed .ei

def disables : Mark → Bool
  | reset | int | executed .di => true
  | _ => false

/-- What brings the two enables together again. -/
def levels : Mark → Bool
  | reset | int | executed .di | executed .ei | executed .retn => true
  | _ => false

end Mark

/-- Somewhere after the most recent `q`, or after the beginning, there is a `p`. -/
def After (p q : Mark → Bool) (h : List Mark) : Prop :=
  ∃ past x since, h = past ++ x :: since ∧ p x = true ∧ ∀ y ∈ since, q y = false

theorem not_after_nil (p q : Mark → Bool) : ¬After p q [] := by
  rintro ⟨past, x, since, h, -⟩
  simp at h

theorem after_concat {p q : Mark → Bool} {h : List Mark} {x : Mark} :
    After p q (h ++ [x]) ↔ p x = true ∨ q x = false ∧ After p q h := by
  constructor
  · rintro ⟨past, y, since, he, hp, hq⟩
    rcases List.eq_nil_or_concat since with rfl | ⟨rest, z, rfl⟩
    · obtain ⟨-, hxy⟩ := List.append_inj' he rfl
      cases hxy
      exact .inl hp
    · rw [List.concat_eq_append, ← List.cons_append, ← List.append_assoc] at he
      obtain ⟨rfl, hxz⟩ := List.append_inj' he rfl
      cases hxz
      refine .inr ⟨hq _ (by simp), past, y, rest, rfl, hp, fun w hw => hq w ?_⟩
      simp [hw]
  · rintro (hp | ⟨hq, past, y, since, rfl, hp, hs⟩)
    · exact ⟨h, x, [], rfl, hp, by simp⟩
    · refine ⟨past, y, since ++ [x], by simp, hp, fun w hw => ?_⟩
      rcases List.mem_append.mp hw with hw | hw
      · exact hs w hw
      · rw [List.mem_singleton.mp hw, hq]

structure Accounted (g : Guard) (h : List Mark) : Prop where
  enabled : g.iff2 = true ↔ After Mark.isEI Mark.disables h
  implied : g.iff1 = true → g.iff2 = true
  apart : g.iff1 ≠ g.iff2 ↔ After (· == .nmi true) Mark.levels h

namespace Accounted

variable {g g' : Guard} {h : List Mark}

theorem powerOn : Accounted {} [] where
  enabled := by simp [not_after_nil]
  implied := by simp
  apart := by simp [not_after_nil]

theorem congr (hr : Accounted g h) (h1 : g'.iff1 = g.iff1) (h2 : g'.iff2 = g.iff2) :
    Accounted g' h := by
  constructor
  · rw [h2]; exact hr.enabled
  · rw [h1, h2]; exact hr.implied
  · rw [h1, h2]; exact hr.apart

theorem reset : Accounted {} (h ++ [.reset]) where
  enabled := by simp [after_concat, Mark.isEI, Mark.disables]
  implied := by simp
  apart := by simp [after_concat, Mark.levels]

theorem int (g : Guard) : Accounted { g with iff1 := false, iff2 := false } (h ++ [.int]) where
  enabled := by simp [after_concat, Mark.isEI, Mark.disables]
  implied := by simp
  apart := by simp [after_concat, Mark.levels]

theorem nmi (hr : Accounted g h) : Accounted { g with iff1 := false } (h ++ [.nmi g.iff2]) where
  enabled := by simpa [after_concat, Mark.isEI, Mark.disables] using hr.enabled
  implied := by simp
  apart := by
    have hi := hr.implied
    have ha := hr.apart
    cases h2 : g.iff2 <;> simp_all [after_concat, Mark.levels]

theorem other {i : Instr} (hr : Accounted g h) (hi : i ≠ .di ∧ i ≠ .ei ∧ i ≠ .retn) :
    Accounted g (h ++ [.executed i]) := by
  have hd : (Mark.executed i).disables = false ∧ (Mark.executed i).levels = false := by
    cases i <;> simp_all [Mark.disables, Mark.levels]
  constructor
  · simpa [after_concat, Mark.isEI, hd, hi] using hr.enabled
  · exact hr.implied
  · simpa [after_concat, hd] using hr.apart

theorem executed (hr : Accounted g h) (pins : Pins) (i : Instr) :
    Accounted (i.guard pins g) (h ++ [.executed i]) := by
  by_cases hi : i ≠ .di ∧ i ≠ .ei ∧ i ≠ .retn
  · apply (hr.other hi).congr <;> cases i <;> first | rfl | simp at hi
  · obtain rfl | rfl | rfl : i = .di ∨ i = .ei ∨ i = .retn := by grind
    · constructor <;> simp [Instr.guard, after_concat, Mark.isEI, Mark.disables, Mark.levels]
    · constructor <;> simp [Instr.guard, after_concat, Mark.isEI, Mark.levels]
    · have he := hr.enabled
      constructor <;>
        simp [Instr.guard, after_concat, Mark.isEI, Mark.disables, Mark.levels, he]

end Accounted

open Exec

variable [Bus β]

namespace Cpu

variable {c d : Cpu} {bus bus' : β} {find : Exec β (Option Instr)} {h : List Mark}

theorem accounted_of_found {i : Instr} (hf : Keeps Registers.guard find)
    (hr : Accounted c.regs.guard h) :
    Accounted (c.ranCore bus find i).regs.guard (h ++ [.executed i]) := by
  rw [ranCore, Instr.exec_guard, hf]
  exact hr.executed c.pins i

theorem accounted_of_step (hr : Accounted c.regs.guard h) (hs : c.step bus = some (d, bus')) :
    Accounted d.regs.guard (h ++ c.marks bus) := by
  obtain ⟨e, he, rfl, -⟩ := effect_of_step hs
  rw [marks_of_effect he]
  have served : Accounted c.disabled.regs.guard (h ++ [.int]) := .int c.regs.guard
  cases arises_of_effect he with
  | instruction i running found =>
    have shut : Accounted c.shut.regs.guard h := hr.congr rfl rfl
    exact accounted_of_found keeps_guard_next shut
  | nmi acknowledged edge =>
    change Accounted (serveNmi ({ regs := c.regs, bus } : Core β)).2.regs.guard _
    rw [serveNmi_guard]
    exact hr.nmi
  | supplied i acknowledged maskable mode found =>
    rw [List.append_cons]
    exact accounted_of_found (c := c.released) (keeps_guard_supply _) served
  | restart acknowledged maskable mode =>
    rw [List.append_cons]
    exact accounted_of_found (keeps_guard_supply _) served
  | vector acknowledged maskable zero one =>
    change Accounted (serveVector _ ({ regs := c.disabled.regs, bus } : Core β)).2.regs.guard _
    rw [serveVector_guard]
    exact served

def Control.marks : Control → List Mark
  | .resetAt _ => [.reset]
  | _ => []

omit [Bus β] in
theorem accounted_of_control (hr : Accounted c.regs.guard h) (k : Control) :
    Accounted (c.control k).regs.guard (h ++ k.marks) := by
  cases k with
  | resetAt t => exact .reset
  | setNmi =>
    simp only [Control.marks, List.append_nil]
    change Accounted (Registers.guard (Cpu.regs (if _ then _ else _))) h
    split <;> exact hr
  | _ =>
    simp only [Control.marks, List.append_nil]
    exact hr

/-- Where a processor can get to from power-on, and what is on record there. -/
inductive History : Cpu → β → List Mark → Prop
  | powerOn (t : Timing) (bus : β) : History (.ofTiming t) bus []
  | store {c : Cpu} {bus : β} {h : List Mark} (before : History c bus h) (bus' : β) :
      History c bus' h
  | control {c : Cpu} {bus : β} {h : List Mark} (before : History c bus h) (k : Control) :
      History (c.control k) bus (h ++ k.marks)
  | step {c d : Cpu} {bus bus' : β} {h : List Mark} (before : History c bus h)
      (last : c.step bus = some (d, bus')) : History d bus' (h ++ c.marks bus)

theorem accounted_of_history (hh : History c bus h) : Accounted c.regs.guard h := by
  induction hh with
  | powerOn => exact .powerOn
  | store _ _ ih => exact ih
  | control _ k ih => exact accounted_of_control ih k
  | step _ last ih => exact accounted_of_step ih last

/-- The two enables say what has happened. The second is on since an EI, the first never
on without it; they differ since a non-maskable acknowledge with the second on. So a
maskable interrupt is taken only after an EI that nothing has put out since. -/
theorem enables_record_history (hh : History c bus h) :
    (c.regs.iff2 = true ↔ After Mark.isEI Mark.disables h) ∧
    (c.regs.iff1 = true → c.regs.iff2 = true) ∧
    (c.regs.iff1 ≠ c.regs.iff2 ↔ After (· == .nmi true) Mark.levels h) ∧
    (c.decision = .acknowledge → c.pins.nmi ≠ .edge → After Mark.isEI Mark.disables h) := by
  obtain ⟨enabled, implied, apart⟩ := accounted_of_history hh
  refine ⟨enabled, implied, apart, fun served maskable => ?_⟩
  have hl : c.eligible = true := by
    unfold decision at served
    split at served <;> simp_all
  have h1 : c.regs.iff1 = true := by
    simp only [eligible, Pins.eligible, maskable, decide_false, Bool.or_false,
      Bool.and_eq_true] at hl
    exact hl.2
  exact enabled.mp (implied h1)

theorem enables_record_history_latched :
    ∃ (c : Cpu) (bus : FlatBus) (h : List Mark), History c bus h ∧ c.regs.iff1 = false ∧
      After (· == .nmi true) Mark.levels h := by
  have latched : (((ofTiming .z80).step (FlatBus.empty.load 0 [0xFB])).any fun s₁ =>
      ((s₁.1.control .setNmi).step s₁.2).any fun s₂ =>
        (s₂.1.step s₂.2).any fun s₃ => !s₃.1.regs.iff1 && s₃.1.regs.iff2) = true := by
    decide +kernel
  simp only [Option.any_eq_true, Bool.and_eq_true, Bool.not_eq_true'] at latched
  obtain ⟨s₁, h₁, s₂, h₂, s₃, h₃, off, on⟩ := latched
  have run := ((((History.powerOn .z80 _).step h₁).control .setNmi).step h₂).step h₃
  obtain ⟨-, -, apart, -⟩ := enables_record_history run
  exact ⟨s₃.1, s₃.2, _, run, off, apart.mp (by simp [off, on])⟩

end Cpu

end Z80
