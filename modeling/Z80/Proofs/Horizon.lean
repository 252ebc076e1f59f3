import Z80.Proofs.Ran
import Z80.Proofs.Turns
import Z80.Bus.Flat

/-! The stored horizon never goes stale. It is drawn anew by every operation that bears
on the next decision; what does not draw it anew runs only before the horizon, where
nothing is pending, and leaves it so. -/
namespace Z80

variable {β : Type}

namespace Cpu

/-- Nothing pending, or the processor asleep: the timeout. Anything else: at once. -/
def Fresh (c : Cpu) : Prop :=
  c.horizon =
    if c.regs.halt then c.timeout
    else if c.regs.eiMode ∨ (c.pins.int = .low ∧ c.regs.iff1) ∨ c.pins.nmi = .edge then c.now
    else c.timeout

variable {c d : Cpu}

theorem fresh_iff : c.Fresh ↔ c.horizon = c.due := by
  unfold Fresh due eligible Pins.eligible
  cases c.regs.halt <;> simp

theorem fresh_refresh (c : Cpu) : c.refresh.Fresh := fresh_iff.mpr rfl

theorem Fresh.calm (h : c.Fresh) (early : c.now.reached c.horizon = false) :
    c.regs.halt = true ∨ c.regs.eiMode = false ∧ c.eligible = false := by
  rw [fresh_iff.mp h] at early
  unfold due at early
  split at early
  · simp at early
  · cases hh : c.regs.halt <;> simp_all

theorem due_of_calm (h : c.regs.halt = true ∨ c.regs.eiMode = false ∧ c.eligible = false) :
    c.due = c.timeout := by
  unfold due
  rcases h with h | ⟨he, hl⟩
  · simp [h]
  · simp [he, hl]

theorem Fresh.control (h : c.Fresh) (k : Control) : (c.control k).Fresh := by
  cases k with
  | setNmi =>
    change Fresh (if _ then _ else _)
    split
    · exact fresh_refresh _
    · exact h
  | setData v => exact fresh_iff.mpr (fresh_iff.mp h)
  | setDataIdle v idle => exact fresh_iff.mpr (fresh_iff.mp h)
  | stop => exact fresh_iff.mpr (fresh_iff.mp h)
  | _ => exact fresh_refresh _

theorem Fresh.ran {i : Instr} (h : c.Fresh) (early : c.now.reached c.horizon = false)
    (hr : Ran c i d) : d.Fresh := by
  rw [fresh_iff]
  cases hi : i.reschedules with
  | true => simpa [hi] using hr.horizon
  | false =>
    have hg : d.regs.guard = c.regs.guard := by
      rw [hr.guard, Instr.guard_of_not_reschedules hi]
    have hcalm : d.regs.halt = true ∨ d.regs.eiMode = false ∧ d.eligible = false := by
      simp only [Registers.guard, Guard.mk.injEq] at hg
      obtain ⟨h1, -, hh, he⟩ := hg
      simpa only [hh, he, eligible, h1, hr.pins] using h.calm early
    calc d.horizon
      _ = c.horizon := by simpa [hi] using hr.horizon
      _ = c.due := fresh_iff.mp h
      _ = c.timeout := due_of_calm (h.calm early)
      _ = d.due := by rw [due_of_calm hcalm, hr.timeout]

variable [Bus β] {bus bus' : β}

omit [Bus β] in
theorem fresh_of_refreshed {moved : Option (Cpu × β)}
    (h : moved.map refreshed = some (d, bus')) : d.Fresh := by
  obtain ⟨c', -, rfl⟩ := eq_refresh_of_refreshed h
  exact fresh_refresh c'

theorem fresh_of_step (h : c.step bus = some (d, bus')) : d.Fresh := by
  unfold step at h
  split at h <;> exact fresh_of_refreshed h

theorem Fresh.next (hc : c.Fresh) (early : c.now.reached c.horizon = false)
    (h : c.next bus = some (d, bus')) : d.Fresh := by
  obtain ⟨i, -, hr⟩ := ran_of_run c.follows_next Exec.keeps_guard_next h
  exact hc.ran early hr

end Cpu

namespace Machine

/-- What the surroundings can bring a machine to between two calls, in a hook or outside
of one. A hook is made of the same operations, runs of the loop among them. A run need not
have ended, so the machines that it passes through are reached as well. -/
inductive Reaches [Bus β] : Machine β → Machine β → Prop
  | start {m} : Reaches m m
  | control {m m₁} (before : Reaches m m₁) (k : Cpu.Control) : Reaches m (m₁.control k)
  | interrupt {m m₁} (before : Reaches m m₁) : Reaches m m₁.interrupt.2
  | reset {m m₁} (before : Reaches m m₁) : Reaches m m₁.reset
  | store {m m₁} (before : Reaches m m₁) (bus : β) : Reaches m { m₁ with bus }
  | step {m m₁ m₂} (before : Reaches m m₁) (last : m₁.step = some m₂) : Reaches m m₂
  | execute {m m₁ m₂ hook es p} (before : Reaches m m₁) (made : ∀ x, Reaches x (hook x))
      (run : Turns hook .check m₁ es p m₂) : Reaches m m₂

variable {m₁ m₂ : Machine β}

theorem move_eq_some {f : Cpu → β → Option (Cpu × β)} :
    m₁.move f = some m₂ ↔
      f m₁.cpu m₁.bus = some (m₂.cpu, m₂.bus) ∧ m₂.journal = m₁.journal := by
  unfold move
  cases f m₁.cpu m₁.bus with
  | none => simp
  | some s =>
    obtain ⟨c, b⟩ := s
    obtain ⟨c₂, b₂, j₂⟩ := m₂
    simp [and_assoc, eq_comm]

theorem control_cpu (m : Machine β) (k : Cpu.Control) : (m.control k).cpu = m.cpu.control k := by
  unfold control
  cases Message.ofControl m.cpu k <;> rfl

variable [Bus β]

theorem cpu_step (h : m₁.step = some m₂) : m₁.cpu.step m₁.bus = some (m₂.cpu, m₂.bus) := by
  unfold step at h
  split at h <;> exact (move_eq_some.mp h).1

theorem fresh_of_turned {hook : Machine β → Machine β} {p q : Phase} {e : Option Event}
    (hook_fresh : ∀ x, x.cpu.Fresh → (hook x).cpu.Fresh) (h : Turned hook p m₁ e q m₂)
    (fresh : m₁.cpu.Fresh) : m₂.cpu.Fresh := by
  cases h with
  | hook => exact hook_fresh _ fresh
  | instruction running early next => exact fresh.next early (move_eq_some.mp next).1
  | afterEI running awake window next =>
    exact Cpu.fresh_of_refreshed (move_eq_some.mp next).1
  | acknowledge running awake settled eligible next =>
    exact Cpu.fresh_of_refreshed (move_eq_some.mp next).1
  | early | leave | idle => exact fresh

theorem fresh_of_turns {hook : Machine β → Machine β} {p q : Phase} {es : List Event}
    (hook_fresh : ∀ x, x.cpu.Fresh → (hook x).cpu.Fresh) (h : Turns hook p m₁ es q m₂)
    (fresh : m₁.cpu.Fresh) : m₂.cpu.Fresh := by
  induction h with
  | start => exact fresh
  | turn _ last ih => exact fresh_of_turned hook_fresh (turned_of_turn last) ih

theorem fresh_of_reaches (h : Reaches m₁ m₂) (fresh : m₁.cpu.Fresh) : m₂.cpu.Fresh := by
  induction h with
  | start => exact fresh
  | control _ k ih =>
    rw [control_cpu]
    exact (ih fresh).control k
  | interrupt _ ih =>
    change (control _ _).cpu.Fresh
    rw [control_cpu]
    exact (ih fresh).control _
  | reset _ ih =>
    change (control _ _).cpu.Fresh
    rw [control_cpu]
    exact (ih fresh).control _
  | store _ _ ih => exact ih fresh
  | step _ last _ => exact Cpu.fresh_of_step (cpu_step last)
  | execute _ _ run ih hook_ih => exact fresh_of_turns hook_ih run (ih fresh)

/-- From power-on, whatever is done to the machine, its horizon is the one that the state
calls for; and so it is at each head of the outer loop and each test of the inner one. -/
theorem horizon_never_stale (t : Timing) (bus : β) {m : Machine β}
    (h : Reaches { cpu := .ofTiming t, bus } m) :
    m.cpu.Fresh ∧ ∀ hook : Machine β → Machine β, (∀ x, Reaches x (hook x)) →
      ∀ es p m', Turns hook .check m es p m' → m'.cpu.Fresh := by
  have fresh : m.cpu.Fresh := fresh_of_reaches h (Cpu.fresh_refresh _)
  refine ⟨fresh, fun hook made es p m' run => ?_⟩
  exact fresh_of_turns (fun x => fresh_of_reaches (made x)) run fresh

/-- EI at address 0 with the request line low, and the hook due after 24 ticks: by then
the request has been served. -/
def requested : Machine FlatBus :=
  { cpu := ((Cpu.ofTiming .z80).control .setInt).control (.setTimeout 24)
    bus := FlatBus.empty.load 0 [0xFB] }

def latchAndStop (m : Machine FlatBus) : Machine FlatBus := (m.control .setNmi).control .stop

theorem horizon_never_stale_requested :
    ∃ m, execute latchAndStop 16 requested = .stopped m ∧ m.cpu.regs.pc = 0x39 ∧
      m.cpu.Fresh := by
  have start : Reaches { cpu := .ofTiming .z80, bus := requested.bus } requested :=
    (Reaches.start.control .setInt).control (.setTimeout 24)
  have made (x : Machine FlatBus) : Reaches x (latchAndStop x) :=
    (Reaches.start.control _).control _
  have served : (match execute latchAndStop 16 requested with
      | .stopped m => m.cpu.regs.pc == 0x39
      | _ => false) = true := by decide +kernel
  split at served
  next m ended =>
    obtain ⟨es, run, -⟩ := turns_of_loop ended
    exact ⟨m, ended, by simpa using served,
      (horizon_never_stale .z80 _ (start.execute made run)).1⟩
  next => exact absurd served Bool.false_ne_true

end Machine

end Z80
