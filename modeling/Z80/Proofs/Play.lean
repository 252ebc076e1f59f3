import Z80.Bus.Flat
import Z80.Bus.Recorded
import Z80.Proofs.Effect

/-! Two processors side by side, to which the same is done. Each takes its clock along through
every instruction, but a step is an effect that the clock has no part in, and then the time that
it takes (`Cpu.step_eq_effect`). So they stay alike in all but time whatever their clocks and
timings. -/
namespace Z80

variable {β : Type}

inductive Cpu.Op where
  | step
  | control (k : Cpu.Control)
  deriving DecidableEq

/-- A step as it shows from outside. -/
structure Shown where
  marks : List Mark
  accesses : Array Access
  ticks : Ticks
  deriving DecidableEq

structure Play (β : Type) where
  shown : List Shown
  last : Option (Cpu × β)

def Play.cons (s : Shown) (p : Play β) : Play β := { p with shown := s :: p.shown }

namespace Cpu

open Exec

/-- Each operation in turn. For every step the record of the bus is begun anew. -/
def play [Bus β] (c : Cpu) (bus : β) : List Op → Play β
  | [] => ⟨[], some (c, bus)⟩
  | .control k :: ops => (c.control k).play bus ops
  | .step :: ops =>
    let start : Recorded β := ⟨bus, #[]⟩
    match c.step start with
    | none => ⟨[], none⟩
    | some (d, after) =>
      (d.play after.bus ops).cons ⟨c.marks start, after.accesses, d.now.since c.now⟩

variable [Bus β] {c c' : Cpu} {bus : β} {e : Effect (Recorded β)} {ops : List Op}

theorem play_step (h : c.effect (⟨bus, #[]⟩ : Recorded β) = some e) :
    c.play bus (.step :: ops) =
      ((c.settled e).1.play e.core.bus.bus ops).cons
        ⟨e.marks, e.core.bus.accesses, c.timing.total e.core.charges⟩ := by
  have ticks : (c.settled e).1.now.since c.now = c.timing.total e.core.charges :=
    Ticks.since_add ..
  rw [play, step_eq_effect, h, marks_of_effect h, ← ticks]
  rfl

theorem play_endless (h : c.effect (⟨bus, #[]⟩ : Recorded β) = none) :
    c.play bus (.step :: ops) = ⟨[], none⟩ := by
  rw [play, step_eq_effect, h]
  rfl

end Cpu

def Cpu.untimed (c : Cpu) : Cpu := { c with timing := .z80, now := 0, timeout := 0, horizon := 0 }

def Shown.untimed (s : Shown) : Shown := { s with ticks := 0 }

def Play.untimed (p : Play β) : Play β where
  shown := p.shown.map Shown.untimed
  last := p.last.map fun s => (s.1.untimed, s.2)

theorem Play.untimed_cons (s : Shown) (p : Play β) :
    (p.cons s).untimed = p.untimed.cons s.untimed := rfl

namespace Cpu

theorem untimed_control (c : Cpu) (k : Control) :
    (c.control k).untimed = (c.untimed.control k).untimed := by
  cases k with
  | setNmi =>
    change untimed (if _ then _ else _) = untimed (if c.pins.nmi = .high then _ else _)
    split <;> rfl
  | _ => rfl

theorem timing_control (c : Cpu) (k : Control) : (c.control k).timing = c.timing := by
  cases k with
  | setNmi =>
    change Cpu.timing (if _ then _ else _) = _
    split <;> rfl
  | _ => rfl

theorem untimed_settled (c : Cpu) (e : Effect β) :
    (c.settled e).1.untimed = (c.untimed.settled e).1.untimed := rfl

variable [Bus β]

theorem effect_untimed (c : Cpu) (bus : β) : c.untimed.effect bus = c.effect bus := rfl

/-- Of two processors that differ in clock and timing alone, whatever is done to both, the one
comes to the same registers, inputs and bus as the other, and every step has the same accesses
in the same order. If only the stamps differ it takes the same time too. -/
theorem clock_never_leaks (c c' : Cpu) (same : c.untimed = c'.untimed) (bus : β)
    (ops : List Op) :
    (c.play bus ops).untimed = (c'.play bus ops).untimed ∧
      (c.timing = c'.timing → (c.play bus ops).shown = (c'.play bus ops).shown) := by
  induction ops generalizing c c' bus with
  | nil =>
    refine ⟨?_, fun _ => rfl⟩
    simp only [play, Play.untimed, Option.map_some, same]
  | cons op ops ih =>
    cases op with
    | control k =>
      have after : (c.control k).untimed = (c'.control k).untimed := by
        rw [untimed_control, same, ← untimed_control]
      obtain ⟨alike, shown⟩ := ih _ _ after bus
      refine ⟨alike, fun timing => shown ?_⟩
      rw [timing_control, timing_control, timing]
    | step =>
      have effect : c.effect (⟨bus, #[]⟩ : Recorded β) = c'.effect ⟨bus, #[]⟩ := by
        rw [← effect_untimed, same, effect_untimed]
      cases h : c.effect (⟨bus, #[]⟩ : Recorded β) with
      | none =>
        rw [play_endless h, play_endless (effect ▸ h)]
        exact ⟨rfl, fun _ => rfl⟩
      | some e =>
        have after : (c.settled e).1.untimed = (c'.settled e).1.untimed := by
          rw [untimed_settled, same, ← untimed_settled]
        obtain ⟨alike, shown⟩ := ih _ _ after e.core.bus.bus
        rw [play_step h, play_step (effect ▸ h), Play.untimed_cons, Play.untimed_cons, alike]
        refine ⟨rfl, fun timing => ?_⟩
        change _ :: _ = _ :: _
        rw [timing, shown timing]

theorem clock_never_leaks_acknowledged :
    let c : Cpu := .ofTiming .z80
    let late : Cpu := { c with now := 0xFFFFFFFF, timeout := 7, horizon := 1 }
    let slow : Cpu := { late with timing := .msx }
    let bus := FlatBus.empty.load 0 [0xFB, 0xD3, 0x01]
    let ops : List Op := [.control .setInt, .step, .step, .step]
    c.untimed = slow.untimed ∧ (c.play bus ops).untimed = (slow.play bus ops).untimed ∧
    (c.play bus ops).shown.map Shown.ticks = [4, 11, 13] ∧
    (slow.play bus ops).shown.map Shown.ticks = [5, 12, 11] ∧
    c.untimed = late.untimed ∧ c.timing = late.timing ∧
    (c.play bus ops).shown = (late.play bus ops).shown := by
  intro c late slow bus ops
  have apart := clock_never_leaks c slow rfl bus ops
  have shifted := clock_never_leaks c late rfl bus ops
  exact ⟨rfl, apart.1, by decide +kernel, by decide +kernel, rfl, rfl, shifted.2 rfl⟩

end Cpu

end Z80
