import Z80.Proofs.Horizon

/-! The loop as an interleaving of steps and hook calls. Its inner loop looks at no
interrupt input; that is right because before a fresh horizon a step would not find
anything to decide either, and what runs there leaves the horizon as a step would. -/
namespace Z80

variable {β : Type}

namespace Cpu

theorem Fresh.controls {c : Cpu} (h : c.Fresh) (ks : List Control) :
    (ks.foldl Cpu.control c).Fresh := by
  induction ks generalizing c with
  | nil => exact h
  | cons k ks ih => exact ih (h.control k)

theorem refreshed_of_fresh {c : Cpu} {bus : β} (h : c.Fresh) : refreshed (c, bus) = (c, bus) := by
  unfold refreshed
  rw [refresh_eq_self (fresh_iff.mp h)]

/-- The horizon is fresh and the processor not asleep in the window after EI. -/
structure Ready (c : Cpu) : Prop where
  fresh : c.Fresh
  exclusive : ¬(c.regs.halt = true ∧ c.regs.eiMode = true)

theorem Ready.decision {c : Cpu} (h : c.Ready) (early : c.now.reached c.horizon = false) :
    c.decision = .instruction := by
  have hx := h.exclusive
  unfold Cpu.decision
  rcases h.fresh.calm early with hh | ⟨he, hl⟩
  · simp_all
  · simp [he, hl]

variable [Bus β] {c : Cpu} {bus : β}

theorem step_of_instruction (h : c.decision = .instruction) :
    c.step bus = (c.next bus).map refreshed := by
  simp only [step, h]

theorem step_of_afterEI (window : c.regs.eiMode = true) : c.step bus = c.nextAfterEI bus := by
  simp [step, decision, window]

theorem step_of_eligible (awake : c.regs.halt = false) (settled : c.regs.eiMode = false)
    (eligible : c.eligible = true) : c.step bus = c.acknowledge bus := by
  simp [step, decision, awake, settled, eligible]

theorem Ready.step_eq_next (h : c.Ready) (early : c.now.reached c.horizon = false) :
    c.step bus = c.next bus := by
  rw [step_of_instruction (h.decision early)]
  cases hn : c.next bus with
  | none => rfl
  | some n => exact congrArg some (refreshed_of_fresh (h.fresh.next early hn))

end Cpu

namespace Machine

/-- The hook works the processor through its operations alone; the bus it may change at will. -/
def Operates (hook : Machine β → Machine β) : Prop :=
  ∀ m, ∃ ks : List Cpu.Control, (hook m).cpu = ks.foldl Cpu.control m.cpu

theorem Operates.fresh {hook : Machine β → Machine β} (h : Operates hook) (m : Machine β)
    (fresh : m.cpu.Fresh) : (hook m).cpu.Fresh := by
  obtain ⟨ks, hks⟩ := h m
  rw [hks]
  exact fresh.controls ks

def Event.ofDecision : Cpu.Decision → Event
  | .acknowledge => .acknowledge
  | .afterEI | .instruction => .instruction

variable [Bus β]

inductive Interleaved (hook : Machine β → Machine β) : Machine β → List Event → Machine β → Prop
  | start {m} : Interleaved hook m [] m
  | hook {m es m₁} (before : Interleaved hook m es m₁) :
      Interleaved hook m (es ++ [.hook]) (hook m₁)
  | step {m es m₁ m₂} (before : Interleaved hook m es m₁) (last : m₁.step = some m₂) :
      Interleaved hook m (es ++ [.ofDecision m₁.cpu.decision]) m₂

variable {m m' : Machine β}

theorem step_eq_next (h : m.cpu.Ready) (early : m.cpu.now.reached m.cpu.horizon = false) :
    m.step = m.next := by
  simp only [step, h.decision early, move, next, h.step_eq_next early]

theorem step_eq_nextAfterEI (window : m.cpu.regs.eiMode = true) : m.step = m.nextAfterEI := by
  have hd : m.cpu.decision = .afterEI := by simp [Cpu.decision, window]
  simp only [step, hd, move, nextAfterEI, Cpu.step_of_afterEI window]

theorem step_eq_acknowledge (awake : m.cpu.regs.halt = false)
    (settled : m.cpu.regs.eiMode = false) (eligible : m.cpu.eligible = true) :
    m.step = m.acknowledge := by
  have hd : m.cpu.decision = .acknowledge := by
    simp [Cpu.decision, awake, settled, eligible]
  simp only [step, hd, move, report, acknowledge, Cpu.step_of_eligible awake settled eligible]

variable {hook : Machine β → Machine β} {p q : Phase} {e : Event} {es : List Event}

theorem step_of_turned (ready : m.cpu.Ready) (h : Turned hook p m (some e) q m')
    (he : e ≠ .hook) : m.step = some m' ∧ e = .ofDecision m.cpu.decision := by
  cases h with
  | hook => contradiction
  | instruction running early next =>
    rw [step_eq_next ready early, ready.decision early]
    exact ⟨next, rfl⟩
  | afterEI running awake window next =>
    rw [step_eq_nextAfterEI window]
    exact ⟨next, by simp [Cpu.decision, window, Event.ofDecision]⟩
  | acknowledge running awake settled eligible next =>
    rw [step_eq_acknowledge awake settled eligible]
    exact ⟨next, by simp [Cpu.decision, awake, settled, eligible, Event.ofDecision]⟩

theorem step_of_endless (ready : m.cpu.Ready) (h : turn hook p m = .endless) :
    m.step = none := by
  rcases turn_eq_endless h with ⟨-, early, next⟩ | ⟨-, -, window, next⟩ |
    ⟨-, awake, settled, eligible, next⟩
  · rw [step_eq_next ready early, next]
  · rw [step_eq_nextAfterEI window, next]
  · rw [step_eq_acknowledge awake settled eligible, next]

theorem eq_of_turned_none (h : Turned hook p m none q m') : m' = m := by
  cases h <;> rfl

theorem interleaved_of_turns {p₀ : Phase}
    (ready : ∀ es p m', Turns hook p₀ m es p m' → m'.cpu.Ready)
    (run : Turns hook p₀ m es p m') : Interleaved hook m es m' := by
  induction run with
  | start => exact .start
  | @turn es q m₁ e r m₂ before last ih =>
    have h := turned_of_turn last
    cases e with
    | none =>
      rw [eq_of_turned_none h]
      simpa using ih
    | some e =>
      by_cases he : e = .hook
      · subst he
        cases h
        exact ih.hook
      · obtain ⟨hs, rfl⟩ := step_of_turned (ready _ _ _ before) h he
        exact ih.step hs

/-- Every move that the loop makes is the step from the same machine, and is made for the
same reason; so a run is steps and hook calls in turn, and its end what they lead to. -/
theorem execute_refines_step (operates : Operates hook) (fresh : m.cpu.Fresh)
    (exclusive : ∀ es p m₁, Turns hook .check m es p m₁ →
      ¬(m₁.cpu.regs.halt = true ∧ m₁.cpu.regs.eiMode = true)) :
    (∀ es p m₁ e q m₂, Turns hook .check m es p m₁ → turn hook p m₁ = .go (some e) q m₂ →
      e ≠ .hook → m₁.step = some m₂ ∧ e = .ofDecision m₁.cpu.decision) ∧
    (∀ es p m₁, Turns hook .check m es p m₁ → turn hook p m₁ = .endless → m₁.step = none) ∧
    (∀ es p m₁, Turns hook .check m es p m₁ → Interleaved hook m es m₁) ∧
    ∀ fuel m₁, execute hook fuel m = .stopped m₁ → ∃ es, Interleaved hook m es m₁ := by
  have ready : ∀ es p m₁, Turns hook .check m es p m₁ → m₁.cpu.Ready := fun es p m₁ run =>
    ⟨fresh_of_turns operates.fresh run fresh, exclusive es p m₁ run⟩
  refine ⟨fun es p m₁ e q m₂ run last he => ?_, fun es p m₁ run last => ?_,
    fun es p m₁ run => interleaved_of_turns ready run, fun fuel m₁ ended => ?_⟩
  · exact step_of_turned (ready es p m₁ run) (turned_of_turn last) he
  · exact step_of_endless (ready es p m₁ run) last
  · obtain ⟨es, run, -⟩ := turns_of_loop ended
    exact ⟨es, interleaved_of_turns ready run⟩

theorem execute_refines_step_requested :
    ∃ m es, execute latchAndStop 16 requested = .stopped m ∧ m.cpu.regs.pc = 0x39 ∧
      Interleaved latchAndStop requested es m := by
  have operates : Operates latchAndStop := fun m => ⟨[.setNmi, .stop], by
    simp only [latchAndStop, control_cpu, List.foldl_cons, List.foldl_nil]⟩
  have exclusive : passesAlong (fun m => !(m.cpu.regs.halt && m.cpu.regs.eiMode))
      latchAndStop 16 .check requested = true := by decide +kernel
  have served : (match execute latchAndStop 16 requested with
      | .stopped m => m.cpu.regs.pc == 0x39
      | _ => false) = true := by decide +kernel
  split at served
  next m ended =>
    obtain ⟨-, -, -, ends⟩ := execute_refines_step operates (Cpu.fresh_refresh _)
      fun es p m₁ run ⟨halted, window⟩ => by
        simpa [halted, window] using run.passes exclusive
    obtain ⟨es, h⟩ := ends 16 m ended
    exact ⟨m, es, ended, by simpa using served, h⟩
  next => exact absurd served Bool.false_ne_true

end Machine

end Z80
