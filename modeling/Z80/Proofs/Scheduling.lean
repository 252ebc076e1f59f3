import Z80.Proofs.Effect
import Z80.Proofs.Interleaving

/-! When the hook is called. The inner loop never runs past the timeout, since a fresh
horizon is the timeout or lies no further than now. So what starts overdue is a decision
after the inner loop, and from there the loop goes straight to the check. -/
namespace Z80

variable {β : Type}

theorem Ticks.reached_of_since {now timeout : Ticks}
    (h : (Ticks.since now timeout).toNat < 0x80000000) : now.reached timeout = true := by
  have back : timeout - now = -(Ticks.since now timeout) := by
    unfold since
    grind
  unfold reached distance
  rw [back, decide_eq_true_iff, BitVec.toInt_eq_toNat_cond, BitVec.toNat_neg]
  split <;> omega

/-- Time that passes adds to what is overdue, as long as the order of stamps is not lost. -/
theorem Ticks.reached_of_late {now later timeout : Ticks}
    (h : (Ticks.since now timeout).toNat + (Ticks.since later now).toNat < 0x80000000) :
    later.reached timeout = true := by
  apply reached_of_since
  have split : Ticks.since later timeout = Ticks.since now timeout + Ticks.since later now := by
    unfold since
    grind
  rw [split, BitVec.toNat_add]
  omega

namespace Cpu

def SameSchedule (c d : Cpu) : Prop := d.timeout = c.timeout ∧ d.stopped = c.stopped

variable {c d : Cpu}

theorem Fresh.before_timeout (fresh : c.Fresh) (early : c.now.reached c.horizon = false) :
    c.now.reached c.timeout = false := by
  have ahead : c.horizon = c.timeout := (fresh_iff.mp fresh).trans (due_of_calm (fresh.calm early))
  rwa [ahead] at early

theorem sameSchedule_of_step [Bus β] {bus bus' : β} (h : c.step bus = some (d, bus')) :
    c.SameSchedule d := by
  obtain ⟨e, -, rfl, -⟩ := effect_of_step h
  exact ⟨rfl, rfl⟩

end Cpu

namespace Machine

variable [Bus β] {hook : Machine β → Machine β} {m m' : Machine β} {p q : Phase}
  {e : Event} {es : List Event}

/-- What starts overdue is made by a decision and not in the inner loop. -/
theorem sameSchedule_of_overdue (fresh : m.cpu.Fresh) (h : Turned hook p m (some e) q m')
    (he : e ≠ .hook) (overdue : m.cpu.now.reached m.cpu.timeout = true) :
    q = .check ∧ m.cpu.stopped = false ∧ m.cpu.SameSchedule m'.cpu := by
  cases h with
  | hook => contradiction
  | instruction _ early =>
    rw [fresh.before_timeout early] at overdue
    contradiction
  | afterEI running _ window next =>
    have step := (Cpu.step_of_afterEI window).trans (move_eq_some.mp next).1
    exact ⟨rfl, running, Cpu.sameSchedule_of_step step⟩
  | acknowledge running awake settled eligible next =>
    have step :=
      (Cpu.step_of_eligible awake settled eligible).trans (move_eq_some.mp next).1
    exact ⟨rfl, running, Cpu.sameSchedule_of_step step⟩

theorem hook_of_turned (h : Turned hook p m (some .hook) q m') :
    m.cpu.now.reached m.cpu.timeout = true ∧ m.cpu.stopped = false ∧ m' = hook m := by
  cases h with
  | hook running due => exact ⟨due, running, rfl⟩

theorem silent_of_stopped (stopped : m.cpu.stopped = true) (run : Turns hook p m es q m') :
    es = [] ∧ m' = m := by
  apply run.silent
  intro r e s m₁ ht
  cases turned_of_turn ht with
  | leave | idle => exact ⟨rfl, rfl⟩
  | hook running | early running | instruction running | afterEI running
  | acknowledge running => simp [stopped] at running

theorem loop_of_stopped (stopped : m.cpu.stopped = true) (p : Phase) :
    loop hook 3 p m = .stopped m := by
  cases p <;> simp [loop, turn, stopped]

/-- The hook is called only when the timeout has been reached. What starts when it has been
reached already is followed by the hook at once. A stop asked for in the hook ends the run with
the machine that the hook left, and one asked for before leaves everything as it was. -/
theorem hook_is_punctual (operates : Operates hook) (fresh : m.cpu.Fresh) :
    (∀ es p m₁ q m₂, Turns hook .check m es p m₁ → turn hook p m₁ = .go (some .hook) q m₂ →
      m₁.cpu.now.reached m₁.cpu.timeout = true ∧ m₂ = hook m₁) ∧
    (∀ es p m₁ e q m₂, Turns hook .check m es p m₁ → turn hook p m₁ = .go (some e) q m₂ →
      e ≠ .hook → m₁.cpu.now.reached m₁.cpu.timeout = true →
      (m₁.cpu.now.since m₁.cpu.timeout).toNat + (m₂.cpu.now.since m₁.cpu.now).toNat < 0x80000000 →
      turn hook q m₂ = .go (some .hook) .fast (hook m₂)) ∧
    (∀ es p m₁ q m₂, Turns hook .check m es p m₁ → turn hook p m₁ = .go (some .hook) q m₂ →
      m₂.cpu.stopped = true →
      (∀ es' r m₃, Turns hook q m₂ es' r m₃ → es' = [] ∧ m₃ = m₂) ∧
      ∃ n, ∀ k, execute hook (n + k) m = .stopped m₂) ∧
    (m.cpu.stopped = true →
      (∀ es p m₁, Turns hook .check m es p m₁ → es = [] ∧ m₁ = m) ∧
      ∀ n, execute hook (n + 1) m = .stopped m) := by
  refine ⟨?_, ?_, ?_, ?_⟩
  · intro es p m₁ q m₂ _ called
    obtain ⟨due, -, left⟩ := hook_of_turned (turned_of_turn called)
    exact ⟨due, left⟩
  · intro es p m₁ e q m₂ run made he overdue near
    have fresh₁ : m₁.cpu.Fresh := fresh_of_turns operates.fresh run fresh
    obtain ⟨rfl, running, same⟩ :=
      sameSchedule_of_overdue fresh₁ (turned_of_turn made) he overdue
    have still : m₂.cpu.now.reached m₂.cpu.timeout = true := by
      rw [same.1]
      exact Ticks.reached_of_late near
    exact turn_hook (same.2.trans running) still
  · intro es p m₁ q m₂ run called stopped
    refine ⟨fun es' r m₃ => silent_of_stopped stopped, ?_⟩
    obtain ⟨n, hn⟩ := (run.turn called).loop
    -- from any phase it is three turns at most to the check that ends the run
    refine ⟨n + 3, fun k => ?_⟩
    have ended : loop hook 3 q m₂ = .stopped m₂ := loop_of_stopped stopped q
    have more : loop hook (3 + k) q m₂ = loop hook 3 q m₂ := loop_add hook (by simp [ended]) k
    rw [execute, Nat.add_assoc, hn, more, ended]
  · intro stopped
    refine ⟨fun es p m₁ => silent_of_stopped stopped, fun n => ?_⟩
    simp [execute, loop, turn, stopped]

def hurried : Machine FlatBus := requested.control (.setTimeout 4)

theorem hook_is_punctual_hurried : ∃ m₁ m₂,
    turn latchAndStop .decide m₁ = .go (some .instruction) .check m₂ ∧
      m₁.cpu.now.reached m₁.cpu.timeout = true ∧
      turn latchAndStop .check m₂ = .go (some .hook) .fast (latchAndStop m₂) ∧
      ∃ n, ∀ k, execute latchAndStop (n + k) hurried = .stopped (latchAndStop m₂) := by
  have operates : Operates latchAndStop := fun m => ⟨[.setNmi, .stop], by
    simp only [latchAndStop, control_cpu, List.foldl_cons, List.foldl_nil]⟩
  have fresh : hurried.cpu.Fresh := Cpu.fresh_refresh _
  have late : hurried.next.any (fun m₁ => m₁.cpu.now.reached m₁.cpu.horizon &&
      m₁.cpu.now.reached m₁.cpu.timeout && !m₁.cpu.stopped && !m₁.cpu.regs.halt &&
      m₁.cpu.regs.eiMode && m₁.nextAfterEI.any (fun m₂ => decide
        ((m₁.cpu.now.since m₁.cpu.timeout).toNat + (m₂.cpu.now.since m₁.cpu.now).toNat
          < 0x80000000))) = true := by decide +kernel
  simp only [Option.any_eq_true, Bool.and_eq_true, Bool.not_eq_true', decide_eq_true_iff] at late
  obtain ⟨m₁, first, ⟨⟨⟨⟨passed, overdue⟩, running⟩, awake⟩, window⟩, m₂, second, near⟩ := late
  have began : turn latchAndStop .check hurried = .go none .fast hurried := rfl
  have enabled : turn latchAndStop .fast hurried = .go (some .instruction) .fast m₁ := by
    simp only [turn, first]
    rfl
  have left : turn latchAndStop .fast m₁ = .go none .decide m₁ := by simp [turn, passed]
  have made : turn latchAndStop .decide m₁ = .go (some .instruction) .check m₂ := by
    simp [turn, running, awake, window, second, Turn.ofMove]
  have run := ((Turns.start.turn began).turn enabled).turn left
  obtain ⟨-, punctual, ends, -⟩ := hook_is_punctual operates fresh
  have called := punctual _ _ _ _ _ _ run made (by simp) overdue near
  have stopped : (latchAndStop m₂).cpu.stopped = true := by
    simp only [latchAndStop, control_cpu, Cpu.control]
  exact ⟨m₁, m₂, made, overdue, called, (ends _ _ _ _ _ (run.turn made) called stopped).2⟩

end Machine

end Z80
