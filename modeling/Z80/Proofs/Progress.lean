import Z80.Proofs.Interleaving

/-! Progress of the run loop. A pass through the outer loop that makes no event leaves the
machine as it was, so the next pass makes none either. It takes a horizon that was reached
ahead of the timeout with nothing to decide, which no operation leaves behind; a write to
the registers does, since it draws no horizon. -/
namespace Z80

variable {β : Type}

namespace Cpu

def Pending (c : Cpu) : Prop :=
  c.regs.halt = false ∧ (c.regs.eiMode = true ∨ c.eligible = true)

/-- The timeout lies ahead and the horizon behind, and there is nothing to decide. -/
structure Stuck (c : Cpu) : Prop where
  early : c.now.reached c.timeout = false
  passed : c.now.reached c.horizon = true
  calm : ¬c.Pending

def edit (c : Cpu) (halt iff1 eiMode : Bool) : Cpu :=
  { c with regs := { c.regs with halt, iff1, eiMode } }

variable {c : Cpu}

theorem not_pending_iff : ¬c.Pending ↔
    c.regs.halt = true ∨ c.regs.eiMode = false ∧ c.eligible = false := by
  unfold Pending
  cases c.regs.halt <;> simp

theorem Fresh.horizon_of_pending (fresh : c.Fresh) (pending : c.Pending) :
    c.horizon = c.now := by
  obtain ⟨awake, ask⟩ := pending
  rw [fresh_iff.mp fresh, due, awake]
  rcases ask with h | h <;> simp [h]

theorem Fresh.not_stuck (fresh : c.Fresh) : ¬c.Stuck := by
  rintro ⟨early, passed, calm⟩
  rw [fresh_iff.mp fresh, due_of_calm (not_pending_iff.mp calm), early] at passed
  contradiction

/-- A write to the registers does harm where it takes away all that there was to decide. -/
theorem Fresh.stuck_edit_iff (fresh : c.Fresh) (halt iff1 eiMode : Bool) :
    (c.edit halt iff1 eiMode).Stuck ↔
      c.now.reached c.timeout = false ∧ c.Pending ∧ ¬(c.edit halt iff1 eiMode).Pending := by
  constructor
  · rintro ⟨early, passed, calm⟩
    by_cases pending : c.Pending
    · exact ⟨early, pending, calm⟩
    · exact absurd ⟨early, passed, pending⟩ fresh.not_stuck
  · rintro ⟨early, pending, calm⟩
    refine ⟨early, ?_, calm⟩
    change c.now.reached c.horizon = true
    rw [fresh.horizon_of_pending pending, Ticks.reached_self]

end Cpu

namespace Machine

variable [Bus β] {hook : Machine β → Machine β} {m m' : Machine β}

/-- The turns of one pass through the outer loop. It is over when it is back at the check. -/
inductive Pass (hook : Machine β → Machine β) (m : Machine β) :
    List Event → Phase → Machine β → Prop
  | head {e p m₁} (first : turn hook .check m = .go e p m₁) : Pass hook m e.toList p m₁
  | turn {es p m₁ e q m₂} (before : Pass hook m es p m₁) (inside : p ≠ .check)
      (last : turn hook p m₁ = .go e q m₂) : Pass hook m (es ++ e.toList) q m₂

def Quiet (c : Cpu) : Phase → Prop
  | .fast => c.now.reached c.timeout = false
  | .decide => c.now.reached c.timeout = false ∧ c.now.reached c.horizon = true
  | .check => c.Stuck

theorem Pass.quiet {es : List Event} {p : Phase} (running : m.cpu.stopped = false)
    (pass : Pass hook m es p m') (silent : es = []) : m' = m ∧ Quiet m.cpu p := by
  induction pass with
  | head first =>
    obtain rfl := Option.toList_eq_nil_iff.mp silent
    cases turned_of_turn first with
    | early _ early => exact ⟨rfl, early⟩
  | turn _ inside last ih =>
    obtain ⟨before_silent, last_silent⟩ := List.append_eq_nil_iff.mp silent
    obtain rfl := Option.toList_eq_nil_iff.mp last_silent
    obtain ⟨rfl, quiet⟩ := ih before_silent
    cases turned_of_turn last with
    | early => contradiction
    | leave h => exact ⟨rfl, quiet, h.resolve_left (by simp [running])⟩
    | idle h =>
      have calm := Cpu.not_pending_iff.mpr (h.resolve_left (by simp [running]))
      exact ⟨rfl, quiet.1, quiet.2, calm⟩

def Phase.next : Phase → Phase
  | check => fast
  | fast => decide
  | decide => check

theorem turn_of_calm (passed : m.cpu.now.reached m.cpu.horizon = true) (calm : ¬m.cpu.Pending)
    {p : Phase} (inside : p ≠ .check) : turn hook p m = .go none p.next m := by
  cases p with
  | check => contradiction
  | fast => simp [turn, passed, Phase.next]
  | decide =>
    rcases Cpu.not_pending_iff.mp calm with asleep | ⟨settled, calm⟩
    · simp [turn, asleep, Phase.next]
    · simp [turn, settled, calm, Phase.next]

theorem turn_of_ahead (running : m.cpu.stopped = false)
    (ahead : m.cpu.now.reached m.cpu.horizon = false) :
    turn hook .fast m = .ofMove .instruction .fast m.next := by
  simp [turn, running, ahead]

theorem turn_of_pending (running : m.cpu.stopped = false) (pending : m.cpu.Pending) :
    ∃ event moved, event ≠ .hook ∧ turn hook .decide m = .ofMove event .check moved := by
  obtain ⟨awake, ask⟩ := pending
  cases window : m.cpu.regs.eiMode with
  | true =>
    exact ⟨.instruction, m.nextAfterEI, by simp, by simp [turn, running, awake, window]⟩
  | false =>
    have eligible : m.cpu.eligible = true := ask.resolve_left (by simp [window])
    exact ⟨.acknowledge, m.acknowledge, by simp, by
      simp [turn, running, awake, window, eligible]⟩

theorem turn_of_stuck (stuck : m.cpu.Stuck) (running : m.cpu.stopped = false) (p : Phase) :
    turn hook p m = .go none p.next m := by
  by_cases h : p = .check
  · subst h
    simp [turn, running, stuck.early, Phase.next]
  · exact turn_of_calm stuck.passed stuck.calm h

theorem pass_of_stuck (stuck : m.cpu.Stuck) (running : m.cpu.stopped = false) :
    Pass hook m [] .check m :=
  have inner : Pass hook m [] .fast m := .head (turn_of_stuck stuck running .check)
  have outer : Pass hook m [] .decide m :=
    inner.turn (by simp) (turn_of_stuck stuck running .fast)
  outer.turn (by simp) (turn_of_stuck stuck running .decide)

theorem silent_of_stuck {es : List Event} {p q : Phase} (stuck : m.cpu.Stuck)
    (running : m.cpu.stopped = false) (run : Turns hook p m es q m') : es = [] ∧ m' = m := by
  apply run.silent
  intro r e s m₁ ht
  cases (turn_of_stuck stuck running r).symm.trans ht
  exact ⟨rfl, rfl⟩

theorem loop_of_stuck (stuck : m.cpu.Stuck) (running : m.cpu.stopped = false) (n : Nat)
    (p : Phase) : loop hook n p m = .outOfFuel := by
  induction n generalizing p with
  | zero => rfl
  | succ n ih => simp only [loop, turn_of_stuck stuck running, ih]

/-- The pass has made an event, or has come upon an instruction without an end. -/
def Active (hook : Machine β → Machine β) (m : Machine β) : Prop :=
  ∃ es p m', Pass hook m es p m' ∧ (es ≠ [] ∨ turn hook p m' = .endless)

theorem active_of_move {es : List Event} {p q : Phase} {event : Event}
    {moved : Option (Machine β)} (before : Pass hook m es p m') (inside : p ≠ .check)
    (h : turn hook p m' = .ofMove event q moved) : Active hook m := by
  cases moved with
  | none => exact ⟨es, p, m', before, .inr h⟩
  | some m₂ => exact ⟨_, q, m₂, before.turn inside h, .inl (by simp)⟩

theorem active_of_not_stuck (running : m.cpu.stopped = false) (free : ¬m.cpu.Stuck) :
    Active hook m := by
  cases due : m.cpu.now.reached m.cpu.timeout with
  | true => exact ⟨_, _, _, .head (turn_hook running due), .inl (by simp)⟩
  | false =>
    have first : turn hook .check m = .go none .fast m := by simp [turn, running, due]
    have inner := Pass.head first
    -- ahead of the horizon the inner loop runs an instruction, behind it there is a decision
    cases passed : m.cpu.now.reached m.cpu.horizon with
    | false => exact active_of_move inner (by simp) (turn_of_ahead running passed)
    | true =>
      have left : turn hook .fast m = .go none .decide m := by simp [turn, passed]
      have outer := inner.turn (by simp) left
      have pending : m.cpu.Pending := Classical.byContradiction fun calm =>
        free ⟨due, passed, calm⟩
      obtain ⟨event, moved, -, decided⟩ := @turn_of_pending _ _ hook m running pending
      exact active_of_move outer (by simp) decided

/-- From a running machine every pass makes an event, unless the machine is stuck; then the
loop spins for ever with the machine as it is. The operations lead to no such machine. A write
to the registers leads to one exactly if it takes away all that there was to decide while the
timeout lies ahead. -/
theorem pass_makes_event (running : m.cpu.stopped = false) :
    (¬m.cpu.Stuck → Active hook m ∧ ∀ es m', Pass hook m es .check m' → es ≠ []) ∧
    (m.cpu.Stuck → (∀ es p m', Turns hook .check m es p m' → es = [] ∧ m' = m) ∧
      ∀ fuel, execute hook fuel m = .outOfFuel) ∧
    (∀ t bus, Reaches { cpu := .ofTiming t, bus } m → ¬m.cpu.Stuck) ∧
    (m.cpu.Fresh → ∀ halt iff1 eiMode, (m.cpu.edit halt iff1 eiMode).Stuck ↔
      m.cpu.now.reached m.cpu.timeout = false ∧ m.cpu.Pending ∧
        ¬(m.cpu.edit halt iff1 eiMode).Pending) := by
  refine ⟨fun free => ⟨active_of_not_stuck running free, ?_⟩, fun stuck => ⟨?_, ?_⟩, ?_, ?_⟩
  · intro es m' pass silent
    exact free (pass.quiet running silent).2
  · intro es p m' run
    exact silent_of_stuck stuck running run
  · intro fuel
    exact loop_of_stuck stuck running fuel .check
  · intro t bus reached
    exact (fresh_of_reaches reached (Cpu.fresh_refresh _)).not_stuck
  · intro fresh halt iff1 eiMode
    exact fresh.stuck_edit_iff halt iff1 eiMode

theorem pass_makes_event_requested :
    ¬requested.cpu.Stuck ∧ Active latchAndStop requested := by
  obtain ⟨active, -, operated, -⟩ :=
    @pass_makes_event _ _ latchAndStop requested rfl
  have free : ¬requested.cpu.Stuck :=
    operated .z80 requested.bus ((Reaches.start.control .setInt).control (.setTimeout 24))
  exact ⟨free, (active free).1⟩

/-- What the surroundings can bring a machine to if between their calls they also write to
its registers. -/
inductive Edited (m : Machine β) : Machine β → Prop
  | reaches {m₁} (run : Reaches m m₁) : Edited m m₁
  | edit {m₁ m₂} (before : Edited m m₁) (halt iff1 eiMode : Bool)
      (run : Reaches { m₁ with cpu := m₁.cpu.edit halt iff1 eiMode } m₂) : Edited m m₂

def enabling : Machine FlatBus :=
  { cpu := (Cpu.ofTiming .z80).control (.setTimeout 100)
    bus := FlatBus.empty.load 0 [0xFB] }

theorem edit_can_stick : ¬∀ m : Machine FlatBus,
    Edited { cpu := .ofTiming .z80, bus := enabling.bus } m → m.cpu.stopped = false →
      ∀ es m', Pass latchAndStop m es .check m' → es ≠ [] := by
  intro h
  have shut : enabling.step.any (fun m => !m.cpu.stopped && !m.cpu.now.reached m.cpu.timeout &&
      m.cpu.now.reached m.cpu.horizon && !m.cpu.regs.halt &&
      !(m.cpu.edit false true false).eligible) = true := by decide +kernel
  simp only [Option.any_eq_true, Bool.and_eq_true, Bool.not_eq_true'] at shut
  obtain ⟨m, hs, ⟨⟨⟨running, early⟩, passed⟩, awake⟩, calm⟩ := shut
  have reached : Reaches { cpu := .ofTiming .z80, bus := enabling.bus } m :=
    (Reaches.start.control (.setTimeout 100)).step hs
  have stuck : (m.cpu.edit false true false).Stuck :=
    ⟨early, passed, Cpu.not_pending_iff.mpr (.inr ⟨rfl, calm⟩)⟩
  exact h { m with cpu := m.cpu.edit false true false }
    (.edit (.reaches reached) false true false .start) running [] _
    (pass_of_stuck stuck running) rfl

end Machine

end Z80
