import Mathlib.Logic.Function.Iterate
import Z80.Proofs.Progress
import Z80.Proofs.Scheduling

/-! Hooks that leave an overdue timeout as it is. The loop calls such a hook again after each
instruction only as long as there is something to decide. Otherwise the horizon is the timeout
itself, the inner loop has nothing to run before it, and the next call follows at once. -/
namespace Z80

variable {β : Type}

namespace Cpu

def Busy (c : Cpu) : Prop := c.now.reached c.horizon = false ∨ c.Pending

/-- The timeout is overdue, and there is nothing to run before it is looked at again. -/
structure Starved (c : Cpu) : Prop where
  running : c.stopped = false
  overdue : c.now.reached c.timeout = true
  idle : ¬c.Busy

variable {c : Cpu}

theorem passed_of_idle (idle : ¬c.Busy) : c.now.reached c.horizon = true :=
  eq_true_of_ne_false fun ahead => idle (.inl ahead)

theorem calm_of_idle (idle : ¬c.Busy) : ¬c.Pending := fun pending => idle (.inr pending)

theorem starved_or_stuck (running : c.stopped = false) (idle : ¬c.Busy) :
    c.Starved ∨ c.Stuck := by
  cases due : c.now.reached c.timeout with
  | true => exact .inl ⟨running, due, idle⟩
  | false => exact .inr ⟨due, passed_of_idle idle, calm_of_idle idle⟩

theorem Fresh.busy_iff (fresh : c.Fresh) (overdue : c.now.reached c.timeout = true) :
    c.Busy ↔ c.Pending := by
  refine ⟨fun busy => busy.resolve_left fun ahead => ?_, .inr⟩
  rw [fresh.before_timeout ahead] at overdue
  contradiction

end Cpu

namespace Machine

variable [Bus β] {hook : Machine β → Machine β} {m m' m₁ : Machine β} {p q : Phase}
  {e : Event} {es : List Event}

/-- From here the first event is an instruction or an acknowledge, and there is one, unless
the loop comes upon an instruction without an end. -/
def Works (hook : Machine β → Machine β) (p : Phase) (m : Machine β) : Prop :=
  (∀ es q m', ¬Turns hook p m (.hook :: es) q m') ∧
    ∃ es q m', Turns hook p m es q m' ∧ (es ≠ [] ∨ turn hook q m' = .endless)

theorem works_of_move {event : Event} {moved : Option (Machine β)}
    (h : turn hook p m = .ofMove event q moved) (he : event ≠ .hook) : Works hook p m := by
  cases moved with
  | none =>
    exact ⟨fun es r m' run => List.cons_ne_nil _ _ (run.nil_of_endless h), [], p, m, .start, .inr h⟩
  | some m₁ =>
    exact ⟨fun es r m' run => he (run.first h).1.symm, [event], q, m₁, .turn .start h,
      .inl (by simp)⟩

theorem works_of_silent (silent : turn hook p m = .go none q m₁) (works : Works hook q m₁) :
    Works hook p m := by
  obtain ⟨first, es, r, m', run, made⟩ := works
  exact ⟨fun es r m' run => first es r m' (run.skip silent), es, r, m', run.cons silent, made⟩

theorem works_of_busy (running : m.cpu.stopped = false) (busy : m.cpu.Busy) :
    Works hook .fast m := by
  cases passed : m.cpu.now.reached m.cpu.horizon with
  | false => exact works_of_move (turn_of_ahead running passed) (by simp)
  | true =>
    have pending : m.cpu.Pending := busy.resolve_left (by simp [passed])
    obtain ⟨event, moved, he, decided⟩ := @turn_of_pending _ _ hook m running pending
    have left : turn hook .fast m = .go none .decide m := by simp [turn, passed]
    exact works_of_silent left (works_of_move decided he)

theorem turn_of_idle (idle : ¬m.cpu.Busy) (inside : p ≠ .check) :
    turn hook p m = .go none p.next m :=
  turn_of_calm (Cpu.passed_of_idle idle) (Cpu.calm_of_idle idle) inside

theorem hook_of_starved (starved : m.cpu.Starved) :
    Turns hook .fast m [.hook] .fast (hook m) := by
  have left : turn hook .fast m = .go none .decide m := turn_of_idle starved.idle (by simp)
  have back : turn hook .decide m = .go none .check m := turn_of_idle starved.idle (by simp)
  exact ((Turns.start.turn left).turn back).turn (turn_hook starved.running starved.overdue)

theorem busy_of_works (running : m.cpu.stopped = false) (works : Works hook .fast m) :
    m.cpu.Busy := by
  by_contra idle
  obtain ⟨first, es, q, m', run, made⟩ := works
  rcases Cpu.starved_or_stuck running idle with starved | stuck
  · exact first _ _ _ (hook_of_starved starved)
  · obtain ⟨rfl, rfl⟩ := silent_of_stuck stuck running run
    simp [turn_of_stuck stuck running] at made

theorem starved_of_hook (running : m.cpu.stopped = false)
    (again : Turns hook .fast m (.hook :: es) q m') : m.cpu.Starved := by
  have idle : ¬m.cpu.Busy := fun busy => (works_of_busy running busy).1 _ _ _ again
  refine (Cpu.starved_or_stuck running idle).resolve_right fun stuck => ?_
  exact List.cons_ne_nil _ _ (silent_of_stuck stuck running again).1

theorem only_hooks (keeps : ∀ x : Machine β, x.cpu.Starved → (hook x).cpu.Starved)
    (starved : m.cpu.Starved) (run : Turns hook p m es q m') :
    m'.cpu.Starved ∧ ∃ n, es = List.replicate n .hook ∧ m' = hook^[n] m := by
  induction run with
  | start => exact ⟨starved, 0, rfl, rfl⟩
  | @turn es q m₁ e r m₂ before last ih =>
    obtain ⟨starved₁, n, rfl, rfl⟩ := ih
    by_cases inside : q = .check
    · subst inside
      cases (turn_hook starved₁.running starved₁.overdue).symm.trans last
      exact ⟨keeps _ starved₁, n + 1, List.replicate_succ'.symm,
        (Function.iterate_succ_apply' hook n m).symm⟩
    · cases (turn_of_idle starved₁.idle inside).symm.trans last
      exact ⟨starved₁, n, by simp, rfl⟩

theorem loop_of_starved (keeps : ∀ x : Machine β, x.cpu.Starved → (hook x).cpu.Starved)
    (starved : m.cpu.Starved) (n : Nat) (p : Phase) : loop hook n p m = .outOfFuel := by
  induction n generalizing p m with
  | zero => rfl
  | succ n ih =>
    by_cases inside : p = .check
    · subst inside
      simp only [loop, turn_hook starved.running starved.overdue, ih (keeps m starved)]
    · simp only [loop, turn_of_idle starved.idle inside, ih starved]

theorem eq_of_silent (run : Turns hook p m es q m₁) (silent : es = []) : m₁ = m := by
  induction run with
  | start => rfl
  | turn _ last ih =>
    obtain ⟨before, none⟩ := List.append_eq_nil_iff.mp silent
    obtain rfl := Option.toList_eq_nil_iff.mp none
    rw [eq_of_turned_none (turned_of_turn last), ih before]

theorem hook_after_one (fresh : m.cpu.Fresh) (running : m.cpu.stopped = false)
    (overdue : m.cpu.now.reached m.cpu.timeout = true) (pending : m.cpu.Pending)
    (run : Turns hook .fast m [e] q m₁)
    (near : (m.cpu.now.since m.cpu.timeout).toNat + (m₁.cpu.now.since m.cpu.now).toNat
      < 0x80000000) :
    Turns hook .fast m [e, .hook] .fast (hook m₁) := by
  have passed : m.cpu.now.reached m.cpu.horizon = true := by
    rw [fresh.horizon_of_pending pending, Ticks.reached_self]
  have left : turn hook .fast m = .go none .decide m := by simp [turn, passed]
  obtain ⟨event, moved, he, decided⟩ := @turn_of_pending _ _ hook m running pending
  cases moved with
  | none => exact absurd ((run.skip left).nil_of_endless decided) (List.cons_ne_nil _ _)
  | some m₂ =>
    obtain ⟨rfl, rest⟩ := (run.skip left).first decided
    obtain rfl := eq_of_silent rest rfl
    have same := (sameSchedule_of_overdue fresh (turned_of_turn decided) he overdue).2.2
    have still : m₁.cpu.now.reached m₁.cpu.timeout = true := by
      rw [same.1]
      exact Ticks.reached_of_late near
    exact ((Turns.start.turn left).turn decided).turn (turn_hook (same.2.trans running) still)

/-- After a call of the hook that does not ask for a stop, the loop runs an instruction or an
acknowledge first exactly if the hook has left it busy, and calls the hook again at once exactly
if it has left it starved. If the hook has left timeout and clock as they were it is always one
of the two; with a fresh horizon it is busy only if something is pending, and then there is one
event between two calls. Where the hook keeps a machine starved nothing but calls ever follows. -/
theorem hook_recurs_unless_busy (called : turn hook .check m = .go (some .hook) .fast m₁)
    (running : m₁.cpu.stopped = false) :
    (Works hook .fast m₁ ↔ m₁.cpu.Busy) ∧
    (Turns hook .fast m₁ [.hook] .fast (hook m₁) ↔ m₁.cpu.Starved) ∧
    (m₁.cpu.timeout = m.cpu.timeout → m₁.cpu.now = m.cpu.now →
      (m₁.cpu.Starved ↔ ¬m₁.cpu.Busy) ∧
      (m₁.cpu.Fresh → (m₁.cpu.Busy ↔ m₁.cpu.Pending) ∧
        (m₁.cpu.Pending → ∀ e q m₂, Turns hook .fast m₁ [e] q m₂ →
          (m₁.cpu.now.since m₁.cpu.timeout).toNat + (m₂.cpu.now.since m₁.cpu.now).toNat
            < 0x80000000 →
          e ≠ .hook ∧ Turns hook .fast m₁ [e, .hook] .fast (hook m₂)))) ∧
    ((∀ x : Machine β, x.cpu.Starved → (hook x).cpu.Starved) → m₁.cpu.Starved →
      (∀ es q m₂, Turns hook .fast m₁ es q m₂ →
        ∃ n, es = List.replicate n .hook ∧ m₂ = hook^[n] m₁) ∧
      ∀ fuel, loop hook fuel .fast m₁ = .outOfFuel) := by
  have works (busy : m₁.cpu.Busy) : Works hook .fast m₁ := works_of_busy running busy
  refine ⟨⟨busy_of_works running, works⟩, ⟨starved_of_hook running, hook_of_starved⟩,
    fun kept clock => ?_, fun keeps starved => ?_⟩
  · have overdue : m₁.cpu.now.reached m₁.cpu.timeout = true := by
      rw [kept, clock]
      exact (hook_of_turned (turned_of_turn called)).1
    refine ⟨⟨fun starved => starved.idle, fun idle => ⟨running, overdue, idle⟩⟩, fun fresh => ?_⟩
    refine ⟨fresh.busy_iff overdue, fun pending e q m₂ run near => ⟨?_, ?_⟩⟩
    · rintro rfl
      exact (works (.inr pending)).1 _ _ _ run
    · exact hook_after_one fresh running overdue pending run near
  · exact ⟨fun es q m₂ run => (only_hooks keeps starved run).2,
      fun fuel => loop_of_starved keeps starved fuel .fast⟩

def waiting : Machine FlatBus := { cpu := .ofTiming .z80, bus := .empty }

theorem waiting_starved : waiting.cpu.Starved := by
  refine ⟨rfl, rfl, ?_⟩
  unfold Cpu.Busy Cpu.Pending
  decide

def latch (m : Machine FlatBus) : Machine FlatBus := m.control .setNmi

theorem hook_recurs_unless_busy_waiting :
    (∀ fuel, loop id fuel .fast waiting = .outOfFuel) ∧ Works latch .fast (latch waiting) ∧
      ∃ m, Turns latch .fast (latch waiting) [.acknowledge, .hook] .fast (latch m) := by
  obtain ⟨-, -, -, alone⟩ := @hook_recurs_unless_busy _ _ id waiting waiting rfl rfl
  obtain ⟨works, -, lazy, -⟩ :=
    @hook_recurs_unless_busy _ _ latch waiting (latch waiting) rfl rfl
  have pending : (latch waiting).cpu.Pending := ⟨rfl, .inr rfl⟩
  have served : (latch waiting).acknowledge.any (fun m => decide
      (((latch waiting).cpu.now.since (latch waiting).cpu.timeout).toNat +
        (m.cpu.now.since (latch waiting).cpu.now).toNat < 0x80000000)) = true := by
    decide +kernel
  simp only [Option.any_eq_true, decide_eq_true_iff] at served
  obtain ⟨m, acknowledged, near⟩ := served
  have left : turn latch .fast (latch waiting) = .go none .decide (latch waiting) := rfl
  have made : turn latch .decide (latch waiting) = .go (some .acknowledge) .check m :=
    congrArg (Turn.ofMove .acknowledge .check) acknowledged
  have again := ((lazy rfl rfl).2 (Cpu.fresh_refresh _)).2 pending _ _ _
    ((Turns.start.turn left).turn made) near
  exact ⟨(alone (fun _ starved => starved) waiting_starved).2, works.mpr (.inr pending), m, again.2⟩

theorem lazy_hook_starves : ¬∀ (hook : Machine FlatBus → Machine FlatBus)
    (m m₁ : Machine FlatBus), turn hook .check m = .go (some .hook) .fast m₁ →
      m₁.cpu.timeout = m.cpu.timeout → m₁.cpu.stopped = false →
      ∀ es q m₂, ¬Turns hook .fast m₁ (.hook :: es) q m₂ := by
  intro h
  exact h id waiting waiting rfl rfl rfl [] .fast waiting (hook_of_starved waiting_starved)

end Machine

end Z80
