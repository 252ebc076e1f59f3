import Z80.Machine.Loop

/-! Runs of the loop as sequences of turns. What a single turn can do is said once, case
by case; a fact about runs then follows from those seven cases and one induction. -/
namespace Z80.Machine

variable {β : Type} [Bus β] {hook : Machine β → Machine β}

/-- The seven kinds of turns, each with what led to it. -/
inductive Turned (hook : Machine β → Machine β) :
    Phase → Machine β → Option Event → Phase → Machine β → Prop
  | hook {m} (running : m.cpu.stopped = false) (due : m.cpu.now.reached m.cpu.timeout = true) :
      Turned hook .check m (some .hook) .fast (hook m)
  | early {m} (running : m.cpu.stopped = false)
      (early : m.cpu.now.reached m.cpu.timeout = false) : Turned hook .check m none .fast m
  | instruction {m m'} (running : m.cpu.stopped = false)
      (early : m.cpu.now.reached m.cpu.horizon = false) (next : m.next = some m') :
      Turned hook .fast m (some .instruction) .fast m'
  | leave {m} (h : m.cpu.stopped = true ∨ m.cpu.now.reached m.cpu.horizon = true) :
      Turned hook .fast m none .decide m
  | afterEI {m m'} (running : m.cpu.stopped = false) (awake : m.cpu.regs.halt = false)
      (window : m.cpu.regs.eiMode = true) (next : m.nextAfterEI = some m') :
      Turned hook .decide m (some .instruction) .check m'
  | acknowledge {m m'} (running : m.cpu.stopped = false) (awake : m.cpu.regs.halt = false)
      (settled : m.cpu.regs.eiMode = false) (eligible : m.cpu.eligible = true)
      (next : m.acknowledge = some m') :
      Turned hook .decide m (some .acknowledge) .check m'
  | idle {m} (h : m.cpu.stopped = true ∨ m.cpu.regs.halt = true ∨
      m.cpu.regs.eiMode = false ∧ m.cpu.eligible = false) : Turned hook .decide m none .check m

omit [Bus β] in
theorem ofMove_eq_go {event : Event} {p q : Phase} {moved : Option (Machine β)} {m : Machine β}
    {e : Option Event} :
    Turn.ofMove event p moved = .go e q m ↔ some event = e ∧ p = q ∧ moved = some m := by
  cases moved <;> simp [Turn.ofMove]

omit [Bus β] in
theorem ofMove_eq_endless {event : Event} {p : Phase} {moved : Option (Machine β)} :
    Turn.ofMove event p moved = .endless ↔ moved = none := by
  cases moved <;> simp [Turn.ofMove]

theorem turned_of_turn {p q : Phase} {m m' : Machine β} {e : Option Event}
    (h : turn hook p m = .go e q m') : Turned hook p m e q m' := by
  cases p with
  | check =>
    simp only [turn] at h
    split at h
    next => contradiction
    next hs =>
      have running : m.cpu.stopped = false := by simpa using hs
      split at h
      next due => cases h; exact .hook running due
      next early => cases h; exact .early running (by simpa using early)
  | fast =>
    simp only [turn] at h
    split at h
    next hl => cases h; exact .leave (by simpa using hl)
    next hl =>
      rw [ofMove_eq_go] at h
      obtain ⟨rfl, rfl, next⟩ := h
      obtain ⟨running, early⟩ : m.cpu.stopped = false ∧ _ = false := by simpa using hl
      exact .instruction running early next
  | decide =>
    simp only [turn] at h
    split at h
    next hl =>
      cases h
      have resting : m.cpu.stopped = true ∨ m.cpu.regs.halt = true := by simpa using hl
      exact .idle (resting.imp_right .inl)
    next hl =>
      obtain ⟨running, awake⟩ : m.cpu.stopped = false ∧ m.cpu.regs.halt = false := by
        simpa using hl
      split at h
      next window =>
        rw [ofMove_eq_go] at h
        obtain ⟨rfl, rfl, next⟩ := h
        exact .afterEI running awake window next
      next hw =>
        have settled : m.cpu.regs.eiMode = false := by simpa using hw
        split at h
        next eligible =>
          rw [ofMove_eq_go] at h
          obtain ⟨rfl, rfl, next⟩ := h
          exact .acknowledge running awake settled eligible next
        next he =>
          cases h
          exact .idle (.inr (.inr ⟨settled, by simpa using he⟩))

theorem turn_eq_endless {p : Phase} {m : Machine β} (h : turn hook p m = .endless) :
    (p = .fast ∧ m.cpu.now.reached m.cpu.horizon = false ∧ m.next = none) ∨
      (p = .decide ∧ m.cpu.regs.halt = false ∧ m.cpu.regs.eiMode = true ∧
        m.nextAfterEI = none) ∨
      (p = .decide ∧ m.cpu.regs.halt = false ∧ m.cpu.regs.eiMode = false ∧
        m.cpu.eligible = true ∧ m.acknowledge = none) := by
  cases p with
  | check =>
    simp only [turn] at h
    split at h
    · contradiction
    · split at h <;> contradiction
  | fast =>
    simp only [turn] at h
    split at h
    next => contradiction
    next hl =>
      rw [ofMove_eq_endless] at h
      obtain ⟨-, early⟩ : m.cpu.stopped = false ∧ _ = false := by simpa using hl
      exact .inl ⟨rfl, early, h⟩
  | decide =>
    simp only [turn] at h
    split at h
    next => contradiction
    next hl =>
      obtain ⟨-, awake⟩ : m.cpu.stopped = false ∧ m.cpu.regs.halt = false := by simpa using hl
      split at h
      next window => exact .inr (.inl ⟨rfl, awake, window, ofMove_eq_endless.mp h⟩)
      next hw =>
        split at h
        next eligible =>
          exact .inr (.inr ⟨rfl, awake, by simpa using hw, eligible, ofMove_eq_endless.mp h⟩)
        next => contradiction

omit [Bus β] in
theorem ofMove_ne_stopped {event : Event} {p : Phase} {moved : Option (Machine β)}
    {m : Machine β} : Turn.ofMove event p moved ≠ .stopped m := by
  cases moved <;> simp [Turn.ofMove]

theorem turn_eq_stopped {p : Phase} {m m' : Machine β} (h : turn hook p m = .stopped m') :
    p = .check ∧ m = m' ∧ m.cpu.stopped = true := by
  cases p with
  | check =>
    simp only [turn] at h
    split at h
    next ended => cases h; exact ⟨rfl, rfl, ended⟩
    next => split at h <;> contradiction
  | fast =>
    simp only [turn] at h
    split at h
    · contradiction
    · exact absurd h ofMove_ne_stopped
  | decide =>
    simp only [turn] at h
    split at h
    · contradiction
    split at h
    · exact absurd h ofMove_ne_stopped
    split at h
    · exact absurd h ofMove_ne_stopped
    · contradiction

/-- From a phase and a machine, the events of some turns and where they lead. -/
inductive Turns (hook : Machine β → Machine β) :
    Phase → Machine β → List Event → Phase → Machine β → Prop
  | start {p m} : Turns hook p m [] p m
  | turn {p m es q m₁ e r m₂} (before : Turns hook p m es q m₁)
      (last : turn hook q m₁ = .go e r m₂) : Turns hook p m (es ++ e.toList) r m₂

theorem Turns.cons {p q r : Phase} {m m₁ m₂ : Machine β} {e : Option Event} {es : List Event}
    (first : Machine.turn hook p m = .go e q m₁) (rest : Turns hook q m₁ es r m₂) :
    Turns hook p m (e.toList ++ es) r m₂ := by
  induction rest with
  | start => simpa using Turns.start.turn first
  | turn _ last ih => simpa using ih.turn last

theorem Turns.uncons {p q : Phase} {m m' : Machine β} {es : List Event}
    (run : Turns hook p m es q m') :
    (es = [] ∧ q = p ∧ m' = m) ∨ ∃ e r m₁ rest, Machine.turn hook p m = .go e r m₁ ∧
      Turns hook r m₁ rest q m' ∧ es = e.toList ++ rest := by
  induction run with
  | start => exact .inl ⟨rfl, rfl, rfl⟩
  | turn _ last ih =>
    refine .inr ?_
    rcases ih with ⟨rfl, rfl, rfl⟩ | ⟨e, r, m₁, rest, first, run, rfl⟩
    · exact ⟨_, _, _, [], last, .start, by simp⟩
    · exact ⟨e, r, m₁, _, first, run.turn last, List.append_assoc ..⟩

theorem Turns.nil_of_endless {p q : Phase} {m m' : Machine β} {es : List Event}
    (h : Machine.turn hook p m = .endless) (run : Turns hook p m es q m') : es = [] := by
  rcases run.uncons with ⟨none, -⟩ | ⟨_, _, _, _, first, -⟩
  · exact none
  · cases h.symm.trans first

theorem Turns.skip {p q r : Phase} {m m₁ m₂ : Machine β} {e : Event} {es : List Event}
    (silent : Machine.turn hook p m = .go none q m₁) (run : Turns hook p m (e :: es) r m₂) :
    Turns hook q m₁ (e :: es) r m₂ := by
  rcases run.uncons with ⟨none, -⟩ | ⟨_, _, _, rest, first, onward, split⟩
  · contradiction
  · cases silent.symm.trans first
    rwa [split]

theorem Turns.first {p q r : Phase} {m m₁ m₂ : Machine β} {e e' : Event} {es : List Event}
    (made : Machine.turn hook p m = .go (some e) q m₁) (run : Turns hook p m (e' :: es) r m₂) :
    e' = e ∧ Turns hook q m₁ es r m₂ := by
  rcases run.uncons with ⟨none, -⟩ | ⟨_, _, _, rest, first, onward, split⟩
  · contradiction
  · cases made.symm.trans first
    cases split
    exact ⟨rfl, onward⟩

theorem Turns.silent {p q : Phase} {m m' : Machine β} {es : List Event}
    (still : ∀ r e s m₁, Machine.turn hook r m = .go e s m₁ → e = none ∧ m₁ = m)
    (run : Turns hook p m es q m') : es = [] ∧ m' = m := by
  induction run with
  | start => exact ⟨rfl, rfl⟩
  | turn _ last ih =>
    obtain ⟨rfl, rfl⟩ := ih
    obtain ⟨rfl, rfl⟩ := still _ _ _ _ last
    exact ⟨rfl, rfl⟩

theorem Turns.loop {p q : Phase} {m m' : Machine β} {es : List Event}
    (run : Turns hook p m es q m') :
    ∃ n, ∀ k, Machine.loop hook (n + k) p m = Machine.loop hook k q m' := by
  induction run with
  | start => exact ⟨0, fun k => by rw [Nat.zero_add]⟩
  | turn _ last ih =>
    obtain ⟨n, hn⟩ := ih
    refine ⟨n + 1, fun k => ?_⟩
    rw [Nat.add_assoc, hn, Nat.add_comm 1 k, Machine.loop, last]

theorem turn_hook {m : Machine β} (running : m.cpu.stopped = false)
    (due : m.cpu.now.reached m.cpu.timeout = true) :
    turn hook .check m = .go (some .hook) .fast (hook m) := by
  simp [turn, running, due]

/-- A run that ends is a sequence of turns up to the check that ends it. -/
theorem turns_of_loop {n : Nat} {p : Phase} {m m' : Machine β}
    (h : loop hook n p m = .stopped m') :
    ∃ es, Turns hook p m es .check m' ∧ m'.cpu.stopped = true := by
  induction n generalizing p m with
  | zero => contradiction
  | succ n ih =>
    unfold loop at h
    split at h
    next e q m₁ first =>
      obtain ⟨es, rest, ended⟩ := ih h
      exact ⟨_, rest.cons first, ended⟩
    next last =>
      cases h
      obtain ⟨rfl, rfl, ended⟩ := turn_eq_stopped last
      exact ⟨[], .start, ended⟩
    next => contradiction

def passesAlong (test : Machine β → Bool) (hook : Machine β → Machine β) :
    Nat → Phase → Machine β → Bool
  | 0, _, _ => false
  | n + 1, p, m => test m &&
    match turn hook p m with
    | .go _ q m₁ => passesAlong test hook n q m₁
    | _ => true

theorem Turns.passes {test : Machine β → Bool} {n : Nat} {p q : Phase} {m m' : Machine β}
    {es : List Event} (h : passesAlong test hook n p m = true) (run : Turns hook p m es q m') :
    test m' = true := by
  have onward : ∃ k, passesAlong test hook k q m' = true := by
    induction run with
    | start => exact ⟨n, h⟩
    | turn _ last ih =>
      obtain ⟨k, hk⟩ := ih
      cases k with
      | zero => contradiction
      | succ k => exact ⟨k, by simpa [passesAlong, last] using (Bool.and_eq_true_iff.mp hk).2⟩
  obtain ⟨k, hk⟩ := onward
  cases k with
  | zero => contradiction
  | succ k => exact (Bool.and_eq_true_iff.mp hk).1

end Z80.Machine
