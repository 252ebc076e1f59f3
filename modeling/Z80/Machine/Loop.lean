import Z80.Machine

/-! The run loop. It is given as single turns, each of which does at most one thing, so
that a run is a sequence of events that can be compared with steps of the processor. The
surroundings are called through `hook`, which may change processor and bus alike. -/
namespace Z80.Machine

variable {β : Type} [Bus β]

inductive Phase where
  | check
  | fast
  | decide
  deriving DecidableEq

inductive Event where
  | hook | instruction | acknowledge
  deriving DecidableEq

inductive Turn (β : Type) where
  | go (event : Option Event) (phase : Phase) (m : Machine β)
  | stopped (m : Machine β)
  /-- No instruction can be found. -/
  | endless

def Turn.ofMove (event : Event) (phase : Phase) : Option (Machine β) → Turn β
  | some m => .go event phase m
  | none => .endless

def turn (hook : Machine β → Machine β) (phase : Phase) (m : Machine β) : Turn β :=
  match phase with
  | .check =>
    if m.cpu.stopped then .stopped m
    else if m.cpu.now.reached m.cpu.timeout then .go (some .hook) .fast (hook m)
    else .go none .fast m
  | .fast =>
    if m.cpu.stopped || m.cpu.now.reached m.cpu.horizon then .go none .decide m
    else .ofMove .instruction .fast m.next
  | .decide =>
    if m.cpu.stopped || m.cpu.regs.halt then .go none .check m
    else if m.cpu.regs.eiMode then .ofMove .instruction .check m.nextAfterEI
    else if m.cpu.eligible then .ofMove .acknowledge .check m.acknowledge
    else .go none .check m

inductive Outcome (β : Type) where
  | stopped (m : Machine β)
  | endless
  | outOfFuel

/-- The loop from any of its phases, for at most `fuel` turns. -/
def loop (hook : Machine β → Machine β) : (fuel : Nat) → Phase → Machine β → Outcome β
  | 0, _, _ => .outOfFuel
  | fuel + 1, phase, m =>
    match turn hook phase m with
    | .go _ phase m => loop hook fuel phase m
    | .stopped m => .stopped m
    | .endless => .endless

theorem loop_add (hook : Machine β → Machine β) {n : Nat} {phase : Phase} {m : Machine β}
    (h : loop hook n phase m ≠ .outOfFuel) (k : Nat) :
    loop hook (n + k) phase m = loop hook n phase m := by
  induction n generalizing phase m with
  | zero => exact absurd rfl h
  | succ n ih =>
    rw [Nat.add_right_comm]
    cases ht : turn hook phase m with
    | go event next m => simpa only [loop, ht] using ih (by simpa only [loop, ht] using h)
    | stopped m => simp only [loop, ht]
    | endless => simp only [loop, ht]

def execute (hook : Machine β → Machine β) (fuel : Nat) (m : Machine β) : Outcome β :=
  loop hook fuel .check m

end Z80.Machine
