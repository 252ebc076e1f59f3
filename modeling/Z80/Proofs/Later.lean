import Z80.Bus.Flat
import Z80.Bus.Recorded
import Z80.Proofs.Effect
import Z80.Proofs.Turns

/-! The same run at another time. The loop only asks how far one stamp lies from another, and an
instruction only adds to the clock; so a machine whose stamps are all put off by the same ticks
runs as before, also where the clock goes round on the way. -/
namespace Z80

variable {β : Type} (k : Ticks)

theorem Ticks.reached_later (now horizon : Ticks) :
    Ticks.reached (now + k) (horizon + k) = now.reached horizon := by
  unfold reached
  rw [distance_add]

def Message.later : Message → Message
  | reset t => reset (t + k)
  | stop t => stop (t + k)
  | x => x

namespace Cpu

def later (c : Cpu) : Cpu :=
  { c with now := c.now + k, timeout := c.timeout + k, horizon := c.horizon + k }

def Control.later : Control → Control
  | setTimeout t => setTimeout (t + k)
  | resetAt t => resetAt (t + k)
  | x => x

variable (c : Cpu) (bus : β)

theorem due_later : (c.later k).due = c.due + k := by
  change (if !c.regs.halt && (c.regs.eiMode || c.eligible) then _ else _) = _
  unfold due
  split <;> rfl

theorem refresh_later : (c.later k).refresh = c.refresh.later k := by
  unfold refresh
  rw [due_later]
  rfl

theorem control_later (x : Control) : (c.later k).control (x.later k) = (c.control x).later k := by
  cases x with
  | setInt => exact refresh_later k { c with pins := { c.pins with int := .low } }
  | clearInt => exact refresh_later k { c with pins := { c.pins with int := .high } }
  | clearNmi => exact refresh_later k { c with pins := { c.pins with nmi := .high } }
  | setTimeout t => exact refresh_later k { c with timeout := t }
  | resetAt t => exact refresh_later k { timing := c.timing, timeout := c.timeout, now := t }
  | setNmi =>
    by_cases high : c.pins.nmi = .high
    · rw [control_setNmi high]
      exact (control_setNmi (c := c.later k) high).trans
        (refresh_later k { c with pins := { c.pins with nmi := .edge } })
    · rw [control_setNmi_eq_self high]
      exact control_setNmi_eq_self (c := c.later k) high
  | setData v | setDataIdle v idle | stop => rfl

theorem settle_later (s : Core β) : (c.later k).settle s = (c.settle s).later k := by
  have apart (t : Ticks) : c.now + k + t = c.now + t + k := by grind
  simp only [settle, later, apart]

def laterOn (s : Cpu × β) : Cpu × β := (s.1.later k, s.2)

theorem refreshed_laterOn (moved : Option (Cpu × β)) :
    (moved.map (laterOn k)).map refreshed = (moved.map refreshed).map (laterOn k) := by
  cases moved with
  | none => rfl
  | some s => exact congrArg (fun c => some (c, s.2)) (refresh_later k s.1)

variable [Bus β]

theorem run_later {find : Exec β (Option Instr)} {live : Action (Clocked β) (Option Instr)}
    (same : ∀ c : Cpu, Exec.Follows c.clocked live find) :
    (c.later k).run bus live = (c.run bus live).map (laterOn k) := by
  have found_later : (c.later k).found bus find = c.found bus find := rfl
  cases hi : c.found bus find with
  | none =>
    rw [run_of_not_found (same _) hi, run_of_not_found (same _) (found_later.trans hi),
      Option.map_none]
  | some i =>
    rw [run_of_found (same _) hi, run_of_found (same _) (found_later.trans hi), settle_later,
      Option.map_some]
    cases i.reschedules
    · rfl
    · exact congrArg (fun c => some (c, _)) (refresh_later k _)

theorem next_later : (c.later k).next bus = (c.next bus).map (laterOn k) :=
  run_later k c bus follows_next

omit [Bus β] in
theorem serve_later {action : Exec β Unit} {live : Action (Clocked β) Unit}
    (same : ∀ c : Cpu, Exec.Follows c.clocked live action) :
    (c.later k).serve bus live = laterOn k (c.serve bus live) := by
  rw [serve_eq (same _), serve_eq (same _), settle_later]
  rfl

theorem nextAfterEI_later : (c.later k).nextAfterEI bus = (c.nextAfterEI bus).map (laterOn k) := by
  unfold nextAfterEI
  rw [← refreshed_laterOn]
  exact congrArg _ (next_later k c.shut bus)

theorem acknowledgeInt_later :
    (c.later k).acknowledgeInt bus = (c.acknowledgeInt bus).map (laterOn k) := by
  unfold acknowledgeInt
  change (if c.regs.im = 0 then _ else if c.regs.im = 1 then _ else _) = _
  split
  · exact run_later k c.released bus fun d => d.follows_supply c.pins.data
  · split
    · exact run_later k c.disabled bus fun d => d.follows_supply 0xFF
    · exact congrArg some (serve_later k c.released bus fun d =>
        Exec.Follows.serveVector d.clocked_hom (.ofBytes c.regs.i c.pins.data))

theorem acknowledge_later : (c.later k).acknowledge bus = (c.acknowledge bus).map (laterOn k) := by
  unfold acknowledge
  dsimp only
  rw [← refreshed_laterOn]
  change Option.map _ (if c.pins.nmi = .edge then _ else _) = _
  split
  · exact congrArg (fun s => (some s).map refreshed)
      (serve_later k { c with pins := { c.pins with nmi := .low } } bus fun d =>
        Exec.Follows.serveNmi d.clocked_hom)
  · exact congrArg _ (acknowledgeInt_later k c bus)

end Cpu

namespace Machine

def later (m : Machine β) : Machine β :=
  { m with cpu := m.cpu.later k, journal := m.journal.map (Message.later k) }

def Turn.later : Turn β → Turn β
  | go event p m => go event p (m.later k)
  | stopped m => stopped (m.later k)
  | endless => endless

def Outcome.later : Outcome β → Outcome β
  | stopped m => stopped (m.later k)
  | endless => endless
  | outOfFuel => outOfFuel

/-- The hook reads and sets stamps by their distance to others only. -/
def Relative (hook : Machine β → Machine β) : Prop := ∀ k m, hook (m.later k) = (hook m).later k

theorem report_later (m : Machine β) (message : Message) :
    (m.later k).report (message.later k) = (m.report message).later k := by
  simp only [report, later, Array.map_push]

theorem control_later (m : Machine β) (x : Cpu.Control) :
    (m.later k).control (x.later k) = (m.control x).later k := by
  have moved : ({ m.later k with cpu := (m.cpu.later k).control (x.later k) } : Machine β) =
      later k { m with cpu := m.cpu.control x } := by
    rw [Cpu.control_later]
    rfl
  have message : Message.ofControl (m.cpu.later k) (x.later k) =
      (Message.ofControl m.cpu x).map (Message.later k) := by
    cases x <;> rfl
  unfold control
  dsimp only
  rw [show (m.later k).cpu = m.cpu.later k from rfl, moved, message]
  cases Message.ofControl m.cpu x with
  | none => rfl
  | some message => exact report_later k _ message

theorem controls_later (m : Machine β) (xs : List Cpu.Control) :
    (xs.map (Cpu.Control.later k)).foldl control (m.later k) = (xs.foldl control m).later k := by
  induction xs generalizing m with
  | nil => rfl
  | cons x xs ih => rw [List.map_cons, List.foldl_cons, List.foldl_cons, control_later, ih]

/-- A hook made of operations is relative if the stamps in them move along with those it finds. -/
theorem relative_of_controls {controls : Machine β → List Cpu.Control} {store : Machine β → β}
    (moves : ∀ k m, controls (m.later k) = (controls m).map (Cpu.Control.later k))
    (stores : ∀ k m, store (m.later k) = store m) :
    Relative fun m => (controls m).foldl control { m with bus := store m } := by
  intro k m
  dsimp only
  rw [moves, stores]
  exact controls_later k { m with bus := store m } (controls m)

variable [Bus β] (m : Machine β)

omit [Bus β] in
theorem move_later {f : Cpu → β → Option (Cpu × β)}
    (h : f (m.cpu.later k) m.bus = (f m.cpu m.bus).map (Cpu.laterOn k)) :
    (m.later k).move f = (m.move f).map (later k) := by
  unfold move
  rw [show (m.later k).cpu = m.cpu.later k from rfl, show (m.later k).bus = m.bus from rfl, h]
  cases f m.cpu m.bus <;> rfl

theorem acknowledge_later : (m.later k).acknowledge = m.acknowledge.map (later k) := by
  have message : Message.ofAcknowledge (m.cpu.later k) =
      (Message.ofAcknowledge m.cpu).later k := by
    change (if m.cpu.pins.nmi = .edge then _ else _) = _
    unfold Message.ofAcknowledge
    split <;> rfl
  unfold acknowledge
  rw [show (m.later k).cpu = m.cpu.later k from rfl, message, report_later]
  exact move_later k _ (m.cpu.acknowledge_later k m.bus)

omit [Bus β] in
theorem ofMove_later (event : Event) (p : Phase) (moved : Option (Machine β)) :
    Turn.ofMove event p (moved.map (later k)) = (Turn.ofMove event p moved).later k := by
  cases moved <;> rfl

variable {hook : Machine β → Machine β} {k}

theorem turn_later (relative : Relative hook) (p : Phase) :
    turn hook p (m.later k) = (turn hook p m).later k := by
  have timeout : (m.later k).cpu.now.reached (m.later k).cpu.timeout =
      m.cpu.now.reached m.cpu.timeout := Ticks.reached_later ..
  have horizon : (m.later k).cpu.now.reached (m.later k).cpu.horizon =
      m.cpu.now.reached m.cpu.horizon := Ticks.reached_later ..
  have next : (m.later k).next = m.next.map (later k) :=
    move_later k m (m.cpu.next_later k m.bus)
  have nextAfterEI : (m.later k).nextAfterEI = m.nextAfterEI.map (later k) :=
    move_later k m (m.cpu.nextAfterEI_later k m.bus)
  -- what is left of a turn asks for flags only, and these are the same
  unfold turn
  rw [timeout, horizon, next, nextAfterEI, acknowledge_later, relative, ofMove_later,
    ofMove_later, ofMove_later]
  cases p with
  | check =>
    change (if m.cpu.stopped then _ else _) = _
    dsimp only
    split
    · rfl
    · split <;> rfl
  | fast =>
    change (if m.cpu.stopped || _ then _ else _) = _
    dsimp only
    split <;> rfl
  | decide =>
    change (if m.cpu.stopped || m.cpu.regs.halt then _ else if m.cpu.regs.eiMode then _
      else if m.cpu.eligible then _ else _) = _
    dsimp only
    split
    · rfl
    · split
      · rfl
      · split <;> rfl

theorem loop_later (relative : Relative hook) (n : Nat) (p : Phase) :
    loop hook n p (m.later k) = (loop hook n p m).later k := by
  induction n generalizing p m with
  | zero => rfl
  | succ n ih =>
    unfold loop
    rw [turn_later m relative]
    cases turn hook p m with
    | go event q m' => exact ih m' q
    | stopped m' => rfl
    | endless => rfl

theorem Turns.later (relative : Relative hook) {p q : Phase} {m m' : Machine β} {es : List Event}
    (run : Turns hook p m es q m') : Turns hook p (m.later k) es q (m'.later k) := by
  induction run with
  | start => exact .start
  | turn _ last ih => exact ih.turn ((turn_later _ relative _).trans (congrArg _ last))

/-- An event as it shows from outside: what was run for it, and what was done on the bus. -/
structure Told where
  event : Event
  marks : List Mark
  accesses : List Access
  deriving DecidableEq

def runs (m : Machine β) : Phase → List Mark
  | .check => []
  | .fast => (m.cpu.found m.bus Exec.nextInstruction).toList.map .executed
  | .decide => m.cpu.marks m.bus

def tale (hook : Machine (Recorded β) → Machine (Recorded β)) :
    (n : Nat) → Phase → Machine (Recorded β) → List Told
  | 0, _, _ => []
  | n + 1, p, m =>
    match turn hook p m with
    | .go event q m' =>
      let accesses := m'.bus.accesses.toList.drop m.bus.accesses.size
      (event.map fun event => ⟨event, m.runs p, accesses⟩).toList ++ tale hook n q m'
    | _ => []

theorem tale_later {hook : Machine (Recorded β) → Machine (Recorded β)}
    (relative : Relative hook) (n : Nat) (p : Phase) (m : Machine (Recorded β)) :
    tale hook n p (m.later k) = tale hook n p m := by
  induction n generalizing p m with
  | zero => rfl
  | succ n ih =>
    have runs : (m.later k).runs p = m.runs p := by cases p <;> rfl
    unfold tale
    rw [turn_later m relative, runs]
    cases turn hook p m with
    | go event q m' => exact congrArg (_ ++ ·) (ih q m')
    | _ => rfl

/-- With all stamps later by the same ticks the loop makes the same events, runs the same
instructions and does the same on the bus, for as many turns as one likes; and whatever it comes
to on the way and in the end is what it came to before, later by these ticks. -/
theorem execute_later {hook : Machine (Recorded β) → Machine (Recorded β)}
    (relative : Relative hook) (k : Ticks) (m : Machine (Recorded β)) :
    (∀ n, tale hook n .check (m.later k) = tale hook n .check m) ∧
    (∀ es p m', Turns hook .check m es p m' → Turns hook .check (m.later k) es p (m'.later k)) ∧
    ∀ n, execute hook n (m.later k) = (execute hook n m).later k :=
  ⟨fun n => tale_later relative n .check m, fun _ _ _ run => run.later relative,
    fun n => loop_later m relative n .check⟩

/-- A request, and another call eight ticks after the last was due, until some of the memory has
been read. -/
def paced (m : Machine (Recorded FlatBus)) : List Cpu.Control :=
  if m.bus.accesses.size < 6 then [.setTimeout (m.cpu.timeout + 8), .setInt] else [.stop]

def pace (m : Machine (Recorded FlatBus)) : Machine (Recorded FlatBus) :=
  (paced m).foldl control m

theorem relative_pace : Relative pace := by
  have moves (k : Ticks) (m : Machine (Recorded FlatBus)) :
      paced (m.later k) = (paced m).map (Cpu.Control.later k) := by
    have later : m.cpu.timeout + k + 8 = m.cpu.timeout + 8 + k := by grind
    change (if m.bus.accesses.size < 6 then [Cpu.Control.setTimeout (_ + k + 8), _] else _) = _
    rw [later]
    unfold paced
    split <;> rfl
  exact @relative_of_controls _ paced (·.bus) moves fun _ _ => rfl

theorem execute_later_round :
    let m : Machine (Recorded FlatBus) :=
      { cpu := .ofTiming .z80, bus := ⟨FlatBus.empty.load 0 [0xFB], #[]⟩ }
    let k : Ticks := 0xFFFFFFFC
    Relative pace ∧ (tale pace 40 .check m).length = 11 ∧
      tale pace 40 .check (m.later k) = tale pace 40 .check m ∧
      ∃ m', execute pace 40 m = .stopped m' ∧ m'.cpu.now = 33 ∧
        execute pace 40 (m.later k) = .stopped (m'.later k) ∧ (m'.later k).cpu.now = 29 := by
  intro m k
  obtain ⟨same, -, ends⟩ := execute_later relative_pace k m
  have told : (tale pace 40 .check m).length = 11 := by decide +kernel
  have stops : (match execute pace 40 m with
      | .stopped m' => m'.cpu.now == 33
      | _ => false) = true := by decide +kernel
  split at stops
  next m' ended =>
    have now : m'.cpu.now = 33 := by simpa using stops
    have later : execute pace 40 (m.later k) = .stopped (m'.later k) := by
      rw [ends, ended]
      rfl
    refine ⟨relative_pace, told, same 40, m', ended, now, later, ?_⟩
    change m'.cpu.now + k = 29
    rw [now]
    decide
  next => exact absurd stops Bool.false_ne_true

end Machine

end Z80
