import Z80.Proofs.Interleaving

/-! Operations from outside in any order. Each of them sets one part of the processor, and
what it makes of it hangs on that part alone. They meet only in the horizon; but a fresh one
is what the state calls for, whichever operation has drawn it last. -/
namespace Z80.Cpu

/-- What the surroundings can set, each part by operations of its own. -/
inductive Part where
  | int | nmi | timeout | data | stop
  deriving DecidableEq

def Control.part : Control → Option Part
  | .setInt | .clearInt => some .int
  | .setNmi | .clearNmi => some .nmi
  | .setTimeout _ => some .timeout
  | .setData _ | .setDataIdle _ _ => some .data
  | .stop => some .stop
  | .resetAt _ => none

/-- The operations on one part, in the order in which they stand among the others. -/
def Part.own (p : Part) (ks : List Control) : List Control := ks.filter (·.part = some p)

abbrev Part.State : Part → Type
  | int => IntLine
  | nmi => NmiLine
  | timeout => Ticks
  | data => Byte × Byte
  | stop => Bool

def part (c : Cpu) : (p : Part) → p.State
  | .int => c.pins.int
  | .nmi => c.pins.nmi
  | .timeout => c.timeout
  | .data => (c.pins.data, c.pins.idleData)
  | .stop => c.stopped

def Control.act : Control → (p : Part) → p.State → p.State
  | .setInt, .int, _ => .low
  | .clearInt, .int, _ => .high
  | .setNmi, .nmi, line => if line = .high then .edge else line
  | .clearNmi, .nmi, _ => .high
  | .setTimeout t, .timeout, _ => t
  | .setData v, .data, (_, idle) => (v, idle)
  | .setDataIdle v idle, .data, _ => (v, idle)
  | .stop, .stop, _ => true
  | _, _, state => state

/-- What only steps and resets change. -/
def rest (c : Cpu) : Registers × Timing × Ticks := (c.regs, c.timing, c.now)

variable {c d : Cpu} {k : Control} {p : Part} {ks ls : List Control}

theorem eq_of_parts (fresh : c.Fresh) (fresh' : d.Fresh) (rest : c.rest = d.rest)
    (parts : ∀ p, c.part p = d.part p) : c = d := by
  obtain ⟨regs, ⟨int, nmi, data, idle⟩, timing, now, timeout, horizon, stopped⟩ := c
  obtain ⟨regs', ⟨int', nmi', data', idle'⟩, timing', now', timeout', horizon', stopped'⟩ := d
  obtain ⟨rfl, rfl, rfl⟩ : regs = regs' ∧ timing = timing' ∧ now = now' := by
    simpa [Cpu.rest] using rest
  obtain rfl : int = int' := parts .int
  obtain rfl : nmi = nmi' := parts .nmi
  obtain rfl : timeout = timeout' := parts .timeout
  obtain ⟨rfl, rfl⟩ : data = data' ∧ idle = idle' := Prod.mk.inj (parts .data)
  obtain rfl : stopped = stopped' := parts .stop
  congr
  exact (fresh_iff.mp fresh).trans (fresh_iff.mp fresh').symm

theorem Control.act_of_other {state : p.State} (other : k.part ≠ some p) :
    k.act p state = state := by
  cases k <;> cases p <;> simp [Control.part] at other <;> rfl

theorem part_control (plain : ∀ t, k ≠ .resetAt t) :
    (c.control k).part p = k.act p (c.part p) := by
  cases k with
  | resetAt t => exact absurd rfl (plain t)
  | setNmi =>
    by_cases high : c.pins.nmi = .high
    · rw [control_setNmi high]
      cases p <;> simp [part, refresh, Control.act, high]
    · rw [control_setNmi_eq_self high]
      cases p <;> simp [part, Control.act, high]
  | _ => cases p <;> rfl

theorem rest_control (plain : ∀ t, k ≠ .resetAt t) : (c.control k).rest = c.rest := by
  cases k with
  | resetAt t => exact absurd rfl (plain t)
  | setNmi =>
    change rest (if _ then _ else _) = _
    split <;> rfl
  | _ => rfl

theorem plain_cons (plain : ∀ t, .resetAt t ∉ k :: ks) :
    (∀ t, k ≠ .resetAt t) ∧ ∀ t, .resetAt t ∉ ks :=
  ⟨fun t hk => plain t (hk ▸ List.mem_cons_self), fun t ht => plain t (List.mem_cons_of_mem k ht)⟩

theorem part_controls (plain : ∀ t, .resetAt t ∉ ks) :
    (ks.foldl control c).part p = (p.own ks).foldl (fun state k => k.act p state) (c.part p) := by
  induction ks generalizing c with
  | nil => rfl
  | cons k ks ih =>
    obtain ⟨first, others⟩ := plain_cons plain
    rw [List.foldl_cons, ih others, part_control first]
    by_cases own : k.part = some p
    · simp [Part.own, own]
    · simp [Part.own, own, Control.act_of_other own]

theorem rest_controls (plain : ∀ t, .resetAt t ∉ ks) : (ks.foldl control c).rest = c.rest := by
  induction ks generalizing c with
  | nil => rfl
  | cons k ks ih =>
    obtain ⟨first, others⟩ := plain_cons plain
    rw [List.foldl_cons, ih others, rest_control first]

theorem part_stop_controls (plain : ∀ t, .resetAt t ∉ ks) :
    (ks.foldl control c).part .stop = (c.part .stop || decide (.stop ∈ ks)) := by
  induction ks generalizing c with
  | nil => simp
  | cons k ks ih =>
    obtain ⟨first, others⟩ := plain_cons plain
    rw [List.foldl_cons, ih others, part_control first]
    by_cases own : k = .stop
    · simp [own, Control.act]
    · have other : k.part ≠ some .stop := by cases k <;> simp_all [Control.part]
      simp [Control.act_of_other other, Ne.symm own]

/-- Operations that stand in the same order on each part, and with a request to stop among
them both times or neither time, lead to the same processor. -/
theorem controls_commute (fresh : c.Fresh) (plain : ∀ t, .resetAt t ∉ ks ∧ .resetAt t ∉ ls)
    (same : ∀ p : Part, p ≠ .stop → p.own ks = p.own ls) (stops : .stop ∈ ks ↔ .stop ∈ ls) :
    ks.foldl control c = ls.foldl control c := by
  have left : ∀ t, .resetAt t ∉ ks := fun t => (plain t).1
  have right : ∀ t, .resetAt t ∉ ls := fun t => (plain t).2
  apply eq_of_parts (fresh.controls ks) (fresh.controls ls)
  · rw [rest_controls left, rest_controls right]
  · intro p
    by_cases hp : p = .stop
    · rw [hp, part_stop_controls left, part_stop_controls right, decide_eq_decide.mpr stops]
    · rw [part_controls left, part_controls right, same p hp]

def enabled : Cpu := refresh { regs := { Registers.powerOn with iff1 := true } }

theorem controls_commute_enabled :
    [.setNmi, .setInt, .setData 0xC7, .stop, .clearNmi, .setTimeout 24, .clearInt,
        .setDataIdle 0xFF 0, .stop].foldl control enabled =
      [.stop, .setTimeout 24, .setInt, .clearInt, .setData 0xC7, .setNmi, .setDataIdle 0xFF 0,
        .clearNmi].foldl control enabled := by
  refine controls_commute (fresh_refresh _) (fun t => ⟨by simp, by simp⟩) (fun p hp => ?_)
    (by decide)
  cases p with
  | stop => contradiction
  | _ => rfl

end Z80.Cpu
