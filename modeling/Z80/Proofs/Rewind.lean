import Z80.Proofs.Charges
import Z80.Proofs.Executed
import Z80.Proofs.Leading
import Z80.Proofs.Stepped

/-! Where HALT and the repeating block instructions leave PC. They step back by a fixed count,
which brings them to their own opcode if that was read from memory. If it came from the data
lines, the same step back goes over a byte that has not been read, and a halt comes to rest on
whatever stands there. -/
namespace Z80

theorem Instr.eq_halt_of_guard {pins : Pins} {i : Instr} {g : Guard} (before : g.halt = false)
    (after : (i.guard pins g).halt = true) : i = .halt := by
  cases i with
  | halt => rfl
  | _ => simp_all [Instr.guard]

theorem BlockOp.exec_pc {β : Type} [Bus β] {op : BlockOp} {s : Core β}
    (passes : op.test.passes s.regs s.bus = true) (dir : Direction) :
    (op.exec dir true s).2.regs.pc = s.regs.pc - 2 := by
  have answer : (op.round dir s).1 = op.test.passes s.regs s.bus := by cases op <;> rfl
  have kept : (op.round dir s).2.regs.pc = s.regs.pc := by cases op <;> rfl
  unfold exec
  rw [Exec.bind_apply, answer, passes, ← kept]
  rfl

/-- From `base` on there is nothing but index prefixes up to `a`, and there the opcode `b`. -/
def FlatBus.LeadsTo (bus : FlatBus) (base : Word) (b : Byte) (a : Word) : Prop :=
  ∃ n, (∀ k < n, Opcode.isIndex (bus.peek (base + .ofNat 16 k))) ∧
    a = base + .ofNat 16 n ∧ bus.peek a = b

namespace Cpu

open Exec

variable {c d : Cpu} {bus bus' : FlatBus} {i : Instr} {a : Word} {b : Byte}

/-- `a` is where the step takes the opcode `b` from. One from the data lines has no address, and
then `a` is the one before PC. -/
def TakesAt (c : Cpu) (bus : FlatBus) (b : Byte) (a : Word) : Prop :=
  if c.given = some b then a = c.regs.pc - 1 else bus.LeadsTo c.regs.pc b a

def Repeats (c : Cpu) (bus : FlatBus) : Prop :=
  ∃ op dir, .executed (.block op dir true) ∈ c.marks bus ∧ op.test.passes c.regs bus = true

/-- The step runs `i` with PC behind `a`. The other registers are as before the step, but for R
and those that an acknowledge or the end of the window after EI clears. -/
def RunsBehind (c : Cpu) (bus : FlatBus) (i : Instr) (a : Word) (d : Cpu) (bus' : FlatBus) :
    Prop :=
  ∃ (pins : Pins) (s : Core FlatBus) (r : Byte) (iff1 iff2 eiMode : Bool),
    s.regs = { c.regs with pc := a + 1, r, iff1, iff2, eiMode } ∧ s.bus = bus ∧
      d.regs = (i.exec pins s).2.regs ∧ bus' = (i.exec pins s).2.bus

theorem exists_entry (c : Cpu) :
    ∃ iff1 iff2 eiMode, c.entry = { c.regs with iff1, iff2, eiMode } := by
  unfold entry
  cases c.decision <;> exact ⟨_, _, _, rfl⟩

theorem fetched_flat (c : Cpu) (bus : FlatBus) (x : Encoding) (n : Nat)
    (taken : (if c.given = none then x.size else x.size - 1) = n) :
    (c.fetched bus x).regs = c.entry.past (.ofNat 16 n) (.ofNat 8 x.refreshes) ∧
      (c.fetched bus x).bus = bus := by
  subst taken
  unfold fetched
  cases c.given <;> exact ⟨rfl, Bus.past_flat ..⟩

theorem Executes.runsBehind {core : Core FlatBus} (ran : c.Executes bus i core) {n : Nat}
    (taken : (if c.given = none then (c.spelled bus).size else (c.spelled bus).size - 1) = n)
    (behind : c.regs.pc + .ofNat 16 n = a + 1) (regs : d.regs = core.regs)
    (stored : bus' = core.bus) : c.RunsBehind bus i a d bus' := by
  obtain ⟨pins, rfl⟩ := ran.core
  obtain ⟨iff1, iff2, eiMode, same⟩ := c.exists_entry
  obtain ⟨regs', bus''⟩ := fetched_flat c bus _ n taken
  refine ⟨pins, _, c.regs.r + .ofNat 8 (c.spelled bus).refreshes, iff1, iff2, eiMode, ?_, bus'',
    regs, stored⟩
  rw [regs', same, Registers.past, ← behind]

theorem behind_lead {pc a : Word} {m : Nat} (b : Byte) (last : pc + .ofNat 16 m = a) :
    pc + .ofNat 16 (m + if b = 0xED then 2 else 1) = (if b = 0xED then a + 1 else a) + 1 := by
  rw [BitVec.ofNat_add, ← BitVec.add_assoc, last]
  split
  · exact (BitVec.add_assoc a 1 1).symm
  · rfl

def RunsFrom (c : Cpu) (bus : FlatBus) (i : Instr) (b : Byte) (a : Word) (d : Cpu)
    (bus' : FlatBus) : Prop :=
  c.TakesAt bus b a ∧ c.RunsBehind bus i (if b = 0xED then a + 1 else a) d bus'

variable {core : Core FlatBus}

theorem Executes.runsFrom_memory (ran : c.Executes bus i core) (h : i.lead = some b)
    (given : c.given = none) (regs : d.regs = core.regs) (stored : bus' = core.bus) :
    ∃ a, c.RunsFrom bus i b a d bus' := by
  rw [ran.instr] at h
  have size := Encoding.size_of_lead ran.spells h
  have lead := Encoding.lead_eq ran.spells h
  have chain := ran.spells.chain
  have bytes : c.bytes bus = Bus.stream bus c.regs.pc := by rw [Cpu.bytes, given]
  simp only [bytes, Bus.stream_flat] at chain lead
  refine ⟨_, ?_, ran.runsBehind (by rw [given]; exact size) (behind_lead b rfl) regs stored⟩
  rw [TakesAt, given, if_neg (by simp)]
  exact ⟨_, chain, rfl, lead⟩

theorem Executes.runsFrom_lines {op : Byte} (ran : c.Executes bus i core) (h : i.lead = some b)
    (given : c.given = some op) (regs : d.regs = core.regs) (stored : bus' = core.bus) :
    ∃ a, c.RunsFrom bus i b a d bus' := by
  rw [ran.instr] at h
  have lead := Encoding.lead_eq ran.spells h
  have chain := ran.spells.chain
  have other := ran.spells.not_isIndex
  have bytes : c.bytes bus = followed op (Bus.stream bus c.regs.pc) := by rw [Cpu.bytes, given]
  rw [bytes] at chain lead other
  have taken : (if c.given = none then (c.spelled bus).size else (c.spelled bus).size - 1) =
      (c.spelled bus).chain + if b = 0xED then 1 else 0 := by
    rw [given, if_neg (by simp), Encoding.size_of_lead ran.spells h]
    split <;> rfl
  cases length : (c.spelled bus).chain with
  | zero =>
    -- the lines give `b` itself, so PC has not been moved
    rw [length] at lead taken
    obtain rfl : op = b := lead
    have here : c.regs.pc - 1 + 1 = c.regs.pc := BitVec.sub_add_cancel ..
    refine ⟨c.regs.pc - 1, ?_, ran.runsBehind taken ?_ regs stored⟩
    · rw [TakesAt, given, if_pos rfl]
    · split
      · rw [here]
        rfl
      · rw [here]
        exact BitVec.add_zero _
  | succ n =>
    -- the lines give the first prefix only, and `b` is read from memory like any other opcode
    rw [length] at chain lead taken other
    have index : Opcode.isIndex op := chain 0 n.succ_pos
    have memory : some op ≠ some b := by
      rintro ⟨⟩
      rw [lead] at other
      exact other index
    have last : n + 1 + (if b = 0xED then 1 else 0) = n + if b = 0xED then 2 else 1 := by
      split <;> rfl
    refine ⟨_, ?_, ran.runsBehind (taken.trans last) (behind_lead b rfl) regs stored⟩
    rw [TakesAt, given, if_neg memory]
    refine ⟨n, fun k hk => ?_, rfl, ?_⟩
    · rw [← Bus.stream_flat]
      exact chain (k + 1) (Nat.succ_lt_succ hk)
    · rw [← Bus.stream_flat]
      exact lead

theorem exists_runsFrom (hs : c.step bus = some (d, bus')) (hm : .executed i ∈ c.marks bus)
    (h : i.lead = some b) : ∃ a, c.RunsFrom bus i b a d bus' := by
  obtain ⟨e, he, rfl, stored⟩ := effect_of_step hs
  rw [marks_of_effect he] at hm
  have ran := executes_of_effect he hm
  cases given : c.given with
  | none => exact ran.runsFrom_memory h given rfl stored
  | some op => exact ran.runsFrom_lines h given rfl stored

theorem RunsBehind.rests (ran : c.RunsBehind bus .halt a d bus') (halted : d.regs.halt = true) :
    d.regs.pc = a ∧ bus' = bus := by
  obtain ⟨pins, s, r, iff1, iff2, eiMode, hs, rfl, hd, rfl⟩ := ran
  rw [Instr.exec_halt] at hd ⊢
  dsimp only at hd
  split at hd
  · rw [hd] at halted
    contradiction
  · rw [hd, hs]
    exact ⟨BitVec.add_sub_cancel a 1, rfl⟩

theorem RunsBehind.goes_back {op : BlockOp} {dir : Direction}
    (ran : c.RunsBehind bus (.block op dir true) (a + 1) d bus')
    (passes : op.test.passes c.regs bus = true) : d.regs.pc = a := by
  obtain ⟨pins, s, r, iff1, iff2, eiMode, hs, rfl, hd, -⟩ := ran
  -- what has changed since before the step does not bear on the test
  have same : op.test.passes s.regs s.bus = op.test.passes c.regs s.bus := by
    rw [hs]
    cases op <;> rfl
  have back : d.regs.pc = s.regs.pc - 2 := by
    rw [hd]
    exact op.exec_pc (same.trans passes) dir
  rw [back, hs]
  exact (BitVec.add_assoc a 1 1).symm ▸ BitVec.add_sub_cancel a 2

theorem RanBy.eq_halt (ran : c.RanBy bus nextInstruction i d bus')
    (here : bus.peek c.regs.pc = 0x76) : i = .halt := by
  have at_pc : Bus.stream bus c.regs.pc 0 = 0x76 := here
  have spells : Encoding.Spells ⟨0, .main, 0x76⟩ (Bus.stream bus c.regs.pc) :=
    ⟨by simp, at_pc, by decide⟩
  have fetched := nextInstruction_spelled (s := { regs := c.regs, bus }) spells (Nat.zero_le _)
  have found := ran.found
  rw [Cpu.found, fetched] at found
  exact (Option.some.inj found).symm

theorem executed_halt (hs : c.step bus = some (d, bus'))
    (own : c.regs.halt = true → bus.peek c.regs.pc = 0x76) (halted : d.regs.halt = true) :
    .executed .halt ∈ c.marks bus := by
  -- an acknowledge finds the processor awake, so it has to be halted by what is run in it
  have not_kept (served : c.decision = .acknowledge) : d.regs.halt ≠ c.regs.halt := by
    rw [halted, (settled_of_acknowledge served).2.1]
    decide
  cases stepped_of_step hs with
  | instruction i running marks ran =>
    rw [marks, List.mem_singleton, Mark.executed.injEq]
    cases was : c.regs.halt with
    | true =>
      exact (ran.eq_halt (own was)).symm
    | false =>
      have guard : d.regs.halt = _ := congrArg Guard.halt (ran.guard keeps_guard_next)
      exact (Instr.eq_halt_of_guard was (guard.symm.trans halted)).symm
  | supplied i served maskable mode marks ran =>
    have guard : d.regs.halt = _ :=
      congrArg Guard.halt (ran.guard (keeps_guard_supply c.pins.data))
    have was : c.released.regs.guard.halt = false := (settled_of_acknowledge served).2.1
    rw [marks, Instr.eq_halt_of_guard was (guard.symm.trans halted)]
    simp
  | nmi served edge marks guard => exact absurd (congrArg Guard.halt guard) (not_kept served)
  | restart served maskable mode marks ran =>
    have guard := ran.guard (keeps_guard_supply 0xFF)
    exact absurd (congrArg Guard.halt guard) (not_kept served)
  | vector served maskable zero one marks guard =>
    exact absurd (congrArg Guard.halt guard) (not_kept served)

/-- Where a processor can get to from power-on that alone writes the memory and that is not
given HALT on its data lines. -/
inductive Alone : Cpu → FlatBus → Prop
  | powerOn (t : Timing) (bus : FlatBus) : Alone (.ofTiming t) bus
  | control {c : Cpu} {bus : FlatBus} (before : Alone c bus) (k : Control) :
      Alone (c.control k) bus
  | port {c : Cpu} {bus : FlatBus} (before : Alone c bus) (p v : Byte) :
      Alone c (bus.setPort p v)
  | step {c d : Cpu} {bus bus' : FlatBus} (before : Alone c bus) (own : c.given ≠ some 0x76)
      (last : c.step bus = some (d, bus')) : Alone d bus'

theorem peek_of_alone (alone : Alone c bus) : c.regs.halt = true → bus.peek c.regs.pc = 0x76 := by
  induction alone with
  | powerOn => exact fun halted => absurd halted Bool.false_ne_true
  | control before k ih =>
    cases k with
    | resetAt t => exact fun halted => absurd halted Bool.false_ne_true
    | _ =>
      rw [regs_control (by simp)]
      exact ih
  | port _ _ _ ih => exact ih
  | step before own last ih =>
    intro halted
    obtain ⟨a, taken, ran⟩ := exists_runsFrom last (executed_halt last ih halted) rfl
    obtain ⟨rest, rfl⟩ := ran.rests halted
    rw [TakesAt, if_neg own] at taken
    obtain ⟨n, -, -, here⟩ := taken
    rw [rest]
    exact here

/-- A halted processor stands on HALT, as long as HALT is not taken from the data lines. Every
step that halts has run HALT and every step that repeats a block instruction has run that, and
each leaves PC where it has taken the opcode from: at its address behind the index prefixes, or,
where it came from the data lines, at the address before that at which PC stood. -/
theorem rests_on_own_opcode (c : Cpu) (bus : FlatBus) :
    (Alone c bus → c.regs.halt = true → bus.peek c.regs.pc = 0x76) ∧
    ∀ d bus', c.step bus = some (d, bus') →
      (Alone c bus → d.regs.halt = true → .executed .halt ∈ c.marks bus) ∧
      (.executed .halt ∈ c.marks bus → d.regs.halt = true → c.TakesAt bus 0x76 d.regs.pc) ∧
      (c.Repeats bus → c.TakesAt bus 0xED d.regs.pc) := by
  refine ⟨peek_of_alone, fun d bus' hs => ⟨?_, ?_, ?_⟩⟩
  · intro alone halted
    exact executed_halt hs (peek_of_alone alone) halted
  · intro executed halted
    obtain ⟨a, taken, ran⟩ := exists_runsFrom hs executed rfl
    rw [(ran.rests halted).1]
    exact taken
  · rintro ⟨op, dir, executed, passes⟩
    obtain ⟨a, taken, ran⟩ := exists_runsFrom hs executed rfl
    rw [ran.goes_back passes]
    exact taken

theorem rests_on_own_opcode_prefixed : ∃ (c d e : Cpu) (bus bus' other other' : FlatBus),
    (Alone c bus ∧ c.step bus = some (d, bus') ∧ d.regs.halt = true ∧
      c.TakesAt bus 0x76 d.regs.pc ∧ bus'.peek d.regs.pc = 0x76) ∧
    c.step other = some (e, other') ∧ c.Repeats other ∧ c.TakesAt other 0xED e.regs.pc := by
  let c : Cpu := .ofTiming .z80
  let bus : FlatBus := FlatBus.empty.load 0 [0xDD, 0x76]
  let other : FlatBus := FlatBus.empty.load 0 [0xED, 0xB0]
  have halts : (c.step bus).any (·.1.regs.halt) = true := by decide +kernel
  have goes_on : (c.step other).isSome = true := by decide +kernel
  have repeats : c.Repeats other := ⟨.move, .up, by decide +kernel, by decide +kernel⟩
  simp only [Option.any_eq_true] at halts
  obtain ⟨⟨d, bus'⟩, hs, halted⟩ := halts
  obtain ⟨⟨e, other'⟩, he⟩ := Option.isSome_iff_exists.mp goes_on
  have start : Alone c bus := .powerOn .z80 bus
  have after : Alone d bus' := start.step (by decide) hs
  obtain ⟨ran, taken, -⟩ := (rests_on_own_opcode c bus).2 d bus' hs
  obtain ⟨-, -, back⟩ := (rests_on_own_opcode c other).2 e other' he
  exact ⟨c, d, e, bus, bus', other, other',
    ⟨start, hs, halted, taken (ran start halted) halted,
      (rests_on_own_opcode d bus').1 after halted⟩,
    he, repeats, back repeats⟩

/-- Where a device answers a mode 0 acknowledge with HALT the processor rests on a byte that has
not been read. -/
theorem halt_from_lines_strays : ¬∀ (c d : Cpu) (bus bus' : FlatBus), Alone c bus →
    c.step bus = some (d, bus') → d.regs.halt = true → bus'.peek d.regs.pc = 0x76 := by
  intro rests
  have strays : ((((ofTiming .z80).step (FlatBus.empty.load 0 [0xFB, 0x00, 0x76])).any fun s₁ =>
      (s₁.1.step s₁.2).any fun s₂ =>
        (((s₂.1.control (.setData 0x76)).control .setInt).step s₂.2).any fun s₃ =>
          s₁.1.given = none && s₃.1.regs.halt && s₃.2.peek s₃.1.regs.pc ≠ 0x76)) = true := by
    decide +kernel
  simp only [Option.any_eq_true, Bool.and_eq_true, decide_eq_true_eq] at strays
  obtain ⟨s₁, h₁, s₂, h₂, s₃, h₃, ⟨none_given, halted⟩, elsewhere⟩ := strays
  have start : Alone s₁.1 s₁.2 := (Alone.powerOn .z80 _).step (by decide) h₁
  have settled : Alone s₂.1 s₂.2 := start.step (by simp [none_given]) h₂
  have rest := rests _ s₃.1 _ s₃.2 ((settled.control (.setData 0x76)).control .setInt) h₃ halted
  exact absurd rest elsewhere

end Cpu

end Z80
