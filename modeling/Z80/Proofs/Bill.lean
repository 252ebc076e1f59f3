import Z80.Proofs.Durations
import Z80.Proofs.Executed
import Z80.Proofs.Listed
import Z80.Proofs.Operation
import Z80.Proofs.Tally

/-! What the time of a step is made of, for any timing. -/
namespace Z80

variable {β : Type}

namespace Timing

variable (t : Timing)

theorem total_apart (d : Delay) (path : List Delay) :
    t.total path = .ofNat 32 (path.count d) * t.cost d + t.total (path.filter (· ≠ d)) := by
  induction path with
  | nil => simp
  | cons e path ih =>
    by_cases h : e = d
    · subst h
      rw [List.count_cons_self, List.filter_cons_of_neg (by simp), total_cons, ih, BitVec.ofNat_add]
      grind
    · rw [List.count_cons_of_ne h, List.filter_cons_of_pos (by simpa using h), total_cons,
        total_cons, ih]
      grind

theorem total_split (path : List Delay) :
    t.total path =
      .ofNat 32 (path.count .memOp) * t.cost .memOp + .ofNat 32 (path.count .m1) * t.cost .m1 +
      .ofNat 32 (path.count .mem) * t.cost .mem + .ofNat 32 (path.count .preIo) * t.cost .preIo +
      .ofNat 32 (path.count .postIo) * t.cost .postIo + t.total (path.filter (·.isInternal)) := by
  have rest : ((((path.filter (· ≠ .memOp)).filter (· ≠ .m1)).filter (· ≠ .mem)).filter
      (· ≠ .preIo)).filter (· ≠ .postIo) = path.filter (·.isInternal) := by
    simp only [List.filter_filter]
    refine congrArg (List.filter · path) (funext fun d => ?_)
    cases d <;> rfl
  rw [t.total_apart .memOp path, t.total_apart .m1, t.total_apart .mem, t.total_apart .preIo,
    t.total_apart .postIo, rest]
  have kept {d e : Delay} (h : d ≠ e) (path : List Delay) :
      (path.filter (· ≠ e)).count d = path.count d := List.count_filter (by simpa using h)
  repeat rw [kept (by decide)]
  grind

/-- The price of so many bytes and opcodes, of these accesses and of the other delays. -/
def price (bytes opcodes : Nat) (data : List Access) (rest : List Delay) : Ticks :=
  .ofNat 32 bytes * t.cost .memOp + .ofNat 32 opcodes * t.cost .m1 +
    .ofNat 32 (data.countP (·.isMemory)) * t.cost .mem +
    .ofNat 32 (data.countP (·.isPort)) * (t.cost .preIo + t.cost .postIo) + t.total rest

end Timing

namespace Table

theorem instr_alike (t : Table) (op : Byte) {j j' : Option Index} (h : j.isSome = j'.isSome)
    (d : Byte) :
    (t.instr op j d).operands = (t.instr op j' 0).operands ∧
      ∀ goes, (t.instr op j d).delays goes = (t.instr op j' 0).delays goes := by
  have operands : (t.instr op j d).operands = (t.instr op j 0).operands := by
    rcases t with _ | _ | _ <;> rcases j with _ | j <;> try rfl
    unfold instr Opcode.decodeIndexedBits
    cases Opcode.updateOf op <;> rfl
  have same (i : Index) : (t.instr op (some i) 0).operands = (t.instr op (some .ix) 0).operands ∧
      ∀ goes, (t.instr op (some i) 0).delays goes = (t.instr op (some .ix) 0).delays goes := by
    cases i with
    | ix => exact ⟨rfl, fun _ => rfl⟩
    | iy =>
      clear operands
      revert op
      cases t <;> decide +kernel
  rw [operands, forall_congr' fun goes => by rw [(t.instr_displacement op j d).2 goes]]
  cases j with
  | none =>
    obtain rfl : j' = none := by simpa using h.symm
    exact ⟨rfl, fun _ => rfl⟩
  | some i =>
    obtain ⟨k, rfl⟩ := Option.isSome_iff_exists.mp h.symm
    exact ⟨(same i).1.trans (same k).1.symm,
      fun goes => ((same i).2 goes).trans ((same k).2 goes).symm⟩

end Table

namespace Encoding

variable (x : Encoding)

/-- The instruction, but for its displacement and the choice of the index register. -/
def kind : Instr := x.table.instr x.op (if 0 < x.chain then some .ix else none) 0

def length : Nat := x.size + x.kind.operands

/-- The delays that stand for nothing that shows on the bus. -/
def internal (goes : Bool) : List Delay := (x.kind.delays goes).filter (·.isInternal)

variable {x}

theorem instr_kind {f : Nat → Byte} (spells : x.Spells f) :
    (x.instr f).operands = x.kind.operands ∧
      ∀ goes, (x.instr f).delays goes = x.kind.delays goes := by
  refine x.table.instr_alike x.op ?_ (f (x.chain + 1))
  rw [index, Opcode.isSome_lastIndex spells.chain]
  by_cases h : 0 < x.chain <;> simp [h]

theorem count_chainDelays (n : Nat) (d : Delay) :
    (chainDelays n).count d = if d = .memOp ∨ d = .m1 then n else 0 := by
  induction n with
  | zero => simp [chainDelays]
  | succ n ih =>
    have one_more : chainDelays (n + 1) = .memOp :: .m1 :: chainDelays n := rfl
    rw [one_more]
    cases d <;> simp_all

theorem count_delays (x : Encoding) (d : Delay) :
    x.delays.count d = if d = .memOp then x.size else if d = .m1 then x.opcodes else 0 := by
  obtain ⟨n, t, op⟩ := x
  have whole : delays ⟨n, t, op⟩ = chainDelays (n + 1) ++ t.delays (0 < n) := rfl
  rw [whole, List.count_append, count_chainDelays]
  by_cases byte : d = .memOp
  · subst byte
    rcases t with _ | _ | _ <;> by_cases h : 0 < n <;>
      simp [Table.delays, size, Table.rest, h]
  by_cases opcode : d = .m1
  · subst opcode
    rcases t with _ | _ | _ <;> by_cases h : 0 < n <;> simp [Table.delays, opcodes, h]
  · rcases t with _ | _ | _ <;> by_cases h : 0 < n <;>
      simp [Table.delays, h, byte, opcode, Ne.symm byte, Ne.symm opcode]

theorem eq_of_mem_delays {d : Delay} (member : d ∈ x.delays) : d = .memOp ∨ d = .m1 := by
  have count := x.count_delays d
  have positive := List.count_pos_iff.mpr member
  split at count
  next byte => exact .inl byte
  next =>
    split at count
    next opcode => exact .inr opcode
    next => omega

theorem internal_delays (x : Encoding) : x.delays.filter (·.isInternal) = [] := by
  rw [List.filter_eq_nil_iff]
  intro d member
  rcases eq_of_mem_delays member with rfl | rfl <;> decide

end Encoding

namespace Bus

variable [Bus β]

def take (bus : β) (a : Word) : Nat → List Byte
  | 0 => []
  | n + 1 => (read bus a).1 :: take (read bus a).2 (a + 1) n

theorem past_bus (bus : β) (log : Array Access) (a : Word) (n : Nat) :
    (past (⟨bus, log⟩ : Recorded β) a n).bus = past bus a n := by
  induction n generalizing bus log a with
  | zero => rfl
  | succ n ih => exact ih ..

theorem past_accesses (bus : β) (log : Array Access) (a : Word) (n : Nat) :
    (past (⟨bus, log⟩ : Recorded β) a n).accesses.toList =
      log.toList ++ fetches a (take bus a n) := by
  induction n generalizing bus log a with
  | zero => exact (List.append_nil _).symm
  | succ n ih =>
    refine (ih ..).trans ?_
    rw [Array.toList_push, List.append_assoc]
    rfl

end Bus

open Exec

theorem Opcode.Listed.single {j : Option Index} {x : Instr} (listed : Listed j x) :
    x.single = true := by
  refine listed.good Instr.single ?_ (by decide +kernel) ?_ (by decide +kernel)
  · rcases j with _ | _ | _ <;> decide +kernel
  · intro i d op
    unfold decodeIndexedBits
    cases updateOf op <;> rfl

/-- An instruction of which `m` bytes have been taken already takes the others, and then its data,
and each at its price. -/
theorem Instr.exec_bill [Bus β] (pins : Pins) {i : Instr} (single : i.single = true) {bus : β}
    {regs : Registers} {m refreshes opcodes : Nat} {path : List Delay} {s : Core (Recorded β)}
    (fetched : s = Core.advance { regs, bus := ⟨bus, #[]⟩ } m refreshes path)
    (counts : ∀ d : Delay, d.isInternal = false →
      path.count d = if d = .memOp then m else if d = .m1 then opcodes else 0) :
    ∃ data,
      (i.exec pins s).2.bus.accesses.toList =
        fetches regs.pc (Bus.take bus regs.pc (m + i.operands)) ++ data ∧
      ∀ t : Timing, t.total (i.exec pins s).2.charges =
        t.price (m + i.operands) opcodes data
          (path.filter (·.isInternal) ++
            (i.delays (i.goes s.regs s.bus)).filter (·.isInternal)) := by
  obtain ⟨data, rest, accesses, charges, paid⟩ := i.exec_consumes pins single s
  have met := i.exec_charges pins s
  rw [charges] at met
  have rest_eq := List.reverse_inj.mp (List.append_cancel_right met)
  refine ⟨data, ?_, fun t => ?_⟩
  · rw [accesses, fetched]
    refine congrArg (· ++ data) (Eq.trans ?_ (Bus.past_accesses bus #[] _ _))
    rw [Bus.past_add]
    rfl
  · have whole : t.total (rest.reverse ++ s.charges) = t.total (path ++ rest) := by
      rw [fetched, Core.advance, List.reverseAux_eq, List.append_nil, ← List.reverse_append,
        Timing.total_reverse]
    rw [charges, whole, t.total_split, List.filter_append, ← rest_eq]
    simp only [List.count_append]
    rw [counts _ rfl, counts _ rfl, counts _ rfl, counts _ rfl, counts _ rfl, paid.memOp,
      paid.m1, paid.mem, paid.preIo, paid.postIo]
    unfold Timing.price
    simp only [↓reduceIte, reduceCtorEq, Nat.add_zero, Nat.zero_add]
    grind

namespace Cpu

variable [Bus β] {c d : Cpu} {bus : β} {log : Array Access} {bus' : Recorded β} {i : Instr}
  {e : Effect (Recorded β)}

theorem spelled_recorded (c : Cpu) (bus : β) (log : Array Access) :
    c.bytes (⟨bus, log⟩ : Recorded β) = c.bytes bus ∧
      c.spelled (⟨bus, log⟩ : Recorded β) = c.spelled bus := by
  have bytes : c.bytes (⟨bus, log⟩ : Recorded β) = c.bytes bus := by
    have stream : Bus.stream (⟨bus, log⟩ : Recorded β) c.regs.pc = Bus.stream bus c.regs.pc :=
      funext fun n => Bus.stream_recorded bus log c.regs.pc n
    unfold bytes
    rw [stream]
  exact ⟨bytes, congrArg Encoding.ofBytes bytes⟩

def outcome (c : Cpu) (bus : β) (i : Instr) : Bool :=
  i.goes (c.fetched bus (c.spelled bus)).regs (c.fetched bus (c.spelled bus)).bus

theorem outcome_recorded (c : Cpu) (bus : β) (log : Array Access) (i : Instr) :
    i.goes (c.fetched (⟨bus, log⟩ : Recorded β) (c.spelled bus)).regs
      (c.fetched (⟨bus, log⟩ : Recorded β) (c.spelled bus)).bus = c.outcome bus i := by
  have regs : (c.fetched (⟨bus, log⟩ : Recorded β) (c.spelled bus)).regs =
      (c.fetched bus (c.spelled bus)).regs := by
    unfold fetched
    cases c.given <;> rfl
  have inner : (c.fetched (⟨bus, log⟩ : Recorded β) (c.spelled bus)).bus.bus =
      (c.fetched bus (c.spelled bus)).bus := by
    unfold fetched
    cases c.given <;> exact Bus.past_bus ..
  have passes (t : Test) (r : Registers) (b : Recorded β) : t.passes r b = t.passes r b.bus := by
    cases t <;> rfl
  unfold outcome Instr.goes
  simp only [passes, regs, inner]

/-- How many bytes a step takes from memory for the instruction `x`. An opcode on the data lines is
not among them. -/
def consumed (c : Cpu) (x : Encoding) : Nat :=
  match c.given with
  | none => x.length
  | some _ => x.length - 1

def on (c : Cpu) (t : Timing) : Cpu := { c with timing := t }

/-- What it takes to acknowledge, when the opcode is on the data lines. -/
def overhead (c : Cpu) : List Delay :=
  match c.given with
  | none => []
  | some _ => [.im]

theorem fetched_eq (c : Cpu) (bus : β) (x : Encoding) :
    ∃ m path, c.fetched bus x = Core.advance { regs := c.entry, bus } m x.refreshes path ∧
      m + x.kind.operands = c.consumed x ∧ path.filter (·.isInternal) = c.overhead ∧
      ∀ d, d.isInternal = false →
        path.count d = if d = .memOp then m else if d = .m1 then x.opcodes else 0 := by
  unfold fetched consumed overhead
  cases c.given with
  | none => exact ⟨x.size, x.delays, rfl, rfl, x.internal_delays, fun d _ => x.count_delays d⟩
  | some op =>
    -- the first byte is on the data lines: no delay for it, but that of the acknowledge
    have first : x.delays = .memOp :: x.delays.tail := rfl
    have internal := x.internal_delays
    have count := x.count_delays
    rw [first] at internal count
    refine ⟨x.size - 1, .im :: x.delays.tail, rfl, ?_, ?_, fun d external => ?_⟩
    · change x.size - 1 + x.kind.operands = x.size + x.kind.operands - 1
      unfold Encoding.size
      omega
    · exact congrArg (Delay.im :: ·) internal
    · have other : .im ≠ d := by
        rintro rfl
        contradiction
      have count := count d
      rw [List.count_cons_of_ne other]
      by_cases byte : d = .memOp
      · subst byte
        rw [List.count_cons_self] at count
        rw [if_pos rfl] at count ⊢
        omega
      · rw [List.count_cons_of_ne (Ne.symm byte), if_neg byte] at count
        rw [count, if_neg byte]

end Cpu

namespace Timing

theorem total_msx (path : List Delay) (plain : ∀ d ∈ path, d ∉ [.im, .im2, .nmi]) :
    msx.total path = z80.total path + .ofNat 32 (path.count .m1) := by
  induction path with
  | nil => rfl
  | cons d path ih =>
    have here := plain d List.mem_cons_self
    rw [total_cons, total_cons, ih fun e he => plain e (List.mem_cons_of_mem d he)]
    by_cases opcode : d = .m1
    · have dearer : msx.cost .m1 = z80.cost .m1 + 1 := rfl
      rw [opcode, List.count_cons_self, dearer, BitVec.ofNat_add]
      grind
    · have same : msx.cost d = z80.cost d := by
        cases d <;> first | rfl | contradiction
      rw [List.count_cons_of_ne opcode, same, BitVec.add_assoc]

end Timing

theorem Table.plain_delays (t : Table) (op : Byte) (j : Option Index) (goes : Bool) :
    ∀ d ∈ (t.instr op j 0).delays goes, d ∉ [.im, .im2, .nmi, .m1] := by
  revert op goes
  rcases j with _ | _ | _ <;> cases t <;> decide +kernel

namespace Encoding

theorem chain_ofBytes_le (f : Nat → Byte) : (ofBytes f).chain ≤ chainLimit := by
  unfold ofBytes
  dsimp only
  split
  · exact leading_le
  · split <;> exact leading_le

theorem ticks_add_opcodes_lt {x : Encoding} (short : x.chain ≤ chainLimit) (goes : Bool) :
    x.ticks goes + x.opcodes < 4294967296 := by
  have ticks := x.table.ticks_lt x.op (0 < x.chain) goes
  have short : x.chain ≤ 65536 := short
  unfold Encoding.ticks opcodes
  split <;> omega

theorem total_msx {x : Encoding} {f : Nat → Byte} (spells : x.Spells f)
    (short : x.chain ≤ chainLimit) (goes : Bool) :
    (Timing.msx.total (x.delays ++ (x.instr f).delays goes)).toNat =
      (Timing.z80.total (x.delays ++ (x.instr f).delays goes)).toNat + x.opcodes := by
  have rest : ∀ d ∈ (x.instr f).delays goes, d ∉ [.im, .im2, .nmi, .m1] := by
    rw [(instr_kind spells).2]
    exact x.table.plain_delays x.op _ goes
  have plain : ∀ d ∈ x.delays ++ (x.instr f).delays goes, d ∉ [.im, .im2, .nmi] := by
    intro d member
    rcases List.mem_append.mp member with fetched | met
    · rcases eq_of_mem_delays fetched with rfl | rfl <;> decide
    · have other := rest d met
      simp_all
  have opcodes : (x.delays ++ (x.instr f).delays goes).count .m1 = x.opcodes := by
    have none_met : ((x.instr f).delays goes).count .m1 = 0 :=
      List.count_eq_zero.mpr fun met => rest .m1 met (by decide)
    rw [List.count_append, count_delays, none_met]
    rfl
  have z80 : Timing.z80.total (x.delays ++ (x.instr f).delays goes) = .ofNat 32 (x.ticks goes) := by
    refine total_delays x.chain (f (x.chain + 1)) ?_ ?_ goes
    · intro main
      have last := spells.last
      rw [main] at last
      exact last.2
    · rw [index, Opcode.isSome_lastIndex spells.chain]
      exact Bool.false_or _
  -- neither sum goes round, so they can be compared as numbers
  have bound := ticks_add_opcodes_lt short goes
  rw [Timing.total_msx _ plain, opcodes, z80, ← BitVec.ofNat_add, BitVec.toNat_ofNat,
    BitVec.toNat_ofNat, Nat.mod_eq_of_lt bound, Nat.mod_eq_of_lt (by omega)]

end Encoding

namespace Cpu

variable [Bus β] {c d : Cpu} {bus : β} {bus' : Recorded β} {i : Instr} {e : Effect (Recorded β)}

theorem executes_recorded (h : c.effect (⟨bus, #[]⟩ : Recorded β) = some e)
    (executed : .executed i ∈ e.marks) :
    (c.spelled bus).Spells (c.bytes bus) ∧ i = (c.spelled bus).instr (c.bytes bus) ∧
      ∃ pins, e.core = (i.exec pins (c.fetched (⟨bus, #[]⟩ : Recorded β) (c.spelled bus))).2 := by
  obtain ⟨bytes, spelled⟩ := c.spelled_recorded bus #[]
  obtain ⟨-, spells, instr, core⟩ := executes_of_effect h executed
  rw [spelled] at core spells instr
  rw [bytes] at spells instr
  exact ⟨spells, instr, core⟩

theorem bill_of_effect (h : c.effect (⟨bus, #[]⟩ : Recorded β) = some e)
    (executed : .executed i ∈ e.marks) :
    ∃ data, e.core.bus.accesses.toList =
        fetches c.regs.pc (Bus.take bus c.regs.pc (c.consumed (c.spelled bus))) ++ data ∧
      ∀ t : Timing, t.total e.core.charges =
        t.price (c.consumed (c.spelled bus)) (c.spelled bus).opcodes data
          (c.overhead ++ (c.spelled bus).internal (c.outcome bus i)) := by
  obtain ⟨spells, instr, pins, core⟩ := executes_recorded h executed
  have kind := Encoding.instr_kind spells
  rw [← instr] at kind
  have pc : c.entry.pc = c.regs.pc := by
    unfold entry
    cases c.decision <;> rfl
  obtain ⟨m, path, fetched, length, overhead, counts⟩ :=
    c.fetched_eq (⟨bus, #[]⟩ : Recorded β) (c.spelled bus)
  obtain ⟨data, accesses, total⟩ :=
    i.exec_bill pins (listed_of_effect h executed).single fetched counts
  refine ⟨data, ?_, fun t => ?_⟩
  · rw [core, accesses, kind.1, length, pc]
  · rw [core, total, kind.1, length, overhead, kind.2, outcome_recorded]
    rfl

theorem total_of_effect (running : c.decision ≠ .acknowledge)
    (h : c.effect (⟨bus, #[]⟩ : Recorded β) = some e) (executed : .executed i ∈ e.marks) :
    (Timing.msx.total e.core.charges).toNat =
      (Timing.z80.total e.core.charges).toNat + (c.spelled bus).opcodes := by
  obtain ⟨spells, instr, pins, core⟩ := executes_recorded h executed
  have before : (c.fetched (⟨bus, #[]⟩ : Recorded β) (c.spelled bus)).charges =
      (c.spelled bus).delays.reverse := by
    unfold Cpu.fetched
    rw [(given_of_running running).1]
    exact (List.reverseAux_eq ..).trans (List.append_nil _)
  rw [core, i.exec_charges, before, ← List.reverse_append, Timing.total_reverse,
    Timing.total_reverse, instr]
  exact Encoding.total_msx spells (Encoding.chain_ofBytes_le _) _

/-- The bytes of the instruction stream come first on the bus, and then the data. The time that a
step takes to run an instruction is the price of these, of its opcodes, and of delays that depend
on nothing but the opcodes and on whether it branches or repeats. So it is longer on the MSX by
one tick for each opcode. -/
theorem time_accounted (step : c.step (⟨bus, #[]⟩ : Recorded β) = some (d, bus'))
    (executed : .executed i ∈ c.marks (⟨bus, #[]⟩ : Recorded β)) :
    (c.spelled bus).Spells (c.bytes bus) ∧
    (∃ data, bus'.accesses.toList =
        fetches c.regs.pc (Bus.take bus c.regs.pc (c.consumed (c.spelled bus))) ++ data ∧
      d.now.since c.now =
        c.timing.price (c.consumed (c.spelled bus)) (c.spelled bus).opcodes data
          (c.overhead ++ (c.spelled bus).internal (c.outcome bus i))) ∧
    (c.decision ≠ .acknowledge → ∃ d₁ d₂,
      (c.on .z80).step (⟨bus, #[]⟩ : Recorded β) = some (d₁, bus') ∧
      (c.on .msx).step (⟨bus, #[]⟩ : Recorded β) = some (d₂, bus') ∧
      (d₂.now.since c.now).toNat = (d₁.now.since c.now).toNat + (c.spelled bus).opcodes) := by
  obtain ⟨e, he, rfl, rfl⟩ := effect_of_step step
  rw [marks_of_effect he] at executed
  have timed (t : Timing) :
      (c.on t).step (⟨bus, #[]⟩ : Recorded β) = some ((c.on t).settled e) := by
    have same : (c.on t).effect (⟨bus, #[]⟩ : Recorded β) = some e := he
    rw [step_eq_effect, same]
    rfl
  have ticks (t : Timing) : ((c.on t).settled e).1.now.since c.now = t.total e.core.charges :=
    Ticks.since_add c.now _
  obtain ⟨data, accesses, total⟩ := bill_of_effect he executed
  refine ⟨(executes_recorded he executed).1, ⟨data, accesses, (ticks c.timing).trans (total _)⟩,
    fun running => ?_⟩
  refine ⟨((c.on .z80).settled e).1, ((c.on .msx).settled e).1, timed .z80, timed .msx, ?_⟩
  rw [ticks, ticks]
  exact total_of_effect running he executed

theorem time_accounted_rlc :
    let bus : Recorded FlatBus := ⟨FlatBus.empty.load 0 [0xDD, 0xCB, 0x05, 0x06], #[]⟩
    ∃ (d₁ d₂ : Cpu) (bus' : Recorded FlatBus) (data : List Access),
      (ofTiming .z80).step bus = some (d₁, bus') ∧ (ofTiming .msx).step bus = some (d₂, bus') ∧
      bus'.accesses.toList = fetches 0 [0xDD, 0xCB, 0x05, 0x06] ++ data ∧
      d₁.now.since 0 = Timing.z80.price 4 3 data [.bit, .inc] ∧
      (d₂.now.since 0).toNat = (d₁.now.since 0).toNat + 3 := by
  let c : Cpu := .ofTiming .z80
  let bus := FlatBus.empty.load 0 [0xDD, 0xCB, 0x05, 0x06]
  have found : (c.step (⟨bus, #[]⟩ : Recorded FlatBus)).isSome = true := by decide +kernel
  obtain ⟨⟨d, bus'⟩, step⟩ := Option.isSome_iff_exists.mp found
  have executed : .executed (.updateIndexed (.shift .rlc) .ix 5 none) ∈
      c.marks (⟨bus, #[]⟩ : Recorded FlatBus) := by
    decide +kernel
  obtain ⟨-, ⟨data, accesses, ticks⟩, machines⟩ := time_accounted step executed
  obtain ⟨d₁, d₂, first, second, longer⟩ := machines (by decide)
  obtain ⟨rfl, -⟩ := Prod.mk.inj (Option.some.inj (step.symm.trans first))
  have taken : Bus.take bus c.regs.pc (c.consumed (c.spelled bus)) = [0xDD, 0xCB, 0x05, 0x06] := by
    decide +kernel
  have length : c.consumed (c.spelled bus) = 4 := by decide +kernel
  have opcodes : (c.spelled bus).opcodes = 3 := by decide +kernel
  have internal (goes : Bool) :
      c.overhead ++ (c.spelled bus).internal goes = [.bit, .inc] := by
    revert goes
    decide +kernel
  rw [taken] at accesses
  rw [length, opcodes, internal] at ticks
  rw [opcodes] at longer
  exact ⟨d, d₂, bus', data, step, second, accesses, ticks, longer⟩

end Cpu

end Z80
