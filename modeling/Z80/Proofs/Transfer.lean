import Z80.Proofs.Copy

/-! The repeating block transfers between memory and a port. The count is B, which is also the high
half of the port word; output shows it before it is lowered and input after, so the two are one
apart in every round and end at different port words. -/
namespace Z80

/-- How many rounds a block instruction makes that counts in B. -/
def transfers (b : Byte) : Nat := if b = 0 then 256 else b.toNat

theorem transfers_pos (b : Byte) : 0 < transfers b := count_pos b

theorem sub_transfers (b : Byte) : b - .ofNat 8 (transfers b) = 0 :=
  (sub_ofNat_eq_zero_iff (transfers_pos b) (Nat.le_refl _)).mpr rfl

namespace Word

def lowered (w : Word) (n : Nat) : Word := w.withHigh (w.high - .ofNat 8 n)

variable (w : Word) (m n : Nat)

@[simp] theorem high_lowered : (w.lowered n).high = w.high - .ofNat 8 n := high_withHigh _ _

@[simp] theorem low_lowered : (w.lowered n).low = w.low := low_withHigh _ _

theorem lowered_zero : w.lowered 0 = w := by
  simp [lowered, withHigh]

theorem lowered_lowered : (w.lowered m).lowered n = w.lowered (m + n) := by
  have total : w.high - .ofNat 8 m - .ofNat 8 n = w.high - .ofNat 8 (m + n) := by
    rw [BitVec.ofNat_add]
    grind
  rw [lowered, high_lowered, total]
  simp [lowered, withHigh]

theorem lowered_transfers : w.lowered (transfers w.high) = .ofBytes 0 w.low := by
  rw [lowered, sub_transfers, withHigh]

theorem lowered_last : w.lowered (transfers w.high - 1) = .ofBytes 1 w.low := by
  obtain ⟨m, whole⟩ : ∃ m, transfers w.high = m + 1 :=
    Nat.exists_eq_add_one.mpr (transfers_pos w.high)
  have ends := sub_transfers w.high
  have last : w.high - .ofNat 8 m = 1 := by
    rw [whole, BitVec.ofNat_add] at ends
    grind
  rw [whole, Nat.add_sub_cancel, lowered, last, withHigh]

end Word

namespace FlatBus

variable (bus : FlatBus) (dir : Direction)

def send (port src : Word) (n : Nat) : FlatBus :=
  { bus with
    outputs := bus.outputs ++
      ((List.range n).map fun k => (port.lowered k, bus.peek (dir.ahead src k))).toArray }

theorem send_zero (port src : Word) : bus.send dir port src 0 = bus := by
  simp [send]

theorem send_succ (port src : Word) (n : Nat) :
    bus.send dir port src (n + 1) =
      { bus.send dir port src n with
        outputs := (bus.send dir port src n).outputs.push
          (port.lowered n, bus.peek (dir.ahead src n)) } := by
  simp [send, List.range_succ]

def fill (dst : Word) (v : Byte) (n : Nat) : FlatBus :=
  (List.range n).foldl (fun b k => b.poke (dir.ahead dst k) v) bus

variable (dst : Word) (v : Byte) (n : Nat)

theorem fill_succ :
    bus.fill dir dst v (n + 1) = (bus.fill dir dst v n).poke (dir.ahead dst n) v := by
  simp [fill, List.range_succ]

theorem peek_fill (x : Word) :
    (bus.fill dir dst v n).peek x = if ∃ k < n, x = dir.ahead dst k then v else bus.peek x := by
  induction n with
  | zero => simp [fill]
  | succ n ih =>
    rw [fill_succ, peek_poke, ih]
    by_cases last : x = dir.ahead dst n
    · have written : ∃ k < n + 1, x = dir.ahead dst k := ⟨n, n.lt_add_one, last⟩
      rw [if_pos last, if_pos written]
    · have earlier : (∃ k < n + 1, x = dir.ahead dst k) ↔ ∃ k < n, x = dir.ahead dst k := by
        constructor
        · rintro ⟨k, hk, here⟩
          have other : k ≠ n := by
            rintro rfl
            exact last here
          exact ⟨k, by omega, here⟩
        · rintro ⟨k, hk, here⟩
          exact ⟨k, by omega, here⟩
      rw [if_neg last, if_congr earlier rfl rfl]

theorem outside_fill :
    (bus.fill dir dst v n).ports = bus.ports ∧ (bus.fill dir dst v n).outputs = bus.outputs := by
  induction n with
  | zero => exact ⟨rfl, rfl⟩
  | succ n ih =>
    rw [fill_succ]
    exact ih

end FlatBus

namespace Registers

variable (r : Registers) (dir : Direction)

/-- The registers after `n` rounds of a transfer, the last of them at the port word `port`. -/
def transferred (n : Nat) (port : Word) (f : Flags) : Registers :=
  { r with hl := dir.ahead r.hl n, bc := r.bc.lowered n, sh := port + 1 }.setFlags f

theorem transferred_transferred (m n : Nat) (p q : Word) (f g : Flags) :
    (r.transferred dir m p f).transferred dir n q g = r.transferred dir (m + n) q g := by
  have hl : dir.ahead (r.transferred dir m p f).hl n = dir.ahead r.hl (m + n) :=
    dir.ahead_ahead r.hl m n
  have bc : (r.transferred dir m p f).bc.lowered n = r.bc.lowered (m + n) :=
    r.bc.lowered_lowered m n
  rw [transferred, hl, bc]
  exact setFlags_setFlags { r with
    hl := dir.ahead r.hl (m + n), bc := r.bc.lowered (m + n), sh := q + 1 } f g

end Registers

theorem Alu.transferFlags_zero (v addend : Byte) :
    transferFlags { z := true } 0 v addend =
      let carry := BitVec.carry 8 v addend false
      { z := true, h := carry, p := Flags.evenParity ((v + addend) &&& 7), n := v.msb
        c := carry } := by
  simp [transferFlags]

namespace BlockOp

variable (dir : Direction) (regs : Registers) (bus : FlatBus)

def sentFlags (b v : Byte) (hl : Word) : Flags := Alu.transferFlags (.ofValue b) b v hl.low

def receivedFlags (b v c : Byte) : Flags :=
  Alu.transferFlags { s := b.msb, z := b == 0 } b v (dir.next c)

theorem once_output :
    output.once dir (regs, bus) =
      (regs.transferred dir 1 regs.bc
          (sentFlags (regs.bc.lowered 1).high (bus.peek regs.hl) (dir.ahead regs.hl 1)),
        bus.send dir regs.bc regs.hl 1) := by
  have sent : bus.send dir regs.bc regs.hl 1 =
      { bus with outputs := bus.outputs.push (regs.bc, bus.peek regs.hl) } := by
    rw [FlatBus.send_succ, FlatBus.send_zero, Word.lowered_zero, Direction.ahead_zero]
  rw [sent, Word.high_lowered]
  cases dir <;> rfl

theorem once_input :
    input.once dir (regs, bus) =
      (regs.transferred dir 1 (regs.bc.lowered 1)
          (receivedFlags dir (regs.bc.lowered 1).high (bus.ports.get regs.bc.low) regs.bc.low),
        bus.poke regs.hl (bus.ports.get regs.bc.low)) := by
  have port : bus.ports.get regs.bc.low = bus.ports.get (regs.bc.lowered 1).low := by
    rw [Word.low_lowered]
  rw [port, Word.high_lowered]
  cases dir <;> rfl

variable (n : Nat)

theorem iterate_output :
    (output.once dir)^[n + 1] (regs, bus) =
      (regs.transferred dir (n + 1) (regs.bc.lowered n)
          (sentFlags (regs.bc.lowered (n + 1)).high (bus.peek (dir.ahead regs.hl n))
            (dir.ahead regs.hl (n + 1))),
        bus.send dir regs.bc regs.hl (n + 1)) := by
  induction n with
  | zero =>
    rw [Function.iterate_one, once_output, Direction.ahead_zero, Word.lowered_zero]
  | succ n ih =>
    let r := regs.transferred dir (n + 1) (regs.bc.lowered n)
      (sentFlags (regs.bc.lowered (n + 1)).high (bus.peek (dir.ahead regs.hl n))
        (dir.ahead regs.hl (n + 1)))
    have bc : r.bc = regs.bc.lowered (n + 1) := rfl
    have hl : r.hl = dir.ahead regs.hl (n + 1) := rfl
    have sent : (bus.send dir regs.bc regs.hl (n + 1)).send dir r.bc r.hl 1 =
        bus.send dir regs.bc regs.hl (n + 1 + 1) := by
      rw [FlatBus.send_succ, FlatBus.send_zero, Word.lowered_zero, Direction.ahead_zero, bc, hl]
      exact (FlatBus.send_succ ..).symm
    rw [Function.iterate_succ_apply', ih, once_output, sent, Registers.transferred_transferred,
      bc, hl, Word.lowered_lowered, Direction.ahead_ahead]
    rfl

theorem iterate_input :
    (input.once dir)^[n + 1] (regs, bus) =
      (regs.transferred dir (n + 1) (regs.bc.lowered (n + 1))
          (receivedFlags dir (regs.bc.lowered (n + 1)).high (bus.ports.get regs.bc.low)
            regs.bc.low),
        bus.fill dir regs.hl (bus.ports.get regs.bc.low) (n + 1)) := by
  induction n with
  | zero =>
    rw [Function.iterate_one, once_input, FlatBus.fill_succ, Direction.ahead_zero]
    rfl
  | succ n ih =>
    let v := bus.ports.get regs.bc.low
    let r := regs.transferred dir (n + 1) (regs.bc.lowered (n + 1))
      (receivedFlags dir (regs.bc.lowered (n + 1)).high v regs.bc.low)
    have bc : r.bc = regs.bc.lowered (n + 1) := rfl
    have ports : (bus.fill dir regs.hl v (n + 1)).ports = bus.ports :=
      (bus.outside_fill dir regs.hl v (n + 1)).1
    rw [Function.iterate_succ_apply', ih, once_input, Registers.transferred_transferred,
      FlatBus.fill_succ _ _ _ _ (n + 1), ports, bc, Word.lowered_lowered, Word.low_lowered]
    rfl

theorem bus_output (k : Nat) :
    ((output.once dir)^[k] (regs, bus)).2 = bus.send dir regs.bc regs.hl k := by
  cases k with
  | zero => exact (bus.send_zero dir regs.bc regs.hl).symm
  | succ k => rw [iterate_output]

theorem bus_input (k : Nat) :
    ((input.once dir)^[k] (regs, bus)).2 =
      bus.fill dir regs.hl (bus.ports.get regs.bc.low) k := by
  cases k with
  | zero => rfl
  | succ k => rw [iterate_input]

theorem output_transfers :
    let n := transfers regs.bc.high
    ((output.once dir)^[n] (regs, bus)).1 =
      regs.transferred dir n (.ofBytes 1 regs.bc.low)
        (Alu.transferFlags { z := true } 0 (bus.peek (dir.ahead regs.hl (n - 1)))
          (dir.ahead regs.hl n).low) := by
  intro n
  obtain ⟨m, whole⟩ : ∃ m, n = m + 1 := Nat.exists_eq_add_one.mpr (transfers_pos _)
  have before : n - 1 = m := Nat.sub_eq_of_eq_add whole
  have port : regs.bc.lowered m = .ofBytes 1 regs.bc.low := by
    rw [← before, Word.lowered_last]
  have none_left : (regs.bc.lowered (m + 1)).high = 0 := by
    rw [← whole, Word.lowered_transfers, Word.high_ofBytes]
  rw [before, whole, iterate_output, port, none_left]
  rfl

theorem input_transfers :
    let n := transfers regs.bc.high
    ((input.once dir)^[n] (regs, bus)).1 =
      regs.transferred dir n (.ofBytes 0 regs.bc.low)
        (Alu.transferFlags { z := true } 0 (bus.ports.get regs.bc.low)
          (dir.next regs.bc.low)) := by
  intro n
  obtain ⟨m, whole⟩ : ∃ m, n = m + 1 := Nat.exists_eq_add_one.mpr (transfers_pos _)
  have port : regs.bc.lowered (m + 1) = .ofBytes 0 regs.bc.low := by
    rw [← whole, Word.lowered_transfers]
  rw [whole, iterate_input, port, Word.high_ofBytes]
  rfl

variable {op : BlockOp} (counts : op.test = .count8)

include counts

theorem bc_once (s : Registers × FlatBus) : (op.once dir s).1.bc = s.1.bc.lowered 1 := by
  cases op with
  | move => cases counts
  | search => cases counts
  | input => rw [once_input]; rfl
  | output => rw [once_output]; rfl

theorem flags_once (s : Registers × FlatBus) :
    (op.once dir s).1.flags.h = (op.once dir s).1.flags.c := by
  cases op with
  | move => cases counts
  | search => cases counts
  | input =>
    rw [once_input, Registers.transferred, Registers.flags_setFlags]
    rfl
  | output =>
    rw [once_output, Registers.transferred, Registers.flags_setFlags]
    rfl

theorem bc_transfers : ((op.once dir)^[n] (regs, bus)).1.bc = regs.bc.lowered n := by
  induction n with
  | zero => exact regs.bc.lowered_zero.symm
  | succ n ih =>
    rw [Function.iterate_succ_apply', bc_once dir counts, ih, Word.lowered_lowered]

theorem goesOn_transfers {k : Nat} (hk : k < transfers regs.bc.high) :
    op.goesOn ((op.once dir)^[k] (regs, bus)) = decide (k + 1 ≠ transfers regs.bc.high) := by
  have counted : regs.bc.high - .ofNat 8 (k + 1) = 0 ↔ k + 1 = transfers regs.bc.high :=
    sub_ofNat_eq_zero_iff k.succ_pos hk
  have next : (regs.bc.lowered k).high - 1 = regs.bc.high - .ofNat 8 (k + 1) := by
    rw [← Word.high_lowered, ← Word.lowered_lowered, Word.high_lowered _ 1]
    rfl
  have test : op.goesOn ((op.once dir)^[k] (regs, bus)) =
      decide ((regs.bc.lowered k).high - 1 ≠ 0) := by
    rw [goesOn, counts, ← bc_transfers dir regs bus k counts]
    rfl
  rw [test, next, decide_eq_decide, ne_eq, counted]

end BlockOp

namespace Cpu

def outputCode : Direction → Byte
  | .up => 0xB3
  | .down => 0xBB

def inputCode : Direction → Byte
  | .up => 0xB2
  | .down => 0xBA

theorem decode_outputCode (dir : Direction) :
    Opcode.decodeExtended (outputCode dir) = .block .output dir true := by
  cases dir <;> decide

theorem decode_inputCode (dir : Direction) :
    Opcode.decodeExtended (inputCode dir) = .block .input dir true := by
  cases dir <;> decide

/-- Both transfers go on until B has come to nothing, with the half carry equal to the carry after
each round. They differ in what the rounds leave on the bus and in how the last one ends. -/
theorem runs_transfer {c : Cpu} {bus : FlatBus} {op : BlockOp} {dir : Direction}
    {left : Nat → FlatBus} {port : Word} {f : Flags} (quiet : c.eligible = false)
    (counts : op.test = .count8)
    (rounds : ∀ k, ((op.once dir)^[k] (c.shut.regs, bus)).2 = left k)
    (stands : ∀ k < transfers c.regs.bc.high, (left k).Repeats op dir c.regs.pc)
    (last : ((op.once dir)^[transfers c.regs.bc.high] (c.shut.regs, bus)).1 =
      c.shut.regs.transferred dir (transfers c.regs.bc.high) port f) :
    let n := transfers c.regs.bc.high
    (∀ k < n, ∃ t d, c.Runs bus k t d (left k) ∧ d.regs.pc = c.regs.pc ∧
      (0 < k → d.regs.flags.h = d.regs.flags.c)) ∧
    ∃ t d, c.Runs bus n t d (left n) ∧
      d.regs = { c.regs with
        pc := c.regs.pc + 2
        bc := .ofBytes 0 c.regs.bc.low
        hl := dir.ahead c.regs.hl n
        r := c.regs.r + .ofNat 8 (2 * n)
        eiMode := false
        sh := port + 1
        af := .ofBytes c.regs.a f.toByte } ∧
      (c.timing = .z80 → t = 21 * (n - 1) + 16) := by
  intro n
  have goes : ∀ k < n,
      op.goesOn ((op.once dir)^[k] (c.shut.regs, bus)) = decide (k + 1 ≠ n) := by
    intro k hk
    exact BlockOp.goesOn_transfers dir c.shut.regs bus counts hk
  have stands : ∀ k < n,
      ((op.once dir)^[k] (c.shut.regs, bus)).2.Repeats op dir c.regs.pc := by
    intro k hk
    rw [rounds]
    exact stands k hk
  constructor
  · intro k hk
    obtain ⟨t, d, run, hd, -⟩ := runs_within quiet stands goes hk
    rw [rounds] at run
    have here : d.shut.regs.pc = c.regs.pc := by rw [hd]
    refine ⟨t, d, run, here, ?_⟩
    intro pos
    obtain ⟨k, rfl⟩ : ∃ m, k = m + 1 := Nat.exists_eq_add_one.mpr pos
    have af : d.shut.regs.af = ((op.once dir)^[k + 1] (c.shut.regs, bus)).1.af := by rw [hd]
    have flags : d.regs.flags = ((op.once dir)^[k + 1] (c.shut.regs, bus)).1.flags :=
      congrArg (fun af : Word => Flags.ofByte af.low) af
    rw [flags, Function.iterate_succ_apply']
    exact BlockOp.flags_once dir counts _
  · obtain ⟨-, t, d, run, hd, ticks⟩ := runs_repeat quiet (transfers_pos _) stands goes
    rw [rounds] at run
    have bc : c.shut.regs.bc.lowered (transfers c.regs.bc.high) = .ofBytes 0 c.regs.bc.low :=
      c.regs.bc.lowered_transfers
    refine ⟨t, d, run, ?_, ticks⟩
    rw [hd, last, Registers.transferred, bc]
    rfl

/-- The repeating transfers pass one byte for each count of B. -/
theorem transfers_every_byte (c : Cpu) (bus : FlatBus) (dir : Direction)
    (quiet : c.eligible = false) (lead : bus.peek c.regs.pc = 0xED) :
    let n := transfers c.regs.bc.high
    let flags (v addend : Byte) : Flags :=
      let carry := BitVec.carry 8 v addend false
      { z := true, h := carry, p := Flags.evenParity ((v + addend) &&& 7), n := v.msb, c := carry }
    let finished (sh : Word) (f : Flags) : Registers :=
      { c.regs with
        pc := c.regs.pc + 2
        bc := .ofBytes 0 c.regs.bc.low
        hl := dir.ahead c.regs.hl n
        r := c.regs.r + .ofNat 8 (2 * n)
        eiMode := false
        sh
        af := .ofBytes c.regs.a f.toByte }
    (bus.peek (c.regs.pc + 1) = outputCode dir →
      let sent := bus.send dir c.regs.bc c.regs.hl
      let last := bus.peek (dir.ahead c.regs.hl (n - 1))
      (∀ k < n, ∃ t d, c.Runs bus k t d (sent k) ∧ d.regs.pc = c.regs.pc ∧
        (0 < k → d.regs.flags.h = d.regs.flags.c)) ∧
      ∃ t d, c.Runs bus n t d (sent n) ∧
        d.regs = finished (.ofBytes 1 c.regs.bc.low + 1)
          (flags last (dir.ahead c.regs.hl n).low) ∧
        (c.timing = .z80 → t = 21 * (n - 1) + 16)) ∧
    (bus.peek (c.regs.pc + 1) = inputCode dir →
      let v := bus.ports.get c.regs.bc.low
      let filled := bus.fill dir c.regs.hl v
      (∀ k < n, ∀ a ∈ [c.regs.pc, c.regs.pc + 1], (filled k).peek a = bus.peek a) →
      (∀ k < n, ∃ t d, c.Runs bus k t d (filled k) ∧ d.regs.pc = c.regs.pc ∧
        (0 < k → d.regs.flags.h = d.regs.flags.c)) ∧
      ∃ t d, c.Runs bus n t d (filled n) ∧
        d.regs = finished (.ofBytes 0 c.regs.bc.low + 1) (flags v (dir.next c.regs.bc.low)) ∧
        (∀ x, (filled n).peek x =
          if ∃ k < n, x = dir.ahead c.regs.hl k then v else bus.peek x) ∧
        (filled n).outputs = bus.outputs ∧
        (c.timing = .z80 → t = 21 * (n - 1) + 16)) := by
  intro n flags finished
  constructor
  · intro code sent last
    have stands : ∀ k < n, (sent k).Repeats .output dir c.regs.pc := by
      intro k hk
      constructor
      · exact lead
      · rw [← decode_outputCode, ← code]
        rfl
    have final := BlockOp.output_transfers dir c.shut.regs bus
    simp only [Alu.transferFlags_zero] at final
    exact runs_transfer quiet rfl (BlockOp.bus_output dir c.shut.regs bus) stands final
  · intro code v filled kept
    have stands : ∀ k < n, (filled k).Repeats .input dir c.regs.pc := by
      intro k hk
      have here := kept k hk
      constructor
      · exact (here c.regs.pc (by simp)).trans lead
      · rw [← decode_inputCode, ← code]
        exact congrArg Opcode.decodeExtended (here (c.regs.pc + 1) (by simp))
    have final := BlockOp.input_transfers dir c.shut.regs bus
    simp only [Alu.transferFlags_zero] at final
    obtain ⟨within, t, d, run, hd, ticks⟩ :=
      runs_transfer quiet rfl (BlockOp.bus_input dir c.shut.regs bus) stands final
    exact ⟨within, t, d, run, hd, bus.peek_fill dir c.regs.hl v n,
      (bus.outside_fill dir c.regs.hl v n).2, ticks⟩

theorem transfers_every_byte_two :
    (∃ (c d : Cpu) (bus bus' : FlatBus), c.Runs bus 2 37 d bus' ∧
      d.regs.pc = 0x102 ∧ bus'.outputs.toList = [(0x0207, 1), (0x0107, 2)]) ∧
    ∃ (c d : Cpu) (bus bus' : FlatBus), c.Runs bus 2 37 d bus' ∧
      d.regs.pc = 0x102 ∧ [0xFFFF, 0x0000].map bus'.peek = [5, 5] := by
  constructor
  · let c : Cpu := { regs := { Registers.powerOn with pc := 0x100, bc := 0x0207, hl := 0 } }
    let bus : FlatBus :=
      ((FlatBus.empty.load 0x100 [0xED, 0xBB]).poke 0 1).poke 0xFFFF 2
    have two : transfers c.regs.bc.high = 2 := by decide
    obtain ⟨output, -⟩ := transfers_every_byte c bus .down (by decide) (by decide +kernel)
    obtain ⟨-, t, d, run, hd, ticks⟩ := output (by decide +kernel)
    rw [two] at run ticks
    obtain rfl : t = 37 := ticks rfl
    have logged : (bus.send .down c.regs.bc c.regs.hl 2).outputs.toList =
        [(0x0207, 1), (0x0107, 2)] := by decide +kernel
    exact ⟨c, d, bus, _, run, congrArg Registers.pc hd, logged⟩
  · let c : Cpu := { regs := { Registers.powerOn with pc := 0x100, bc := 0x0207, hl := 0xFFFF } }
    let bus : FlatBus := (FlatBus.empty.load 0x100 [0xED, 0xB2]).setPort 7 5
    have two : transfers c.regs.bc.high = 2 := by decide
    have kept : ∀ k < transfers c.regs.bc.high, ∀ a ∈ [c.regs.pc, c.regs.pc + 1],
        (bus.fill .up c.regs.hl (bus.ports.get c.regs.bc.low) k).peek a = bus.peek a := by
      intro k hk a ha
      rw [two] at hk
      rw [FlatBus.peek_fill, if_neg]
      rintro ⟨j, hj, rfl⟩
      obtain rfl : j = 0 := by omega
      revert ha
      decide
    obtain ⟨-, input⟩ := transfers_every_byte c bus .up (by decide) (by decide +kernel)
    obtain ⟨-, t, d, run, hd, -, -, ticks⟩ := input (by decide +kernel) kept
    rw [two] at run ticks
    obtain rfl : t = 37 := ticks rfl
    have filled : [0xFFFF, 0x0000].map
        (bus.fill .up c.regs.hl (bus.ports.get c.regs.bc.low) 2).peek = [5, 5] := by
      decide +kernel
    exact ⟨c, d, bus, _, run, congrArg Registers.pc hd, filled⟩

end Cpu

end Z80
