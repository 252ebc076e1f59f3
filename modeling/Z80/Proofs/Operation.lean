import Z80.Bus.Recorded
import Z80.Proofs.Spelled

/-! Operations on a byte and the forms they come in. An operation is the same in every form; what
differs is where its operand lies, and with it the instruction that is found. -/
namespace Z80

def AluOp.field : AluOp → BitVec 3
  | add => 0
  | adc => 1
  | sub => 2
  | sbc => 3
  | and => 4
  | xor => 5
  | or => 6
  | cp => 7

def Shift.field : Shift → BitVec 3
  | rlc => 0
  | rrc => 1
  | rl => 2
  | rr => 3
  | sla => 4
  | sra => 5
  | sll => 6
  | srl => 7

theorem AluOp.ofField_field (op : AluOp) : ofField op.field = op := by
  cases op <;> rfl

theorem Shift.ofField_field (s : Shift) : ofField s.field = s := by
  cases s <;> rfl

inductive Operation where
  | update (u : Update)
  | alu (op : AluOp)
  | bit (n : BitVec 3)
  deriving DecidableEq

/-- What an operation writes to its operand and to A, if it does, and the flags that it leaves. -/
structure Outcome where
  operand : Option Byte := none
  a : Option Byte := none
  flags : Flags

namespace Operation

def code (z : BitVec 3) : Operation → Byte
  | update .inc => 0#2 ++ z ++ 4#3
  | update .dec => 0#2 ++ z ++ 5#3
  | update (.shift s) => 0#2 ++ s.field ++ z
  | update (.res n) => 2#2 ++ n ++ z
  | update (.set n) => 3#2 ++ n ++ z
  | alu op => 2#2 ++ op.field ++ z
  | bit n => 1#2 ++ n ++ z

def inBits : Operation → Bool
  | update .inc | update .dec | alu _ => false
  | _ => true

/-- The operand is `v`. A test copies bits 5 and 3 of `xy` to the flags. -/
def outcome (a v xy : Byte) (f : Flags) : Operation → Outcome
  | update u => { operand := (u.apply v f).value, flags := (u.apply v f).flags }
  | alu op => { a := (op.apply a v f).value, flags := (op.apply a v f).flags }
  | bit n => { flags := Alu.bit n v xy f }

def instr (loc : Loc) : Operation → Instr
  | update u => .update u loc
  | alu op => .alu op loc
  | bit n => match loc with
    | .reg x => .bit n x
    | .mem _ => .bitMem n

def indexedInstr (i : Index) (d : Byte) (copy : Option Reg8) : Operation → Instr
  | update u => .updateIndexed u i d copy
  | bit n => .bitIndexed n i d
  | alu _ => .nop

end Operation

namespace Opcode

variable (a : BitVec 2) (b c : BitVec 3)

@[simp] theorem x_append : x (a ++ b ++ c) = a := by
  revert a b c
  decide +kernel

@[simp] theorem y_append : y (a ++ b ++ c) = b := by
  revert a b c
  decide +kernel

@[simp] theorem z_append : z (a ++ b ++ c) = c := by
  revert a b c
  decide +kernel

end Opcode

namespace Operation

variable {op : Operation} (z : BitVec 3)

theorem decode_code (plain : op.inBits = false) (i : Option Index) :
    Opcode.decode i (op.code z) = .instr (op.instr (.ofField i z)) := by
  unfold Opcode.decode
  match op with
  | update .inc => simp [code, instr, Opcode.decodeLow]
  | update .dec => simp [code, instr, Opcode.decodeLow]
  | alu op => simp [code, instr, AluOp.ofField_field]

theorem decodeBits_code (bits : op.inBits = true) :
    Opcode.decodeBits (op.code z) = op.instr (.ofField none z) := by
  unfold Opcode.decodeBits Opcode.updateOf
  match op with
  | update (.shift s) => simp [code, instr, Shift.ofField_field]
  | update (.res n) => simp [code, instr]
  | update (.set n) => simp [code, instr]
  | bit n =>
    simp only [code, instr, Opcode.x_append, Opcode.y_append, Opcode.z_append, Loc.ofField]
    cases Reg8.ofField z <;> rfl

theorem decodeIndexedBits_code (bits : op.inBits = true) (i : Index) (d : Byte) :
    Opcode.decodeIndexedBits i d (op.code z) = op.indexedInstr i d (Reg8.ofField z) := by
  unfold Opcode.decodeIndexedBits Opcode.updateOf
  match op with
  | update (.shift s) => simp [code, indexedInstr, Shift.ofField_field]
  | update (.res n) => simp [code, indexedInstr]
  | update (.set n) => simp [code, indexedInstr]
  | bit n => simp [code, indexedInstr]

end Operation

def Index.code : Index → Byte
  | ix => 0xDD
  | iy => 0xFD

theorem Opcode.isIndex_code (i : Index) : isIndex i.code := by
  cases i
  · exact .inl rfl
  · exact .inr rfl

/-- An operation as it is encoded. Where no byte is displaced `d` does not count. -/
structure Form where
  op : Operation
  index : Option Index
  z : BitVec 3
  d : Byte

inductive Place where
  | reg (x : Reg8)
  | byte (address : Word)

def Place.value (r : Registers) (bus : FlatBus) : Place → Byte
  | reg x => x.get r
  | byte address => bus.peek address

namespace Form

variable (F : Form)

def bytes : List Byte :=
  match F.index, F.op.inBits, Reg8.ofField F.z with
  | none, false, _ => [F.op.code F.z]
  | none, true, _ => [0xCB, F.op.code F.z]
  | some i, false, some _ => [i.code, F.op.code F.z]
  | some i, false, none => [i.code, F.op.code F.z, F.d]
  | some i, true, _ => [i.code, 0xCB, F.d, F.op.code F.z]

/-- Behind both a prefix and CB the operand is in memory whatever the field for it says. -/
def place (r : Registers) : Place :=
  match F.index, F.op.inBits, Reg8.ofField F.z with
  | none, _, some x => .reg x
  | none, _, none => .byte r.hl
  | some i, false, some x => .reg (x.under i)
  | some i, false, none => .byte ((r.get i.pair).displace F.d)
  | some i, true, _ => .byte ((r.get i.pair).displace F.d)

/-- The register that takes what is written: the operand, or a plain register beside an operand
in memory. -/
def target : Option Reg8 :=
  (Reg8.ofField F.z).map (·.under (if F.op.inBits then none else F.index))

end Form

def FlatBus.Holds (bus : FlatBus) : Word → List Byte → Prop
  | _, [] => True
  | a, b :: rest => bus.peek a = b ∧ bus.Holds (a + 1) rest

namespace FlatBus

variable {bus bus' : FlatBus} {a w : Word} {bytes u v : List Byte}

theorem holds_iff :
    bus.Holds a bytes ↔ ∀ k, (h : k < bytes.length) → bus.peek (a + .ofNat 16 k) = bytes[k] := by
  induction bytes generalizing a with
  | nil => exact iff_of_true trivial fun k h => absurd h k.not_lt_zero
  | cons b bytes ih =>
    have later (k : Nat) : a + .ofNat 16 (k + 1) = a + 1 + .ofNat 16 k := Word.add_ofNat_succ a k
    constructor
    · rintro ⟨here, rest⟩ k hk
      cases k with
      | zero => rwa [BitVec.add_zero]
      | succ k =>
        rw [later]
        exact ih.mp rest k (Nat.lt_of_succ_lt_succ hk)
    · intro h
      refine ⟨?_, ih.mpr fun k hk => ?_⟩
      · have here := h 0 bytes.length.succ_pos
        rwa [BitVec.add_zero] at here
      · rw [← later]
        exact h (k + 1) (Nat.succ_lt_succ hk)

theorem Holds.congr (held : bus.Holds a bytes)
    (same : ∀ k < bytes.length, bus'.peek (a + .ofNat 16 k) = bus.peek (a + .ofNat 16 k)) :
    bus'.Holds a bytes :=
  holds_iff.mpr fun k hk => (same k hk).trans (holds_iff.mp held k hk)

theorem holds_append :
    bus.Holds a (u ++ v) ↔ bus.Holds a u ∧ bus.Holds (a + .ofNat 16 u.length) v := by
  induction u generalizing a with
  | nil => simp [Holds]
  | cons b u ih =>
    rw [List.cons_append, Holds, Holds, ih, List.length_cons, Word.add_ofNat_succ, and_assoc]

theorem Holds.peekWord (held : bus.Holds a [w.low, w.high]) : bus.peekWord a = w := by
  obtain ⟨low, high, -⟩ := held
  rw [FlatBus.peekWord, low, high, Word.ofBytes_high_low]

end FlatBus

def fetches : Word → List Byte → List Access
  | _, [] => []
  | a, b :: rest => .read a b :: fetches (a + 1) rest

namespace Bus

variable {bus : FlatBus} {a : Word} {bytes : List Byte}

theorem stream_recorded {β : Type} [Bus β] (bus : β) (log : Array Access) (a : Word) (n : Nat) :
    stream (⟨bus, log⟩ : Recorded β) a n = stream bus a n := by
  induction n generalizing bus log a with
  | zero => rfl
  | succ n ih => exact ih ..

theorem stream_held (held : bus.Holds a bytes) {k : Nat} (h : k < bytes.length) :
    stream bus a k = bytes.getD k 0 := by
  rw [stream_flat, FlatBus.holds_iff.mp held k h, List.getD, List.getElem?_eq_getElem h]
  rfl

theorem past_held (held : bus.Holds a bytes) (log : Array Access) :
    past (⟨bus, log⟩ : Recorded FlatBus) a bytes.length = ⟨bus, log ++ fetches a bytes⟩ := by
  induction bytes generalizing a log with
  | nil => simp [past, fetches]
  | cons b bytes ih =>
    obtain ⟨rfl, rest⟩ := held
    have one : log ++ fetches a (bus.peek a :: bytes) =
        log.push (.read a (bus.peek a)) ++ fetches (a + 1) bytes := by simp [fetches]
    rw [one]
    exact ih rest _

end Bus

namespace Exec

variable {regs : Registers} {bus : FlatBus} {log : Array Access} {bytes : List Byte}
  {op b d : Byte} {i : Index} {x : Instr}

/-- The fetch takes the bytes that lie at PC, if that is how an instruction is spelled. -/
theorem nextInstruction_held {e : Encoding} (held : bus.Holds regs.pc bytes)
    (spells : e.Spells (bytes.getD · 0)) (whole : bytes.length = e.size) :
    (nextInstruction : Exec (Recorded FlatBus) _) { regs, bus := ⟨bus, log⟩ } =
      (some (e.instr (bytes.getD · 0)),
        { regs := regs.past (.ofNat 16 e.size) (.ofNat 8 e.refreshes)
          bus := ⟨bus, log ++ fetches regs.pc bytes⟩
          charges := e.delays.reverse }) := by
  have here (k : Nat) (hk : k < e.size) : Bus.stream bus regs.pc k = bytes.getD k 0 :=
    Bus.stream_held held (whole ▸ hk)
  have short : e.chain < chainLimit := (spells.congr here).1.short
  have fetched := nextInstruction_congr
    (s := { regs, bus := (⟨bus, log⟩ : Recorded FlatBus) }) spells (Nat.le_of_lt short)
    fun k hk => (Bus.stream_recorded ..).trans (here k hk)
  rw [fetched, Core.advance, ← whole, Bus.past_held held, List.reverseAux_eq, List.append_nil]

theorem nextInstruction_plain (held : bus.Holds regs.pc [op])
    (code : Opcode.decode none op = .instr x) :
    (nextInstruction : Exec (Recorded FlatBus) _) { regs, bus := ⟨bus, log⟩ } =
      (some x,
        { regs := regs.past 1 1
          bus := ⟨bus, log ++ fetches regs.pc [op]⟩
          charges := [.m1, .memOp] }) := by
  have spells : Encoding.Spells ⟨0, .main, op⟩ ([op].getD · 0) :=
    ⟨by simp, rfl, Opcode.main_of_decode code⟩
  rw [nextInstruction_held held spells rfl, Encoding.instr_main code rfl]
  rfl

theorem nextInstruction_bits (held : bus.Holds regs.pc [0xCB, op]) :
    (nextInstruction : Exec (Recorded FlatBus) _) { regs, bus := ⟨bus, log⟩ } =
      (some (Opcode.decodeBits op),
        { regs := regs.past 2 2
          bus := ⟨bus, log ++ fetches regs.pc [0xCB, op]⟩
          charges := [.m1, .memOp, .m1, .memOp] }) := by
  have spells : Encoding.Spells ⟨0, .bits, op⟩ ([0xCB, op].getD · 0) := ⟨by simp, rfl, rfl⟩
  exact nextInstruction_held held spells rfl

theorem nextInstruction_indexed (held : bus.Holds regs.pc [i.code, op])
    (code : Opcode.decode (some i) op = .instr x) :
    (nextInstruction : Exec (Recorded FlatBus) _) { regs, bus := ⟨bus, log⟩ } =
      (some x,
        { regs := regs.past 2 2
          bus := ⟨bus, log ++ fetches regs.pc [i.code, op]⟩
          charges := [.m1, .memOp, .m1, .memOp] }) := by
  have spells : Encoding.Spells ⟨1, .main, op⟩ ([i.code, op].getD · 0) :=
    ⟨by simp [Opcode.isIndex_code], rfl, Opcode.main_of_decode code⟩
  have last : Encoding.index ⟨1, .main, op⟩ ([i.code, op].getD · 0) = some i := by
    cases i <;> rfl
  rw [nextInstruction_held held spells rfl, Encoding.instr_main code last]
  rfl

theorem nextInstruction_indexedBits (held : bus.Holds regs.pc [i.code, 0xCB, d, op]) :
    (nextInstruction : Exec (Recorded FlatBus) _) { regs, bus := ⟨bus, log⟩ } =
      (some (Opcode.decodeIndexedBits i d op),
        { regs := regs.past 4 2
          bus := ⟨bus, log ++ fetches regs.pc [i.code, 0xCB, d, op]⟩
          charges := [.m1, .memOp, .memOp, .m1, .memOp, .m1, .memOp] }) := by
  have spells : Encoding.Spells ⟨1, .bits, op⟩ ([i.code, 0xCB, d, op].getD · 0) :=
    ⟨by simp [Opcode.isIndex_code], rfl, rfl⟩
  rw [nextInstruction_held held spells rfl]
  cases i <;> rfl

end Exec

end Z80
