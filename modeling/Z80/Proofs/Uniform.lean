import Z80.Proofs.Operation
import Z80.Proofs.Ran

/-! Operations wherever their operands lie. What an operation makes of a byte is settled by the
byte, A and the flags alone; the place of the byte shows on the bus, in the latch and in the two
flags that a test copies from it. -/
namespace Z80

namespace Reg8

variable (x : Reg8) (v : Byte) (f : Flags) (r : Registers)

theorem get_past (bytes : Word) (opcodes : Byte) : x.get (r.past bytes opcodes) = x.get r := by
  cases x <;> rfl

theorem get_setFlags : x.get (r.setFlags f) = x.get r := by
  cases x with
  | a => exact Word.high_withLow ..
  | _ => rfl

theorem flags_set : (x.set v r).flags = r.flags := by
  cases x with
  | a => exact Registers.flags_setA r v
  | _ => rfl

end Reg8

theorem Registers.set_setFlags (r : Registers) (f : Flags) (x : Reg8) (v : Byte) :
    x.set v (r.setFlags f) = (x.set v r).setFlags f := by
  have apart (w : Word) (b : Byte) : (w.withLow b).withHigh v = (w.withHigh v).withLow b := by
    simp [Word.withHigh, Word.withLow]
  cases x with
  | a => exact congrArg (r.set .af) (apart r.af f.toByte)
  | _ => rfl

namespace Outcome

def store (e : Outcome) (target : Option Reg8) (r : Registers) : Registers :=
  let r := (e.a.elim r r.setA).setFlags e.flags
  match e.operand, target with
  | some w, some x => x.set w r
  | _, _ => r

theorem flags_store (e : Outcome) (target : Option Reg8) (r : Registers) :
    (e.store target r).flags = e.flags := by
  unfold store
  split
  · rw [Reg8.flags_set, Registers.flags_setFlags]
  · rw [Registers.flags_setFlags]

def poke (e : Outcome) (address : Word) (bus : FlatBus) : FlatBus :=
  match e.operand with
  | some w => bus.poke address w
  | none => bus

def accesses (e : Outcome) (address : Word) (v : Byte) : List Access :=
  match e.operand with
  | some w => [.read address v, .write address w]
  | none => [.read address v]

end Outcome

namespace Exec

variable (pins : Pins) (regs : Registers) (bus : FlatBus) (log : Array Access)
  (charges : List Delay) {d : Byte} (i : Index)

theorem exec_register (op : Operation) (x : Reg8) :
    ∃ charges', ((op.instr (.reg x)).exec pins
      ({ regs, bus := ⟨bus, log⟩, charges } : Core (Recorded FlatBus))).2 =
        { regs := (op.outcome regs.a (x.get regs) (x.get regs) regs.flags).store (some x) regs
          bus := ⟨bus, log⟩
          charges := charges' } := by
  cases op with
  | update u =>
    refine ⟨charges, ?_⟩
    simp only [Operation.outcome, Outcome.store, Registers.set_setFlags]
    rfl
  | alu op => exact ⟨_, rfl⟩
  | bit n => exact ⟨_, rfl⟩

theorem exec_hl (op : Operation) :
    let v := bus.peek regs.hl
    let e := op.outcome regs.a v regs.sh.high regs.flags
    ∃ charges', ((op.instr (.mem .hl)).exec pins
      ({ regs, bus := ⟨bus, log⟩, charges } : Core (Recorded FlatBus))).2 =
        { regs := e.store none regs
          bus := ⟨e.poke regs.hl bus, log ++ e.accesses regs.hl v⟩
          charges := charges' } := by
  cases op <;> exact ⟨_, rfl⟩

variable {regs bus}

variable {log charges} in
theorem fetchByte_held (held : bus.peek regs.pc = d) :
    fetchByte ({ regs, bus := ⟨bus, log⟩, charges } : Core (Recorded FlatBus)) =
      (d,
        { regs := regs.past 1 0
          bus := ⟨bus, log.push (.read regs.pc d)⟩
          charges := .memOp :: charges }) := by
  rw [fetchByte_advance, ← held]
  rfl

variable {log charges i} in
theorem address_held (held : bus.peek regs.pc = d) :
    let address := (regs.get i.pair).displace d
    Mem.address (.indexed i) ({ regs, bus := ⟨bus, log⟩, charges } : Core (Recorded FlatBus)) =
      (address,
        { regs := { regs.past 1 0 with sh := address }
          bus := ⟨bus, log.push (.read regs.pc d)⟩
          charges := .add8 :: .memOp :: charges }) := by
  have same : Mem.displaced i d (regs.past 1 0) = (regs.get i.pair).displace d := by
    cases i <;> rfl
  simp only [Mem.address, bind_apply, pure_apply, fetchByte_held held, regs_apply, charge_apply,
    same]
  rfl

theorem load_held (held : bus.peek regs.pc = d) :
    let address := (regs.get i.pair).displace d
    ∃ charges', Loc.read (.mem (.indexed i))
      ({ regs, bus := ⟨bus, log⟩, charges } : Core (Recorded FlatBus)) =
        (bus.peek address,
          { regs := { regs.past 1 0 with sh := address }
            bus := ⟨bus, (log.push (.read regs.pc d)).push (.read address (bus.peek address))⟩
            charges := charges' }) := by
  have step (s : Core (Recorded FlatBus)) : Loc.read (.mem (.indexed i)) s =
      read (Mem.address (.indexed i) s).1 (Mem.address (.indexed i) s).2 := rfl
  intro address
  rw [step, address_held held]
  exact ⟨_, rfl⟩

theorem exec_load (x : Reg8) (held : bus.peek regs.pc = d) :
    let address := (regs.get i.pair).displace d
    ∃ charges', ((Instr.ld (.reg x) (.mem (.indexed i))).exec pins
      ({ regs, bus := ⟨bus, log⟩, charges } : Core (Recorded FlatBus))).2 =
        { regs := x.set (bus.peek address) { regs.past 1 0 with sh := address }
          bus := ⟨bus, (log.push (.read regs.pc d)).push (.read address (bus.peek address))⟩
          charges := charges' } := by
  have step (loc : Loc) (s : Core (Recorded FlatBus)) :
      ((Instr.ld (.reg x) loc).exec pins s).2 =
        (change (x.set (loc.read s).1) (loc.read s).2).2 := rfl
  obtain ⟨_, loaded⟩ := load_held log charges i held
  intro address
  rw [step, loaded]
  exact ⟨_, rfl⟩

theorem exec_store (x : Reg8) (held : bus.peek regs.pc = d) :
    let address := (regs.get i.pair).displace d
    ∃ charges', ((Instr.ld (.mem (.indexed i)) (.reg x)).exec pins
      ({ regs, bus := ⟨bus, log⟩, charges } : Core (Recorded FlatBus))).2 =
        { regs := { regs.past 1 0 with sh := address }
          bus := ⟨bus.poke address (x.get regs),
            (log.push (.read regs.pc d)).push (.write address (x.get regs))⟩
          charges := charges' } := by
  have step (s : Core (Recorded FlatBus)) :
      ((Instr.ld (.mem (.indexed i)) (.reg x)).exec pins s).2 =
        (write (Mem.address (.indexed i) s).1 (x.get s.regs) (Mem.address (.indexed i) s).2).2 :=
    rfl
  intro address
  rw [step, address_held held]
  exact ⟨_, rfl⟩

theorem exec_indexed {op : Operation} (plain : op.inBits = false) (held : bus.peek regs.pc = d) :
    let address := (regs.get i.pair).displace d
    let v := bus.peek address
    let e := op.outcome regs.a v address.high regs.flags
    ∃ charges', ((op.instr (.mem (.indexed i))).exec pins
      ({ regs, bus := ⟨bus, log⟩, charges } : Core (Recorded FlatBus))).2 =
        { regs := e.store none { regs.past 1 0 with sh := address }
          bus := ⟨e.poke address bus, log.push (.read regs.pc d) ++ e.accesses address v⟩
          charges := charges' } := by
  intro address v e
  cases op with
  | bit n => contradiction
  | update u =>
    have step (s : Core (Recorded FlatBus)) :
        ((Instr.update u (.mem (.indexed i))).exec pins s).2 =
          (updateAt u (Mem.address (.indexed i) s).1 (Mem.address (.indexed i) s).2).2 := rfl
    rw [Operation.instr, step, address_held held]
    exact ⟨_, rfl⟩
  | alu op =>
    have step (loc : Loc) (s : Core (Recorded FlatBus)) :
        ((Instr.alu op loc).exec pins s).2 =
          (setResult (op.apply (loc.read s).2.regs.a (loc.read s).1 (loc.read s).2.regs.flags)
            (loc.read s).2).2 := rfl
    obtain ⟨_, loaded⟩ := load_held log charges i held
    rw [Operation.instr, step, loaded]
    exact ⟨_, rfl⟩

variable (regs bus d) in
theorem exec_displaced {op : Operation} (bits : op.inBits = true) (copy : Option Reg8) :
    let address := (regs.get i.pair).displace d
    let v := bus.peek address
    let e := op.outcome regs.a v address.high regs.flags
    ∃ charges', ((op.indexedInstr i d copy).exec pins
      ({ regs, bus := ⟨bus, log⟩, charges } : Core (Recorded FlatBus))).2 =
        { regs := e.store copy { regs with sh := address }
          bus := ⟨e.poke address bus, log ++ e.accesses address v⟩
          charges := charges' } := by
  cases op with
  | alu op => contradiction
  | update u => cases copy <;> exact ⟨_, rfl⟩
  | bit n => exact ⟨_, rfl⟩

end Exec

namespace Form

variable (F : Form) (r : Registers) (bus : FlatBus)

def copied : Byte :=
  match F.place r, F.index with
  | .reg x, _ => x.get r
  | .byte _, none => r.sh.high
  | .byte address, some _ => address.high

def latch : Word :=
  match F.place r, F.index with
  | .byte address, some _ => address
  | _, _ => r.sh

def outcome : Outcome :=
  F.op.outcome r.a ((F.place r).value r bus) (F.copied r) r.flags

def registers : Registers :=
  let opcodes := if F.bytes.length = 1 then 1 else 2
  (F.outcome r bus).store F.target
    { r.past (.ofNat 16 F.bytes.length) opcodes with sh := F.latch r }

def memory : FlatBus :=
  match F.place r with
  | .reg _ => bus
  | .byte address => (F.outcome r bus).poke address bus

def accesses : List Access :=
  match F.place r with
  | .reg _ => []
  | .byte address => (F.outcome r bus).accesses address (bus.peek address)

variable {F r bus} {G : Form} {r' : Registers} {bus' : FlatBus}

theorem target_of_place {x : Reg8} (here : F.place r = .reg x) : F.target = some x := by
  obtain ⟨op, index, z, d⟩ := F
  unfold place at here
  unfold target
  cases index <;> cases bits : op.inBits <;> cases field : Reg8.ofField z <;>
    simp_all [Reg8.under]

/-- The two have the same to work on. -/
structure Alike (F G : Form) (r r' : Registers) (bus bus' : FlatBus) : Prop where
  op : F.op = G.op
  operand : (F.place r).value r bus = (G.place r').value r' bus'
  af : r.af = r'.af

structure Agree (F G : Form) (r r' : Registers) (bus bus' : FlatBus) : Prop where
  /-- An operand of arithmetic can be A itself, of which `a` speaks. -/
  operand : (∀ op, F.op = .alu op → F.place r ≠ .reg .a ∧ G.place r' ≠ .reg .a) →
    (F.place r).value (F.registers r bus) (F.memory r bus) =
      (G.place r').value (G.registers r' bus') (G.memory r' bus')
  a : ∀ op, F.op = .alu op → (F.registers r bus).a = (G.registers r' bus').a
  flags : (∀ n, F.op ≠ .bit n) → (F.registers r bus).flags = (G.registers r' bus').flags
  tested : ∀ n, F.op = .bit n →
    (F.registers r bus).flags = (G.registers r' bus').flags.copyXY (F.copied r)

theorem value_written {w : Byte} (written : (F.outcome r bus).operand = some w) :
    (F.place r).value (F.registers r bus) (F.memory r bus) = w := by
  cases here : F.place r with
  | reg x =>
    simp only [Place.value, registers, Outcome.store, target_of_place here, written]
    rw [Reg8.get_set, if_pos rfl]
  | byte address =>
    simp only [Place.value, memory, here, Outcome.poke, written]
    rw [FlatBus.peek_poke, if_pos rfl]

theorem get_target {w : Byte} {x : Reg8} (written : (F.outcome r bus).operand = some w)
    (target : F.target = some x) : x.get (F.registers r bus) = w := by
  simp only [registers, Outcome.store, target, written]
  rw [Reg8.get_set, if_pos rfl]

theorem value_kept (kept : (F.outcome r bus).operand = none)
    (other : (F.outcome r bus).a = none ∨ F.place r ≠ .reg .a) :
    (F.place r).value (F.registers r bus) (F.memory r bus) = (F.place r).value r bus := by
  cases here : F.place r with
  | reg x =>
    simp only [Place.value, registers, Outcome.store, kept]
    rw [Reg8.get_setFlags]
    cases left : (F.outcome r bus).a with
    | none =>
      rw [Option.elim_none]
      cases x <;> rfl
    | some v =>
      have plain : x ≠ .a := by simpa [left, here] using other
      rw [Option.elim_some]
      refine (Reg8.get_set .a x v _).trans ?_
      rw [if_neg plain]
      cases x <;> rfl
  | byte address => simp only [Place.value, memory, here, Outcome.poke, kept]

theorem flags_registers : (F.registers r bus).flags = (F.outcome r bus).flags :=
  Outcome.flags_store ..

theorem a_registers {v : Byte} (kept : (F.outcome r bus).operand = none)
    (left : (F.outcome r bus).a = some v) : (F.registers r bus).a = v := by
  simp only [registers, Outcome.store, kept, left]
  rw [Registers.a_setFlags, Option.elim_some, Registers.a_setA]

theorem Alike.outcome_eq (h : F.Alike G r r' bus bus') :
    F.outcome r bus = G.op.outcome r'.a ((G.place r').value r' bus') (F.copied r) r'.flags := by
  have a : r.a = r'.a := congrArg Word.high h.af
  have flags : r.flags = r'.flags := by rw [Registers.flags, Registers.flags, h.af]
  rw [outcome, h.op, h.operand, a, flags]

theorem Alike.agree (h : F.Alike G r r' bus bus') : F.Agree G r r' bus bus' := by
  have left := h.outcome_eq
  have right : G.outcome r' bus' =
      G.op.outcome r'.a ((G.place r').value r' bus') (G.copied r') r'.flags := rfl
  cases op : G.op with
  | update u =>
    rw [op] at left right
    exact {
      operand := fun _ => by
        rw [value_written (congrArg Outcome.operand left),
          value_written (congrArg Outcome.operand right)]
      a := fun _ alu => by simp [h.op, op] at alu
      flags := fun _ => by rw [flags_registers, flags_registers, left, right]; rfl
      tested := fun _ bit => by simp [h.op, op] at bit }
  | alu o =>
    rw [op] at left right
    exact {
      operand := fun other => by
        obtain ⟨here, there⟩ := other o (h.op.trans op)
        rw [value_kept (congrArg Outcome.operand left) (.inr here),
          value_kept (congrArg Outcome.operand right) (.inr there), h.operand]
      a := fun _ _ => by
        rw [a_registers (congrArg Outcome.operand left) (congrArg Outcome.a left),
          a_registers (congrArg Outcome.operand right) (congrArg Outcome.a right)]
      flags := fun _ => by rw [flags_registers, flags_registers, left, right]; rfl
      tested := fun _ bit => by simp [h.op, op] at bit }
  | bit n =>
    rw [op] at left right
    exact {
      operand := fun _ => by
        rw [value_kept (congrArg Outcome.operand left) (.inl (congrArg Outcome.a left)),
          value_kept (congrArg Outcome.operand right) (.inl (congrArg Outcome.a right)), h.operand]
      a := fun _ alu => by simp [h.op, op] at alu
      flags := fun test => absurd (h.op.trans op) (test n)
      tested := fun _ _ => by rw [flags_registers, flags_registers, left, right]; rfl }

end Form

namespace Cpu

open Exec

def Leaves {β : Type} [Bus β] (c : Cpu) (bus : β) (regs : Registers) (bus' : β) : Prop :=
  ∃ d, c.next bus = some (d, bus') ∧ d.regs = regs

variable {c : Cpu} {bus : FlatBus} {log : Array Access}

theorem leaves_of_exec {β : Type} [Bus β] {bus bus' : β} {i : Instr} {s : Core β}
    {regs : Registers} (found : (nextInstruction : Exec β _) { regs := c.regs, bus } = (some i, s))
    (ran : ∃ charges, (i.exec c.pins s).2 = { regs, bus := bus', charges }) :
    c.Leaves bus regs bus' := by
  obtain ⟨charges, ran⟩ := ran
  have core : c.ranCore bus nextInstruction i = { regs, bus := bus', charges } := by
    unfold ranCore
    rw [found]
    exact ran
  unfold Leaves
  rw [next_of_found (congrArg Prod.fst found), core]
  refine ⟨_, rfl, ?_⟩
  split <;> rfl

section

variable {log' : Array Access} {charges : List Delay} {op : Operation} {n : Word} {k d : Byte}
  {i : Index} {z : BitVec 3}

def Fetched (c : Cpu) (bus : FlatBus) (log : Array Access) (n : Word) (k : Byte) (i : Instr)
    (log' : Array Access) : Prop :=
  ∃ charges, (nextInstruction : Exec (Recorded FlatBus) _) { regs := c.regs, bus := ⟨bus, log⟩ } =
    (some i, { regs := c.regs.past n k, bus := ⟨bus, log'⟩, charges })

variable (log) in
/-- All but the displacement, which comes last. -/
theorem fetched_indexed {x : Instr} {b : Byte} (held : bus.Holds c.regs.pc [i.code, b, d])
    (code : Opcode.decode (some i) b = .instr x) :
    bus.peek (c.regs.past 2 2).pc = d ∧
      c.Fetched bus log 2 2 x (log ++ fetches c.regs.pc [i.code, b]) ∧
      (log ++ fetches c.regs.pc [i.code, b]).push (.read (c.regs.past 2 2).pc d) =
        log ++ fetches c.regs.pc [i.code, b, d] := by
  obtain ⟨first, second, displacement, -⟩ := held
  have third : (c.regs.past 2 2).pc = c.regs.pc + 1 + 1 := (BitVec.add_assoc c.regs.pc 1 1).symm
  rw [third]
  exact ⟨displacement, ⟨_, nextInstruction_indexed ⟨first, second, trivial⟩ code⟩, rfl⟩

theorem leaves_register {x : Reg8} (found : c.Fetched bus log n k (op.instr (.reg x)) log') :
    c.Leaves (⟨bus, log⟩ : Recorded FlatBus)
      ((op.outcome c.regs.a (x.get c.regs) (x.get c.regs) c.regs.flags).store (some x)
        (c.regs.past n k))
      ⟨bus, log'⟩ := by
  obtain ⟨charges, found⟩ := found
  have ran := exec_register c.pins (c.regs.past n k) bus log' charges op x
  rw [Reg8.get_past] at ran
  exact leaves_of_exec found ran

theorem leaves_hl (found : c.Fetched bus log n k (op.instr (.mem .hl)) log') :
    let v := bus.peek c.regs.hl
    let e := op.outcome c.regs.a v c.regs.sh.high c.regs.flags
    c.Leaves (⟨bus, log⟩ : Recorded FlatBus) (e.store none (c.regs.past n k))
      ⟨e.poke c.regs.hl bus, log' ++ e.accesses c.regs.hl v⟩ := by
  obtain ⟨charges, found⟩ := found
  exact leaves_of_exec found (exec_hl c.pins (c.regs.past n k) bus log' charges op)

theorem leaves_indexed (plain : op.inBits = false)
    (held : bus.Holds c.regs.pc [i.code, op.code z, d])
    (field : Reg8.ofField z = none) :
    let address := (c.regs.get i.pair).displace d
    let v := bus.peek address
    let e := op.outcome c.regs.a v address.high c.regs.flags
    c.Leaves (⟨bus, log⟩ : Recorded FlatBus)
      (e.store none { c.regs.past 3 2 with sh := address })
      ⟨e.poke address bus,
        log ++ fetches c.regs.pc [i.code, op.code z, d] ++ e.accesses address v⟩ := by
  have code := op.decode_code z plain (some i)
  simp only [Loc.ofField, field] at code
  obtain ⟨displacement, ⟨charges, found⟩, shown⟩ := fetched_indexed log held code
  have ran := exec_indexed c.pins (log ++ fetches c.regs.pc [i.code, op.code z]) charges i plain
    displacement
  rw [Registers.get_past, Registers.past_past, shown] at ran
  exact leaves_of_exec found ran

theorem leaves_displaced (bits : op.inBits = true) {copy : Option Reg8}
    (found : c.Fetched bus log n k (op.indexedInstr i d copy) log') :
    let address := (c.regs.get i.pair).displace d
    let v := bus.peek address
    let e := op.outcome c.regs.a v address.high c.regs.flags
    c.Leaves (⟨bus, log⟩ : Recorded FlatBus)
      (e.store copy { c.regs.past n k with sh := address })
      ⟨e.poke address bus, log' ++ e.accesses address v⟩ := by
  obtain ⟨charges, found⟩ := found
  have ran := exec_displaced c.pins (c.regs.past n k) bus log' charges d i bits copy
  rw [Registers.get_past] at ran
  exact leaves_of_exec found ran

end

theorem leaves_form (F : Form) (held : bus.Holds c.regs.pc F.bytes) :
    c.Leaves (⟨bus, log⟩ : Recorded FlatBus) (F.registers c.regs bus)
      ⟨F.memory c.regs bus, log ++ fetches c.regs.pc F.bytes ++ F.accesses c.regs bus⟩ := by
  unfold Form.registers Form.memory Form.accesses Form.outcome Form.copied Form.latch
  obtain ⟨op, index, z, d⟩ := F
  cases index with
  | none =>
    -- one byte or two, and then the table no longer matters
    have found : c.Fetched bus log (.ofNat 16 (Form.mk op none z d).bytes.length)
        (if (Form.mk op none z d).bytes.length = 1 then 1 else 2) (op.instr (.ofField none z))
        (log ++ fetches c.regs.pc (Form.mk op none z d).bytes) := by
      cases bits : op.inBits with
      | false =>
        simp only [Form.bytes, bits] at held ⊢
        exact ⟨_, nextInstruction_plain held (op.decode_code z bits none)⟩
      | true =>
        simp only [Form.bytes, bits] at held ⊢
        rw [← op.decodeBits_code z bits]
        exact ⟨_, nextInstruction_bits held⟩
    have target : (Form.mk op none z d).target = Reg8.ofField z := by
      simp [Form.target, Reg8.under]
    cases field : Reg8.ofField z with
    | some x =>
      simp only [Loc.ofField, field] at found
      simp only [Form.place, target, field]
      exact leaves_register found
    | none =>
      simp only [Loc.ofField, field] at found
      simp only [Form.place, target, field]
      exact leaves_hl found
  | some i =>
    cases bits : op.inBits with
    | false =>
      cases field : Reg8.ofField z with
      | some x =>
        have code := op.decode_code z bits (some i)
        simp only [Form.bytes, bits, field] at held
        simp only [Loc.ofField, field] at code
        simp only [Form.place, Form.target, Form.bytes, bits, field]
        exact leaves_register ⟨_, nextInstruction_indexed held code⟩
      | none =>
        simp only [Form.bytes, bits, field] at held
        simp only [Form.place, Form.target, Form.bytes, bits, field]
        exact leaves_indexed bits held field
    | true =>
      simp only [Form.bytes, bits] at held
      have found : c.Fetched bus log 4 2 _ _ := ⟨_, nextInstruction_indexedBits held⟩
      rw [op.decodeIndexedBits_code z bits] at found
      have target : (Form.mk op (some i) z d).target = Reg8.ofField z := by
        simp [Form.target, Reg8.under, bits]
      simp only [Form.place, target, Form.bytes, bits]
      exact leaves_displaced bits found

section

variable {i : Index} {d : Byte} {y : BitVec 3} {x : Reg8}

/-- Beside an operand in memory H and L are meant themselves. -/
theorem leaves_load (field : Reg8.ofField y = some x)
    (held : bus.Holds c.regs.pc [i.code, 1#2 ++ y ++ 6#3, d]) :
    let address := (c.regs.get i.pair).displace d
    c.Leaves (⟨bus, log⟩ : Recorded FlatBus)
      (x.set (bus.peek address) { c.regs.past 3 2 with sh := address })
      ⟨bus, log ++ fetches c.regs.pc [i.code, 1#2 ++ y ++ 6#3, d] ++
        [Access.read address (bus.peek address)]⟩ := by
  have code : Opcode.decode (some i) (1#2 ++ y ++ 6#3) =
      .instr (.ld (.reg x) (.mem (.indexed i))) := by
    unfold Opcode.decode Opcode.decodeLoad
    rw [Opcode.x_append, Opcode.y_append, Opcode.z_append, field]
    rfl
  obtain ⟨displacement, ⟨charges, found⟩, shown⟩ := fetched_indexed log held code
  have ran := exec_load c.pins (log ++ fetches c.regs.pc [i.code, 1#2 ++ y ++ 6#3]) charges i x
    displacement
  rw [Registers.get_past, Registers.past_past, shown] at ran
  exact leaves_of_exec found ran

theorem leaves_store (field : Reg8.ofField y = some x)
    (held : bus.Holds c.regs.pc [i.code, 1#2 ++ 6#3 ++ y, d]) :
    let address := (c.regs.get i.pair).displace d
    c.Leaves (⟨bus, log⟩ : Recorded FlatBus) { c.regs.past 3 2 with sh := address }
      ⟨bus.poke address (x.get c.regs), log ++ fetches c.regs.pc [i.code, 1#2 ++ 6#3 ++ y, d] ++
        [Access.write address (x.get c.regs)]⟩ := by
  have code : Opcode.decode (some i) (1#2 ++ 6#3 ++ y) =
      .instr (.ld (.mem (.indexed i)) (.reg x)) := by
    unfold Opcode.decode Opcode.decodeLoad
    rw [Opcode.x_append, Opcode.y_append, Opcode.z_append, field]
    rfl
  obtain ⟨displacement, ⟨charges, found⟩, shown⟩ := fetched_indexed log held code
  have ran := exec_store c.pins (log ++ fetches c.regs.pc [i.code, 1#2 ++ 6#3 ++ y]) charges i x
    displacement
  rw [Registers.get_past, Registers.past_past, shown, Reg8.get_past] at ran
  exact leaves_of_exec found ran

end

structure Performs (c : Cpu) (F : Form) (bus : FlatBus) (log : Array Access) : Prop where
  leaves : c.Leaves (⟨bus, log⟩ : Recorded FlatBus) (F.registers c.regs bus)
    ⟨F.memory c.regs bus, log ++ fetches c.regs.pc F.bytes ++ F.accesses c.regs bus⟩
  copies : ∀ u i x, F.op = .update u → F.op.inBits = true → F.index = some i →
    Reg8.ofField F.z = some x →
    x.get (F.registers c.regs bus) =
      (F.place c.regs).value (F.registers c.regs bus) (F.memory c.regs bus)

theorem performs (F : Form) (held : bus.Holds c.regs.pc F.bytes) : c.Performs F bus log where
  leaves := leaves_form F held
  copies u i x op bits index field := by
    have target : F.target = some x := by simp [Form.target, field, bits, Reg8.under]
    obtain ⟨w, written⟩ : ∃ w, (F.outcome c.regs bus).operand = some w := by
      unfold Form.outcome
      rw [op]
      exact ⟨_, rfl⟩
    rw [Form.get_target written target, Form.value_written written]

/-- An operation does the same to equal operands wherever they lie, and a load through an index
register moves H and L themselves. -/
theorem operation_uniform :
    (∀ (F G : Form) (c c' : Cpu) (bus bus' : FlatBus) (log log' : Array Access),
      bus.Holds c.regs.pc F.bytes → bus'.Holds c'.regs.pc G.bytes →
      F.Alike G c.regs c'.regs bus bus' →
      c.Performs F bus log ∧ c'.Performs G bus' log' ∧ F.Agree G c.regs c'.regs bus bus') ∧
    ∀ (i : Index) (d : Byte) (y : BitVec 3) (x : Reg8) (c : Cpu) (bus : FlatBus)
      (log : Array Access), Reg8.ofField y = some x →
      let address := (c.regs.get i.pair).displace d
      let regs := { c.regs.past 3 2 with sh := address }
      let load := [i.code, 1#2 ++ y ++ 6#3, d]
      let store := [i.code, 1#2 ++ 6#3 ++ y, d]
      (bus.Holds c.regs.pc load →
        c.Leaves (⟨bus, log⟩ : Recorded FlatBus) (x.set (bus.peek address) regs)
          ⟨bus, log ++ fetches c.regs.pc load ++ [Access.read address (bus.peek address)]⟩) ∧
      (bus.Holds c.regs.pc store →
        c.Leaves (⟨bus, log⟩ : Recorded FlatBus) regs
          ⟨bus.poke address (x.get c.regs),
            log ++ fetches c.regs.pc store ++ [Access.write address (x.get c.regs)]⟩) := by
  constructor
  · intro F G c c' bus bus' log log' held held' alike
    exact ⟨performs F held, performs G held', alike.agree⟩
  · intro i d y x c bus log field
    exact ⟨leaves_load field, leaves_store field⟩

theorem operation_uniform_rlc :
    let F : Form := ⟨.update (.shift .rlc), some .ix, 1, 0x80⟩
    let G : Form := ⟨.update (.shift .rlc), none, 6, 0⟩
    let c : Cpu := { regs := { hl := 0x8000, ix := 0x0010 } }
    let bus := (FlatBus.empty.load 0 F.bytes).poke 0xFF90 0x81
    let bus' := (FlatBus.empty.load 0 G.bytes).poke 0x8000 0x81
    let load := FlatBus.empty.load 0 [0xDD, 0x66, 0x01]
    let store := FlatBus.empty.load 0 [0xDD, 0x75, 0x01]
    bus.Holds c.regs.pc F.bytes ∧ bus'.Holds c.regs.pc G.bytes ∧
    F.Alike G c.regs c.regs bus bus' ∧ c.Performs F bus #[] ∧ c.Performs G bus' #[] ∧
    F.Agree G c.regs c.regs bus bus' ∧
    (F.registers c.regs bus).bc = 0x0003 ∧
    c.Leaves (⟨load, #[]⟩ : Recorded FlatBus)
      (Reg8.h.set (load.peek 0x0011) { c.regs.past 3 2 with sh := 0x0011 })
      ⟨load, #[.read 0 0xDD, .read 1 0x66, .read 2 0x01, .read 0x0011 (load.peek 0x0011)]⟩ ∧
    c.Leaves (⟨store, #[]⟩ : Recorded FlatBus) { c.regs.past 3 2 with sh := 0x0011 }
      ⟨store.poke 0x0011 0x00,
        #[.read 0 0xDD, .read 1 0x75, .read 2 0x01, .write 0x0011 0x00]⟩ := by
  intro F G c bus bus' load store
  have held : bus.Holds c.regs.pc F.bytes :=
    ⟨by decide +kernel, by decide +kernel, by decide +kernel, by decide +kernel, trivial⟩
  have held' : bus'.Holds c.regs.pc G.bytes := ⟨by decide +kernel, by decide +kernel, trivial⟩
  have left : (F.place c.regs).value c.regs bus = 0x81 := by decide +kernel
  have right : (G.place c.regs).value c.regs bus' = 0x81 := by decide +kernel
  have alike : F.Alike G c.regs c.regs bus bus' := ⟨rfl, left.trans right.symm, rfl⟩
  obtain ⟨first, second, agree⟩ := operation_uniform.1 F G c c bus bus' #[] #[] held held' alike
  have through := operation_uniform.2 .ix 1
  refine ⟨held, held', alike, first, second, agree, by decide +kernel, ?_, ?_⟩
  · exact (through 4 .h c load #[] rfl).1
      ⟨by decide +kernel, by decide +kernel, by decide +kernel, trivial⟩
  · have low : Reg8.l.get c.regs = 0x00 := by decide +kernel
    have stored := (through 5 .l c store #[] rfl).2
      ⟨by decide +kernel, by decide +kernel, by decide +kernel, trivial⟩
    rw [low] at stored
    exact stored

end Cpu

end Z80
