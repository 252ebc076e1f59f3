import Z80.Proofs.Charges
import Z80.Proofs.Encoding

/-! The documented durations, laid down by opcode, against the delays that instructions
meet on their way. -/
namespace Z80

/-- Opcodes without a prefix, as run with all flags clear and B and BC above one. The
prefixes themselves have no duration. -/
def mainTable : List (List Nat) :=
  [[ 4, 10,  7,  6,  4,  4,  7,  4,  4, 11,  7,  6,  4,  4,  7,  4],
   [13, 10,  7,  6,  4,  4,  7,  4, 12, 11,  7,  6,  4,  4,  7,  4],
   [12, 10, 16,  6,  4,  4,  7,  4,  7, 11, 16,  6,  4,  4,  7,  4],
   [12, 10, 13,  6, 11, 11, 10,  4,  7, 11, 13,  6,  4,  4,  7,  4],
   [ 4,  4,  4,  4,  4,  4,  7,  4,  4,  4,  4,  4,  4,  4,  7,  4],
   [ 4,  4,  4,  4,  4,  4,  7,  4,  4,  4,  4,  4,  4,  4,  7,  4],
   [ 4,  4,  4,  4,  4,  4,  7,  4,  4,  4,  4,  4,  4,  4,  7,  4],
   [ 7,  7,  7,  7,  7,  7,  4,  7,  4,  4,  4,  4,  4,  4,  7,  4],
   [ 4,  4,  4,  4,  4,  4,  7,  4,  4,  4,  4,  4,  4,  4,  7,  4],
   [ 4,  4,  4,  4,  4,  4,  7,  4,  4,  4,  4,  4,  4,  4,  7,  4],
   [ 4,  4,  4,  4,  4,  4,  7,  4,  4,  4,  4,  4,  4,  4,  7,  4],
   [ 4,  4,  4,  4,  4,  4,  7,  4,  4,  4,  4,  4,  4,  4,  7,  4],
   [11, 10, 10, 10, 17, 11,  7, 11,  5, 10, 10,  0, 10, 17,  7, 11],
   [11, 10, 10, 11, 17, 11,  7, 11,  5,  4, 10, 11, 10,  0,  7, 11],
   [11, 10, 10, 19, 17, 11,  7, 11,  5,  4, 10,  4, 10,  0,  7, 11],
   [11, 10, 10,  4, 17, 11,  7, 11,  5,  6, 10,  4, 10,  0,  7, 11]]

def mainEntry (op : Byte) : Nat := (mainTable.getD (op.toNat / 16) []).getD (op.toNat % 16) 0

def mainTest (op : Byte) : Option Test :=
  if op = 0x10 then some .count8
  else if op &&& 0xE7 = 0x20 then some (.flag (.ofField (Opcode.y op - 4)))
  else if op &&& 0xC7 = 0xC0 ∨ op &&& 0xC7 = 0xC4 then some (.flag (.ofField (Opcode.y op)))
  else none

/-- With all flags clear a condition holds if it asks for a clear one. The opcode that asks
for the same flag to be set differs in bit 3, and takes as long when it goes through. -/
def mainTicks (op : Byte) (goes : Bool) : Nat :=
  if mainTest op = none then mainEntry op
  else if goes then mainEntry (op &&& 0xF7)
  else if op = 0x10 then 8
  else if op &&& 0xE7 = 0x20 then 7
  else if op &&& 0xC7 = 0xC0 then 5
  else 10

theorem mainEntry_lt (op : Byte) : mainEntry op < 20 := by
  revert op
  decide +kernel

theorem mainTicks_lt (op : Byte) (goes : Bool) : mainTicks op goes < 20 := by
  have h₁ := mainEntry_lt op
  have h₂ := mainEntry_lt (op &&& 0xF7)
  unfold mainTicks
  repeat' split
  all_goals omega

def indexedTicks (op : Byte) (goes : Bool) : Nat :=
  match op.toNat with
  | 0x09 | 0x19 | 0x29 | 0x39 => 15
  | 0x21 => 14
  | 0x22 | 0x2A => 20
  | 0x23 | 0x2B | 0xF9 => 10
  | 0x24 | 0x25 | 0x2C | 0x2D | 0xE9 => 8
  | 0x26 | 0x2E => 11
  | 0x34 | 0x35 | 0xE3 => 23
  | 0x36 => 19
  | 0x46 | 0x4E | 0x56 | 0x5E | 0x66 | 0x6E | 0x7E => 19
  | 0x70 | 0x71 | 0x72 | 0x73 | 0x74 | 0x75 | 0x77 => 19
  | 0x86 | 0x8E | 0x96 | 0x9E | 0xA6 | 0xAE | 0xB6 | 0xBE => 19
  | 0xE1 => 14
  | 0xE5 => 15
  | _ => 4 + mainTicks op goes

theorem indexedTicks_lt (op : Byte) (goes : Bool) : indexedTicks op goes < 24 := by
  have hm := mainTicks_lt op goes
  unfold indexedTicks
  split <;> omega

def bitsTicks (op : Byte) : Nat :=
  if Opcode.z op ≠ 6 then 8 else if Opcode.x op = 1 then 12 else 15

def indexedBitsTicks (op : Byte) : Nat := if Opcode.x op = 1 then 20 else 23

def extendedTest (op : Byte) : Option Test :=
  if op &&& 0xF7 = 0xB0 then some .count16
  else if op &&& 0xF7 = 0xB1 then some .search
  else if op &&& 0xF6 = 0xB2 then some .count8
  else none

def extendedTicks (op : Byte) (goes : Bool) : Nat :=
  if Opcode.x op = 1 then
    match Opcode.z op with
    | 0 | 1 => 12
    | 2 => 15
    | 3 => 20
    | 5 => 14
    | 7 =>
      match op.toNat with
      | 0x47 | 0x4F | 0x57 | 0x5F => 9
      | 0x67 | 0x6F => 18
      | _ => 8
    | _ => 8
  else
    match op.toNat with
    | 0xA0 | 0xA1 | 0xA2 | 0xA3 | 0xA8 | 0xA9 | 0xAA | 0xAB => 16
    | 0xB0 | 0xB1 | 0xB2 | 0xB3 | 0xB8 | 0xB9 | 0xBA | 0xBB => if goes then 21 else 16
    | _ => 8

theorem extendedTicks_lt (op : Byte) (goes : Bool) : extendedTicks op goes < 22 := by
  unfold extendedTicks
  repeat' split
  all_goals omega

namespace Table

def test (t : Table) (op : Byte) : Option Test :=
  match t with
  | main => mainTest op
  | bits => none
  | extended => extendedTest op

/-- ED is the only table for which a prefix before it makes no other difference. -/
def ticks (t : Table) (op : Byte) (indexed goes : Bool) : Nat :=
  match t with
  | main => if indexed then indexedTicks op goes else mainTicks op goes
  | bits => if indexed then indexedBitsTicks op else bitsTicks op
  | extended => extendedTicks op goes + if indexed then 4 else 0

end Table

namespace Encoding

def goes (e : Encoding) (r : Registers) (bus : FlatBus) : Bool :=
  (e.table.test e.op).all (·.passes r bus)

def ticks (e : Encoding) (goes : Bool) : Nat :=
  e.table.ticks e.op (0 < e.chain) goes + 4 * (e.chain - 1)

end Encoding

namespace Table

theorem instr_displacement (t : Table) (op : Byte) (j : Option Index) (d : Byte) :
    (t.instr op j d).test = (t.instr op j 0).test ∧
      ∀ goes, (t.instr op j d).delays goes = (t.instr op j 0).delays goes := by
  rcases t with _ | _ | _
  · exact ⟨rfl, fun _ => rfl⟩
  · rcases j with _ | j
    · exact ⟨rfl, fun _ => rfl⟩
    · unfold instr Opcode.decodeIndexedBits
      cases Opcode.updateOf op <;> exact ⟨rfl, fun _ => rfl⟩
  · exact ⟨rfl, fun _ => rfl⟩

theorem test_instr {t : Table} {op : Byte} (h : t = main → op ∉ [0xCB, 0xDD, 0xED, 0xFD])
    (j : Option Index) (d : Byte) : (t.instr op j d).test = t.test op := by
  rw [(t.instr_displacement op j d).1]
  revert op
  rcases j with _ | _ | _ <;> cases t <;> decide +kernel

theorem ticks_lt (t : Table) (op : Byte) (indexed goes : Bool) :
    t.ticks op indexed goes < 26 := by
  have hm := mainTicks_lt op goes
  have hi := indexedTicks_lt op goes
  have he := extendedTicks_lt op goes
  cases t <;> simp only [ticks, bitsTicks, indexedBitsTicks]
  all_goals
    repeat' split
    all_goals omega

end Table

namespace Timing

theorem total_append (t : Timing) (p q : List Delay) :
    t.total (p ++ q) = t.total p + t.total q := by
  induction p with
  | nil => simp
  | cons d p ih => simp [ih, BitVec.add_assoc]

theorem total_reverse (t : Timing) (p : List Delay) : t.total p.reverse = t.total p := by
  induction p with
  | nil => rfl
  | cons d p ih => simp [total_append, ih, BitVec.add_comm]

end Timing

namespace Encoding

/-- The table against the delays: opcode by opcode with one prefix at most, and from there
by the length of the chain. -/
theorem total_delays (n : Nat) {t : Table} {op : Byte} {j : Option Index} (d : Byte)
    (h : t = .main → op ∉ [0xCB, 0xDD, 0xED, 0xFD]) (hj : j.isSome = decide (0 < n))
    (goes : Bool) :
    Timing.z80.total (delays ⟨n, t, op⟩ ++ (t.instr op j d).delays goes) =
      .ofNat 32 (ticks ⟨n, t, op⟩ goes) := by
  rw [(t.instr_displacement op j d).2 goes]
  match n with
  | 0 =>
    obtain rfl : j = none := by simpa using hj
    revert op goes
    cases t <;> decide +kernel
  | 1 =>
    obtain ⟨i, rfl⟩ := Option.isSome_iff_exists.mp hj
    revert op goes
    cases i <;> cases t <;> decide +kernel
  | n + 2 =>
    have shorter := total_delays (n + 1) 0 h (by simpa using hj) goes
    have one_more : delays ⟨n + 2, t, op⟩ = .memOp :: .m1 :: delays ⟨n + 1, t, op⟩ := rfl
    have four : ticks ⟨n + 2, t, op⟩ goes = 4 + ticks ⟨n + 1, t, op⟩ goes := by
      simp [ticks]
      omega
    rw [one_more, four, BitVec.ofNat_add, ← shorter, List.cons_append, List.cons_append]
    simp only [Timing.total_cons, ← BitVec.add_assoc]
    rfl

theorem ticks_lt {e : Encoding} (h : e.chain < 65536) (goes : Bool) :
    e.ticks goes < 4294967296 := by
  have ht := e.table.ticks_lt e.op (0 < e.chain) goes
  unfold ticks
  omega

end Encoding

end Z80
