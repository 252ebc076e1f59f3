import Mathlib.Algebra.Group.Nat.Defs
import Z80.Proofs.Repeating

/-! The repeating block move as a copy of bytes. The copy is made one byte at a time, so where
the blocks overlap the bytes that have been written are read again, and both addresses go round
at the ends of memory. -/
namespace Z80

def Direction.ahead (dir : Direction) (a : Word) (n : Nat) : Word :=
  match dir with
  | up => a + .ofNat 16 n
  | down => a - .ofNat 16 n

theorem Direction.ahead_zero (dir : Direction) (a : Word) : dir.ahead a 0 = a := by
  cases dir
  · exact BitVec.add_zero a
  · exact BitVec.sub_zero a

theorem Direction.ahead_ahead (dir : Direction) (a : Word) (m n : Nat) :
    dir.ahead (dir.ahead a m) n = dir.ahead a (m + n) := by
  cases dir <;> simp only [ahead, BitVec.ofNat_add] <;> grind

namespace FlatBus

/-- The first `n` bytes from `src` to `dst`, each read after those before it were written. -/
def copy (bus : FlatBus) (dir : Direction) (src dst : Word) (n : Nat) : FlatBus :=
  (List.range n).foldl (fun b k => b.poke (dir.ahead dst k) (b.peek (dir.ahead src k))) bus

variable (bus : FlatBus) (dir : Direction) (src dst : Word)

theorem copy_succ (n : Nat) :
    bus.copy dir src dst (n + 1) =
      (bus.copy dir src dst n).poke (dir.ahead dst n)
        ((bus.copy dir src dst n).peek (dir.ahead src n)) := by
  unfold copy
  rw [List.range_succ, List.foldl_append]
  rfl

theorem peek_copy_last (n : Nat) :
    (bus.copy dir src dst (n + 1)).peek (dir.ahead dst n) =
      (bus.copy dir src dst n).peek (dir.ahead src n) := by
  rw [copy_succ, peek_poke, if_pos rfl]

end FlatBus

/-- How many rounds a block instruction makes that counts in BC. -/
def rounds (bc : Word) : Nat := if bc = 0 then 65536 else bc.toNat

theorem count_pos {w : Nat} (x : BitVec w) : 0 < if x = 0#w then 2 ^ w else x.toNat := by
  split
  next => exact Nat.two_pow_pos w
  next other =>
    have : x.toNat ≠ 0 := fun h => other (BitVec.eq_of_toNat_eq (h.trans (by simp)))
    omega

theorem sub_ofNat_eq_zero_iff {w k : Nat} {x : BitVec w} (pos : 0 < k)
    (le : k ≤ if x = 0#w then 2 ^ w else x.toNat) :
    x - .ofNat w k = 0#w ↔ k = if x = 0#w then 2 ^ w else x.toNat := by
  have small : x.toNat < 2 ^ w := x.isLt
  have turned : x - .ofNat w k = 0#w ↔ x.toNat = k % 2 ^ w := by
    rw [BitVec.sub_eq_iff_eq_add, BitVec.zero_add, ← BitVec.toNat_inj, BitVec.toNat_ofNat]
  rw [turned]
  split at le
  next zero =>
    have nothing : x.toNat = 0 := by rw [zero, BitVec.toNat_ofNat, Nat.zero_mod]
    rw [if_pos zero, nothing]
    by_cases whole : k = 2 ^ w
    · rw [whole, Nat.mod_self]
      exact iff_of_true rfl rfl
    · rw [Nat.mod_eq_of_lt (by omega)]
      omega
  next other =>
    rw [if_neg other, Nat.mod_eq_of_lt (by omega)]
    exact eq_comm

theorem rounds_pos (bc : Word) : 0 < rounds bc := count_pos bc

theorem down_ahead_eq_zero_iff {bc : Word} {k : Nat} (pos : 0 < k) (le : k ≤ rounds bc) :
    Direction.down.ahead bc k = 0 ↔ k = rounds bc :=
  sub_ofNat_eq_zero_iff pos le

namespace Registers

variable (r : Registers) (dir : Direction)

def advance (n : Nat) : Registers :=
  { r with hl := dir.ahead r.hl n, de := dir.ahead r.de n, bc := Direction.down.ahead r.bc n }

/-- The registers after `n` rounds, the last of which has moved `v`. -/
def moved (n : Nat) (v : Byte) : Registers :=
  (r.advance dir n).setFlags (Alu.moveFlags r.flags r.a v ((r.advance dir n).bc ≠ 0))

theorem advance_advance (m n : Nat) :
    (r.advance dir m).advance dir n = r.advance dir (m + n) := by
  simp only [advance, Direction.ahead_ahead]

theorem setFlags_setFlags (f g : Flags) : (r.setFlags f).setFlags g = r.setFlags g := by
  simp [setFlags, Word.withLow]

theorem moved_moved (m n : Nat) (v w : Byte) :
    (r.moved dir m v).moved dir n w = r.moved dir (m + n) w := by
  let f := Alu.moveFlags r.flags r.a v ((r.advance dir m).bc ≠ 0)
  have flags : (r.moved dir m v).flags = f := flags_setFlags _ f
  have a : (r.moved dir m v).a = r.a := a_setFlags (r.advance dir m) f
  have pairs : (r.moved dir m v).advance dir n = (r.advance dir (m + n)).setFlags f := by
    rw [← advance_advance]
    rfl
  rw [moved, flags, a, pairs, setFlags_setFlags]
  rfl

end Registers

namespace BlockOp

variable (dir : Direction) (regs : Registers) (bus : FlatBus)

theorem once_move :
    move.once dir (regs, bus) =
      (regs.moved dir 1 (bus.peek regs.hl), bus.poke regs.de (bus.peek regs.hl)) := by
  cases dir <;> rfl

theorem iterate_move {n : Nat} (pos : 0 < n) :
    (move.once dir)^[n] (regs, bus) =
      (regs.moved dir n ((bus.copy dir regs.hl regs.de n).peek (dir.ahead regs.de (n - 1))),
        bus.copy dir regs.hl regs.de n) := by
  obtain ⟨n, rfl⟩ : ∃ m, n = m + 1 := Nat.exists_eq_add_one.mpr pos
  rw [Nat.add_sub_cancel]
  induction n with
  | zero =>
    rw [Function.iterate_one, once_move, FlatBus.peek_copy_last, FlatBus.copy_succ]
    simp only [Direction.ahead_zero]
    rfl
  | succ n ih =>
    rw [Function.iterate_succ_apply', ih n.succ_pos, once_move, Registers.moved_moved,
      FlatBus.peek_copy_last _ _ _ _ (n + 1), FlatBus.copy_succ _ _ _ _ (n + 1)]
    rfl

theorem bus_rounds (n : Nat) :
    ((move.once dir)^[n] (regs, bus)).2 = bus.copy dir regs.hl regs.de n := by
  cases n with
  | zero => rfl
  | succ n => rw [iterate_move dir regs bus n.succ_pos]

theorem bc_rounds (n : Nat) :
    ((move.once dir)^[n] (regs, bus)).1.bc = Direction.down.ahead regs.bc n := by
  cases n with
  | zero => exact (Direction.down.ahead_zero regs.bc).symm
  | succ n =>
    rw [iterate_move dir regs bus n.succ_pos]
    rfl

theorem goesOn_rounds {n : Nat} (h : n < rounds regs.bc) :
    move.goesOn ((move.once dir)^[n] (regs, bus)) = decide (n + 1 ≠ rounds regs.bc) := by
  have count : move.goesOn ((move.once dir)^[n] (regs, bus)) =
      decide (Direction.down.ahead regs.bc (n + 1) ≠ 0) := by
    rw [← Direction.ahead_ahead, ← bc_rounds dir regs bus n]
    rfl
  rw [count, decide_eq_decide, ne_eq, down_ahead_eq_zero_iff n.succ_pos h]

end BlockOp

namespace Cpu

def moveCode : Direction → Byte
  | .up => 0xB0
  | .down => 0xB8

theorem decode_moveCode (dir : Direction) :
    Opcode.decodeExtended (moveCode dir) = .block .move dir true := by
  cases dir <;> decide

/-- The repeating move copies byte by byte. -/
theorem move_copies (c : Cpu) (bus : FlatBus) (dir : Direction) (quiet : c.eligible = false)
    (lead : bus.peek c.regs.pc = 0xED) (code : bus.peek (c.regs.pc + 1) = moveCode dir)
    (kept : ∀ k < rounds c.regs.bc, ∀ a ∈ [c.regs.pc, c.regs.pc + 1],
      (bus.copy dir c.regs.hl c.regs.de k).peek a = bus.peek a) :
    let n := rounds c.regs.bc
    let copied := bus.copy dir c.regs.hl c.regs.de n
    let last := c.regs.a + copied.peek (dir.ahead c.regs.de (n - 1))
    (∀ k < n, ∃ t d bus', c.Runs bus k t d bus' ∧ d.regs.pc = c.regs.pc) ∧
    ∃ t d, c.Runs bus n t d copied ∧
      d.regs = { c.regs with
        pc := c.regs.pc + 2
        bc := 0
        hl := dir.ahead c.regs.hl n
        de := dir.ahead c.regs.de n
        r := c.regs.r + .ofNat 8 (2 * n)
        eiMode := false
        af := .ofBytes c.regs.a (Flags.toByte { c.regs.flags with
          h := false, p := false, n := false, y := last.getLsbD 1, x := last.getLsbD 3 }) } ∧
      (c.timing = .z80 → t = 21 * (n - 1) + 16) := by
  intro n copied last
  have stands (k : Nat) (hk : k < n) :
      ((BlockOp.move.once dir)^[k] (c.shut.regs, bus)).2.Repeats .move dir c.regs.pc := by
    have here := kept k hk
    rw [BlockOp.bus_rounds]
    constructor
    · exact (here c.regs.pc (by simp)).trans lead
    · rw [← decode_moveCode, ← code]
      exact congrArg Opcode.decodeExtended (here (c.regs.pc + 1) (by simp))
  have goes (k : Nat) (hk : k < n) := BlockOp.goesOn_rounds dir c.shut.regs bus hk
  obtain ⟨before, t, d, run, hd, ticks⟩ := runs_repeat quiet (rounds_pos c.regs.bc) stands goes
  rw [BlockOp.bus_rounds] at run
  refine ⟨before, t, d, run, ?_, ticks⟩
  have counted : Direction.down.ahead c.regs.bc n = 0 :=
    (down_ahead_eq_zero_iff (rounds_pos c.regs.bc) (Nat.le_refl n)).mpr rfl
  have advanced : c.shut.regs.advance dir n =
      { c.shut.regs with hl := dir.ahead c.regs.hl n, de := dir.ahead c.regs.de n, bc := 0 } :=
    congrArg (fun bc => { c.shut.regs with
      hl := dir.ahead c.regs.hl n, de := dir.ahead c.regs.de n, bc }) counted
  rw [hd, BlockOp.iterate_move dir c.shut.regs bus (rounds_pos c.regs.bc), Registers.moved,
    advanced]
  rfl

theorem move_copies_overlapping : ∃ (c d : Cpu) (bus copied : FlatBus),
    c.Runs bus 2 37 d copied ∧ d.regs.pc = 0x102 ∧
      [0xFFFF, 0x0000].map copied.peek = [7, 7] := by
  let c : Cpu :=
    { regs := { Registers.powerOn with pc := 0x100, bc := 2, hl := 0xFFFE, de := 0xFFFF } }
  let bus : FlatBus := (FlatBus.empty.load 0x100 [0xED, 0xB0]).poke 0xFFFE 7
  have two : rounds c.regs.bc = 2 := by decide
  have kept : ∀ k < rounds c.regs.bc, ∀ a ∈ [c.regs.pc, c.regs.pc + 1],
      (bus.copy .up c.regs.hl c.regs.de k).peek a = bus.peek a := by
    intro k hk a ha
    rw [two] at hk
    obtain rfl | rfl : k = 0 ∨ k = 1 := by omega
    · rfl
    · have apart : a ≠ Direction.up.ahead c.regs.de 0 := by
        rintro rfl
        revert ha
        decide
      rw [FlatBus.copy_succ, FlatBus.peek_poke, if_neg apart]
      rfl
  obtain ⟨-, t, d, run, hd, ticks⟩ :=
    move_copies c bus .up (by decide) (by decide +kernel) (by decide +kernel) kept
  have pc : d.regs.pc = 0x102 := congrArg Registers.pc hd
  have ticks : t = 37 := (ticks rfl).trans (by rw [two])
  have spread : [0xFFFF, 0x0000].map (bus.copy .up c.regs.hl c.regs.de 2).peek = [7, 7] := by
    decide +kernel
  rw [two, ticks] at run
  exact ⟨c, d, bus, _, run, pc, spread⟩

end Cpu

end Z80
