import Mathlib.Algebra.Group.Nat.Defs
import Z80.Alu.Arith

/-! Words by their halves. What is added to a word goes to its low byte first, and the carry
that leaves there goes into the high byte. So an operation on words is the operation on bytes
made twice, and every carry of the word is one of the high byte. -/
namespace Z80

theorem toNat_append_eq_add (high : BitVec v) (low : BitVec w) :
    (high ++ low).toNat = 2 ^ w * high.toNat + low.toNat := by
  rw [BitVec.toNat_append, ← Nat.shiftLeft_add_eq_or_of_lt low.isLt, Nat.shiftLeft_eq,
    Nat.mul_comm]

theorem Word.toNat_ofBytes (h l : Byte) :
    (Word.ofBytes h l).toNat = 256 * h.toNat + l.toNat := toNat_append_eq_add h l

theorem Word.toNat_halves (w : Word) : w.toNat = 256 * w.high.toNat + w.low.toNat := by
  rw [← toNat_ofBytes, ofBytes_high_low]

theorem Word.toNat_mod (w : Word) (i : Nat) :
    w.toNat % 2 ^ (8 + i) = 256 * (w.high.toNat % 2 ^ i) + w.low.toNat := by
  have halves := w.toNat_halves
  have low : w.toNat % 2 ^ 8 = w.low.toNat := by omega
  have high : w.toNat / 2 ^ 8 = w.high.toNat := by omega
  rw [Nat.pow_add, Nat.mod_mul, low, high, Nat.add_comm]

namespace Alu

theorem toNat_sum (x y : BitVec w) (c : Bool) :
    x.toNat + y.toNat + c.toNat = (sum x y c).toNat + 2 ^ w * (BitVec.carry w x y c).toNat := by
  have hx := x.isLt
  have hy := y.isLt
  have hc := c.toNat_le
  have value : (sum x y c).toNat = (x.toNat + y.toNat + c.toNat) % 2 ^ w := by
    simp [sum, BitVec.toNat_add]
  rw [value, BitVec.carry, Nat.mod_eq_of_lt hx, Nat.mod_eq_of_lt hy]
  by_cases wraps : x.toNat + y.toNat + c.toNat ≥ 2 ^ w
  · rw [Nat.mod_eq_sub_mod wraps, Nat.mod_eq_of_lt (by omega), decide_eq_true wraps,
      Bool.toNat_true]
    omega
  · rw [Nat.mod_eq_of_lt (by omega), decide_eq_false wraps, Bool.toNat_false]
    rfl

theorem sum_difference (x y : BitVec w) (c : Bool) : sum (difference x y c) y c = x := by
  unfold sum difference
  grind

theorem toNat_difference (x y : BitVec w) (c : Bool) :
    x.toNat + 2 ^ w * (borrow w x y c).toNat = (difference x y c).toNat + y.toNat + c.toNat := by
  have back := toNat_sum (difference x y c) y c
  rw [sum_difference] at back
  have hd := (difference x y c).isLt
  have same : BitVec.carry w (difference x y c) y c = borrow w x y c := by
    rw [borrow, BitVec.setWidth_eq, BitVec.setWidth_eq]
    cases wraps : BitVec.carry w (difference x y c) y c with
    | true =>
      rw [wraps, Bool.toNat_true] at back
      exact (decide_eq_true (by omega)).symm
    | false =>
      rw [wraps, Bool.toNat_false] at back
      exact (decide_eq_false (by omega)).symm
  rw [← same, back]

theorem carry_halves (x y : Word) (c : Bool) (i : Nat) :
    BitVec.carry (8 + i) x y c =
      BitVec.carry i x.high y.high (BitVec.carry 8 x.low y.low c) := by
  have hx := x.low.isLt
  have hy := y.low.isLt
  have hc := c.toNat_le
  simp only [BitVec.carry, Word.toNat_mod, Nat.mod_eq_of_lt hx, Nat.mod_eq_of_lt hy]
  rw [Nat.pow_add, decide_eq_decide]
  by_cases wraps : x.low.toNat + y.low.toNat + c.toNat ≥ 2 ^ 8
  · rw [decide_eq_true wraps, Bool.toNat_true]
    omega
  · rw [decide_eq_false wraps, Bool.toNat_false]
    omega

theorem borrow_halves (x y : Word) (c : Bool) (i : Nat) :
    borrow (8 + i) x y c = borrow i x.high y.high (borrow 8 x.low y.low c) := by
  have hx := x.low.isLt
  have hy := y.low.isLt
  have hc := c.toNat_le
  simp only [borrow, BitVec.toNat_setWidth, Word.toNat_mod, Nat.mod_eq_of_lt hx,
    Nat.mod_eq_of_lt hy]
  rw [decide_eq_decide]
  by_cases under : x.low.toNat < y.low.toNat + c.toNat
  · rw [decide_eq_true under, Bool.toNat_true]
    omega
  · rw [decide_eq_false under, Bool.toNat_false]
    omega

theorem sum_halves (x y : Word) (c : Bool) :
    sum x y c =
      Word.ofBytes (sum x.high y.high (BitVec.carry 8 x.low y.low c)) (sum x.low y.low c) := by
  apply BitVec.eq_of_toNat_eq
  have whole := toNat_sum x y c
  have low := toNat_sum x.low y.low c
  have high := toNat_sum x.high y.high (BitVec.carry 8 x.low y.low c)
  have hc : BitVec.carry 16 x y c = _ := carry_halves x y c 8
  rw [hc, x.toNat_halves, y.toNat_halves] at whole
  rw [Word.toNat_ofBytes]
  omega

theorem difference_halves (x y : Word) (c : Bool) :
    difference x y c =
      Word.ofBytes (difference x.high y.high (borrow 8 x.low y.low c))
        (difference x.low y.low c) := by
  apply BitVec.eq_of_toNat_eq
  have whole := toNat_difference x y c
  have low := toNat_difference x.low y.low c
  have high := toNat_difference x.high y.high (borrow 8 x.low y.low c)
  have hc : borrow 16 x y c = _ := borrow_halves x y c 8
  rw [hc, x.toNat_halves, y.toNat_halves] at whole
  rw [Word.toNat_ofBytes]
  omega

/-- An operation on bytes made on the low halves and then, with the carry that leaves there,
on the high ones. Zero is told of the whole word, all other flags are those of the high half. -/
def byHalves (op : Byte → Byte → Bool → Result 8) (x y : Word) (c : Bool) : Result 16 :=
  let low := op x.low y.low c
  let high := op x.high y.high low.flags.c
  let value := Word.ofBytes high.value low.value
  { value, flags := { high.flags with z := value == 0 } }

/-- Sums and differences of words are those of their bytes, the low ones first. A sum without
carry tells of the high half only in H, C, X and Y, and leaves S, Z and P as they came. -/
theorem wide_by_halves (x y : Word) :
    (∀ c, adc16 x y c = byHalves add x y c) ∧ (∀ c, sbc16 x y c = byHalves sub x y c) ∧
    ∀ f, add16 x y f =
      let ⟨value, high⟩ := byHalves add x y false
      ⟨value, { f with h := high.h, c := high.c, x := high.x, y := high.y, n := false }⟩ := by
  refine ⟨fun c => ?_, fun c => ?_, fun f => ?_⟩
  · have h4 : BitVec.carry 12 x y c = _ := carry_halves x y c 4
    have h7 : BitVec.carry 15 x y c = _ := carry_halves x y c 7
    have h8 : BitVec.carry 16 x y c = _ := carry_halves x y c 8
    simp [adc16, byHalves, add, ofWord, Flags.ofValue, Flags.copyXY, sum_halves, h4, h7, h8]
  · have h4 : borrow 12 x y c = _ := borrow_halves x y c 4
    have h7 : borrow 15 x y c = _ := borrow_halves x y c 7
    have h8 : borrow 16 x y c = _ := borrow_halves x y c 8
    simp [sbc16, byHalves, sub, ofWord, Flags.ofValue, Flags.copyXY, difference_halves, h4, h7, h8]
  · have h4 : BitVec.carry 12 x y false = _ := carry_halves x y false 4
    have h8 : BitVec.carry 16 x y false = _ := carry_halves x y false 8
    simp [add16, byHalves, add, Flags.ofValue, Flags.copyXY, sum_halves, h4, h8]

end Alu

end Z80
