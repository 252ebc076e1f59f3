import Z80.Alu.Shift
import Z80.Proofs.Chained

/-! Numbers of many bytes, shifted by one place. The bit that leaves a byte is the carry and enters
the next, so the bytes are gone over in the direction of the shift: from the lowest up to double a
number, from the highest down to halve it. Nothing is lost on the way, and each undoes the other. -/
namespace Z80

/-- As `chain`, but from the end of the list. -/
def chainDown (op : α → Flags → Result 8) : List α → Flags → List Byte × Flags
  | [], f => ([], f)
  | a :: rest, f =>
    let (values, last) := chainDown op rest f
    let r := op a last
    (r.value :: values, r.flags)

variable {op : α → Flags → Result 8}

theorem chainDown_cons (a : α) (as : List α) (f : Flags) :
    chainDown op (a :: as) f =
      ((op a (chainDown op as f).2).value :: (chainDown op as f).1,
        (op a (chainDown op as f).2).flags) := rfl

theorem length_chainDown (as : List α) (f : Flags) :
    (chainDown op as f).1.length = as.length := by
  induction as with
  | nil => rfl
  | cons a as ih => rw [chainDown_cons, List.length_cons, ih, List.length_cons]

namespace Shift

theorem toNat_msb (v : Byte) : v.msb.toNat = v.toNat / 128 := by
  have hv := v.isLt
  rw [BitVec.msb_eq_decide]
  by_cases high : 2 ^ (8 - 1) ≤ v.toNat
  · rw [decide_eq_true high, Bool.toNat_true]
    omega
  · rw [decide_eq_false high, Bool.toNat_false]
    omega

theorem toNat_bit_zero (v : Byte) : (v.getLsbD 0).toNat = v.toNat % 2 := by
  rw [BitVec.getLsbD, Nat.toNat_testBit, Nat.pow_zero, Nat.div_one]

theorem balance_rl (v : Byte) (f : Flags) :
    v.toNat + (v.toNat + f.c.toNat) =
      (rl.apply v f).value.toNat + 256 * (rl.apply v f).flags.c.toNat := by
  have bit := f.c.toNat_lt
  have value : (rl.apply v f).value.toNat = 2 * (v.toNat % 128) + f.c.toNat := by
    change (v.setWidth 7 ++ BitVec.ofBool f.c).toNat = _
    rw [toNat_append_eq_add, BitVec.toNat_setWidth, BitVec.toNat_ofBool]
    rfl
  have carry : (rl.apply v f).flags.c.toNat = v.toNat / 128 := toNat_msb v
  omega

theorem balance_rr (v : Byte) (f : Flags) :
    v.toNat + 256 * f.c.toNat =
      2 * (rr.apply v f).value.toNat + (rr.apply v f).flags.c.toNat := by
  have value : (rr.apply v f).value.toNat = 128 * f.c.toNat + v.toNat / 2 := by
    change (BitVec.ofBool f.c ++ v.extractLsb' 1 7).toNat = _
    have hv := v.isLt
    rw [toNat_append_eq_add, BitVec.toNat_ofBool, BitVec.extractLsb'_toNat,
      Nat.shiftRight_eq_div_pow, Nat.mod_eq_of_lt (by omega)]
    rfl
  have carry : (rr.apply v f).flags.c.toNat = v.toNat % 2 := toNat_bit_zero v
  omega

def up (bs : List Byte) (f : Flags) : List Byte × Flags := chain rl.apply bs f

def down (bs : List Byte) (f : Flags) : List Byte × Flags := chainDown rr.apply bs f

theorem number_up (bs : List Byte) (f : Flags) :
    2 * number bs + f.c.toNat =
      number (up bs f).1 + 256 ^ bs.length * (up bs f).2.c.toNat := by
  have balance : ∀ v ∈ bs, ∀ f, (v.toNat + 1 * (v.toNat + f.c.toNat) : Int) =
      (rl.apply v f).value.toNat + 1 * 256 * (rl.apply v f).flags.c.toNat := by
    intro v _ f
    have byte := balance_rl v f
    omega
  have whole : (number bs + 1 * (number bs + f.c.toNat) : Int) =
      number (up bs f).1 + 1 * (256 : Nat) ^ bs.length * (up bs f).2.c.toNat :=
    chain_balance balance f
  zify
  linear_combination whole

theorem number_down (bs : List Byte) (f : Flags) :
    number bs + 256 ^ bs.length * f.c.toNat =
      2 * number (down bs f).1 + (down bs f).2.c.toNat := by
  unfold down
  induction bs with
  | nil => simp [chainDown, number]
  | cons b bs ih =>
    have last := balance_rr b (chainDown rr.apply bs f).2
    rw [chainDown_cons, number_cons, number_cons, List.length_cons, pow_succ]
    linear_combination last + 256 * ih

theorem length_up (bs : List Byte) (f : Flags) : (up bs f).1.length = bs.length :=
  length_chain bs f

theorem length_down (bs : List Byte) (f : Flags) : (down bs f).1.length = bs.length :=
  length_chainDown bs f

theorem eq_of_doubled {bs cs : List Byte} {b c : Bool} (size : bs.length = cs.length)
    (same : 2 * number bs + b.toNat = 2 * number cs + c.toNat) : bs = cs ∧ b = c := by
  have bits : b.toNat = c.toNat := by
    have hb := b.toNat_le
    have hc := c.toNat_le
    omega
  rw [bits] at same
  refine ⟨number_inj size (by omega), ?_⟩
  cases b <;> cases c <;> trivial

theorem eq_of_carried {bs cs : List Byte} {b c : Bool} (size : bs.length = cs.length)
    (same : number bs + 256 ^ bs.length * b.toNat = number cs + 256 ^ cs.length * c.toNat) :
    bs = cs ∧ b = c := by
  have hb := number_lt bs
  have hc := number_lt cs
  rw [size] at hb same
  cases b <;> cases c <;> simp at same
  · exact ⟨number_inj size same, rfl⟩
  · omega
  · omega
  · exact ⟨number_inj size same, rfl⟩

theorem down_up (bs : List Byte) (f : Flags) :
    let r := down (up bs f).1 (up bs f).2
    r.1 = bs ∧ r.2.c = f.c := by
  intro r
  have size : r.1.length = bs.length := (length_down ..).trans (length_up ..)
  have there := number_up bs f
  have back := number_down (up bs f).1 (up bs f).2
  rw [length_up] at back
  exact eq_of_doubled size (back.symm.trans there.symm)

theorem up_down (bs : List Byte) (f : Flags) :
    let r := up (down bs f).1 (down bs f).2
    r.1 = bs ∧ r.2.c = f.c := by
  intro r
  have size : r.1.length = bs.length := (length_up ..).trans (length_down ..)
  have there := number_down bs f
  have back := number_up (down bs f).1 (down bs f).2
  apply eq_of_carried size
  rw [size, ← length_down bs f, ← back, ← there, length_down]

theorem testBit_top {x k : Nat} (bound : x < 2 ^ (k + 1)) :
    x.testBit k = true ↔ 2 ^ k ≤ x :=
  ⟨Nat.ge_two_pow_of_testBit, fun h => Nat.testBit_of_two_pow_le_and_two_pow_add_one_gt h bound⟩

/-- Shifted up by one place, a number of `n` bytes is doubled but for multiples of `256 ^ n`;
shifted down it is halved, with the carry as its new top bit. The carry is left as the bit that
has no place any more, so that a shift the other way brings back the number and the carry. -/
theorem shifted_exact {n : Nat} {bs : List Byte} (size : bs.length = n) (some : 0 < n)
    (f : Flags) :
    (number (up bs f).1 = (2 * number bs + f.c.toNat) % 256 ^ n ∧
      (up bs f).2.c = (number bs).testBit (8 * n - 1)) ∧
    (number (down bs f).1 = number bs / 2 + f.c.toNat * 2 ^ (8 * n - 1) ∧
      (down bs f).2.c = (number bs).testBit 0) ∧
    (down (up bs f).1 (up bs f).2).1 = bs ∧ (down (up bs f).1 (up bs f).2).2.c = f.c ∧
    (up (down bs f).1 (down bs f).2).1 = bs ∧ (up (down bs f).1 (down bs f).2).2.c = f.c := by
  have whole := pow_bytes some
  have bound := number_lt bs
  have doubled := number_up bs f
  have halved := number_down bs f
  rw [size] at bound doubled halved
  refine ⟨?_, ?_, (down_up bs f).1, (down_up bs f).2, up_down bs f⟩
  · have room : number (up bs f).1 < 256 ^ n := by
      rw [← size, ← length_up bs f]
      exact number_lt _
    obtain ⟨value, carry⟩ := eq_mod_of_carry doubled room
    refine ⟨value, ?_⟩
    rw [Bool.eq_iff_iff, carry, testBit_top (by rw [pow_succ']; omega)]
    have hc := f.c.toNat_le
    omega
  · have hc := (down bs f).2.c.toNat_le
    have halves : number bs + 2 * (f.c.toNat * 2 ^ (8 * n - 1)) =
        2 * number (down bs f).1 + (down bs f).2.c.toNat := by
      rw [← halved, whole]
      ring
    refine ⟨by omega, ?_⟩
    rw [Bool.eq_iff_iff, Nat.testBit_zero, decide_eq_true_iff, ← Bool.toNat_eq_one]
    omega

theorem shifted_exact_two :
    let doubled := up [0x01, 0x80] { c := true }
    let halved := down [0x01, 0x80] { c := true }
    (number doubled.1 = 0x0003 ∧ doubled.2.c = true) ∧
      (number halved.1 = 0xC000 ∧ halved.2.c = true) ∧
      (down doubled.1 doubled.2).1 = [0x01, 0x80] ∧ (up halved.1 halved.2).1 = [0x01, 0x80] := by
  intro doubled halved
  obtain ⟨⟨value, carry⟩, ⟨value', carry'⟩, back, -, back', -⟩ :=
    @shifted_exact 2 [0x01, 0x80] rfl (by decide) { c := true }
  exact ⟨⟨value.trans (by decide), carry.trans (by decide)⟩,
    ⟨value'.trans (by decide), carry'.trans (by decide)⟩, back, back'⟩

end Shift

end Z80
