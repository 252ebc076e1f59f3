import Z80.Alu.Adjust
import Z80.Proofs.Chained

/-! Packed decimal numbers: two digits to a byte, the lowest byte first. A sum or difference of
such bytes is made as of any other and then adjusted. The adjustment brings back each digit that
has left its range, and its carry is the decimal one; so the bytes of a number can be gone over
from the lowest up, each with the flags that the adjustment before it has left. -/
namespace Z80

namespace Alu

def highDigit (a : Byte) : Nat := a.toNat / 16

def IsPacked (a : Byte) : Prop := highDigit a ≤ 9 ∧ lowDigit a ≤ 9

instance (a : Byte) : Decidable (IsPacked a) := inferInstanceAs (Decidable (_ ∧ _))

def twoDigits (a : Byte) : Nat := 10 * highDigit a + lowDigit a

/-- Whether the low digit has left its range. -/
def lowStrays (a : Byte) (f : Flags) : Bool := f.h || 9 < lowDigit a

theorem toNat_correction (a : Byte) (f : Flags) :
    (correction a f).toNat = 6 * (lowStrays a f).toNat + 96 * (daa a f).flags.c.toNat := by
  simp only [correction, lowStrays, daa]
  cases f.h || decide (9 < lowDigit a) <;> cases f.c || decide (0x99 < a.toNat) <;> rfl

theorem toNat_daa_add {a : Byte} {f : Flags} (sums : f.n = false) :
    (daa a f).value.toNat = (a.toNat + (correction a f).toNat) % 2 ^ 8 := by
  simp only [daa, sums]
  exact BitVec.toNat_add _ _

theorem toNat_daa_sub {a : Byte} {f : Flags} (subtracts : f.n = true) :
    (daa a f).value.toNat = (2 ^ 8 - (correction a f).toNat + a.toNat) % 2 ^ 8 := by
  simp only [daa, subtracts]
  exact BitVec.toNat_sub _ _

variable {x y : Byte}

theorem lowStrays_add (hx : IsPacked x) (hy : IsPacked y) (c : Bool) :
    lowStrays (sum x y c) (add x y c).flags = true ↔
      10 ≤ lowDigit x + lowDigit y + c.toNat := by
  have whole := toNat_sum x y c
  have hc := c.toNat_le
  have half : BitVec.carry 4 x y c = true ↔ 16 ≤ lowDigit x + lowDigit y + c.toNat :=
    decide_eq_true_iff
  simp only [lowStrays, add, Bool.or_eq_true, half, decide_eq_true_eq]
  unfold IsPacked lowDigit highDigit at *
  omega

/-- A sum of packed bytes is past 99 if it is past `0x99`, or the carry says so. -/
theorem carry_daa_add (hx : IsPacked x) (hy : IsPacked y) (c : Bool) :
    (daa (sum x y c) (add x y c).flags).flags.c = true ↔
      100 ≤ twoDigits x + twoDigits y + c.toNat := by
  have whole := toNat_sum x y c
  have hc := c.toNat_le
  have hs := (sum x y c).isLt
  simp only [daa, add]
  unfold IsPacked twoDigits lowDigit highDigit at *
  cases wraps : BitVec.carry 8 x y c with
  | false =>
    rw [wraps, Bool.toNat_false] at whole
    rw [Bool.false_or, decide_eq_true_iff]
    omega
  | true =>
    rw [wraps, Bool.toNat_true] at whole
    rw [Bool.true_or, eq_self, true_iff]
    omega

theorem daa_add (hx : IsPacked x) (hy : IsPacked y) (c : Bool) :
    let r := daa (add x y c).value (add x y c).flags
    IsPacked r.value ∧
      twoDigits x + twoDigits y + c.toNat = twoDigits r.value + 100 * r.flags.c.toNat := by
  intro r
  have whole := toNat_sum x y c
  have hc := c.toNat_le
  have hs := (sum x y c).isLt
  have low := lowStrays_add hx hy c
  have carry : r.flags.c = true ↔ _ := carry_daa_add hx hy c
  have value : r.value.toNat = ((sum x y c).toNat +
      (correction (sum x y c) (add x y c).flags).toNat) % 2 ^ 8 := toNat_daa_add rfl
  rw [toNat_correction] at value
  change _ = (_ + (_ + 96 * r.flags.c.toNat)) % _ at value
  unfold IsPacked twoDigits lowDigit highDigit at *
  -- each digit is brought back or not
  cases strays : lowStrays (sum x y c) (add x y c).flags <;> cases carried : r.flags.c <;>
    simp only [strays, carried, Bool.toNat_true, Bool.toNat_false, true_iff, false_iff,
      Bool.false_eq_true] at * <;>
    omega

theorem lowStrays_sub (hx : IsPacked x) (hy : IsPacked y) (c : Bool) :
    lowStrays (difference x y c) (sub x y c).flags = true ↔
      lowDigit x < lowDigit y + c.toNat := by
  have whole := toNat_difference x y c
  have hc := c.toNat_le
  have half : borrow 4 x y c = true ↔ lowDigit x < lowDigit y + c.toNat := by
    simp only [borrow, BitVec.toNat_setWidth, decide_eq_true_eq]
    rfl
  simp only [lowStrays, sub, Bool.or_eq_true, half, decide_eq_true_eq]
  unfold IsPacked lowDigit highDigit at *
  omega

theorem carry_daa_sub (hx : IsPacked x) (hy : IsPacked y) (c : Bool) :
    (daa (difference x y c) (sub x y c).flags).flags.c = true ↔
      twoDigits x < twoDigits y + c.toNat := by
  have whole := toNat_difference x y c
  have hc := c.toNat_le
  have hs := (difference x y c).isLt
  simp only [daa, sub]
  unfold IsPacked twoDigits lowDigit highDigit at *
  cases wraps : borrow 8 x y c with
  | false =>
    rw [wraps, Bool.toNat_false] at whole
    rw [Bool.false_or, decide_eq_true_iff]
    omega
  | true =>
    rw [wraps, Bool.toNat_true] at whole
    rw [Bool.true_or, eq_self, true_iff]
    omega

theorem daa_sub (hx : IsPacked x) (hy : IsPacked y) (c : Bool) :
    let r := daa (sub x y c).value (sub x y c).flags
    IsPacked r.value ∧
      twoDigits x + 100 * r.flags.c.toNat = twoDigits r.value + twoDigits y + c.toNat := by
  intro r
  have whole := toNat_difference x y c
  have hc := c.toNat_le
  have hs := (difference x y c).isLt
  have low := lowStrays_sub hx hy c
  have carry : r.flags.c = true ↔ _ := carry_daa_sub hx hy c
  have value : r.value.toNat = (2 ^ 8 - (correction (difference x y c) (sub x y c).flags).toNat +
      (difference x y c).toNat) % 2 ^ 8 := toNat_daa_sub rfl
  rw [toNat_correction] at value
  change _ = (2 ^ 8 - (_ + 96 * r.flags.c.toNat) + _) % _ at value
  unfold IsPacked twoDigits lowDigit highDigit at *
  -- each digit is brought back or not
  cases strays : lowStrays (difference x y c) (sub x y c).flags <;> cases carried : r.flags.c <;>
    simp only [strays, carried, Bool.toNat_true, Bool.toNat_false, true_iff, false_iff,
      Bool.false_eq_true] at * <;>
    omega

end Alu

open Alu

def decimal (bs : List Byte) : Nat := Nat.ofDigits 100 (bs.map twoDigits)

theorem decimal_cons (b : Byte) (bs : List Byte) :
    decimal (b :: bs) = twoDigits b + 100 * decimal bs := Nat.ofDigits_cons

def pack : Nat → Nat → List Byte
  | 0, _ => []
  | n + 1, v => .ofNat 8 (16 * (v / 10 % 10) + v % 10) :: pack n (v / 100)

theorem twoDigits_lt {b : Byte} (packed : IsPacked b) : twoDigits b < 100 := by
  unfold IsPacked twoDigits at *
  omega

theorem pack_decimal {bs : List Byte} (packed : ∀ b ∈ bs, IsPacked b) :
    pack bs.length (decimal bs) = bs := by
  induction bs with
  | nil => rfl
  | cons b bs ih =>
    obtain ⟨first, others⟩ := List.forall_mem_cons.mp packed
    have digits : 16 * (decimal (b :: bs) / 10 % 10) + decimal (b :: bs) % 10 = b.toNat := by
      rw [decimal_cons]
      unfold IsPacked twoDigits lowDigit highDigit at *
      omega
    have rest : decimal (b :: bs) / 100 = decimal bs := by
      have bound := twoDigits_lt first
      rw [decimal_cons]
      omega
    rw [List.length_cons, pack, digits, rest, ih others, BitVec.ofNat_toNat, BitVec.setWidth_eq]

theorem decimal_lt {bs : List Byte} (packed : ∀ b ∈ bs, IsPacked b) :
    decimal bs < 100 ^ bs.length := by
  have bound : ∀ d ∈ bs.map twoDigits, d < 100 := by
    intro d hd
    obtain ⟨b, hb, rfl⟩ := List.mem_map.mp hd
    exact twoDigits_lt (packed b hb)
  simpa [decimal] using Nat.ofDigits_lt_base_pow_length (by decide) bound

/-- On packed bytes `op` is a sum or, by a `sign` of -1, a difference, and packed itself. -/
structure ExactDecimal (sign : Int) (op : Byte × Byte → Flags → Result 8) : Prop where
  packed : ∀ p f, IsPacked p.1 → IsPacked p.2 → IsPacked (op p f).value
  balance : ∀ p f, IsPacked p.1 → IsPacked p.2 →
    (twoDigits p.1 + sign * (twoDigits p.2 + f.c.toNat) : Int) =
      twoDigits (op p f).value + sign * 100 * (op p f).flags.c.toNat

/-- The operation on two bytes, adjusted by the flags that it leaves. -/
def AluOp.adjusted (op : AluOp) (p : Byte × Byte) (f : Flags) : Result 8 :=
  let r := op.apply p.1 p.2 f
  daa r.value r.flags

theorem exactDecimal_adc : ExactDecimal 1 AluOp.adc.adjusted where
  packed p f hx hy := (daa_add hx hy f.c).1
  balance p f hx hy := by
    have balance := (daa_add hx hy f.c).2
    simp only [AluOp.adjusted, AluOp.apply]
    omega

theorem exactDecimal_sbc : ExactDecimal (-1) AluOp.sbc.adjusted where
  packed p f hx hy := (daa_sub hx hy f.c).1
  balance p f hx hy := by
    have balance := (daa_sub hx hy f.c).2
    simp only [AluOp.adjusted, AluOp.apply]
    omega

def AluOp.chainedDecimal (op : AluOp) (xs ys : List Byte) : Flags → List Byte × Flags :=
  chain op.adjusted (xs.zip ys)

variable {sign : Int} {op : Byte × Byte → Flags → Result 8} {n : Nat} {xs ys : List Byte}

theorem ExactDecimal.chain_decimal (exact : ExactDecimal sign op) {ps : List (Byte × Byte)}
    (packed : ∀ p ∈ ps, IsPacked p.1 ∧ IsPacked p.2) (f : Flags) :
    (decimal (ps.map Prod.fst) + sign * (decimal (ps.map Prod.snd) + f.c.toNat) : Int) =
      decimal (chain op ps f).1 + sign * 100 ^ ps.length * (chain op ps f).2.c.toNat := by
  have whole := @chain_balance _ op (twoDigits ·.1) (twoDigits ·.2) twoDigits 100 sign ps
    (fun p hp f => exact.balance p f (packed p hp).1 (packed p hp).2) f
  unfold decimal
  rw [List.map_map, List.map_map]
  exact mod_cast whole

theorem ExactDecimal.chain_zip (exact : ExactDecimal sign op) (hx : xs.length = n)
    (hy : ys.length = n) (packed : ∀ b ∈ xs ++ ys, IsPacked b) (f : Flags) :
    let r := chain op (xs.zip ys) f
    pack n (decimal r.1) = r.1 ∧ decimal r.1 < 100 ^ n ∧
    (decimal xs + sign * (decimal ys + f.c.toNat) : Int) =
      decimal r.1 + sign * 100 ^ n * r.2.c.toNat := by
  intro r
  obtain ⟨size, left, right⟩ := zip_sides hx hy
  have pairs : ∀ p ∈ xs.zip ys, IsPacked p.1 ∧ IsPacked p.2 := fun p hp =>
    ⟨packed p.1 (List.mem_append_left ys (List.of_mem_zip hp).1),
      packed p.2 (List.mem_append_right xs (List.of_mem_zip hp).2)⟩
  have values : ∀ b ∈ r.1, IsPacked b :=
    chain_values (fun p hp f => exact.packed p f (pairs p hp).1 (pairs p hp).2) f
  have count : r.1.length = n := (length_chain _ f).trans size
  have balance := exact.chain_decimal pairs f
  rw [left, right, size] at balance
  exact ⟨count ▸ pack_decimal values, count ▸ decimal_lt values, balance⟩

/-- Sums and differences of packed numbers of `n` bytes, each byte adjusted before the next is
gone to: packed again, right but for multiples of `100 ^ n`, and the last carry tells of those. -/
theorem decimal_exact (hx : xs.length = n) (hy : ys.length = n)
    (packed : ∀ b ∈ xs ++ ys, IsPacked b) (some : 0 < n) (f : Flags) :
    let sum := AluOp.adc.chainedDecimal xs ys f
    let difference := AluOp.sbc.chainedDecimal xs ys f
    (sum.1 = pack n ((decimal xs + decimal ys + f.c.toNat) % 100 ^ n) ∧
      (sum.2.c = true ↔ 100 ^ n ≤ decimal xs + decimal ys + f.c.toNat)) ∧
    difference.1 =
        pack n ((decimal xs - decimal ys - f.c.toNat : Int) % (100 ^ n : Nat)).toNat ∧
      (difference.2.c = true ↔ decimal xs < decimal ys + f.c.toNat) ∧
      difference.2.n = true := by
  intro sum difference
  constructor
  · obtain ⟨bytes, bound, balance⟩ := exactDecimal_adc.chain_zip hx hy packed f
    change (decimal xs + 1 * (decimal ys + f.c.toNat) : Int) =
      decimal sum.1 + 1 * 100 ^ n * sum.2.c.toNat at balance
    have whole : decimal xs + decimal ys + f.c.toNat =
        decimal sum.1 + 100 ^ n * sum.2.c.toNat := by
      zify
      linear_combination balance
    obtain ⟨value, carry⟩ := eq_mod_of_carry whole bound
    exact ⟨value ▸ bytes.symm, carry⟩
  · obtain ⟨bytes, bound, balance⟩ := exactDecimal_sbc.chain_zip hx hy packed f
    change (decimal xs + -1 * (decimal ys + f.c.toNat) : Int) =
      decimal difference.1 + -1 * 100 ^ n * difference.2.c.toNat at balance
    have whole : (decimal xs - decimal ys - f.c.toNat : Int) =
        decimal difference.1 - (100 ^ n : Nat) * difference.2.c.toNat := by
      push_cast
      linear_combination balance
    obtain ⟨value, borrow⟩ := eq_emod_of_borrow whole bound
    have nonempty : xs.zip ys ≠ [] := List.ne_nil_of_length_pos ((zip_sides hx hy).1 ▸ some)
    have subtracted : difference.2.n = true :=
      chain_last (P := fun g => g.n = true) (fun _ _ => rfl) nonempty f
    refine ⟨?_, borrow.trans (by omega), subtracted⟩
    rw [← value, Int.toNat_natCast]
    exact bytes.symm

theorem decimal_exact_two :
    let sum := AluOp.adc.chainedDecimal [0x00, 0x10] [0x99, 0x09] { c := true }
    let difference := AluOp.sbc.chainedDecimal [0x00, 0x10] [0x99, 0x09] { c := true }
    (sum.1 = [0x00, 0x20] ∧ sum.2.c = false) ∧
      difference.1 = [0x00, 0x00] ∧ difference.2.c = false ∧ difference.2.n = true := by
  intro sum difference
  obtain ⟨⟨value, carry⟩, value', borrow, subtracted⟩ :=
    @decimal_exact 2 [0x00, 0x10] [0x99, 0x09] rfl rfl (by decide) (by decide) { c := true }
  refine ⟨⟨value.trans (by decide), ?_⟩, value'.trans (by decide), ?_, subtracted⟩
  · exact Bool.eq_false_iff.mpr fun h => absurd (carry.mp h) (by decide)
  · exact Bool.eq_false_iff.mpr fun h => absurd (borrow.mp h) (by decide)

end Z80
