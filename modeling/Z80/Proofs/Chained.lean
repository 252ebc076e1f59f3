import Mathlib.Data.List.Induction
import Mathlib.Data.Nat.Digits.Lemmas
import Mathlib.Tactic.LinearCombination
import Z80.Proofs.Halves

/-! Numbers of many bytes, the lowest byte first. An operation goes over them byte by byte and
hands the flags of each on to the next; of those flags the carry is all that it needs. What one
byte leaves over is made up by the next, so over the whole number only the last carry is left. -/
namespace Z80

/-- Runs `op` over a list from its head, each time with the flags of the time before. -/
def chain (op : α → Flags → Result 8) : List α → Flags → List Byte × Flags
  | [], f => ([], f)
  | a :: rest, f =>
    let r := op a f
    let (values, last) := chain op rest r.flags
    (r.value :: values, last)

variable {op : α → Flags → Result 8} {f : Flags}

theorem chain_cons (a : α) (as : List α) (f : Flags) :
    chain op (a :: as) f = ((op a f).value :: (chain op as (op a f).flags).1,
      (chain op as (op a f).flags).2) := rfl

theorem length_chain (as : List α) (f : Flags) : (chain op as f).1.length = as.length := by
  induction as generalizing f with
  | nil => rfl
  | cons a as ih => rw [chain_cons, List.length_cons, ih, List.length_cons]

theorem chain_values {P : Byte → Prop} {as : List α} (each : ∀ a ∈ as, ∀ f, P (op a f).value)
    (f : Flags) : ∀ b ∈ (chain op as f).1, P b := by
  induction as generalizing f with
  | nil => simp [chain]
  | cons a as ih =>
    rw [chain_cons, List.forall_mem_cons]
    exact ⟨each a List.mem_cons_self f,
      ih (fun b hb => each b (List.mem_cons_of_mem a hb)) (op a f).flags⟩

theorem chain_last {P : Flags → Prop} (each : ∀ a f, P (op a f).flags) {as : List α}
    (some : as ≠ []) (f : Flags) : P (chain op as f).2 := by
  induction as, some using List.recNeNil generalizing f with
  | singleton a => exact each a f
  | cons a as some ih => exact ih (op a f).flags

/-- If an operation takes from each byte, or adds to it, just what its carry stands for, then so
does its chain. By `sign` it is a sum or a difference; the digits may be of any base. -/
theorem chain_balance {lhs rhs : α → Nat} {digit : Byte → Nat} {base : Nat} {sign : Int}
    {as : List α} (balance : ∀ a ∈ as, ∀ f, (lhs a + sign * (rhs a + f.c.toNat) : Int) =
      digit (op a f).value + sign * base * (op a f).flags.c.toNat) (f : Flags) :
    (Nat.ofDigits base (as.map lhs) + sign * (Nat.ofDigits base (as.map rhs) + f.c.toNat) : Int) =
      Nat.ofDigits base ((chain op as f).1.map digit) +
        sign * base ^ as.length * (chain op as f).2.c.toNat := by
  induction as generalizing f with
  | nil => simp [chain]
  | cons a as ih =>
    have first := balance a List.mem_cons_self f
    have others := ih (fun b hb => balance b (List.mem_cons_of_mem a hb)) (op a f).flags
    rw [chain_cons]
    simp only [List.map_cons, Nat.ofDigits_cons, List.length_cons, pow_succ]
    push_cast at others ⊢
    linear_combination first + base * others

def number (bs : List Byte) : Nat := Nat.ofDigits 256 (bs.map BitVec.toNat)

theorem number_cons (b : Byte) (bs : List Byte) : number (b :: bs) = b.toNat + 256 * number bs :=
  Nat.ofDigits_cons

theorem digit_lt (bs : List Byte) : ∀ d ∈ bs.map BitVec.toNat, d < 256 := by
  intro d hd
  obtain ⟨b, -, rfl⟩ := List.mem_map.mp hd
  exact b.isLt

theorem number_lt (bs : List Byte) : number bs < 256 ^ bs.length := by
  simpa [number] using Nat.ofDigits_lt_base_pow_length (by decide) (digit_lt bs)

theorem number_inj {bs cs : List Byte} (size : bs.length = cs.length)
    (same : number bs = number cs) : bs = cs := by
  apply List.map_injective_iff.mpr fun _ _ => BitVec.eq_of_toNat_eq
  exact Nat.ofDigits_inj_of_len_eq (by decide) (by simpa using size) (digit_lt bs) (digit_lt cs)
    same

theorem testBit_number_cons (b : Byte) (bs : List Byte) (i : Nat) :
    (number (b :: bs)).testBit (8 + i) = (number bs).testBit i := by
  rw [number_cons, Nat.add_comm]
  have bits := Nat.testBit_two_pow_mul_add (number bs) b.isLt (8 + i)
  simpa using bits

theorem eq_mod_of_carry {t r m : Nat} {c : Bool} (whole : t = r + m * c.toNat) (bound : r < m) :
    r = t % m ∧ (c = true ↔ m ≤ t) := by
  constructor
  · rw [whole, Nat.add_mul_mod_self_left, Nat.mod_eq_of_lt bound]
  · rw [whole]
    cases c <;> simp [bound]

theorem eq_emod_of_borrow {t : Int} {r m : Nat} {c : Bool} (whole : t = r - m * c.toNat)
    (bound : r < m) : (r : Int) = t % m ∧ (c = true ↔ t < 0) := by
  constructor
  · rw [whole, sub_eq_add_neg, ← mul_neg, Int.add_mul_emod_self_left,
      Int.emod_eq_of_lt (by omega) (by omega)]
  · cases c <;> simp at whole ⊢ <;> omega

/-- The number that they spell in two's complement. -/
def signed (bs : List Byte) : Int := (number bs : Int).bmod (256 ^ bs.length)

def InRange (n : Nat) (v : Int) : Prop := -256 ^ n ≤ 2 * v ∧ 2 * v < 256 ^ n

theorem signed_single (b : Byte) : signed [b] = b.toInt := by
  simp [signed, number, BitVec.toInt_eq_toNat_bmod]

theorem signed_eq (bs : List Byte) :
    signed bs = if 2 * number bs < 256 ^ bs.length then (number bs : Int)
      else number bs - (256 ^ bs.length : Nat) := by
  have bound := number_lt bs
  rw [signed, Int.bmod_def, Int.emod_eq_of_lt (by omega) (by omega)]
  split <;> split <;> omega

theorem pow_bytes {n : Nat} (some : 0 < n) : 256 ^ n = 2 * 2 ^ (8 * n - 1) := by
  rw [← Nat.pow_succ', Nat.succ_eq_add_one, Nat.sub_add_cancel (by omega), Nat.pow_mul]

theorem even_pow {n : Nat} (some : 0 < n) : ∃ k, 256 ^ n = 2 * k := ⟨_, pow_bytes some⟩

theorem signed_cons (b : Byte) {bs : List Byte} (some : bs ≠ []) :
    signed (b :: bs) = b.toNat + 256 * signed bs := by
  have byte := b.isLt
  obtain ⟨k, even⟩ := even_pow (List.length_pos_iff.mpr some)
  rw [signed_eq, signed_eq, number_cons, List.length_cons, pow_succ]
  split <;> split <;> omega

theorem inRange_succ {n : Nat} (some : 0 < n) (b : Byte) (v : Int) :
    InRange (n + 1) (b.toNat + 256 * v) ↔ InRange n v := by
  have byte := b.isLt
  obtain ⟨k, even⟩ := even_pow some
  have whole : (256 : Int) ^ n = 2 * k := mod_cast even
  unfold InRange
  rw [pow_succ, whole]
  omega

/-- On single bytes `op` is a sum or, by a `sign` of -1, a difference, and reports it well. -/
structure Exact (sign : Int) (op : Byte × Byte → Flags → Result 8) : Prop where
  balance : ∀ p f, (p.1.toNat + sign * (p.2.toNat + f.c.toNat) : Int) =
    (op p f).value.toNat + sign * 256 * (op p f).flags.c.toNat
  overflow : ∀ p f, (op p f).flags.p = true ↔
    ¬InRange 1 (p.1.toInt + sign * (p.2.toInt + f.c.toNat))
  top : ∀ p f, (op p f).flags.s = (op p f).value.msb

open Alu

theorem exact_adc : Exact 1 fun p f => AluOp.adc.apply p.1 p.2 f where
  balance p f := by
    have sum := toNat_sum p.1 p.2 f.c
    simp only [AluOp.apply, add]
    omega
  overflow p f := by
    have hx := p.1.isLt
    have hy := p.2.isLt
    have hc := f.c.toNat_le
    simp only [AluOp.apply, add, BitVec.carry, InRange, BitVec.toInt_eq_toNat_cond, bne_iff_ne,
      ne_eq, decide_eq_decide]
    split <;> split <;> omega
  top p f := rfl

theorem exact_sbc : Exact (-1) fun p f => AluOp.sbc.apply p.1 p.2 f where
  balance p f := by
    have difference := toNat_difference p.1 p.2 f.c
    simp only [AluOp.apply, sub]
    omega
  overflow p f := by
    have hx := p.1.isLt
    have hy := p.2.isLt
    have hc := f.c.toNat_le
    simp only [AluOp.apply, sub, borrow, BitVec.toNat_setWidth, InRange,
      BitVec.toInt_eq_toNat_cond, bne_iff_ne, ne_eq, decide_eq_decide]
    split <;> split <;> omega
  top p f := rfl

variable {sign : Int} {op : Byte × Byte → Flags → Result 8} {ps : List (Byte × Byte)}

theorem Exact.chain_overflow (exact : Exact sign op) (some : ps ≠ []) (f : Flags) :
    (chain op ps f).2.p = true ↔ ¬InRange ps.length
      (signed (ps.map Prod.fst) + sign * (signed (ps.map Prod.snd) + f.c.toNat)) := by
  induction ps, some using List.recNeNil generalizing f with
  | singleton p => simpa [chain, signed_single] using exact.overflow p f
  | cons p ps some ih =>
    have first := exact.balance p f
    have left : signed ((p :: ps).map Prod.fst) = _ := signed_cons p.1 (by simpa using some)
    have right : signed ((p :: ps).map Prod.snd) = _ := signed_cons p.2 (by simpa using some)
    have shifted : signed ((p :: ps).map Prod.fst) +
          sign * (signed ((p :: ps).map Prod.snd) + f.c.toNat) =
        (op p f).value.toNat + 256 * (signed (ps.map Prod.fst) +
          sign * (signed (ps.map Prod.snd) + (op p f).flags.c.toNat)) := by
      linear_combination left + sign * right + first
    rw [shifted, List.length_cons, inRange_succ (List.length_pos_iff.mpr some), chain_cons]
    exact ih (op p f).flags

theorem Exact.chain_top (exact : Exact sign op) (some : ps ≠ []) (f : Flags) :
    (chain op ps f).2.s = (number (chain op ps f).1).testBit (8 * ps.length - 1) := by
  induction ps, some using List.recNeNil generalizing f with
  | singleton p =>
    have last : (op p f).value.msb = (op p f).value.toNat.testBit 7 :=
      BitVec.msb_eq_getLsbD_last _
    simp [chain, number, exact.top, last]
  | cons p ps some ih =>
    have size := List.length_pos_iff.mpr some
    have index : 8 * (p :: ps).length - 1 = 8 + (8 * ps.length - 1) := by
      rw [List.length_cons]
      omega
    rw [index, chain_cons, testBit_number_cons]
    exact ih (op p f).flags

theorem Exact.chain_number (exact : Exact sign op) (ps : List (Byte × Byte)) (f : Flags) :
    (number (ps.map Prod.fst) + sign * (number (ps.map Prod.snd) + f.c.toNat) : Int) =
      number (chain op ps f).1 + sign * 256 ^ ps.length * (chain op ps f).2.c.toNat := by
  have whole := @chain_balance _ op (·.1.toNat) (·.2.toNat) BitVec.toNat 256 sign ps
    (fun p _ f => exact.balance p f) f
  unfold number
  rw [List.map_map, List.map_map]
  exact mod_cast whole

def AluOp.chained (op : AluOp) (xs ys : List Byte) : Flags → List Byte × Flags :=
  chain (fun p f => op.apply p.1 p.2 f) (xs.zip ys)

theorem zip_sides {n : Nat} {xs ys : List Byte} (hx : xs.length = n) (hy : ys.length = n) :
    (xs.zip ys).length = n ∧ (xs.zip ys).map Prod.fst = xs ∧ (xs.zip ys).map Prod.snd = ys :=
  ⟨by simp [hx, hy], List.map_fst_zip (by omega), List.map_snd_zip (by omega)⟩

theorem Exact.chain_zip (exact : Exact sign op) {n : Nat} {xs ys : List Byte}
    (hx : xs.length = n) (hy : ys.length = n) (some : 0 < n) (f : Flags) :
    let r := chain op (xs.zip ys) f
    r.1.length = n ∧
    (number xs + sign * (number ys + f.c.toNat) : Int) =
      number r.1 + sign * 256 ^ n * r.2.c.toNat ∧
    (r.2.p = true ↔ ¬InRange n (signed xs + sign * (signed ys + f.c.toNat))) ∧
    r.2.s = (number r.1).testBit (8 * n - 1) := by
  obtain ⟨size, left, right⟩ := zip_sides hx hy
  have nonempty : xs.zip ys ≠ [] := List.ne_nil_of_length_pos (size ▸ some)
  have balance := exact.chain_number (xs.zip ys) f
  have overflow := exact.chain_overflow nonempty f
  have top := exact.chain_top nonempty f
  rw [left, right, size] at balance overflow
  rw [size] at top
  exact ⟨(length_chain _ f).trans size, balance, overflow, top⟩

/-- Sums and differences of numbers of `n` bytes, made from the lowest byte up with the carry
handed on: right but for multiples of `256 ^ n`, and the last flags tell of the whole numbers. -/
theorem chained_exact {n : Nat} {xs ys : List Byte} (hx : xs.length = n) (hy : ys.length = n)
    (some : 0 < n) (f : Flags) :
    let sum := AluOp.adc.chained xs ys f
    let difference := AluOp.sbc.chained xs ys f
    (sum.1.length = n ∧
      number sum.1 = (number xs + number ys + f.c.toNat) % 256 ^ n ∧
      (sum.2.c = true ↔ 256 ^ n ≤ number xs + number ys + f.c.toNat) ∧
      (sum.2.p = true ↔ ¬InRange n (signed xs + signed ys + f.c.toNat)) ∧
      sum.2.s = (number sum.1).testBit (8 * n - 1)) ∧
    (difference.1.length = n ∧
      (number difference.1 : Int) = (number xs - number ys - f.c.toNat) % 256 ^ n ∧
      (difference.2.c = true ↔ number xs < number ys + f.c.toNat) ∧
      (difference.2.p = true ↔ ¬InRange n (signed xs - signed ys - f.c.toNat)) ∧
      difference.2.s = (number difference.1).testBit (8 * n - 1)) := by
  intro sum difference
  constructor
  · obtain ⟨size, balance, overflow, top⟩ := exact_adc.chain_zip hx hy some f
    change (number xs + 1 * (number ys + f.c.toNat) : Int) =
      number sum.1 + 1 * 256 ^ n * sum.2.c.toNat at balance
    have bound : number sum.1 < 256 ^ n := size ▸ number_lt sum.1
    have whole : number xs + number ys + f.c.toNat =
        number sum.1 + 256 ^ n * sum.2.c.toNat := by
      zify
      linear_combination balance
    refine ⟨size, ?_, ?_, ?_, top⟩
    · rw [whole, Nat.add_mul_mod_self_left, Nat.mod_eq_of_lt bound]
    · rw [whole]
      cases sum.2.c <;> simp [bound]
    · rwa [one_mul, ← add_assoc] at overflow
  · obtain ⟨size, balance, overflow, top⟩ := exact_sbc.chain_zip hx hy some f
    change (number xs + -1 * (number ys + f.c.toNat) : Int) =
      number difference.1 + -1 * 256 ^ n * difference.2.c.toNat at balance
    have bound : number difference.1 < 256 ^ n := size ▸ number_lt difference.1
    have whole : (number xs - number ys - f.c.toNat : Int) =
        number difference.1 + 256 ^ n * -(difference.2.c.toNat : Int) := by
      linear_combination balance
    have bound' : (number difference.1 : Int) < 256 ^ n := mod_cast bound
    refine ⟨size, ?_, ?_, ?_, top⟩
    · rw [whole, Int.add_mul_emod_self_left, Int.emod_eq_of_lt (by omega) bound']
    · cases hc : difference.2.c <;> simp [hc] at whole ⊢ <;> omega
    · rwa [neg_one_mul, neg_add, ← add_assoc, ← sub_eq_add_neg, ← sub_eq_add_neg] at overflow

theorem chained_exact_two :
    let sum := AluOp.adc.chained [0x00, 0x80] [0xFF, 0x7F] { c := true }
    let difference := AluOp.sbc.chained [0x00, 0x80] [0xFF, 0x7F] { c := true }
    (number sum.1 = 0 ∧ sum.2.c = true ∧ sum.2.p = false ∧ sum.2.s = false) ∧
      number difference.1 = 0 ∧ difference.2.c = false ∧ difference.2.p = true ∧
      difference.2.s = false := by
  intro sum difference
  obtain ⟨⟨-, value, carry, overflow, top⟩, -, value', borrow, overflow', top'⟩ :=
    @chained_exact 2 [0x00, 0x80] [0xFF, 0x7F] rfl rfl (by decide) { c := true }
  have zero : number sum.1 = 0 := value.trans (by decide)
  have zero' : number difference.1 = 0 := Int.ofNat_inj.mp (value'.trans (by decide))
  refine ⟨⟨zero, carry.mpr (by decide), ?_, top.trans (zero ▸ rfl)⟩, zero', ?_, ?_,
    top'.trans (zero' ▸ rfl)⟩
  · exact Bool.eq_false_iff.mpr fun h => overflow.mp h (by unfold InRange; decide)
  · exact Bool.eq_false_iff.mpr fun h => absurd (borrow.mp h) (by decide)
  · exact overflow'.mpr (by unfold InRange; decide)

end Z80
