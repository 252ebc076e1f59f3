import Mathlib.Algebra.Group.Int.Defs
import Mathlib.Algebra.GroupWithZero.Nat
import Z80.Proofs.Durations

/-! Stamps of a clock that wraps. The counter keeps a time up to whole turns, so two stamps tell
how far they lie apart if that is less than half a turn either way, and how long a run has taken
if that is less than a whole one. Where in between the counter wraps makes no difference. -/
namespace Z80

namespace Ticks

variable (t d₁ d₂ : Ticks)

theorem reached_iff (now horizon : Ticks) :
    now.reached horizon = true ↔ now.distance horizon ≤ 0 := decide_eq_true_iff

theorem distance_offsets :
    Ticks.distance (t + d₁) (t + d₂) = ((d₂.toNat : Int) - d₁.toNat).bmod (2 ^ 32) := by
  rw [BitVec.add_comm t d₁, BitVec.add_comm t d₂, distance_add, distance, BitVec.toInt_sub,
    BitVec.toInt_eq_toNat_bmod, BitVec.toInt_eq_toNat_bmod, Int.sub_bmod_bmod, Int.bmod_sub_bmod]

theorem distance_of_near (behind : -2 ^ 31 ≤ (d₂.toNat : Int) - d₁.toNat)
    (ahead : (d₂.toNat : Int) - d₁.toNat < 2 ^ 31) :
    Ticks.distance (t + d₁) (t + d₂) = (d₂.toNat : Int) - d₁.toNat := by
  rw [distance_offsets]
  exact Int.bmod_eq_of_le behind ahead

def advance (charges : List Ticks) : Ticks := charges.foldl (· + ·) t

theorem advance_cons (charge : Ticks) (charges : List Ticks) :
    t.advance (charge :: charges) = Ticks.advance (t + charge) charges := rfl

/-- Up to whole turns, what has passed is what was charged. -/
theorem since_advance (charges : List Ticks) :
    ((t.advance charges).since t).toNat = (charges.map BitVec.toNat).sum % 2 ^ 32 := by
  induction charges generalizing t with
  | nil =>
    rw [advance, List.foldl_nil, since, BitVec.sub_self]
    rfl
  | cons charge charges ih =>
    have later : (t.advance (charge :: charges)).since t =
        (Ticks.advance (t + charge) charges).since (t + charge) + charge := by
      rw [advance_cons, since, since]
      grind
    rw [later, BitVec.toNat_add, ih, List.map_cons, List.sum_cons, Nat.mod_add_mod, Nat.add_comm]

end Ticks

theorem Timing.advance_total (timing : Timing) (t : Ticks) (path : List Delay) :
    t.advance (path.map timing.cost) = t + timing.total path := by
  induction path generalizing t with
  | nil => exact (BitVec.add_zero t).symm
  | cons d path ih =>
    rw [List.map_cons, Ticks.advance_cons, ih, total_cons, BitVec.add_assoc]

theorem Cpu.now_settle {β : Type} (c : Cpu) (s : Core β) :
    (c.settle s).now = c.now.advance (s.charges.reverse.map c.timing.cost) := by
  rw [Timing.advance_total, Timing.total_reverse]
  rfl

/-- Stamps less than half a turn ahead of `t` come in the order of their offsets, as far apart as
these are. Charges of less than a turn are told from the stamps in full, and so are the delays of
an instruction. -/
theorem stamps_ordered (t : Ticks) :
    (∀ d₁ d₂ : Ticks, d₁.toNat < 2 ^ 31 → d₂.toNat < 2 ^ 31 →
      (Ticks.reached (t + d₁) (t + d₂) = true ↔ d₁.toNat ≥ d₂.toNat) ∧
      Ticks.distance (t + d₁) (t + d₂) = (d₂.toNat : Int) - d₁.toNat) ∧
    (∀ charges : List Ticks, (charges.map BitVec.toNat).sum < 2 ^ 32 →
      ((t.advance charges).since t).toNat = (charges.map BitVec.toNat).sum) ∧
    ∀ (β : Type) (c : Cpu) (s : Core β),
      (c.settle s).now = c.now.advance (s.charges.reverse.map c.timing.cost) := by
  refine ⟨fun d₁ d₂ h₁ h₂ => ?_, fun charges short => ?_, fun _ => Cpu.now_settle⟩
  · have apart : Ticks.distance (t + d₁) (t + d₂) = (d₂.toNat : Int) - d₁.toNat :=
      t.distance_of_near d₁ d₂ (by omega) (by omega)
    rw [Ticks.reached_iff, apart]
    exact ⟨by omega, rfl⟩
  · rw [Ticks.since_advance, Nat.mod_eq_of_lt short]

theorem stamps_ordered_wrapped :
    let t : Ticks := 0xFFFFFFF0
    Ticks.reached (t + 0x20) (t + 0x7FFFFFFF) = false ∧
    Ticks.distance (t + 0x7FFFFFFF) (t + 0x20) = -0x7FFFFFDF ∧
    ((t.advance [0x08, 0xFFFFFFE0, 0x17]).since t).toNat = 0xFFFFFFFF := by
  intro t
  obtain ⟨ordered, counted, -⟩ := stamps_ordered t
  obtain ⟨before, -⟩ := ordered 0x20 0x7FFFFFFF (by decide) (by decide)
  obtain ⟨-, apart⟩ := ordered 0x7FFFFFFF 0x20 (by decide) (by decide)
  exact ⟨Bool.eq_false_iff.mpr fun h => absurd (before.mp h) (by decide), apart,
    counted [0x08, 0xFFFFFFE0, 0x17] (by decide)⟩

end Z80
