import Z80.Proofs.Copy

/-! The repeating block search as a linear search. It reads one byte after another and stops at
the first that equals A, or else when the count runs out. Both can happen at the same byte, and then
the flags tell of both. -/
namespace Z80

namespace FlatBus

variable (bus : FlatBus) (dir : Direction) (src : Word) (a : Byte) (n : Nat)

/-- The place, counted from one, of the first `a` among the `n` bytes from `src`; `n` if there is
none. -/
def position : Nat :=
  match (List.range n).find? fun k => bus.peek (dir.ahead src k) = a with
  | some k => k + 1
  | none => n

/-- The byte `k` away is the first `a` of the `n`, or the last of all without one. -/
structure EndsAt (k : Nat) : Prop where
  lt : k < n
  before : ∀ j < k, bus.peek (dir.ahead src j) ≠ a
  last : bus.peek (dir.ahead src k) ≠ a → k + 1 = n

variable {bus dir src a n}

theorem exists_endsAt (pos : 0 < n) :
    ∃ k, bus.position dir src a n = k + 1 ∧ bus.EndsAt dir src a n k := by
  unfold position
  cases found : (List.range n).find? fun k => bus.peek (dir.ahead src k) = a with
  | none =>
    have absent : ∀ k < n, bus.peek (dir.ahead src k) ≠ a := by simpa using found
    obtain ⟨k, rfl⟩ : ∃ k, n = k + 1 := Nat.exists_eq_add_one.mpr pos
    refine ⟨k, rfl, Nat.lt_add_one k, ?_, fun _ => rfl⟩
    intro j hj
    apply absent
    omega
  | some k =>
    rw [List.find?_range_eq_some] at found
    obtain ⟨here, lt, before⟩ := found
    refine ⟨k, rfl, by simpa using lt, by simpa using before, ?_⟩
    intro other
    simp [other] at here

theorem EndsAt.found_iff {k : Nat} (ends : bus.EndsAt dir src a n k) :
    (∃ j < n, bus.peek (dir.ahead src j) = a) ↔ bus.peek (dir.ahead src k) = a := by
  constructor
  · rintro ⟨j, hj, here⟩
    by_contra other
    have whole := ends.last other
    have early : j < k ∨ j = k := by omega
    rcases early with early | rfl
    · exact ends.before j early here
    · exact other here
  · intro here
    exact ⟨k, ends.lt, here⟩

end FlatBus

namespace Registers

variable (r : Registers) (dir : Direction)

def seek (n : Nat) : Registers :=
  { r with hl := dir.ahead r.hl n, bc := Direction.down.ahead r.bc n }

def searched (n : Nat) (v : Byte) : Registers :=
  (r.seek dir n).setFlags (Alu.searchFlags r.flags r.a v ((r.seek dir n).bc ≠ 0))

theorem seek_seek (m n : Nat) : (r.seek dir m).seek dir n = r.seek dir (m + n) := by
  simp only [seek, Direction.ahead_ahead]

theorem a_searched (n : Nat) (v : Byte) : (r.searched dir n v).a = r.a := a_setFlags _ _

theorem searched_searched (m n : Nat) (v w : Byte) :
    (r.searched dir m v).searched dir n w = r.searched dir (m + n) w := by
  let f := Alu.searchFlags r.flags r.a v ((r.seek dir m).bc ≠ 0)
  have flags : (r.searched dir m v).flags = f := flags_setFlags _ f
  have pairs : (r.searched dir m v).seek dir n = (r.seek dir (m + n)).setFlags f := by
    rw [← seek_seek]
    rfl
  -- of the flags before it a search uses the carry alone, and that it keeps
  have carry : ∀ more, Alu.searchFlags f r.a w more = Alu.searchFlags r.flags r.a w more := by
    intro more
    rfl
  rw [searched, flags, a_searched, carry, pairs, setFlags_setFlags]
  rfl

end Registers

theorem Alu.difference_false (a v : Byte) : difference a v false = a - v :=
  BitVec.sub_zero (a - v)

namespace BlockOp

variable (dir : Direction) (regs : Registers) (bus : FlatBus)

theorem once_search :
    search.once dir (regs, bus) = (regs.searched dir 1 (bus.peek regs.hl), bus) := by
  cases dir <;> rfl

theorem iterate_search (n : Nat) :
    (search.once dir)^[n + 1] (regs, bus) =
      (regs.searched dir (n + 1) (bus.peek (dir.ahead regs.hl n)), bus) := by
  induction n with
  | zero =>
    rw [Function.iterate_one, once_search, Direction.ahead_zero]
  | succ n ih =>
    rw [Function.iterate_succ_apply', ih, once_search, Registers.searched_searched]
    rfl

theorem bus_search (n : Nat) : ((search.once dir)^[n] (regs, bus)).2 = bus := by
  cases n with
  | zero => rfl
  | succ n => rw [iterate_search]

theorem goesOn_search (k : Nat) :
    search.goesOn ((search.once dir)^[k] (regs, bus)) =
      (decide (Direction.down.ahead regs.bc (k + 1) ≠ 0) &&
        decide (regs.a ≠ bus.peek (dir.ahead regs.hl k))) := by
  cases k with
  | zero =>
    rw [Direction.ahead_zero]
    rfl
  | succ k =>
    rw [iterate_search, ← Direction.ahead_ahead, ← Registers.a_searched regs dir (k + 1)]
    rfl

variable {dir regs bus}

theorem goesOn_of_endsAt {j k : Nat}
    (ends : bus.EndsAt dir regs.hl regs.a (rounds regs.bc) k) (hj : j < k + 1) :
    search.goesOn ((search.once dir)^[j] (regs, bus)) = decide (j + 1 ≠ k + 1) := by
  have lt := ends.lt
  have counted : Direction.down.ahead regs.bc (j + 1) = 0 ↔ j + 1 = rounds regs.bc :=
    down_ahead_eq_zero_iff j.succ_pos (by omega)
  rw [goesOn_search, ← Bool.decide_and, decide_eq_decide, ne_eq, counted]
  have early : j < k ∨ j = k := by omega
  rcases early with early | rfl
  · have other := ends.before j early
    have more : j + 1 ≠ rounds regs.bc := by omega
    have behind : j ≠ k := by omega
    simp [more, behind, Ne.symm other]
  · have last := ends.last
    grind

end BlockOp

namespace Cpu

def searchCode : Direction → Byte
  | .up => 0xB1
  | .down => 0xB9

theorem decode_searchCode (dir : Direction) :
    Opcode.decodeExtended (searchCode dir) = .block .search dir true := by
  cases dir <;> decide

/-- The repeating search reads up to the first byte that equals A, or up to the last. -/
theorem search_finds (c : Cpu) (bus : FlatBus) (dir : Direction) (quiet : c.eligible = false)
    (lead : bus.peek c.regs.pc = 0xED) (code : bus.peek (c.regs.pc + 1) = searchCode dir) :
    let n := rounds c.regs.bc
    let m := bus.position dir c.regs.hl c.regs.a n
    let bc := Direction.down.ahead c.regs.bc m
    let last := bus.peek (dir.ahead c.regs.hl (m - 1))
    let half := Alu.borrow 4 c.regs.a last false
    let copies := Alu.difference c.regs.a last half
    (∀ k < m, ∃ t d, c.Runs bus k t d bus ∧ d.regs.pc = c.regs.pc) ∧
    ∃ t d, c.Runs bus m t d bus ∧
      d.regs = { c.regs with
        pc := c.regs.pc + 2
        bc
        hl := dir.ahead c.regs.hl m
        r := c.regs.r + .ofNat 8 (2 * m)
        eiMode := false
        af := .ofBytes c.regs.a (Flags.toByte {
          s := (c.regs.a - last).msb
          z := decide (∃ k < n, bus.peek (dir.ahead c.regs.hl k) = c.regs.a)
          y := copies.getLsbD 1
          h := half
          x := copies.getLsbD 3
          p := bc ≠ 0
          n := true
          c := c.regs.flags.c }) } ∧
      (c.timing = .z80 → t = 21 * (m - 1) + 16) := by
  intro n m bc last half copies
  obtain ⟨k, place, ends⟩ : ∃ k, m = k + 1 ∧ bus.EndsAt dir c.regs.hl c.regs.a n k :=
    FlatBus.exists_endsAt (rounds_pos c.regs.bc)
  have stands : ∀ j < m,
      ((BlockOp.search.once dir)^[j] (c.shut.regs, bus)).2.Repeats .search dir c.regs.pc := by
    intro j hj
    rw [BlockOp.bus_search]
    constructor
    · exact lead
    · rw [code, decode_searchCode]
  have goes : ∀ j < m, BlockOp.search.goesOn
      ((BlockOp.search.once dir)^[j] (c.shut.regs, bus)) = decide (j + 1 ≠ m) := by
    rw [place]
    intro j hj
    exact BlockOp.goesOn_of_endsAt ends hj
  have pos : 0 < m := by omega
  obtain ⟨-, t, d, run, hd, ticks⟩ := runs_repeat quiet pos stands goes
  rw [BlockOp.bus_search] at run
  refine ⟨?_, t, d, run, ?_, ticks⟩
  · intro j hj
    obtain ⟨t, d, run, hd, -⟩ := runs_within quiet stands goes hj
    rw [BlockOp.bus_search] at run
    have here : d.shut.regs.pc = c.regs.pc := by rw [hd]
    exact ⟨t, d, run, here⟩
  · have here : last = bus.peek (dir.ahead c.regs.hl k) := by
      simp only [last, place, Nat.add_sub_cancel]
    have searched : ((BlockOp.search.once dir)^[m] (c.shut.regs, bus)).1 =
        c.shut.regs.searched dir m last := by
      rw [here, place, BlockOp.iterate_search]
      rfl
    have equal : c.regs.a - last = 0 ↔ last = c.regs.a := by bv_omega
    have zero : (Alu.difference c.regs.a last false == 0) =
        decide (∃ k < n, bus.peek (dir.ahead c.regs.hl k) = c.regs.a) := by
      rw [Alu.difference_false, beq_eq_decide]
      apply decide_eq_decide.mpr
      rw [equal, ends.found_iff, here]
    rw [hd, searched, ← zero, ← Alu.difference_false]
    rfl

theorem search_finds_last : ∃ (c d : Cpu) (bus : FlatBus), c.Runs bus 2 37 d bus ∧
    d.regs.pc = 0x102 ∧ d.regs.hl = 1 ∧ d.regs.flags.z = true ∧ d.regs.flags.p = false := by
  let c : Cpu := { regs := { Registers.powerOn with pc := 0x100, bc := 2, hl := 0xFFFF } }
  let bus : FlatBus := (FlatBus.empty.load 0x100 [0xED, 0xB1]).poke 0 c.regs.a
  have two : bus.position .up c.regs.hl c.regs.a (rounds c.regs.bc) = 2 := by decide +kernel
  obtain ⟨-, t, d, run, hd, ticks⟩ :=
    search_finds c bus .up (by decide) (by decide +kernel) (by decide +kernel)
  rw [two] at run hd ticks
  obtain rfl : t = 37 := ticks rfl
  refine ⟨c, d, bus, run, congrArg Registers.pc hd, ?_⟩
  rw [hd]
  decide +kernel

end Cpu

end Z80
