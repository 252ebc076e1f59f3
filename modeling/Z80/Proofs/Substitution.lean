import Z80.Proofs.Leading
import Z80.Proofs.Ran
import Z80.Proofs.Spelled
import Z80.Proofs.Swap

/-! What an index prefix comes to. The prefixed table holds the plain instructions with HL and
the index register exchanged, and the two prefixed tables are each other's exchange, so a run
from exchanged registers does the same on the bus and in the same time. -/
namespace Z80

namespace Opcode

def swap (σ : Swap) : Opcode → Opcode
  | instr x => instr (x.swap σ)
  | op => op

def named : Opcode → Bool
  | instr x => x.named
  | _ => false

/-- The operand is the byte under HL: INC, DEC and LD of an immediate, the loads from 46 to 7E
but for HALT, and arithmetic. -/
def onMemory (op : Byte) : Prop :=
  op ∈ [0x34, 0x35, 0x36] ∨ (x op = 1 ∧ (y op = 6 ∨ z op = 6) ∧ op ≠ 0x76) ∨
    (x op = 2 ∧ z op = 6)

instance : DecidablePred onMemory := fun _ => inferInstanceAs (Decidable (_ ∨ _))

def leadsOn (op : Byte) : Prop := op ∈ [0xCB, 0xDD, 0xED, 0xFD]

def exchanges (op : Byte) : Prop := op = 0xEB ∨ op = 0xD9

instance : DecidablePred leadsOn := fun _ => inferInstanceAs (Decidable (_ ∈ _))

instance : DecidablePred exchanges := fun _ => inferInstanceAs (Decidable (_ ∨ _))

theorem decode_prefixed (i : Index) {op : Byte} (register : ¬onMemory op) :
    decode (some i) op = (decode none op).swap (.hl i) := by
  revert op
  cases i <;> decide +kernel

theorem decode_index (op : Byte) :
    decode (some .iy) op = (decode (some .ix) op).swap .index := by
  revert op
  decide +kernel

theorem named_decode {op : Byte} (alone : ¬leadsOn op) (moves : ¬exchanges op)
    (register : ¬onMemory op) : (decode none op).named = true := by
  revert op
  decide +kernel

theorem decode_exchanges (i : Index) {op : Byte} (moves : exchanges op) :
    ∃ x, decode none op = .instr x ∧ decode (some i) op = .instr x := by
  rcases moves with rfl | rfl
  · exact ⟨.exDEHL, rfl, rfl⟩
  · exact ⟨.exx, rfl, rfl⟩

theorem decodeIndexedBits_index (d op : Byte) :
    decodeIndexedBits .iy d op = (decodeIndexedBits .ix d op).swap .index := by
  have copied : (Reg8.ofField (z op)).map (Swap.reg8 .index) = Reg8.ofField (z op) := by
    revert op
    decide +kernel
  unfold decodeIndexedBits
  cases updateOf op with
  | none => rfl
  | some u => simp only [Instr.swap, Swap.base, copied]

theorem decodeExtended_index (op : Byte) : (decodeExtended op).swap .index = decodeExtended op := by
  revert op
  decide +kernel

end Opcode

variable {β : Type} [Bus β]

namespace Exec

/-- What is left of a fetch when the prefix for `i` has been read. -/
def behindIndex {σ : Type} [Carrier σ] [Bus σ] (fuel : Nat) (i : Index) :
    Action σ (Option Instr) := do
  resolve fuel (some i) (← fetchOpcode)

/-- From exchanged registers `find'` comes upon the exchange of the instruction `i`. -/
structure Paired (σ : Swap) (find find' : Exec β (Option Instr)) (s : Core β) (i : Instr) :
    Prop where
  found : (find s).1 = some i
  mirrored : find' (σ.core s) = (some (i.swap σ), σ.core (find s).2)

theorem paired_prefixed (i : Index) {op : Byte} (alone : ¬Opcode.leadsOn op)
    (moves : ¬Opcode.exchanges op) (register : ¬Opcode.onMemory op) (fuel : Nat) (s : Core β) :
    ∃ x, x.named = true ∧ Paired (.hl i) (resolve fuel none op) (resolve fuel (some i) op) s x := by
  have named := Opcode.named_decode alone moves register
  have code := Opcode.decode_prefixed i register
  cases hd : Opcode.decode none op with
  | instr x =>
    rw [hd] at named code
    have plain := resolve_instr (s := s) fuel hd
    refine ⟨x, named, congrArg Prod.fst plain, ?_⟩
    rw [plain]
    exact resolve_instr fuel code
  | _ =>
    rw [hd] at named
    contradiction

theorem paired_index {op : Byte} (other : ¬Opcode.isIndex op) (fuel : Nat) (s : Core β) :
    ∃ x, Paired .index (resolve fuel (some .ix) op) (resolve fuel (some .iy) op) s x := by
  have leads := Opcode.leads_decode (some .ix) op
  have code := Opcode.decode_index op
  unfold resolve
  cases hd : Opcode.decode (some .ix) op with
  | instr x =>
    rw [hd] at code
    rw [code]
    exact ⟨x, rfl, rfl⟩
  | bits =>
    rw [hd] at code
    rw [code]
    refine ⟨_, rfl, ?_⟩
    rw [← Opcode.decodeIndexedBits_index]
    rfl
  | extended =>
    rw [hd] at code
    rw [code]
    refine ⟨_, rfl, ?_⟩
    rw [Opcode.decodeExtended_index]
    rfl
  | index k =>
    rw [hd] at leads
    exact absurd leads other

end Exec

namespace Cpu

open Exec

def swap (σ : Swap) (c : Cpu) : Cpu := { c with regs := σ.regs c.regs }

@[simp] theorem swap_swap (σ : Swap) (c : Cpu) : (c.swap σ).swap σ = c := by
  unfold swap
  rw [Swap.regs_regs]

theorem follows_resolve (c : Cpu) (fuel : Nat) (i : Option Index) (op : Byte) :
    Follows c.clocked (resolve fuel i op : Action (Clocked β) (Option Instr))
      (resolve fuel i op) :=
  Follows.resolve (.fetchByte c.clocked_hom) (.m1 c.clocked_hom) (.charge c.clocked_hom) fuel i op

theorem follows_behindIndex (c : Cpu) (fuel : Nat) (i : Index) :
    Follows c.clocked (behindIndex fuel i : Action (Clocked β) (Option Instr))
      (behindIndex fuel i) := by
  intro s
  simp only [behindIndex, bind_apply, Follows.fetchOpcode c.clocked_hom, follows_resolve]

variable {c : Cpu} {bus : β} {σ : Swap} {find find' : Exec β (Option Instr)}
  {live live' : Action (Clocked β) (Option Instr)} {i : Instr}

theorem run_swap (paired : Paired σ find find' { regs := c.regs, bus } i)
    (h : σ = .index ∨ i.named = true) (same : Follows c.clocked live find)
    (same' : Follows (c.swap σ).clocked live' find') :
    ∃ d bus', c.run bus live = some (d, bus') ∧
      (c.swap σ).run bus live' = some (d.swap σ, bus') := by
  have found : (c.swap σ).found bus find' = some (i.swap σ) := congrArg Prod.fst paired.mirrored
  have core : (c.swap σ).ranCore bus find' (i.swap σ) = σ.core (c.ranCore bus find i) := by
    unfold ranCore
    rw [show find' { regs := (c.swap σ).regs, bus } = _ from paired.mirrored]
    exact congrArg Prod.snd (Instr.exec_swap i h _)
  refine ⟨_, _, run_of_found same paired.found, ?_⟩
  rw [run_of_found same' found, core, Instr.reschedules_swap]
  split <;> rfl

/-- Under a prefix an opcode does what it does from exchanged registers without one. Of the bus
nothing is asked here, so it may be one that records how it is used. -/
theorem index_substitutes_hl (c : Cpu) (bus : β) (i : Index) (op : Byte) (fuel : Nat)
    (alone : ¬Opcode.leadsOn op) (register : ¬Opcode.onMemory op) :
    (¬Opcode.exchanges op →
      ∃ d bus', (c.swap (.hl i)).run bus (resolve fuel none op) = some (d, bus') ∧
        c.run bus (resolve fuel (some i) op) = some (d.swap (.hl i), bus')) ∧
    (Opcode.exchanges op →
      ∃ d bus', c.run bus (resolve fuel none op) = some (d, bus') ∧
        c.run bus (resolve fuel (some i) op) = some (d, bus')) := by
  constructor
  · intro moves
    obtain ⟨x, named, paired⟩ := paired_prefixed i alone moves register fuel
      ({ regs := (c.swap (.hl i)).regs, bus } : Core β)
    obtain ⟨d, bus', plain, indexed⟩ := run_swap paired (.inr named)
      (follows_resolve _ fuel none op) (follows_resolve _ fuel (some i) op)
    rw [swap_swap] at indexed
    exact ⟨d, bus', plain, indexed⟩
  · intro moves
    obtain ⟨x, plain, indexed⟩ := Opcode.decode_exchanges i moves
    have both : (resolve fuel (some i) op : Action (Clocked β) (Option Instr)) =
        resolve fuel none op :=
      funext fun _ => (resolve_instr fuel indexed).trans (resolve_instr fuel plain).symm
    have found : c.found bus (resolve fuel none op) = some x :=
      congrArg Prod.fst (resolve_instr fuel plain)
    have run := run_of_found (c.follows_resolve fuel none op) found
    rw [both]
    exact ⟨_, _, run, run⟩

theorem index_substitutes_hl_add :
    let c : Cpu := { regs := { hl := 0x0101, ix := 0x1234 } }
    ¬Opcode.leadsOn 0x29 ∧ ¬Opcode.onMemory 0x29 ∧ ¬Opcode.exchanges 0x29 ∧
    (∃ d bus', (c.swap (.hl .ix)).run FlatBus.empty (resolve 0 none 0x29) = some (d, bus') ∧
      c.run FlatBus.empty (resolve 0 (some .ix) 0x29) = some (d.swap (.hl .ix), bus') ∧
      d.regs.hl = 0x2468 ∧ d.regs.ix = 0x0101) ∧
    ¬Opcode.leadsOn 0xEB ∧ ¬Opcode.onMemory 0xEB ∧ Opcode.exchanges 0xEB ∧
    ∃ d bus', c.run FlatBus.empty (resolve 0 none 0xEB) = some (d, bus') ∧
      c.run FlatBus.empty (resolve 0 (some .ix) 0xEB) = some (d, bus') := by
  intro c
  have adds := (index_substitutes_hl c FlatBus.empty .ix 0x29 0 (by decide) (by decide)).1
  have moves := (index_substitutes_hl c FlatBus.empty .ix 0xEB 0 (by decide) (by decide)).2
  refine ⟨by decide, by decide, by decide, ?_, by decide, by decide, by decide,
    moves (by decide)⟩
  obtain ⟨d, bus', plain, indexed⟩ := adds (by decide)
  have sum : ((c.swap (.hl .ix)).run FlatBus.empty (resolve 0 none 0x29)).map
      (fun s => (s.1.regs.hl, s.1.regs.ix)) = some (0x2468, 0x0101) := by
    decide +kernel
  rw [plain] at sum
  simp only [Option.map_some, Option.some.injEq, Prod.mk.injEq] at sum
  exact ⟨d, bus', plain, indexed, sum⟩

/-- The two index registers are each other's exchange, whatever comes behind the prefix. -/
theorem index_registers_interchange (c : Cpu) (bus : β) (fuel : Nat)
    (other : ¬Opcode.isIndex (Bus.read bus c.regs.pc).1) :
    ∃ d bus', (c.swap .index).run bus (behindIndex fuel .ix) = some (d, bus') ∧
      c.run bus (behindIndex fuel .iy) = some (d.swap .index, bus') := by
  let s : Core β := { regs := (c.swap .index).regs, bus }
  obtain ⟨x, paired⟩ := paired_index other fuel (fetchOpcode s).2
  have behind : Paired .index (behindIndex fuel .ix) (behindIndex fuel .iy) s x :=
    ⟨paired.found, paired.mirrored⟩
  obtain ⟨d, bus', first, second⟩ := run_swap behind (.inl rfl)
    (follows_behindIndex _ fuel .ix) (follows_behindIndex _ fuel .iy)
  rw [swap_swap] at second
  exact ⟨d, bus', first, second⟩

theorem index_registers_interchange_set :
    let bus := FlatBus.empty.load 0 [0xCB, 0x02, 0xC6]
    let c : Cpu := { regs := { ix := 0x4000, iy := 0x8000 } }
    ¬Opcode.isIndex (Bus.read bus c.regs.pc).1 ∧
    ∃ d bus', (c.swap .index).run bus (behindIndex 0 .ix) = some (d, bus') ∧
      c.run bus (behindIndex 0 .iy) = some (d.swap .index, bus') ∧
      bus'.peek 0x8002 = 1 ∧ d.regs.sh = 0x8002 := by
  intro bus c
  have other : ¬Opcode.isIndex (Bus.read bus c.regs.pc).1 := by decide +kernel
  obtain ⟨d, bus', first, second⟩ := index_registers_interchange c bus 0 other
  have stored : (c.run bus (behindIndex 0 .iy)).map (fun s => (s.2.peek 0x8002, s.1.regs.sh)) =
      some (1, 0x8002) := by
    decide +kernel
  rw [second] at stored
  simp only [Option.map_some, Option.some.injEq, Prod.mk.injEq] at stored
  exact ⟨other, d, bus', first, second, stored⟩

end Cpu

end Z80
