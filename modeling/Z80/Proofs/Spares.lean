import Z80.Proofs.Frame

/-! Index registers that are left alone. An instruction that names no index register among the
operands it writes leaves both as they were, whatever it reads of them. -/
namespace Z80

variable {β γ : Type}

/-- Whether the instruction writes the index register `k`, or a half of it. -/
def Instr.writes (k : Index) : Instr → Bool
  | ld (.reg x) _ | ldImm (.reg x) | .update _ (.reg x) | updateIndexed _ _ _ (some x)
  | inC (some x) => x.pair = k.pair
  | ldPair x | loadPair x | pop x | exStack x | incPair x | decPair x | addPair x _ => x = k.pair
  | _ => false

namespace Registers

variable {k : Index} (r : Registers)

theorem index_set {x : Reg16} (h : decide (x = k.pair) = false) (w : Word) :
    (r.set x w).get k.pair = r.get k.pair := by
  have other : k.pair ≠ x := Ne.symm (of_decide_eq_false h)
  rw [get_set, if_neg other]

theorem index_reg8 {x : Reg8} (h : decide (x.pair = k.pair) = false) (v : Byte) :
    (x.set v r).get k.pair = r.get k.pair :=
  r.index_set h _

theorem index_setFlags (f : Flags) : (r.setFlags f).get k.pair = r.get k.pair := by
  cases k <;> rfl

end Registers

namespace Exec

abbrev Spares (k : Index) (x : Exec β γ) : Prop := Keeps (·.get k.pair) x

namespace Spares

variable {k : Index}

theorem setPC (w : Word) : Spares k (setPC w : Exec β Unit) := by
  intro s
  cases k <;> rfl

theorem setSH (w : Word) : Spares k (setSH w : Exec β Unit) := by
  intro s
  cases k <;> rfl

theorem setResult (v : Result 8) : Spares k (setResult v : Exec β Unit) := by
  intro s
  cases k <;> rfl

variable [Bus β]

theorem write (a : Word) (v : Byte) : Spares k (write a v : Exec β Unit) := fun _ => rfl

theorem readWord (a : Word) : Spares k (readWord a : Exec β Word) := fun _ => rfl

theorem fetchByte : Spares k (fetchByte : Exec β Byte) := by
  intro s
  cases k <;> rfl

theorem fetchWord : Spares k (fetchWord : Exec β Word) := by
  intro s
  cases k <;> rfl

theorem input (port : Word) : Spares k (input port : Exec β Byte) := by
  intro s
  cases k <;> rfl

theorem push (w : Word) : Spares k (push w : Exec β Unit) := by
  intro s
  cases k <;> rfl

theorem pop : Spares k (pop : Exec β Word) := by
  intro s
  cases k <;> rfl

theorem returnTo : Spares k (returnTo : Exec β Unit) := by
  intro s
  cases k <;> rfl

theorem jumpRelative (taken : Bool) : Spares k (jumpRelative taken : Exec β Unit) := by
  intro s
  cases taken <;> cases k <;> rfl

theorem updateAt (u : Update) (a : Word) : Spares k (updateAt u a : Exec β Byte) := by
  intro s
  cases k <;> rfl

theorem address (m : Mem) : Spares k (m.address : Exec β Word) := by
  intro s
  cases m <;> cases k <;> rfl

theorem load (loc : Loc) : Spares k (loc.read : Exec β Byte) := by
  intro s
  rcases loc with _ | _ | _ <;> cases k <;> rfl

theorem round (op : BlockOp) (dir : Direction) : Spares k (op.round dir : Exec β Bool) := by
  intro s
  cases op <;> cases k <;> rfl

end Spares

end Exec

open Exec Registers

theorem Instr.exec_spares [Bus β] {k : Index} {pins : Pins} {i : Instr}
    (h : i.writes k = false) : Spares k (i.exec pins : Exec β Unit) := by
  intro s
  cases i with
  | ld dst src =>
    cases dst with
    | reg x => simp only [exec, Loc.write, bind_apply, change_apply, index_reg8 _ h, Spares.load]
    | mem m => simp only [exec, Loc.write, bind_apply, Spares.write, Spares.address, Spares.load]
  | ldImm dst =>
    cases dst with
    | reg x =>
      simp only [exec, execLdImm, bind_apply, change_apply, index_reg8 _ h, Spares.fetchByte]
    | mem m => cases m <;> cases k <;> rfl
  | ldPair x => simp only [exec, bind_apply, change_apply, index_set _ h, Spares.fetchWord]
  | loadPair x =>
    simp only [exec, bind_apply, change_apply, index_set _ h, Spares.setSH, Spares.readWord,
      Spares.fetchWord]
  | pop x => simp only [exec, bind_apply, change_apply, index_set _ h, Spares.pop]
  | exStack x =>
    simp only [exec, bind_apply, regs_apply, change_apply, charge_apply, index_set _ h,
      Spares.setSH, Spares.write, Spares.readWord]
  | update u loc =>
    cases loc with
    | reg x => simp only [exec, execUpdate, change_apply, index_setFlags, index_reg8 _ h]
    | mem m =>
      simp only [exec, execUpdate, bind_apply, pure_apply, Spares.updateAt, Spares.address]
  | updateIndexed u i d copy =>
    cases copy with
    | none =>
      simp only [exec, bind_apply, pure_apply, regs_apply, charge_apply, Spares.updateAt,
        Spares.setSH]
    | some x =>
      simp only [exec, bind_apply, regs_apply, change_apply, charge_apply, index_reg8 _ h,
        Spares.updateAt, Spares.setSH]
  | inC dst =>
    cases dst with
    | none =>
      simp only [exec, bind_apply, regs_apply, change_apply, index_setFlags, Spares.input]
    | some x =>
      simp only [exec, bind_apply, regs_apply, change_apply, index_setFlags, index_reg8 _ h,
        Spares.input]
  | incPair x | decPair x =>
    simp only [exec, bind_apply, change_apply, charge_apply, index_set _ h]
  | addPair dst src =>
    simp only [exec, arith16, store16, bind_apply, regs_apply, change_apply, charge_apply,
      index_setFlags, index_set _ h, Spares.setSH]
  | alu op src =>
    simp only [exec, bind_apply, regs_apply, Spares.setResult, Spares.load]
  | jp cond =>
    simp only [exec, bind_apply]
    split <;>
      simp only [pure_apply, Spares.setPC, taken_state, Spares.setSH, Spares.fetchWord]
  | jr cond => simp only [exec, bind_apply, Spares.jumpRelative, taken_state]
  | djnz =>
    simp only [exec, bind_apply, regs_apply, change_apply, charge_apply, Spares.jumpRelative]
    cases k <;> rfl
  | call cond =>
    simp only [exec, bind_apply]
    split <;>
      simp only [bind_apply, pure_apply, regs_apply, charge_apply, Spares.setPC, Spares.push,
        taken_state, Spares.setSH, Spares.fetchWord]
  | ret cond =>
    cases cond with
    | none => exact Spares.returnTo s
    | some _ =>
      simp only [exec, bind_apply]
      split <;> simp only [pure_apply, charge_apply, Spares.returnTo, taken_state]
  | block op dir repeats =>
    simp only [exec, BlockOp.exec, bind_apply]
    split
    · simp only [bind_apply, change_apply, charge_apply, ← Spares.round op dir s]
      cases k <;> rfl
    · exact Spares.round op dir s
  | halt =>
    simp only [exec, Exec.halt, bind_apply, change_apply]
    split <;> cases k <;> rfl
  | _ => cases k <;> rfl

end Z80
