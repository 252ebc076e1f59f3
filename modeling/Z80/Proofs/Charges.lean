import Z80.Proofs.Frame

/-! What an instruction costs, as the delays that it meets in their order. The data matter
to them in one way only: by whether a conditional instruction goes through with its jump
or its next round. -/
namespace Z80

variable {β : Type}

/-- What decides whether an instruction branches or repeats. -/
inductive Test where
  | flag (k : Condition)
  | count8 | count16
  | search
  deriving DecidableEq

def Test.passes [Bus β] (t : Test) (r : Registers) (bus : β) : Bool :=
  match t with
  | flag k => k.holds r.flags
  | count8 => r.bc.high - 1 ≠ 0
  | count16 => r.bc - 1 ≠ 0
  | search => r.bc - 1 ≠ 0 && r.a ≠ (Bus.read bus r.hl).1

def BlockOp.test : BlockOp → Test
  | move => .count16
  | search => .search
  | input | output => .count8

def Mem.delays : Mem → List Delay
  | hl => []
  | indexed _ => [.memOp, .add8]

def Loc.delays : Loc → List Delay
  | reg _ => []
  | mem m => m.delays ++ [.mem]

def BlockOp.delays : BlockOp → List Delay
  | move => [.mem, .mem, .ldi]
  | search => [.mem, .block]
  | input => [.inout, .preIo, .postIo, .mem]
  | output => [.inout, .mem, .preIo, .postIo]

namespace Instr

/-- The test on which the cost of an instruction depends, if there is one. A jump to an
address in the instruction stream has read that address before its condition counts. -/
def test : Instr → Option Test
  | jr (some k) | call (some k) | ret (some k) => some (.flag k)
  | djnz => some .count8
  | block op _ true => some op.test
  | _ => none

def goes [Bus β] (i : Instr) (r : Registers) (bus : β) : Bool := i.test.all (·.passes r bus)

def delaysLdImm : Loc → List Delay
  | .reg _ => [.memOp]
  | .mem .hl => [.memOp, .mem]
  | .mem (.indexed _) => [.memOp, .memOp, .parallel, .mem]

def delaysUpdate : Loc → List Delay
  | .reg _ => []
  | .mem m => m.delays ++ [.mem, .inc, .mem]

def delays (i : Instr) (goes : Bool) : List Delay :=
  match i with
  | ld dst src => src.delays ++ dst.delays
  | ldImm dst => delaysLdImm dst
  | ldPair _ | jp _ => [.memOp, .memOp]
  | loadPair _ | storePair _ => [.memOp, .memOp, .mem, .mem]
  | loadA _ | storeA _ => [.mem]
  | loadADirect | storeADirect => [.memOp, .memOp, .mem]
  | ldSp _ => [.ldSpHl]
  | push _ | rst _ => [.push, .mem, .mem]
  | pop _ | ret none | retn => [.mem, .mem]
  | exStack _ => [.mem, .mem, .mem, .mem, .exSpHl]
  | alu _ src => src.delays
  | aluImm _ => [.memOp]
  | update _ loc => delaysUpdate loc
  | bitMem _ => [.bit, .mem]
  | updateIndexed .. => [.bit, .mem, .inc, .mem]
  | bitIndexed .. => [.bitIx, .mem]
  | incPair _ | decPair _ => [.inc16]
  | addPair .. | adcHL _ | sbcHL _ => [.add16]
  | jr none => [.memOp, .add8]
  | jr (some _) => .memOp :: if goes then [.add8] else []
  | djnz => .djnz :: .memOp :: if goes then [.add8] else []
  | call none => [.memOp, .memOp, .call, .mem, .mem]
  | call (some _) => .memOp :: .memOp :: if goes then [.call, .mem, .mem] else []
  | ret (some _) => .ret :: if goes then [.mem, .mem] else []
  | inA | outA => [.memOp, .preIo, .postIo]
  | inC _ | outC _ => [.preIo, .postIo]
  | ldIA | ldRA | ldAI | ldAR => [.ld]
  | rrd | rld => [.mem, .rld, .mem]
  | block op _ repeats => op.delays ++ if repeats && goes then [.block] else []
  | nop | exAF | exDEHL | exx | rotateA _ | daa | cpl | scf | ccf | neg | bit .. | im _ | di
  | ei | halt | jpPair _ => []

end Instr

namespace Exec

variable {α : Type} {x : Exec β Unit} {p : List Delay}

/-- The action meets these delays from wherever it begins, whatever it finds there. -/
def Meets (p : List Delay) (x : Exec β α) : Prop := ∀ s, (x s).2.charges = p.reverseAux s.charges

theorem Meets.when (h : Meets p x) (b : Bool) :
    Meets (if b then p else []) (if b then x else pure ()) := by
  cases b
  · exact fun s => rfl
  · exact h

theorem Meets.jumpRelative [Bus β] (b : Bool) :
    Meets (.memOp :: if b then [.add8] else []) (jumpRelative b : Exec β Unit) := by
  cases b <;> exact fun s => rfl

end Exec

open Exec

variable [Bus β]

theorem BlockOp.exec_charges (op : BlockOp) (dir : Direction) (repeats : Bool) (s : Core β) :
    (op.exec dir repeats s).2.charges =
      (op.delays ++ if repeats && op.test.passes s.regs s.bus then [Delay.block] else []).reverseAux
        s.charges := by
  have again : Meets [Delay.block]
      (charge .block >>= fun _ => change fun r => { r with pc := r.pc - 2 } : Exec β Unit) :=
    fun s => rfl
  unfold exec
  rw [bind_apply, again.when]
  cases op <;> rfl

theorem Instr.exec_charges (pins : Pins) (i : Instr) (s : Core β) :
    (i.exec pins s).2.charges = (i.delays (i.goes s.regs s.bus)).reverse ++ s.charges := by
  rw [← List.reverseAux_eq]
  cases i with
  | ld dst src =>
    rcases dst with _ | _ | _ <;> rcases src with _ | _ | _ <;> rfl
  | ldImm dst | alu _ dst | update _ dst => rcases dst with _ | _ | _ <;> rfl
  | updateIndexed _ _ _ copy | inC copy => cases copy <;> rfl
  | jr cond =>
    cases cond with
    | none => exact Meets.jumpRelative true s
    | some k => exact Meets.jumpRelative (k.holds s.regs.flags) s
  | djnz =>
    unfold exec
    simp only [bind_apply, Meets.jumpRelative _ _]
    rfl
  | block op dir repeats =>
    unfold exec
    rw [BlockOp.exec_charges]
    cases repeats <;> rfl
  | jp cond =>
    have jump (w : Word) : Meets [] (setPC w : Exec β Unit) := fun _ => rfl
    unfold exec
    simp only [bind_apply]
    rw [(jump _).when, ite_self]
    rfl
  | call cond =>
    cases cond with
    | none => rfl
    | some k =>
      have enter (w : Word) : Meets [.call, .mem, .mem] (do
          charge .call
          Exec.push (← regs).pc
          setPC w : Exec β Unit) := fun _ => rfl
      unfold exec
      simp only [bind_apply]
      rw [(enter _).when]
      rfl
  | ret cond =>
    cases cond with
    | none => rfl
    | some k =>
      have back : Meets [.mem, .mem] (returnTo : Exec β Unit) := fun _ => rfl
      unfold exec
      simp only [bind_apply]
      rw [back.when]
      rfl
  | _ => rfl

end Z80
