import Z80.Proofs.Leading
import Z80.Proofs.Veil

/-! Instructions that cannot see what is veiled. The undocumented places feed into nothing but
one another, so an instruction does the same whatever they hold, unless it takes AF for a word. -/
namespace Z80

variable {α β γ : Type}

theorem AluOp.apply_copyXY (op : AluOp) (a v : Byte) (f : Flags) (b : Byte) :
    (op.apply a v f).Alike (op.apply a v (f.copyXY b)) := by
  cases op <;> exact ⟨rfl, rfl⟩

theorem Update.apply_copyXY (u : Update) (v : Byte) (f : Flags) (b : Byte) :
    (u.apply v f).Alike (u.apply v (f.copyXY b)) := by
  cases u <;> exact ⟨rfl, rfl⟩

theorem Condition.holds_copyXY (k : Condition) (f : Flags) (b : Byte) :
    k.holds (f.copyXY b) = k.holds f := by
  cases k <;> rfl

namespace Exec

/-- Under other veils `y` answers as `x` does, and only what is veiled comes out differently. -/
def Blind (x y : Exec β α) : Prop :=
  ∀ (v : Veil) (s : Core β), ∃ w : Veil, y (v.core s) = ((x s).1, w.core (x s).2)

namespace Blind

/-- What neither looks at what is veiled nor puts anything there. -/
theorem apart {x y : Exec β α} (h : ∀ v : Veil, Follows v.core y x) : Blind x y :=
  fun v s => ⟨v, h v s⟩

theorem pure (a : α) : Blind (pure a : Exec β α) (pure a) := apart fun _ _ => rfl

theorem bind {x x' : Exec β α} {f f' : α → Exec β γ} (hx : Blind x x')
    (hf : ∀ a, Blind (f a) (f' a)) : Blind (x >>= f) (x' >>= f') := by
  intro v s
  obtain ⟨w, h⟩ := hx v s
  rw [bind_apply, bind_apply, h]
  exact hf _ w _

theorem bind_regs {f f' : Registers → Exec β α}
    (hf : ∀ (v : Veil) r, Blind (f r) (f' (v.regs r))) : Blind (regs >>= f) (regs >>= f') :=
  fun v s => hf v s.regs v s

theorem ite {p : Prop} [Decidable p] {x x' y y' : Exec β α} (hx : Blind x x')
    (hy : Blind y y') : Blind (if p then x else y) (if p then x' else y') := by
  split <;> assumption

theorem charge {d : Delay} : Blind (charge d : Exec β Unit) (charge d) := apart fun _ _ => rfl

theorem redraw : Blind (redraw : Exec β Unit) redraw := apart fun _ _ => rfl

theorem change {f f' : Registers → Registers}
    (h : ∀ (v : Veil) r, ∃ w : Veil, f' (v.regs r) = w.regs (f r)) :
    Blind (change f : Exec β Unit) (change f') := by
  intro v s
  obtain ⟨w, h⟩ := h v s.regs
  exact ⟨w, Prod.ext rfl (congrArg (fun regs => { s with regs }) h)⟩

theorem store {f f' : Registers → Registers} {k k' : Registers → Flags}
    (h : ∀ (v : Veil) r, f' (v.regs r) = v.regs (f r))
    (hk : ∀ (v : Veil) r, (k r).documented = (k' (v.regs r)).documented) :
    Blind (Exec.change fun r => (f r).setFlags (k r) : Exec β Unit)
      (Exec.change fun r => (f' r).setFlags (k' r)) := by
  refine change fun v r => ?_
  rw [h]
  exact ⟨_, v.regs_setFlags (f r) (hk v r)⟩

theorem setFlags {f g : Flags} (h : f.documented = g.documented) :
    Blind (setFlags f : Exec β Unit) (setFlags g) :=
  change fun v r => ⟨_, v.regs_setFlags r h⟩

theorem changeFlags (k : Registers → Flags)
    (hk : ∀ (v : Veil) r, (k r).documented = (k (v.regs r)).documented) :
    Blind (Exec.change fun r => r.setFlags (k r) : Exec β Unit)
      (Exec.change fun r => r.setFlags (k r)) :=
  change fun v r => ⟨_, v.regs_setFlags r (hk v r)⟩

theorem setPC (w : Word) : Blind (setPC w : Exec β Unit) (setPC w) := apart fun _ _ => rfl

theorem setSH (w w' : Word) : Blind (setSH w : Exec β Unit) (setSH w') :=
  change fun v _ => ⟨{ v with sh := w' }, rfl⟩

theorem setPair (x : Reg16) (w : Word) :
    Blind (Exec.change (·.set x w) : Exec β Unit) (Exec.change (·.set x w)) := by
  refine change fun v r => ?_
  by_cases h : x = .af
  · subst h
    refine ⟨{ v with f := w.low }, ?_⟩
    exact congrArg (fun af => { v.regs r with af }) w.copyXY_low.symm
  · exact ⟨v, v.regs_set r h w⟩

theorem mapPair {dst src : Reg16} (hd : dst ≠ .af) (hs : src ≠ .af) (f : Word → Word) :
    Blind (Exec.change fun r => r.set dst (f (r.get src)) : Exec β Unit)
      (Exec.change fun r => r.set dst (f (r.get src))) :=
  change fun v r => ⟨v, by rw [v.get_regs r hs, v.regs_set r hd]⟩

theorem setReg (x : Reg8) (b : Byte) :
    Blind (Exec.change (x.set b) : Exec β Unit) (Exec.change (x.set b)) :=
  change fun v r => ⟨v, v.reg8_set r x b⟩

theorem setA (b : Byte) :
    Blind (Exec.change (·.setA b) : Exec β Unit) (Exec.change (·.setA b)) :=
  change fun v r => ⟨v, v.regs_setA r b⟩

theorem setResult {u u' : Result 8} (h : u.Alike u') :
    Blind (setResult u : Exec β Unit) (setResult u') := by
  refine store (fun v r => ?_) fun _ _ => h.flags
  rw [h.value, v.regs_setA]

theorem accumulate (f : Byte → Flags → Result 8)
    (h : ∀ a g b, (f a g).Alike (f a (g.copyXY b))) :
    Blind (do let r ← regs; Exec.setResult (f r.a r.flags) : Exec β Unit)
      (do let r ← regs; Exec.setResult (f r.a r.flags)) := by
  refine bind_regs fun v r => ?_
  rw [v.a_regs, v.flags_regs]
  exact setResult (h _ _ _)

theorem taken (cond : Option Condition) : Blind (taken cond : Exec β Bool) (taken cond) := by
  refine bind_regs fun v r => ?_
  cases cond with
  | none => exact pure _
  | some k =>
    have same : k.holds (v.regs r).flags = k.holds r.flags := by
      rw [v.flags_regs, k.holds_copyXY]
    simp only [Option.all_some, same]
    exact pure _

theorem halt (pins : Pins) : Blind (halt pins : Exec β Unit) (halt pins) := by
  refine bind (change fun v r => ⟨v, ?_⟩) fun _ => redraw
  have same : (v.regs r).iff1 = r.iff1 := rfl
  rw [same]
  split <;> rfl

theorem arith16 {dst src : Reg16} (hd : dst ≠ .af) (hs : src ≠ .af)
    (op : Word → Word → Flags → Result 16)
    (h : ∀ x y f b, (op x y f).Alike (op x y (f.copyXY b))) :
    Blind (arith16 dst src op : Exec β Unit) (arith16 dst src op) := by
  refine bind_regs fun v r => ?_
  have alike := h (r.get dst) (r.get src) r.flags v.f
  refine bind (setSH _ _) fun _ => ?_
  rw [v.get_regs r hd, v.get_regs r hs, v.flags_regs]
  refine bind (store (fun v t => ?_) fun _ _ => alike.flags) fun _ => charge
  rw [v.regs_set t hd, alike.value]

theorem loadSpecial {read : Registers → Byte} (h : ∀ (v : Veil) r, read (v.regs r) = read r) :
    Blind (loadSpecial read : Exec β Unit) (loadSpecial read) := by
  refine bind_regs fun v r => ?_
  rw [h, v.flags_regs]
  refine bind (setResult ⟨rfl, rfl⟩) fun _ => ?_
  exact charge

variable [Bus β]

theorem read (a : Word) : Blind (read a : Exec β Byte) (read a) := apart fun _ _ => rfl

theorem write (a : Word) (b : Byte) : Blind (write a b : Exec β Unit) (write a b) :=
  apart fun _ _ => rfl

theorem readWord (a : Word) : Blind (readWord a : Exec β Word) (readWord a) :=
  apart fun _ _ => rfl

theorem writeWord (a w : Word) : Blind (writeWord a w : Exec β Unit) (writeWord a w) :=
  apart fun _ _ => rfl

theorem push (w : Word) : Blind (push w : Exec β Unit) (push w) := apart fun _ _ => rfl

theorem pop : Blind (pop : Exec β Word) pop := apart fun _ _ => rfl

theorem fetchByte : Blind (fetchByte : Exec β Byte) fetchByte := apart fun _ _ => rfl

theorem fetchWord : Blind (fetchWord : Exec β Word) fetchWord := apart fun _ _ => rfl

theorem input (port : Word) : Blind (input port : Exec β Byte) (input port) := by
  refine bind (setSH _ _) fun _ => ?_
  exact apart fun _ _ => rfl

theorem output (port : Word) (b : Byte) :
    Blind (output port b : Exec β Unit) (output port b) := by
  refine bind (setSH _ _) fun _ => ?_
  exact apart fun _ _ => rfl

theorem jumpRelative (taken : Bool) :
    Blind (jumpRelative taken : Exec β Unit) (jumpRelative taken) := by
  refine bind fetchByte fun d => ?_
  refine ite ?_ (pure _)
  refine bind_regs fun _ _ => ?_
  refine bind (setPC _) fun _ => ?_
  refine bind (setSH _ _) fun _ => ?_
  exact charge

theorem returnTo : Blind (returnTo : Exec β Unit) returnTo := by
  refine bind pop fun target => ?_
  refine bind (setPC target) fun _ => ?_
  exact setSH target target

theorem updateAt (u : Update) (a : Word) :
    Blind (updateAt u a : Exec β Byte) (updateAt u a) := by
  refine bind (read a) fun b => ?_
  refine bind_regs fun v r => ?_
  have alike := u.apply_copyXY b r.flags v.f
  rw [v.flags_regs]
  refine bind (setFlags alike.flags) fun _ => ?_
  refine bind charge fun _ => ?_
  rw [alike.value]
  exact apart fun _ _ => rfl

theorem bitAt (n : BitVec 3) (a : Word) :
    Blind (Instr.execBitAt n a : Exec β Unit) (Instr.execBitAt n a) := by
  refine bind (read a) fun _ => ?_
  refine bind_regs fun v r => ?_
  rw [v.flags_regs]
  exact setFlags rfl

theorem displaced (i : Index) (d : Byte) (v : Veil) (r : Registers) :
    Mem.displaced i d (v.regs r) = Mem.displaced i d r := by
  cases i <;> rfl

theorem address (m : Mem) : Blind (m.address : Exec β Word) m.address := by
  cases m with
  | hl => exact apart fun _ _ => rfl
  | indexed i =>
    refine bind fetchByte fun d => ?_
    refine bind_regs fun v r => ?_
    rw [displaced]
    refine bind charge fun _ => ?_
    refine bind (setSH _ _) fun _ => ?_
    exact pure _

theorem load (loc : Loc) : Blind (loc.read : Exec β Byte) loc.read := by
  cases loc with
  | reg x =>
    refine bind_regs fun v r => ?_
    rw [v.reg8_get]
    exact pure _
  | mem m =>
    refine bind (address m) fun a => ?_
    exact read a

theorem storeAt (b : Byte) (loc : Loc) : Blind (loc.write b : Exec β Unit) (loc.write b) := by
  cases loc with
  | reg x => exact setReg x b
  | mem m =>
    refine bind (address m) fun a => ?_
    exact write a b

theorem ldImm (loc : Loc) :
    Blind (Instr.execLdImm loc : Exec β Unit) (Instr.execLdImm loc) := by
  rcases loc with x | _ | i
  · refine bind fetchByte fun b => ?_
    exact setReg x b
  · refine bind_regs fun _ r => ?_
    refine bind fetchByte fun b => ?_
    exact write r.hl b
  · refine bind fetchByte fun d => ?_
    refine bind_regs fun v r => ?_
    rw [displaced]
    refine bind fetchByte fun b => ?_
    refine bind charge fun _ => ?_
    refine bind (setSH _ _) fun _ => ?_
    exact write _ b

theorem update (u : Update) (loc : Loc) :
    Blind (Instr.execUpdate u loc : Exec β Unit) (Instr.execUpdate u loc) := by
  cases loc with
  | reg x =>
    have alike (v : Veil) (r : Registers) :
        (u.apply (x.get r) r.flags).Alike (u.apply (x.get (v.regs r)) (v.regs r).flags) := by
      rw [v.reg8_get, v.flags_regs]
      exact u.apply_copyXY _ _ _
    let result (r : Registers) := u.apply (x.get r) r.flags
    change Blind (Exec.change fun r => (x.set (result r).value r).setFlags (result r).flags)
      (Exec.change fun r => (x.set (result r).value r).setFlags (result r).flags)
    refine store (fun v r => ?_) fun v r => (alike v r).flags
    rw [v.reg8_set, ← (alike v r).value]
  | mem m =>
    refine bind (address m) fun a => ?_
    refine bind (updateAt u a) fun _ => ?_
    exact pure _

theorem rotateDigit (digits : Byte → Byte → Byte × Byte) :
    Blind (rotateDigit digits : Exec β Unit) (rotateDigit digits) := by
  refine bind_regs fun v r => ?_
  refine bind (read r.hl) fun b => ?_
  refine bind (setSH _ _) fun _ => ?_
  rw [v.a_regs, v.flags_regs]
  refine bind charge fun _ => ?_
  refine bind (write r.hl _) fun _ => ?_
  exact setResult ⟨rfl, rfl⟩

theorem round (dir : Direction) (op : BlockOp) :
    Blind (op.round dir : Exec β Bool) (op.round dir) := by
  cases op with
  | move =>
    refine bind_regs fun v r => ?_
    rw [v.a_regs, v.flags_regs]
    refine bind (read r.hl) fun b => ?_
    refine bind (write r.de b) fun _ => ?_
    refine bind charge fun _ => ?_
    refine bind (apart fun _ _ => rfl) fun _ => ?_
    refine bind (setFlags rfl) fun _ => ?_
    exact pure _
  | search =>
    refine bind_regs fun v r => ?_
    rw [v.a_regs, v.flags_regs]
    refine bind (read r.hl) fun b => ?_
    refine bind charge fun _ => ?_
    refine bind (apart fun _ _ => rfl) fun _ => ?_
    refine bind (setFlags rfl) fun _ => ?_
    exact pure _
  | input =>
    refine bind charge fun _ => ?_
    refine bind_regs fun _ r => ?_
    refine bind (apart fun _ _ => rfl) fun _ => ?_
    refine bind (input _) fun b => ?_
    refine bind (write r.hl b) fun _ => ?_
    refine bind (apart fun _ _ => rfl) fun _ => ?_
    refine bind (setFlags rfl) fun _ => ?_
    exact pure _
  | output =>
    refine bind charge fun _ => ?_
    refine bind_regs fun _ r => ?_
    refine bind (read r.hl) fun b => ?_
    refine bind (apart fun _ _ => rfl) fun _ => ?_
    refine bind (output _ b) fun _ => ?_
    refine bind (apart fun _ _ => rfl) fun _ => ?_
    refine bind (setFlags rfl) fun _ => ?_
    exact pure _

end Blind

end Exec

/-- Whether the instruction can take AF for a word. -/
def Instr.readsAF : Instr → Bool
  | storePair x | loadA x | storeA x | ldSp x | push x | exStack x | incPair x | decPair x
  | adcHL x | sbcHL x | jpPair x => x = .af
  | addPair dst src => dst = .af || src = .af
  | _ => false

open Exec Blind

theorem Instr.exec_blind [Bus β] {pins : Pins} {i : Instr} (h : i.readsAF = false) :
    Blind (i.exec pins : Exec β Unit) (i.exec pins) := by
  have ne {x : Reg16} (h : decide (x = .af) = false) : x ≠ .af := of_decide_eq_false h
  cases i with
  | nop | exDEHL | exx | im | di | ei => exact apart fun _ _ => rfl
  | exAF => exact fun v _ => ⟨{ v with f := v.shadow, shadow := v.f }, rfl⟩
  | ldImm dst => exact Blind.ldImm dst
  | update u loc => exact Blind.update u loc
  | halt => exact Blind.halt pins
  | rotateA s => exact accumulate s.applyA fun _ _ _ => ⟨rfl, rfl⟩
  | daa => exact accumulate Alu.daa fun _ _ _ => ⟨rfl, rfl⟩
  | cpl => exact accumulate Alu.cpl fun _ _ _ => ⟨rfl, rfl⟩
  | neg => exact accumulate (fun a _ => Alu.sub 0 a false) fun _ _ _ => ⟨rfl, rfl⟩
  | ldAI | ldAR => exact loadSpecial fun _ _ => rfl
  | rrd | rld =>
    unfold exec
    exact rotateDigit _
  | ld dst src =>
    refine bind (load src) fun v => ?_
    exact storeAt v dst
  | ldPair x =>
    refine bind fetchWord fun w => ?_
    exact setPair x w
  | loadPair x =>
    refine bind fetchWord fun a => ?_
    refine bind (readWord a) fun w => ?_
    refine bind (setSH _ _) fun _ => ?_
    exact setPair x w
  | storePair x =>
    refine bind_regs fun v r => ?_
    rw [v.get_regs r (ne h)]
    refine bind fetchWord fun a => ?_
    refine bind (writeWord a _) fun _ => ?_
    exact setSH _ _
  | loadA x =>
    refine bind_regs fun v r => ?_
    rw [v.get_regs r (ne h)]
    refine bind (read _) fun b => ?_
    exact setA b
  | storeA x =>
    refine bind_regs fun v r => ?_
    rw [v.get_regs r (ne h), v.a_regs]
    exact write _ r.a
  | loadADirect =>
    refine bind fetchWord fun a => ?_
    refine bind (setSH _ _) fun _ => ?_
    refine bind (read a) fun b => ?_
    exact setA b
  | storeADirect =>
    refine bind fetchWord fun a => ?_
    refine bind_regs fun v r => ?_
    rw [v.a_regs]
    refine bind (setSH _ _) fun _ => ?_
    exact write a r.a
  | ldSp x =>
    have sp : Reg16.sp ≠ .af := by decide
    have other : x ≠ .af := ne h
    refine bind (mapPair sp other id) fun _ => ?_
    exact charge
  | push x =>
    refine bind charge fun _ => ?_
    refine bind_regs fun v r => ?_
    rw [v.get_regs r (ne h)]
    exact Blind.push _
  | pop x =>
    refine bind Blind.pop fun w => ?_
    exact setPair x w
  | exStack x =>
    refine bind_regs fun v r => ?_
    rw [v.get_regs r (ne h)]
    refine bind (readWord r.sp) fun old => ?_
    refine bind (write (r.sp + 1) _) fun _ => ?_
    refine bind (write r.sp _) fun _ => ?_
    refine bind (setSH _ _) fun _ => ?_
    refine bind charge fun _ => ?_
    exact setPair x old
  | alu op src =>
    refine bind (load src) fun b => ?_
    exact accumulate (op.apply · b ·) fun a g c => op.apply_copyXY a b g c
  | aluImm op =>
    refine bind fetchByte fun b => ?_
    exact accumulate (op.apply · b ·) fun a g c => op.apply_copyXY a b g c
  | scf =>
    refine changeFlags (fun r => Alu.scf r.a r.flags) fun v r => ?_
    rw [v.a_regs, v.flags_regs]
    rfl
  | ccf =>
    refine changeFlags (fun r => Alu.ccf r.a r.flags) fun v r => ?_
    rw [v.a_regs, v.flags_regs]
    rfl
  | bit n x =>
    refine changeFlags (fun r => Alu.bit n (x.get r) (x.get r) r.flags) fun v r => ?_
    rw [v.reg8_get, v.flags_regs]
    rfl
  | bitMem n =>
    refine bind charge fun _ => ?_
    refine bind_regs fun _ r => ?_
    exact bitAt n r.hl
  | updateIndexed u i d copy =>
    refine bind_regs fun v r => ?_
    rw [displaced]
    refine bind (setSH _ _) fun _ => ?_
    refine bind charge fun _ => ?_
    refine bind (updateAt u _) fun b => ?_
    cases copy with
    | none => exact pure _
    | some x => exact setReg x b
  | bitIndexed n i d =>
    refine bind charge fun _ => ?_
    refine bind_regs fun v r => ?_
    rw [displaced]
    refine bind (setSH _ _) fun _ => ?_
    exact bitAt n _
  | incPair x =>
    have other : x ≠ .af := ne h
    refine bind (mapPair other other (· + 1)) fun _ => ?_
    exact charge
  | decPair x =>
    have other : x ≠ .af := ne h
    refine bind (mapPair other other (· - 1)) fun _ => ?_
    exact charge
  | addPair dst src =>
    have others : dst ≠ .af ∧ src ≠ .af := by simpa [readsAF] using h
    exact arith16 others.1 others.2 Alu.add16 fun _ _ _ _ => ⟨rfl, rfl⟩
  | adcHL x =>
    have hl : Reg16.hl ≠ .af := by decide
    exact arith16 hl (ne h) (fun x y f => Alu.adc16 x y f.c) fun _ _ _ _ => ⟨rfl, rfl⟩
  | sbcHL x =>
    have hl : Reg16.hl ≠ .af := by decide
    exact arith16 hl (ne h) (fun x y f => Alu.sbc16 x y f.c) fun _ _ _ _ => ⟨rfl, rfl⟩
  | jp cond =>
    refine bind fetchWord fun target => ?_
    refine bind (setSH _ _) fun _ => ?_
    refine bind (taken cond) fun goes => ?_
    exact ite (setPC target) (pure _)
  | jpPair x =>
    refine bind_regs fun v r => ?_
    rw [v.get_regs r (ne h)]
    exact setPC _
  | jr cond =>
    refine bind (taken cond) fun goes => ?_
    exact jumpRelative goes
  | djnz =>
    refine bind charge fun _ => ?_
    refine bind_regs fun _ r => ?_
    refine bind (change fun v _ => ⟨v, rfl⟩) fun _ => ?_
    exact jumpRelative _
  | call cond =>
    refine bind fetchWord fun target => ?_
    refine bind (setSH _ _) fun _ => ?_
    refine bind (taken cond) fun goes => ?_
    refine ite ?_ (pure _)
    refine bind charge fun _ => ?_
    refine bind_regs fun _ r => ?_
    refine bind (Blind.push r.pc) fun _ => ?_
    exact setPC target
  | ret cond =>
    cases cond with
    | none => exact returnTo
    | some k =>
      refine bind charge fun _ => ?_
      refine bind (taken _) fun goes => ?_
      exact ite returnTo (pure _)
  | retn =>
    refine bind (change fun v _ => ⟨v, rfl⟩) fun _ => ?_
    refine bind returnTo fun _ => ?_
    exact redraw
  | rst n =>
    refine bind charge fun _ => ?_
    refine bind_regs fun _ r => ?_
    refine bind (Blind.push r.pc) fun _ => ?_
    refine bind (setPC _) fun _ => ?_
    exact setSH _ _
  | inA =>
    refine bind_regs fun v r => ?_
    rw [v.a_regs]
    refine bind fetchByte fun low => ?_
    refine bind (input _) fun b => ?_
    exact setA b
  | outA =>
    refine bind_regs fun v r => ?_
    rw [v.a_regs]
    refine bind fetchByte fun low => ?_
    exact output _ r.a
  | inC dst =>
    refine bind_regs fun _ r => ?_
    refine bind (input r.bc) fun b => ?_
    have flags : Blind (Exec.change fun r => r.setFlags { Flags.ofParity b with c := r.flags.c } :
        Exec β Unit) _ :=
      changeFlags (fun r => { Flags.ofParity b with c := r.flags.c }) fun v r => by
        rw [v.flags_regs]
        rfl
    cases dst with
    | none => exact flags
    | some x =>
      refine bind (setReg x b) fun _ => ?_
      exact flags
  | outC src =>
    refine bind_regs fun v r => ?_
    cases src with
    | none => exact output _ _
    | some x =>
      change Blind (output r.bc (x.get r)) (output r.bc (x.get (v.regs r)))
      rw [v.reg8_get]
      exact output _ _
  | ldIA | ldRA =>
    refine bind (change fun v r => ⟨v, ?_⟩) fun _ => charge
    rw [v.a_regs]
    rfl
  | block op dir repeats =>
    refine bind (round dir op) fun again => ?_
    refine ite ?_ (pure _)
    exact apart fun _ _ => rfl

namespace Exec.Blind

variable [Bus β]

theorem instructionFrom (op : Byte) :
    Blind (instructionFrom op : Exec β (Option Instr)) (instructionFrom op) := by
  refine apart fun v => ?_
  have byte : Follows v.core (Exec.fetchByte : Exec β Byte) Exec.fetchByte := fun _ => rfl
  have refresh : Follows v.core (Exec.m1 : Exec β Unit) Exec.m1 := fun _ => rfl
  have wait (d : Delay) : Follows v.core (Exec.charge d : Exec β Unit) (Exec.charge d) :=
    fun _ => rfl
  exact Follows.instructionFrom byte refresh wait op

theorem nextInstruction : Blind (nextInstruction : Exec β (Option Instr)) nextInstruction := by
  refine bind fetchByte fun op => ?_
  exact instructionFrom op

theorem supply (op : Byte) : Blind (supply op : Exec β (Option Instr)) (supply op) := by
  refine bind charge fun _ => ?_
  exact instructionFrom op

theorem serveNmi : Blind (serveNmi : Exec β Unit) serveNmi := apart fun _ _ => rfl

theorem serveVector (vector : Word) :
    Blind (serveVector vector : Exec β Unit) (serveVector vector) := apart fun _ _ => rfl

end Exec.Blind

end Z80
