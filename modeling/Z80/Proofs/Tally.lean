import Z80.Bus.Recorded
import Z80.Proofs.Charges
import Z80.Proofs.Spelled

/-! Every access has its price. An instruction first takes its operands from the instruction stream
and then goes about its data; each byte and each access is met by the delays that stand for it, and
no other delay stands for any. -/
namespace Z80

variable {α β γ : Type}

namespace Access

def isMemory : Access → Bool
  | read .. | write .. => true
  | input .. | output .. => false

def isPort : Access → Bool
  | input .. | output .. => true
  | read .. | write .. => false

end Access

def Delay.isInternal : Delay → Bool
  | mem | memOp | preIo | postIo | m1 => false
  | _ => true

/-- The delays that are met with so many bytes of the stream and these accesses to data. -/
structure Paid (bytes : Nat) (data : List Access) (path : List Delay) : Prop where
  memOp : path.count .memOp = bytes
  mem : path.count .mem = data.countP (·.isMemory)
  preIo : path.count .preIo = data.countP (·.isPort)
  postIo : path.count .postIo = data.countP (·.isPort)
  m1 : path.count .m1 = 0

namespace Paid

variable {m n : Nat} {data data' : List Access} {path path' : List Delay}

theorem nil : Paid 0 [] [] := ⟨rfl, rfl, rfl, rfl, rfl⟩

theorem append (h : Paid m data path) (h' : Paid n data' path') :
    Paid (m + n) (data ++ data') (path ++ path') := by
  constructor
  · rw [List.count_append, h.memOp, h'.memOp]
  · rw [List.count_append, List.countP_append, h.mem, h'.mem]
  · rw [List.count_append, List.countP_append, h.preIo, h'.preIo]
  · rw [List.count_append, List.countP_append, h.postIo, h'.postIo]
  · rw [List.count_append, h.m1, h'.m1]

theorem internal {d : Delay} (h : d.isInternal = true) : Paid 0 [] [d] := by
  cases d <;> first | contradiction | exact ⟨rfl, rfl, rfl, rfl, rfl⟩

end Paid

def Mem.operands : Mem → Nat
  | hl => 0
  | indexed _ => 1

namespace Exec

/-- `n` bytes are taken from the stream, and nothing else happens on the bus. -/
def Fetches [Bus β] (n : Nat) (x : Exec β α) : Prop :=
  ∀ s, (x s).2.regs.pc = s.regs.pc + .ofNat 16 n ∧
    (x s).2.bus = Bus.past s.bus s.regs.pc n ∧
    ∃ path, (x s).2.charges = path.reverse ++ s.charges ∧ Paid n [] path

/-- `n` bytes are taken from the stream, and then there are other accesses. -/
def Consumes [Bus β] (n : Nat) (x : Exec (Recorded β) α) : Prop :=
  ∀ s, ∃ data path,
    (x s).2.bus.accesses.toList = (Bus.past s.bus s.regs.pc n).accesses.toList ++ data ∧
    (x s).2.charges = path.reverse ++ s.charges ∧ Paid n data path

section

variable [Bus β] {n : Nat}

namespace Fetches

theorem idle {x : Exec β α} (path : List Delay) (paid : Paid 0 [] path)
    (h : ∀ s, (x s).2.regs.pc = s.regs.pc ∧ (x s).2.bus = s.bus ∧
      (x s).2.charges = path.reverse ++ s.charges) : Fetches 0 x := by
  intro s
  obtain ⟨pc, bus, charges⟩ := h s
  exact ⟨by rw [pc, BitVec.add_zero], bus, path, charges, paid⟩

theorem silent {x : Exec β α}
    (h : ∀ s, (x s).2.regs.pc = s.regs.pc ∧ (x s).2.bus = s.bus ∧ (x s).2.charges = s.charges) :
    Fetches 0 x := idle [] .nil h

theorem fetchByte : Fetches 1 (fetchByte : Exec β Byte) := fun _ =>
  ⟨rfl, rfl, [.memOp], rfl, rfl, rfl, rfl, rfl, rfl⟩

theorem fetchWord : Fetches 2 (fetchWord : Exec β Word) := fun s =>
  ⟨BitVec.add_assoc s.regs.pc 1 1, rfl, [.memOp, .memOp], rfl, rfl, rfl, rfl, rfl, rfl⟩

theorem address (m : Mem) : Fetches m.operands (m.address : Exec β Word) := by
  intro s
  cases m with
  | hl => exact silent (fun _ => ⟨rfl, rfl, rfl⟩) s
  | indexed i => exact ⟨rfl, rfl, [.memOp, .add8], rfl, rfl, rfl, rfl, rfl, rfl⟩

end Fetches

namespace Consumes

/-- Once the data have been touched no more bytes are taken. -/
theorem bind {x : Exec (Recorded β) α} {f : α → Exec (Recorded β) γ} (hx : Consumes n x)
    (hf : ∀ a, Consumes 0 (f a)) : Consumes n (x >>= f) := by
  intro s
  obtain ⟨data, path, accesses, charges, paid⟩ := hx s
  obtain ⟨data', path', accesses', charges', paid'⟩ := hf (x s).1 (x s).2
  refine ⟨data ++ data', path ++ path', ?_, ?_, paid.append paid'⟩
  · rw [bind_apply, accesses', Bus.past, accesses, List.append_assoc]
  · rw [bind_apply, charges', charges, List.reverse_append, List.append_assoc]

theorem fetch {m : Nat} {x : Exec (Recorded β) α} {f : α → Exec (Recorded β) γ}
    (hx : Fetches m x) (hf : ∀ a, Consumes n (f a)) : Consumes (n + m) (x >>= f) := by
  intro s
  obtain ⟨pc, bus, path, charges, paid⟩ := hx s
  obtain ⟨data, path', accesses, charges', paid'⟩ := hf (x s).1 (x s).2
  have whole := paid.append paid'
  rw [Nat.add_comm m n] at whole
  refine ⟨data, path ++ path', ?_, ?_, whole⟩
  · rw [bind_apply, accesses, bus, pc, Nat.add_comm n m, Bus.past_add]
  · rw [bind_apply, charges', charges, List.reverse_append, List.append_assoc]

theorem fetchByte {f : Byte → Exec (Recorded β) γ} (h : ∀ v, Consumes n (f v)) :
    Consumes (n + 1) (Exec.fetchByte >>= f) := fetch .fetchByte h

theorem fetchWord {f : Word → Exec (Recorded β) γ} (h : ∀ w, Consumes n (f w)) :
    Consumes (n + 2) (Exec.fetchWord >>= f) := fetch .fetchWord h

theorem address {m : Mem} {f : Word → Exec (Recorded β) γ} (h : ∀ a, Consumes 0 (f a)) :
    Consumes m.operands (m.address >>= f) := by
  have whole := fetch (.address m) h
  rwa [Nat.zero_add] at whole

/-- A step that leaves PC and the bus alone may come before the operands too. -/
theorem first {x : Exec (Recorded β) α} {f : α → Exec (Recorded β) γ} (hx : Fetches 0 x)
    (h : ∀ a, Consumes n (f a)) : Consumes n (x >>= f) := fetch hx h

theorem regs {f : Registers → Exec (Recorded β) γ} (h : ∀ r, Consumes n (f r)) :
    Consumes n (Exec.regs >>= f) := first (.silent fun _ => ⟨rfl, rfl, rfl⟩) h

theorem taken {cond : Option Condition} {f : Bool → Exec (Recorded β) γ}
    (h : ∀ b, Consumes n (f b)) : Consumes n (Exec.taken cond >>= f) :=
  first (.silent fun _ => ⟨rfl, rfl, rfl⟩) h

theorem ite {p : Prop} [Decidable p] {x y : Exec (Recorded β) α} (hx : Consumes n x)
    (hy : Consumes n y) : Consumes n (if p then x else y) := by
  split <;> assumption

theorem idle {x : Exec (Recorded β) α} (path : List Delay) (paid : Paid 0 [] path)
    (h : ∀ s, (x s).2.bus = s.bus ∧ (x s).2.charges = path.reverse ++ s.charges) :
    Consumes 0 x := by
  intro s
  obtain ⟨bus, charges⟩ := h s
  exact ⟨[], path, by rw [bus, List.append_nil]; rfl, charges, paid⟩

theorem silent {x : Exec (Recorded β) α}
    (h : ∀ s, (x s).2.bus = s.bus ∧ (x s).2.charges = s.charges) : Consumes 0 x := idle [] .nil h

theorem change {f : Registers → Registers} : Consumes 0 (change f : Exec (Recorded β) Unit) :=
  silent fun _ => ⟨rfl, rfl⟩

theorem charge {d : Delay} (h : d.isInternal = true) :
    Consumes 0 (charge d : Exec (Recorded β) Unit) := idle [d] (.internal h) fun _ => ⟨rfl, rfl⟩

theorem read (a : Word) : Consumes 0 (read a : Exec (Recorded β) Byte) := fun s =>
  ⟨[.read a (Bus.read s.bus.bus a).1], [.mem], Array.toList_push, rfl, rfl, rfl, rfl, rfl, rfl⟩

theorem write (a : Word) (v : Byte) : Consumes 0 (write a v : Exec (Recorded β) Unit) := fun _ =>
  ⟨[.write a v], [.mem], Array.toList_push, rfl, rfl, rfl, rfl, rfl, rfl⟩

theorem input (port : Word) : Consumes 0 (input port : Exec (Recorded β) Byte) := fun s =>
  ⟨[.input port (Bus.input s.bus.bus port).1], [.preIo, .postIo], Array.toList_push, rfl,
    rfl, rfl, rfl, rfl, rfl⟩

theorem output (port : Word) (v : Byte) : Consumes 0 (output port v : Exec (Recorded β) Unit) :=
  fun _ => ⟨[.output port v], [.preIo, .postIo], Array.toList_push, rfl, rfl, rfl, rfl, rfl, rfl⟩

end Consumes

end

end Exec

def Loc.operands : Loc → Nat
  | reg _ => 0
  | mem m => m.operands

namespace Instr

def operands : Instr → Nat
  | ld dst src => src.operands + dst.operands
  | ldImm dst => dst.operands + 1
  | alu _ loc | .update _ loc => loc.operands
  | ldPair _ | loadPair _ | storePair _ | loadADirect | storeADirect | jp _ | call _ => 2
  | aluImm _ | jr _ | djnz | inA | outA => 1
  | _ => 0

def single : Instr → Bool
  | ld (.mem _) (.mem _) => false
  | _ => true

end Instr

namespace Exec.Consumes

variable [Bus β]

theorem pure (a : α) : Consumes 0 (pure a : Exec (Recorded β) α) := silent fun _ => ⟨rfl, rfl⟩

theorem readWord (a : Word) : Consumes 0 (readWord a : Exec (Recorded β) Word) := by
  refine bind (read a) fun low => ?_
  refine bind (read (a + 1)) fun high => ?_
  exact pure _

theorem writeWord (a w : Word) : Consumes 0 (writeWord a w : Exec (Recorded β) Unit) := by
  refine bind (write a w.low) fun _ => ?_
  exact write (a + 1) w.high

theorem push (w : Word) : Consumes 0 (push w : Exec (Recorded β) Unit) := by
  refine regs fun r => ?_
  refine bind (write (r.sp - 1) w.high) fun _ => ?_
  refine bind (write (r.sp - 2) w.low) fun _ => ?_
  exact change

theorem pop : Consumes 0 (pop : Exec (Recorded β) Word) := by
  refine regs fun r => ?_
  refine bind (read r.sp) fun low => ?_
  refine bind (read (r.sp + 1)) fun high => ?_
  refine bind change fun _ => ?_
  exact pure _

theorem returnTo : Consumes 0 (returnTo : Exec (Recorded β) Unit) := by
  refine bind pop fun target => ?_
  exact silent fun _ => ⟨rfl, rfl⟩

theorem jumpRelative (taken : Bool) :
    Consumes 1 (jumpRelative taken : Exec (Recorded β) Unit) := by
  refine fetchByte fun d => ?_
  cases taken
  · exact pure _
  · exact idle [.add8] (.internal rfl) fun _ => ⟨rfl, rfl⟩

theorem updateAt (u : Update) (a : Word) :
    Consumes 0 (updateAt u a : Exec (Recorded β) Byte) := by
  refine bind (read a) fun v => ?_
  refine regs fun r => ?_
  refine bind change fun _ => ?_
  refine bind (charge rfl) fun _ => ?_
  refine bind (write a _) fun _ => ?_
  exact pure _

theorem rotateDigit (digits : Byte → Byte → Byte × Byte) :
    Consumes 0 (rotateDigit digits : Exec (Recorded β) Unit) := by
  refine regs fun r => ?_
  refine bind (read r.hl) fun v => ?_
  refine bind change fun _ => ?_
  refine bind (charge rfl) fun _ => ?_
  refine bind (write r.hl _) fun _ => ?_
  exact change

theorem arith16 (dst src : Reg16) (op : Word → Word → Flags → Result 16) :
    Consumes 0 (arith16 dst src op : Exec (Recorded β) Unit) :=
  idle [.add16] (.internal rfl) fun _ => ⟨rfl, rfl⟩

theorem loadSpecial (v : Registers → Byte) :
    Consumes 0 (loadSpecial v : Exec (Recorded β) Unit) :=
  idle [.ld] (.internal rfl) fun _ => ⟨rfl, rfl⟩

theorem load (loc : Loc) : Consumes loc.operands (loc.read : Exec (Recorded β) Byte) := by
  cases loc with
  | reg x => exact silent fun _ => ⟨rfl, rfl⟩
  | mem m =>
    refine address fun a => ?_
    exact read a

theorem store (v : Byte) (loc : Loc) :
    Consumes loc.operands (loc.write v : Exec (Recorded β) Unit) := by
  cases loc with
  | reg x => exact change
  | mem m =>
    refine address fun a => ?_
    exact write a v

theorem ldImm (dst : Loc) :
    Consumes (dst.operands + 1) (Instr.execLdImm dst : Exec (Recorded β) Unit) := by
  rcases dst with x | _ | i
  · refine fetchByte fun v => ?_
    exact change
  · refine regs fun r => ?_
    refine fetchByte fun v => ?_
    exact write r.hl v
  · refine fetchByte fun d => ?_
    refine regs fun r => ?_
    refine fetchByte fun v => ?_
    refine bind (charge rfl) fun _ => ?_
    refine bind change fun _ => ?_
    exact write _ v

theorem update (u : Update) (loc : Loc) :
    Consumes loc.operands (Instr.execUpdate u loc : Exec (Recorded β) Unit) := by
  cases loc with
  | reg x => exact change
  | mem m =>
    refine address fun a => ?_
    refine bind (updateAt u a) fun v => ?_
    exact pure _

theorem bitAt (n : BitVec 3) (a : Word) :
    Consumes 0 (Instr.execBitAt n a : Exec (Recorded β) Unit) := by
  refine bind (read a) fun v => ?_
  exact silent fun _ => ⟨rfl, rfl⟩

theorem round (dir : Direction) (op : BlockOp) :
    Consumes 0 (op.round dir : Exec (Recorded β) Bool) := by
  cases op with
  | move =>
    refine regs fun r => ?_
    refine bind (read r.hl) fun v => ?_
    refine bind (write r.de v) fun _ => ?_
    exact idle [.ldi] (.internal rfl) fun _ => ⟨rfl, rfl⟩
  | search =>
    refine regs fun r => ?_
    refine bind (read r.hl) fun v => ?_
    exact idle [.block] (.internal rfl) fun _ => ⟨rfl, rfl⟩
  | input =>
    refine bind (charge rfl) fun _ => ?_
    refine regs fun r => ?_
    refine bind change fun _ => ?_
    refine bind (input _) fun v => ?_
    refine bind (write r.hl v) fun _ => ?_
    exact silent fun _ => ⟨rfl, rfl⟩
  | output =>
    refine bind (charge rfl) fun _ => ?_
    refine regs fun r => ?_
    refine bind (read r.hl) fun v => ?_
    refine bind change fun _ => ?_
    refine bind (output _ v) fun _ => ?_
    exact silent fun _ => ⟨rfl, rfl⟩

theorem block (op : BlockOp) (dir : Direction) (repeats : Bool) :
    Consumes 0 (op.exec dir repeats : Exec (Recorded β) Unit) := by
  refine bind (round dir op) fun again => ?_
  refine ite ?_ (pure _)
  exact idle [.block] (.internal rfl) fun _ => ⟨rfl, rfl⟩

end Exec.Consumes

open Exec Consumes

theorem Instr.exec_consumes [Bus β] (pins : Pins) (i : Instr) (one : i.single = true) :
    Consumes i.operands (i.exec pins : Exec (Recorded β) Unit) := by
  cases i with
  | nop | exAF | exDEHL | exx | rotateA | daa | cpl | scf | ccf | neg | bit | jpPair | im | di
  | ei | halt => exact silent fun _ => ⟨rfl, rfl⟩
  | ldSp => exact idle [.ldSpHl] (.internal rfl) fun _ => ⟨rfl, rfl⟩
  | incPair | decPair => exact idle [.inc16] (.internal rfl) fun _ => ⟨rfl, rfl⟩
  | ldIA | ldRA => exact idle [.ld] (.internal rfl) fun _ => ⟨rfl, rfl⟩
  | addPair dst src => exact arith16 dst src _
  | adcHL src | sbcHL src =>
    unfold exec
    exact arith16 .hl src _
  | ldAI | ldAR => exact loadSpecial _
  | rrd | rld =>
    unfold exec
    exact rotateDigit _
  | ldImm dst => exact Consumes.ldImm dst
  | update u loc => exact Consumes.update u loc
  | block op dir repeats => exact Consumes.block op dir repeats
  | ld dst src =>
    cases dst with
    | reg x =>
      refine bind (load src) fun v => ?_
      exact change
    | mem m =>
      cases src with
      | reg x =>
        have behind : (ld (.mem m) (.reg x)).operands = m.operands := Nat.zero_add _
        rw [behind]
        refine first (.silent fun _ => ⟨rfl, rfl, rfl⟩) fun v => ?_
        exact store v (.mem m)
      | mem m' => contradiction
  | ldPair dst =>
    refine fetchWord fun w => ?_
    exact change
  | loadPair dst =>
    refine fetchWord fun a => ?_
    refine bind (readWord a) fun w => ?_
    exact silent fun _ => ⟨rfl, rfl⟩
  | storePair src =>
    refine regs fun r => ?_
    refine fetchWord fun a => ?_
    refine bind (writeWord a _) fun _ => ?_
    exact change
  | loadA pointer =>
    refine regs fun r => ?_
    refine bind (read _) fun v => ?_
    exact change
  | storeA pointer =>
    refine regs fun r => ?_
    exact write _ r.a
  | loadADirect =>
    refine fetchWord fun a => ?_
    refine bind change fun _ => ?_
    refine bind (read a) fun v => ?_
    exact change
  | storeADirect =>
    refine fetchWord fun a => ?_
    refine regs fun r => ?_
    refine bind change fun _ => ?_
    exact write a r.a
  | push src =>
    refine bind (charge rfl) fun _ => ?_
    refine regs fun r => ?_
    exact Consumes.push _
  | pop dst =>
    refine bind Consumes.pop fun w => ?_
    exact change
  | exStack x =>
    refine regs fun r => ?_
    refine bind (readWord r.sp) fun old => ?_
    refine bind (write (r.sp + 1) _) fun _ => ?_
    refine bind (write r.sp _) fun _ => ?_
    exact idle [.exSpHl] (.internal rfl) fun _ => ⟨rfl, rfl⟩
  | alu op src =>
    refine bind (load src) fun v => ?_
    exact silent fun _ => ⟨rfl, rfl⟩
  | aluImm op =>
    refine fetchByte fun v => ?_
    exact silent fun _ => ⟨rfl, rfl⟩
  | bitMem n =>
    refine bind (charge rfl) fun _ => ?_
    refine regs fun r => ?_
    exact bitAt n r.hl
  | updateIndexed u i d copy =>
    refine regs fun r => ?_
    refine bind change fun _ => ?_
    refine bind (charge rfl) fun _ => ?_
    refine bind (updateAt u _) fun v => ?_
    cases copy with
    | none => exact pure _
    | some x => exact change
  | bitIndexed n i d =>
    refine bind (charge rfl) fun _ => ?_
    refine regs fun r => ?_
    refine bind change fun _ => ?_
    exact bitAt n _
  | jp cond =>
    refine fetchWord fun target => ?_
    refine bind change fun _ => ?_
    refine taken fun goes => ?_
    exact ite change (pure _)
  | jr cond =>
    refine taken fun goes => ?_
    exact jumpRelative goes
  | djnz =>
    -- B is counted down before the displacement is taken
    refine first (.idle [.djnz] (.internal rfl) fun _ => ⟨rfl, rfl, rfl⟩) fun _ => ?_
    refine regs fun r => ?_
    refine first (.silent fun _ => ⟨rfl, rfl, rfl⟩) fun _ => ?_
    exact jumpRelative _
  | call cond =>
    refine fetchWord fun target => ?_
    refine bind change fun _ => ?_
    refine taken fun goes => ?_
    refine ite ?_ (pure _)
    refine bind (charge rfl) fun _ => ?_
    refine regs fun r => ?_
    refine bind (Consumes.push r.pc) fun _ => ?_
    exact change
  | ret cond =>
    cases cond with
    | none => exact returnTo
    | some k =>
      refine bind (charge rfl) fun _ => ?_
      refine taken fun goes => ?_
      exact ite returnTo (pure _)
  | retn =>
    refine bind change fun _ => ?_
    refine bind returnTo fun _ => ?_
    exact silent fun _ => ⟨rfl, rfl⟩
  | rst n =>
    refine bind (charge rfl) fun _ => ?_
    refine regs fun r => ?_
    refine bind (Consumes.push r.pc) fun _ => ?_
    exact silent fun _ => ⟨rfl, rfl⟩
  | inA =>
    refine regs fun r => ?_
    refine fetchByte fun low => ?_
    refine bind (input _) fun v => ?_
    exact change
  | outA =>
    refine regs fun r => ?_
    refine fetchByte fun low => ?_
    exact output _ r.a
  | inC dst =>
    refine regs fun r => ?_
    refine bind (input r.bc) fun v => ?_
    cases dst with
    | none => exact change
    | some x => exact silent fun _ => ⟨rfl, rfl⟩
  | outC src =>
    refine regs fun r => ?_
    exact output r.bc _

end Z80
