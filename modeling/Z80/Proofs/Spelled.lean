import Z80.Proofs.Clockless
import Z80.Proofs.Encoding

/-! The fetch of an instruction. It takes the bytes that spell it up to the last opcode and no
others, from memory or, as to the first of them, from the data lines; so how often it reads,
refreshes and waits can be counted on the spelling. -/
namespace Z80

variable {β : Type}

/-- Behind this many bytes of which so many were opcodes. -/
def Registers.past (r : Registers) (bytes : Word) (opcodes : Byte) : Registers :=
  { r with pc := r.pc + bytes, r := r.r + opcodes }

theorem Registers.past_past (r : Registers) (m n : Word) (j k : Byte) :
    (r.past m j).past n k = r.past (m + n) (j + k) := by
  simp only [past, BitVec.add_assoc]

theorem Registers.get_past (r : Registers) (bytes : Word) (opcodes : Byte) (x : Reg16) :
    (r.past bytes opcodes).get x = r.get x := by
  cases x <;> rfl

/-- `s` after reads of so many bytes of the instruction stream, with so many refreshes. -/
def Core.advance [Bus β] (s : Core β) (bytes refreshes : Nat) (path : List Delay) : Core β where
  regs := s.regs.past (.ofNat 16 bytes) (.ofNat 8 refreshes)
  bus := Bus.past s.bus s.regs.pc bytes
  charges := path.reverseAux s.charges

theorem Core.advance_zero [Bus β] (s : Core β) : s.advance 0 0 [] = s := by
  unfold advance Registers.past
  simp only [BitVec.add_zero]
  rfl

theorem Core.advance_advance [Bus β] (s : Core β) (m n j k : Nat) (p q : List Delay) :
    (s.advance m j p).advance n k q = s.advance (m + n) (j + k) (p ++ q) := by
  unfold advance
  rw [Registers.past_past, BitVec.ofNat_add, BitVec.ofNat_add, Bus.past_add,
    List.reverseAux_eq, List.reverseAux_eq, List.reverseAux_eq, List.reverse_append,
    List.append_assoc]
  rfl

namespace Exec

variable [Bus β] {t : Table} {op : Byte} {i : Option Index} {f : Nat → Byte} {n : Nat}
  {s : Core β}

theorem fetchByte_advance (s : Core β) :
    fetchByte s = (Bus.stream s.bus s.regs.pc 0, s.advance 1 0 [.memOp]) := by
  have kept : s.regs.past 1 0 = { s.regs with pc := s.regs.pc + 1 } := by simp [Registers.past]
  unfold Core.advance
  rw [show BitVec.ofNat 8 0 = 0 from rfl, show BitVec.ofNat 16 1 = 1 from rfl, kept]
  rfl

theorem resolve_instr {σ : Type} [Carrier σ] [Bus σ] {x : Instr} {s : σ} (fuel : Nat)
    (h : Opcode.decode i op = .instr x) : resolve fuel i op s = (some x, s) := by
  unfold resolve
  rw [h]
  rfl

theorem resolve_isIndex {op : Byte} (index : Opcode.isIndex op) (fuel : Nat) (i : Option Index)
    (s : Core β) : resolve (fuel + 1) i op s =
      resolve fuel (Opcode.indexOf op) (Bus.stream s.bus s.regs.pc 0)
        (s.advance 1 1 [.memOp, .m1]) := by
  rcases index with rfl | rfl <;> rfl

/-- With `op` in hand and the index register `i` the prefix loop has after `n` opcode fetches
`op'` in hand and the index register `j`. -/
def Loops (i : Option Index) (op : Byte) (s : Core β) (n : Nat) (j : Option Index)
    (op' : Byte) : Prop :=
  ∀ fuel, resolve (fuel + n) i op s = resolve fuel j op' (s.advance n n (chainDelays n))

theorem loops_chain (chain : ∀ k < n, Opcode.isIndex (f k))
    (behind : ∀ k, f (k + 1) = Bus.stream s.bus s.regs.pc k) :
    Loops i (f 0) s n (Opcode.lastIndex i f n) (f n) := by
  induction n with
  | zero =>
    intro fuel
    exact congrArg (resolve fuel i (f 0)) s.advance_zero.symm
  | succ n ih =>
    intro fuel
    have next : Bus.stream (s.advance n n (chainDelays n)).bus
        (s.advance n n (chainDelays n)).regs.pc 0 = f (n + 1) :=
      (Bus.stream_past s.bus s.regs.pc n 0).trans (behind n).symm
    have one_more : chainDelays n ++ [.memOp, .m1] = chainDelays (n + 1) := by
      simp [chainDelays, List.replicate_succ']
    rw [← Nat.add_assoc, Nat.add_right_comm,
      ih (fun k hk => chain k (Nat.lt_succ_of_lt hk)) (fuel + 1),
      resolve_isIndex (chain n n.lt_succ_self), next, Core.advance_advance, one_more]
    rfl

theorem resolve_last (fuel : Nat) (spells : t.Spells op i.isSome f)
    (behind : ∀ k, f (k + 1) = Bus.stream s.bus s.regs.pc k) :
    resolve fuel i (f 0) s =
      (some (t.instr op i (f 1)),
        s.advance (t.rest i.isSome) (t.refreshes i.isSome) (t.delays i.isSome)) := by
  cases t with
  | main =>
    obtain ⟨lead, other⟩ := spells
    rw [lead, resolve_instr fuel (Opcode.decode_main i (f 1) op other)]
    exact congrArg (Prod.mk _) s.advance_zero.symm
  | bits =>
    cases i with
    | none =>
      obtain ⟨lead, code⟩ := spells
      have code : Bus.stream s.bus s.regs.pc 0 = op := (behind 0).symm.trans code
      rw [lead, ← code]
      unfold resolve
      rfl
    | some i =>
      obtain ⟨lead, code⟩ := spells
      have code : Bus.stream s.bus s.regs.pc 1 = op := (behind 1).symm.trans code
      have taken : resolve fuel (some i) 0xCB s =
          (some (Opcode.decodeIndexedBits i (fetchByte s).1 (fetchByte (fetchByte s).2).1),
            (charge .m1 (fetchByte (fetchByte s).2).2).2) := by
        unfold resolve
        cases i <;> rfl
      rw [lead, taken, fetchByte_advance, fetchByte_advance, Core.advance_advance, behind 0,
        ← code]
      rfl
  | extended =>
    obtain ⟨lead, code⟩ := spells
    have code : Bus.stream s.bus s.regs.pc 0 = op := (behind 0).symm.trans code
    rw [lead, ← code]
    unfold resolve
    rcases i with _ | _ | _ <;> rfl

theorem resolve_spelled {fuel : Nat} (short : n ≤ fuel)
    (chain : ∀ k < n, Opcode.isIndex (f k))
    (last : t.Spells op (i.isSome || 0 < n) fun k => f (n + k))
    (behind : ∀ k, f (k + 1) = Bus.stream s.bus s.regs.pc k) :
    resolve fuel i (f 0) s =
      (some (t.instr op (Opcode.lastIndex i f n) (f (n + 1))),
        s.advance (n + t.rest (i.isSome || 0 < n)) (n + t.refreshes (i.isSome || 0 < n))
          (chainDelays n ++ t.delays (i.isSome || 0 < n))) := by
  have looped := loops_chain (i := i) chain behind (fuel - n)
  have ended : f n = (fun k => f (n + k)) 0 := rfl
  rw [← Opcode.isSome_lastIndex chain] at last ⊢
  rw [Nat.sub_add_cancel short, ended] at looped
  rw [looped, resolve_last _ last, Core.advance_advance]
  exact fun k => (behind (n + k)).trans (Bus.stream_past s.bus s.regs.pc n k).symm

theorem last_of_found {fuel : Nat} (found : (resolve fuel i (f 0) s).1.isSome = true)
    (behind : ∀ k, f (k + 1) = Bus.stream s.bus s.regs.pc k) :
    ¬Opcode.isIndex (f (Encoding.leading fuel f)) := by
  induction fuel generalizing s f i with
  | zero =>
    rintro (lead | lead)
    all_goals
      have lead : f 0 = _ := lead
      rw [lead] at found
      contradiction
  | succ fuel ih =>
    unfold Encoding.leading
    split
    next index =>
      rw [resolve_isIndex index, ← behind 0] at found
      exact ih (f := fun k => f (k + 1)) found fun k => behind (k + 1)
    next other => exact other

theorem instructionFrom_spelled {x : Encoding}
    (spells : x.Spells (followed op (Bus.stream s.bus s.regs.pc))) (short : x.chain ≤ chainLimit) :
    instructionFrom op s =
      (some (x.instr (followed op (Bus.stream s.bus s.regs.pc))),
        s.advance (x.size - 1) x.refreshes x.delays.tail) := by
  have first : m1 s = ((), s.advance 0 1 [.m1]) := by
    unfold Core.advance Registers.past
    simp only [BitVec.add_zero]
    rfl
  have pc : (s.advance 0 1 [.m1]).regs.pc = s.regs.pc := BitVec.add_zero _
  have h := resolve_spelled (i := none) (s := s.advance 0 1 [.m1]) short
    spells.chain spells.last (fun k => by rw [pc]; rfl)
  rw [Core.advance_advance] at h
  unfold Encoding.delays
  rw [x.size_sub_one, x.refreshes_eq, instructionFrom, bind_apply, first]
  exact h

theorem spells_of_found (found : (instructionFrom op s).1.isSome = true)
    (hf : f = followed op (Bus.stream s.bus s.regs.pc)) :
    (Encoding.ofBytes f).Spells f ∧ (Encoding.ofBytes f).chain ≤ chainLimit := by
  rw [hf]
  exact Encoding.spells_ofBytes <| last_of_found (i := none) (s := (m1 s).2)
    (f := followed op (Bus.stream s.bus s.regs.pc)) found fun _ => rfl

theorem supply_spelled {x : Encoding}
    (spells : x.Spells (followed op (Bus.stream s.bus s.regs.pc))) (short : x.chain ≤ chainLimit) :
    supply op s =
      (some (x.instr (followed op (Bus.stream s.bus s.regs.pc))),
        s.advance (x.size - 1) x.refreshes (.im :: x.delays.tail)) :=
  instructionFrom_spelled (s := (charge .im s).2) spells short

theorem nextInstruction_spelled {x : Encoding}
    (spells : x.Spells (Bus.stream s.bus s.regs.pc)) (short : x.chain ≤ chainLimit) :
    nextInstruction s =
      (some (x.instr (Bus.stream s.bus s.regs.pc)), s.advance x.size x.refreshes x.delays) := by
  have stream : Bus.stream s.bus s.regs.pc = followed (Bus.stream s.bus s.regs.pc 0)
      (Bus.stream (s.advance 1 0 [.memOp]).bus (s.advance 1 0 [.memOp]).regs.pc) :=
    Bus.stream_eq_followed ..
  have size : 1 + (x.size - 1) = x.size := by
    unfold Encoding.size
    omega
  rw [stream] at spells
  have h := instructionFrom_spelled spells short
  rw [← stream, Core.advance_advance, size, Nat.zero_add] at h
  rw [nextInstruction, bind_apply, fetchByte_advance]
  exact h

/-- The bytes up to the last opcode may be known by themselves. -/
theorem nextInstruction_congr {x : Encoding} (spells : x.Spells f) (short : x.chain ≤ chainLimit)
    (here : ∀ k < x.size, Bus.stream s.bus s.regs.pc k = f k) :
    nextInstruction s = (some (x.instr f), s.advance x.size x.refreshes x.delays) := by
  obtain ⟨spelled, same⟩ := spells.congr here
  rw [nextInstruction_spelled spelled short, same]

end Exec

end Z80
