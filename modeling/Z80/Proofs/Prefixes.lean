import Z80.Proofs.Durations
import Z80.Proofs.Executed
import Z80.Proofs.Leading

/-! Chains of index prefixes. The last prefix counts, and those before it only take their bytes,
refreshes and time. Nothing ends a chain but a byte that is no prefix, wherever in memory. -/
namespace Z80

variable {β : Type}

/-- `s` with other delays met before all of its own. -/
def Core.late (s : Core β) (earlier : List Delay) : Core β :=
  { s with charges := s.charges ++ earlier }

section

variable [Bus β] (earlier : List Delay)

theorem Core.late_hom : Carrier.Hom (Core.late · earlier : Core β → Core β) where
  regs _ := rfl
  setRegs _ _ := rfl
  charge _ _ := rfl
  read _ _ := rfl
  write _ _ _ := rfl
  input _ _ := rfl
  output _ _ _ := rfl

open Exec

theorem Instr.exec_late (pins : Pins) (i : Instr) (s : Core β) :
    i.exec pins (s.late earlier) = ((i.exec pins s).1, (i.exec pins s).2.late earlier) := by
  cases plain : i.reschedules with
  | false => exact i.exec_follows (Core.late_hom earlier) pins plain s
  | true =>
    cases i with
    | di | ei | halt => rfl
    | retn =>
      simp only [exec, bind_apply, redraw_apply, Follows.change (Core.late_hom earlier),
        Follows.returnTo (Core.late_hom earlier)]
    | _ => contradiction

end

open Exec

namespace Encoding

variable {f : Nat → Byte}

theorem instr_chain (t : Table) (op : Byte) (n : Nat) :
    instr ⟨n + 1, t, op⟩ f = instr ⟨1, t, op⟩ fun k => f (n + k) := by
  rfl

theorem delays_chain (t : Table) (op : Byte) (n : Nat) :
    delays ⟨n + 1, t, op⟩ = chainDelays n ++ delays ⟨1, t, op⟩ := by
  have whole (m : Nat) :
      delays ⟨m + 1, t, op⟩ = chainDelays (m + 2) ++ t.delays (0 < m + 1) := rfl
  have split : chainDelays (n + 2) = chainDelays n ++ chainDelays 2 := by
    rw [chainDelays, ← List.replicate_append_replicate, List.flatten_append]
    rfl
  rw [whole n, split, List.append_assoc]
  simp only [Nat.succ_pos]
  rfl

theorem size_chain (t : Table) (op : Byte) (n : Nat) :
    size ⟨n + 1, t, op⟩ = n + size ⟨1, t, op⟩ := by
  simp [size]
  omega

theorem refreshes_chain (t : Table) (op : Byte) (n : Nat) :
    refreshes ⟨n + 1, t, op⟩ = n + refreshes ⟨1, t, op⟩ := by
  cases t <;> simp [refreshes, Nat.add_assoc]

end Encoding

namespace Timing

theorem total_chainDelays (t : Timing) (n : Nat) :
    t.total (chainDelays n) = .ofNat 32 n * t.opcodeFetch := by
  induction n with
  | zero => simp [chainDelays]
  | succ n ih =>
    have one_more : chainDelays (n + 1) = .memOp :: .m1 :: chainDelays n := rfl
    rw [one_more, total_cons, total_cons, ih, BitVec.ofNat_add, opcodeFetch]
    grind

end Timing

namespace Cpu

variable {c : Cpu} {bus : FlatBus} {x : Encoding} {n : Nat}

/-- The processor as if it had fetched `n` opcodes. -/
def skip (c : Cpu) (n : Nat) : Cpu :=
  { c with
    regs := c.regs.past (.ofNat 16 n) (.ofNat 8 n)
    now := c.now + .ofNat 32 n * c.timing.opcodeFetch }

theorem decision_skip (c : Cpu) (n : Nat) : (c.skip n).decision = c.decision := rfl

theorem settle_skip (s : Core FlatBus) :
    c.settle (s.late (chainDelays n).reverse) = (c.skip n).settle s := by
  have now : c.now + c.timing.total (s.charges ++ (chainDelays n).reverse) =
      c.now + .ofNat 32 n * c.timing.opcodeFetch + c.timing.total s.charges := by
    rw [Timing.total_append, Timing.total_reverse, Timing.total_chainDelays]
    grind
  unfold settle Core.late
  rw [now]
  rfl

def ranSpelled (c : Cpu) (bus : FlatBus) (x : Encoding) : Core FlatBus :=
  ((x.instr (Bus.stream bus c.regs.pc)).exec c.pins
    (Core.advance { regs := c.regs, bus } x.size x.refreshes x.delays)).2

theorem next_spelled (spells : x.Spells (Bus.stream bus c.regs.pc))
    (short : x.chain ≤ chainLimit) :
    c.next bus =
      some (if (x.instr (Bus.stream bus c.regs.pc)).reschedules
          then (c.settle (c.ranSpelled bus x)).refresh else c.settle (c.ranSpelled bus x),
        (c.ranSpelled bus x).bus) := by
  have fetched := nextInstruction_spelled (s := { regs := c.regs, bus }) spells short
  have core : c.ranCore bus nextInstruction (x.instr (Bus.stream bus c.regs.pc)) =
      c.ranSpelled bus x := by
    rw [ranCore, fetched]
    rfl
  rw [← core]
  exact next_of_found (congrArg Prod.fst fetched)

theorem stream_skip (c : Cpu) (bus : FlatBus) (n : Nat) :
    Bus.stream bus (c.skip n).regs.pc = fun k => Bus.stream bus c.regs.pc (n + k) := by
  funext k
  rw [← Bus.stream_past, Bus.past_flat]
  rfl

theorem instr_skip (c : Cpu) (bus : FlatBus) (t : Table) (op : Byte) (n : Nat) :
    Encoding.instr ⟨n + 1, t, op⟩ (Bus.stream bus c.regs.pc) =
      Encoding.instr ⟨1, t, op⟩ (Bus.stream bus (c.skip n).regs.pc) := by
  rw [Encoding.instr_chain, stream_skip]

/-- A chain of `n + 1` prefixes leaves what its last prefix leaves by itself. -/
theorem ranSpelled_chain (t : Table) (op : Byte) :
    c.ranSpelled bus ⟨n + 1, t, op⟩ =
      ((c.skip n).ranSpelled bus ⟨1, t, op⟩).late (chainDelays n).reverse := by
  have skipped : Core.advance { regs := c.regs, bus } n n (chainDelays n) =
      Core.late { regs := (c.skip n).regs, bus } (chainDelays n).reverse := by
    unfold Core.advance
    rw [Bus.past_flat, List.reverseAux_eq, List.append_nil]
    rfl
  have late (s : Core FlatBus) (bytes refreshes : Nat) (earlier path : List Delay) :
      (s.late earlier).advance bytes refreshes path =
        (s.advance bytes refreshes path).late earlier := by
    unfold Core.advance Core.late
    simp only [List.reverseAux_eq, List.append_assoc]
  unfold ranSpelled
  rw [Encoding.size_chain, Encoding.refreshes_chain, Encoding.delays_chain,
    ← Core.advance_advance, skipped, late, Instr.exec_late, instr_skip]
  rfl

theorem next_chain {t : Table} {op : Byte} (short : n + 1 ≤ chainLimit)
    (spells : Encoding.Spells ⟨n + 1, t, op⟩ (Bus.stream bus c.regs.pc)) :
    (c.next bus).isSome = true ∧ c.next bus = (c.skip n).next bus := by
  have last : Encoding.Spells ⟨1, t, op⟩ (Bus.stream bus (c.skip n).regs.pc) := by
    rw [stream_skip]
    constructor
    · intro k hk
      obtain rfl : k = 0 := Nat.lt_one_iff.mp hk
      exact spells.chain n n.lt_succ_self
    · simpa [Nat.add_assoc] using spells.last
  rw [next_spelled spells short, next_spelled last (Nat.le_of_ble_eq_true rfl), instr_skip,
    ranSpelled_chain, settle_skip]
  exact ⟨rfl, rfl⟩

theorem spells_of_chain (chain : ∀ m ≤ n, Opcode.isIndex (bus.peek (c.regs.pc + .ofNat 16 m)))
    (last : ¬Opcode.isIndex (bus.peek (c.regs.pc + .ofNat 16 (n + 1)))) :
    n + 1 ≤ chainLimit ∧ ∃ t op,
      Encoding.Spells ⟨n + 1, t, op⟩ (Bus.stream bus c.regs.pc) := by
  obtain ⟨k, hk, here⟩ := Bus.exists_stream bus c.regs.pc (c.regs.pc + .ofNat 16 (n + 1))
  rw [← here] at last
  obtain ⟨spells, short⟩ := Encoding.spells_ofBytes (Encoding.leading_ends (Nat.le_of_lt hk) last)
  have ended := spells.not_isIndex
  have before := spells.chain
  rw [here] at last
  simp only [Bus.stream_flat] at ended before
  -- a shorter chain would end at a prefix, and a longer one would go past its end
  have length : (Encoding.ofBytes (Bus.stream bus c.regs.pc)).chain = n + 1 := by
    rcases Nat.lt_trichotomy (Encoding.ofBytes (Bus.stream bus c.regs.pc)).chain (n + 1) with
      less | equal | more
    · exact absurd (chain _ (Nat.le_of_lt_succ less)) ended
    · exact equal
    · exact absurd (before _ more) last
  rw [← length]
  exact ⟨short, _, _, spells⟩

end Cpu

namespace Exec

variable {s : Core FlatBus} {i : Option Index} {op : Byte}

theorem loops_end {a : Word} (other : ¬Opcode.isIndex (s.bus.peek a)) :
    ∃ n ≤ 65536, ∃ j op', ¬Opcode.isIndex op' ∧ Loops i op s n j op' := by
  obtain ⟨k, hk, here⟩ := Bus.exists_stream s.bus s.regs.pc a
  rw [← here] at other
  let f := followed op (Bus.stream s.bus s.regs.pc)
  -- `op` stands before the first byte of memory, so all lie one further
  have ends : ¬Opcode.isIndex (f (Encoding.leading 65536 f)) :=
    Encoding.leading_ends (f := f) (k := k + 1) hk other
  exact ⟨Encoding.leading 65536 f, Encoding.leading_le, _, _, ends,
    loops_chain (f := f) (fun _ => Encoding.isIndex_of_lt_leading) fun _ => rfl⟩

theorem isIndex_followed (index : Opcode.isIndex op) (all : ∀ a, Opcode.isIndex (s.bus.peek a))
    (k : Nat) : Opcode.isIndex (followed op (Bus.stream s.bus s.regs.pc) k) := by
  cases k with
  | zero => exact index
  | succ k =>
    have here : followed op (Bus.stream s.bus s.regs.pc) (k + 1) = s.bus.peek _ :=
      Bus.stream_flat ..
    rw [here]
    exact all _

theorem loops_on (index : Opcode.isIndex op) (all : ∀ a, Opcode.isIndex (s.bus.peek a)) (n : Nat) :
    ∃ j op', Opcode.isIndex op' ∧ Loops i op s n j op' := by
  have prefixes := isIndex_followed index all
  exact ⟨_, _, prefixes n, loops_chain (fun k _ => prefixes k) fun _ => rfl⟩

theorem isSome_resolve {op : Byte} (other : ¬Opcode.isIndex op) (fuel : Nat) (i : Option Index)
    (s : Core FlatBus) : (resolve fuel i op s).1.isSome = true := by
  have leads := Opcode.leads_decode i op
  unfold resolve
  cases hd : Opcode.decode i op with
  | index k =>
    rw [hd] at leads
    contradiction
  | bits => cases i <;> rfl
  | _ => rfl

theorem isSome_iff_loops {limit : Nat} :
    (resolve limit i op s).1.isSome = true ↔
      ∃ n ≤ limit, ∃ j op', ¬Opcode.isIndex op' ∧ Loops i op s n j op' := by
  constructor
  · intro found
    let f := followed op (Bus.stream s.bus s.regs.pc)
    have last : ¬Opcode.isIndex (f (Encoding.leading limit f)) :=
      last_of_found (f := f) found fun _ => rfl
    exact ⟨Encoding.leading limit f, Encoding.leading_le, _, _, last,
      loops_chain (f := f) (fun _ => Encoding.isIndex_of_lt_leading) fun _ => rfl⟩
  · rintro ⟨n, short, j, op', other, looped⟩
    have h := looped (limit - n)
    rw [Nat.sub_add_cancel short] at h
    rw [h]
    exact isSome_resolve other ..

end Exec

namespace Cpu

open Exec

/-- Only the last of a chain of prefixes counts, and the chain ends just if there is in all of
memory a byte that is no prefix. -/
theorem last_prefix_counts (c : Cpu) (bus : FlatBus) :
    (∀ n, (∀ m ≤ n, Opcode.isIndex (bus.peek (c.regs.pc + .ofNat 16 m))) →
      ¬Opcode.isIndex (bus.peek (c.regs.pc + .ofNat 16 (n + 1))) →
        (c.next bus).isSome = true ∧ c.next bus = (c.skip n).next bus ∧
        (c.decision ≠ .acknowledge →
          (c.step bus).isSome = true ∧ c.step bus = (c.skip n).step bus)) ∧
    ∀ (s : Core FlatBus) (i : Option Index) (op : Byte), s.bus = bus → Opcode.isIndex op →
      ((∃ n ≤ 65536, ∃ j op', ¬Opcode.isIndex op' ∧ Loops i op s n j op') ↔
        ∃ a, ¬Opcode.isIndex (bus.peek a)) ∧
      ((resolve 65536 i op s).1.isSome = true ↔ ∃ a, ¬Opcode.isIndex (bus.peek a)) ∧
      ((∀ a, Opcode.isIndex (bus.peek a)) →
        ∀ n, ∃ j op', Opcode.isIndex op' ∧ Loops i op s n j op') := by
  constructor
  · intro n chain last
    obtain ⟨short, t, op, spells⟩ := spells_of_chain chain last
    have ⟨found, same⟩ := next_chain short spells
    refine ⟨found, same, fun running => ?_⟩
    have ⟨found, same⟩ := next_chain (c := c.shut) short spells
    have skipped : (c.skip n).decision ≠ .acknowledge := by rwa [decision_skip]
    rw [step_of_running running, step_of_running skipped, Option.isSome_map]
    exact ⟨found, congrArg (Option.map refreshed) same⟩
  · rintro s i op rfl index
    have ends : (resolve 65536 i op s).1.isSome = true ↔ ∃ a, ¬Opcode.isIndex (s.bus.peek a) := by
      constructor
      · intro found
        apply Classical.byContradiction
        intro none_other
        have all : ∀ a, Opcode.isIndex (s.bus.peek a) := fun a =>
          Decidable.not_not.mp fun other => none_other ⟨a, other⟩
        exact last_of_found (f := followed op (Bus.stream s.bus s.regs.pc)) found (fun _ => rfl)
          (isIndex_followed index all _)
      · rintro ⟨a, other⟩
        exact isSome_iff_loops.mpr (loops_end other)
    exact ⟨isSome_iff_loops.symm.trans ends, ends, loops_on index⟩

theorem last_prefix_counts_mixed :
    (let bus := FlatBus.empty.load 0 [0xDD, 0xFD, 0x21, 0x34, 0x12]
    (ofTiming .z80).step bus = ((ofTiming .z80).skip 1).step bus ∧
      (((ofTiming .z80).step bus).any fun s => s.1.regs.iy == 0x1234 && s.1.now == 18) = true) ∧
    let full : FlatBus := { FlatBus.empty with memory := .replicate 0xDD 16 }
    ∀ n, ∃ j op', Opcode.isIndex op' ∧
      Loops none 0xDD { regs := .powerOn, bus := full } n j op' := by
  constructor
  · let bus := FlatBus.empty.load 0 [0xDD, 0xFD, 0x21, 0x34, 0x12]
    have chain := (last_prefix_counts (ofTiming .z80) bus).1 1 (by decide +kernel)
      (by decide +kernel)
    exact ⟨(chain.2.2 (by decide)).2, by decide +kernel⟩
  · let full : FlatBus := { FlatBus.empty with memory := .replicate 0xDD 16 }
    have all : ∀ a, Opcode.isIndex (full.peek a) := fun a => .inl (Store.get_replicate 0xDD a)
    exact ((last_prefix_counts (ofTiming .z80) full).2 _ none 0xDD rfl (.inl rfl)).2.2 all

end Cpu

end Z80
