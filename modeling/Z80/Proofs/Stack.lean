import Z80.Proofs.Transparent

/-! The stack through all that use it. Words are pushed in three ways and popped in two, which
differ in the time that they take and in where the word goes, but not in what they do to memory and
to the stack pointer. So what has been pushed comes back in the opposite order, whichever ways are
mixed; and as long as it fits into memory, no push writes over one before it. -/
namespace Z80

inductive Pushing where
  | delayed
  | plain
  | untimed
  deriving DecidableEq

inductive Popping where
  | plain
  | forced
  deriving DecidableEq

namespace Pushing

def action : Pushing → Word → Action (Clocked FlatBus) Unit
  | delayed, w => do
    Exec.charge .push
    Exec.push w
  | plain, w => Exec.push w
  | untimed, w => Exec.pushUntimed w

/-- These are how instructions and acknowledges push. -/
example (pins : Pins) (x : Reg16) :
    (Instr.push x).exec pins = (do delayed.action ((← Exec.regs).get x)) ∧
    (Instr.call none).exec pins = (do
      let target ← Exec.fetchWord
      Exec.setSH target
      Exec.charge .call
      plain.action (← Exec.regs).pc
      Exec.setPC target) ∧
    Exec.serveNmi = (do
      untimed.action (← Exec.regs).pc
      Exec.change fun r => { r with iff1 := false, pc := 0x0066 }
      Exec.m1
      Exec.charge .nmi) :=
  ⟨rfl, rfl, rfl⟩

def store (how : Pushing) (s : Cpu × FlatBus) (w : Word) : Cpu × FlatBus :=
  s.1.serve s.2 (how.action w)

def storeAll (s : Cpu × FlatBus) (stores : List (Pushing × Word)) : Cpu × FlatBus :=
  stores.foldl (fun s p => p.1.store s p.2) s

variable (how : Pushing) (s : Cpu × FlatBus) (w : Word)

theorem sp_store : (how.store s w).1.regs.sp = s.1.regs.sp - 2 := by
  cases how <;> rfl

theorem bus_store : (how.store s w).2 = s.2.pushed s.1.regs.sp w := by
  cases how <;> rfl

end Pushing

namespace Popping

def take : Popping → Cpu × FlatBus → Word × Cpu × FlatBus
  | plain, (c, bus) =>
    let (w, s) := Exec.pop (⟨c, bus⟩ : Clocked FlatBus)
    (w, s.cpu, s.bus)
  | forced, (c, bus) =>
    let s := c.forceReturn bus
    (s.1.regs.pc, s)

def takeAll : List Popping → Cpu × FlatBus → List Word × Cpu × FlatBus
  | [], s => ([], s)
  | how :: rest, s =>
    let (w, s) := how.take s
    let (ws, s) := takeAll rest s
    (w :: ws, s)

variable (how : Popping) (s : Cpu × FlatBus)

theorem takeAll_cons (takes : List Popping) :
    takeAll (how :: takes) s =
      ((how.take s).1 :: (takeAll takes (how.take s).2).1, (takeAll takes (how.take s).2).2) := rfl

theorem word_take : (how.take s).1 = s.2.peekWord s.1.regs.sp := by
  cases how <;> rfl

theorem sp_take : (how.take s).2.1.regs.sp = s.1.regs.sp + 2 := by
  cases how <;> rfl

theorem bus_take : (how.take s).2.2 = s.2 := by
  cases how <;> rfl

end Popping

theorem sub_ofNat_add (sp : Word) (n : Nat) : sp - .ofNat 16 (n + 2) = sp - 2 - .ofNat 16 n := by
  rw [Nat.add_comm, BitVec.ofNat_add]
  grind

theorem add_ofNat_add (sp : Word) (n : Nat) : sp + .ofNat 16 (n + 2) = sp + 2 + .ofNat 16 n := by
  rw [Nat.add_comm, BitVec.ofNat_add]
  grind

theorem clear_above {sp : Word} {n : Nat} (room : n + 2 ≤ 65536) : Clear sp sp n := by
  intro k hk
  simp only [List.mem_cons, List.not_mem_nil, or_false]
  bv_omega

/-- The bytes of words that lie one above another, of each the low one first. -/
def wordBytes (ws : List Word) : List Byte := ws.flatMap fun w => [w.low, w.high]

namespace FlatBus

def pushedAll (bus : FlatBus) : Word → List Word → FlatBus
  | _, [] => bus
  | sp, w :: ws => (bus.pushed sp w).pushedAll (sp - 2) ws

variable {bus : FlatBus} {sp : Word} {ws : List Word}

theorem holds_pushed {bs : List Byte} (w : Word) (held : bus.Holds sp bs)
    (room : bs.length + 2 ≤ 65536) : (bus.pushed sp w).Holds (sp - 2) (w.low :: w.high :: bs) := by
  have next : sp - 2 + 1 = sp - 1 := by grind
  have above : sp - 2 + 1 + 1 = sp := by grind
  refine ⟨?_, ?_, ?_⟩
  · simp [pushed]
  · rw [next]
    simp [pushed]
  · rw [above]
    exact held.pushed (clear_above room)

theorem holds_pushedAll {bs : List Byte} (held : bus.Holds sp bs)
    (room : bs.length + 2 * ws.length ≤ 65536) :
    (bus.pushedAll sp ws).Holds (sp - .ofNat 16 (2 * ws.length)) (wordBytes ws.reverse ++ bs) := by
  induction ws generalizing bus sp bs with
  | nil => simpa [pushedAll, wordBytes] using held
  | cons w ws ih =>
    rw [List.length_cons] at room
    have rest := ih (holds_pushed w held (by omega)) (by simp only [List.length_cons]; omega)
    rw [List.length_cons, Nat.mul_succ, sub_ofNat_add]
    simpa [wordBytes, pushedAll] using rest

theorem peek_pushedAll {x : Word} (apart : ∀ k < 2 * ws.length, x ≠ sp - .ofNat 16 (k + 1)) :
    (bus.pushedAll sp ws).peek x = bus.peek x := by
  induction ws generalizing bus sp with
  | nil => rfl
  | cons w ws ih =>
    rw [List.length_cons] at apart
    have rest : ∀ k < 2 * ws.length, x ≠ sp - 2 - .ofNat 16 (k + 1) := by
      intro k hk
      rw [← sub_ofNat_add]
      exact apart (k + 2) (by omega)
    have other : x ∉ [sp - 1, sp - 2] := by
      simp only [List.mem_cons, List.not_mem_nil, or_false, not_or]
      exact ⟨apart 0 (by omega), apart 1 (by omega)⟩
    rw [pushedAll, ih rest, peek_pushed bus sp w other]

end FlatBus

theorem Pushing.storeAll_eq (s : Cpu × FlatBus) (stores : List (Pushing × Word)) :
    (storeAll s stores).1.regs.sp = s.1.regs.sp - .ofNat 16 (2 * stores.length) ∧
    (storeAll s stores).2 = s.2.pushedAll s.1.regs.sp (stores.map Prod.snd) := by
  induction stores generalizing s with
  | nil => simp [storeAll, FlatBus.pushedAll]
  | cons p stores ih =>
    obtain ⟨sp, bus⟩ := ih (p.1.store s p.2)
    rw [sp_store, ← sub_ofNat_add] at sp
    rw [sp_store, bus_store] at bus
    exact ⟨sp, bus⟩

/-- What lies above SP is popped from there up, and stays where it is. -/
theorem Popping.takeAll_eq {s : Cpu × FlatBus} {takes : List Popping} {ws : List Word}
    (held : s.2.Holds s.1.regs.sp (wordBytes ws)) (count : takes.length = ws.length) :
    (takeAll takes s).1 = ws ∧
    (takeAll takes s).2.1.regs.sp = s.1.regs.sp + .ofNat 16 (2 * ws.length) ∧
    (takeAll takes s).2.2 = s.2 := by
  induction takes generalizing s ws with
  | nil =>
    obtain rfl := List.length_eq_zero_iff.mp count.symm
    simp [takeAll]
  | cons how takes ih =>
    cases ws with
    | nil => contradiction
    | cons w ws =>
      obtain ⟨low, high, rest⟩ := held
      have word : s.2.peekWord s.1.regs.sp = w := by
        rw [FlatBus.peekWord, low, high, Word.ofBytes_high_low]
      have above : s.1.regs.sp + 2 = s.1.regs.sp + 1 + 1 := by grind
      have lies : (how.take s).2.2.Holds (how.take s).2.1.regs.sp (wordBytes ws) := by
        rw [bus_take, sp_take, above]
        exact rest
      obtain ⟨words, sp, bus⟩ := ih lies (Nat.succ.inj count)
      rw [takeAll_cons]
      refine ⟨?_, ?_, ?_⟩
      · rw [words, word_take, word]
      · rw [sp, sp_take, List.length_cons, Nat.mul_succ, add_ofNat_add]
      · rw [bus, bus_take]

/-- Words pushed in any ways and popped in any ways come back the last one first, with SP as it
was. Meanwhile they lie from the lowered SP up, of each the low byte first, and no other byte has
changed. -/
theorem stack_last_in_first_out (c : Cpu) (bus : FlatBus) (stores : List (Pushing × Word))
    (takes : List Popping) (room : stores.length ≤ 32768) (count : takes.length = stores.length) :
    let words := stores.map Prod.snd
    let full := Pushing.storeAll (c, bus) stores
    let (taken, last) := Popping.takeAll takes full
    taken = words.reverse ∧ last.1.regs.sp = c.regs.sp ∧ last.2 = full.2 ∧
    full.2.Holds full.1.regs.sp (wordBytes words.reverse) ∧
    ∀ x, (∀ k < 2 * stores.length, x ≠ c.regs.sp - .ofNat 16 (k + 1)) →
      full.2.peek x = bus.peek x := by
  intro words full
  have size : words.length = stores.length := List.length_map Prod.snd
  obtain ⟨lowered, pushed⟩ : full.1.regs.sp = c.regs.sp - .ofNat 16 (2 * stores.length) ∧
      full.2 = bus.pushedAll c.regs.sp words := Pushing.storeAll_eq (c, bus) stores
  have held : full.2.Holds full.1.regs.sp (wordBytes words.reverse) := by
    have above : bus.Holds c.regs.sp [] := trivial
    have fits : ([] : List Byte).length + 2 * words.length ≤ 65536 := by
      rw [List.length_nil, size]
      omega
    have lies := FlatBus.holds_pushedAll above fits
    rwa [List.append_nil, size, ← lowered, ← pushed] at lies
  have back : takes.length = words.reverse.length := by rw [List.length_reverse, size, count]
  obtain ⟨taken, restored, kept⟩ := Popping.takeAll_eq held back
  refine ⟨taken, ?_, kept, held, fun x apart => ?_⟩
  · rw [restored, lowered, List.length_reverse, size, BitVec.sub_add_cancel]
  · rw [pushed]
    exact FlatBus.peek_pushedAll (size ▸ apart)

theorem stack_last_in_first_out_wrapped :
    let c : Cpu := { regs := { Registers.powerOn with sp := 3 } }
    let full := Pushing.storeAll (c, .empty)
      [(.delayed, 0x1234), (.plain, 0x5678), (.untimed, 0x9ABC)]
    let (taken, last) := Popping.takeAll [.forced, .plain, .forced] full
    taken = [0x9ABC, 0x5678, 0x1234] ∧ last.1.regs.sp = 3 ∧
      full.2.Holds full.1.regs.sp [0xBC, 0x9A, 0x78, 0x56, 0x34, 0x12] ∧ full.2.peek 3 = 0 := by
  intro c full
  obtain ⟨taken, restored, -, held, kept⟩ := stack_last_in_first_out c .empty
    [(.delayed, 0x1234), (.plain, 0x5678), (.untimed, 0x9ABC)] [.forced, .plain, .forced]
    (by decide) rfl
  have bytes : wordBytes [0x9ABC, 0x5678, 0x1234] = [0xBC, 0x9A, 0x78, 0x56, 0x34, 0x12] := by
    decide
  refine ⟨taken, restored, ?_, kept 3 (by decide)⟩
  rw [← bytes]
  exact held

end Z80
