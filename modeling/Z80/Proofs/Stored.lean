import Mathlib.Data.List.Induction
import Z80.Proofs.Operation
import Z80.Proofs.Prefixes
import Z80.Proofs.Service

/-! A word through memory. Every instruction that stores a pair at an address from the instruction
stream does the same with a word, and every one that loads a pair from there does the opposite;
so a pair is copied to another by way of memory, whichever encodings name the two. -/
namespace Z80

namespace FlatBus

variable {bus : FlatBus} {a w x : Word}

def pokeWord (bus : FlatBus) (a w : Word) : FlatBus := (bus.poke a w.low).poke (a + 1) w.high

theorem peek_pokeWord (apart : x ∉ [a, a + 1]) : (bus.pokeWord a w).peek x = bus.peek x := by
  simp only [List.mem_cons, List.not_mem_nil, or_false, not_or] at apart
  rw [pokeWord, peek_poke, if_neg apart.2, peek_poke, if_neg apart.1]

theorem peekWord_pokeWord : (bus.pokeWord a w).peekWord a = w := by
  have other : a ≠ a + 1 := by bv_omega
  rw [peekWord, pokeWord, peek_poke, if_pos rfl, peek_poke, if_neg other, peek_poke, if_pos rfl,
    Word.ofBytes_high_low]

end FlatBus

/-- How `LD (nn),rr` and `LD rr,(nn)` are encoded. -/
structure WordForm where
  chain : List Index
  /-- The pair field of the extended opcode, before which prefixes do not count. Without it the
  pair is HL, or what the last prefix puts in its place. -/
  field : Option (BitVec 2)

namespace WordForm

variable (e : WordForm) (loads : Bool)

def pair : Reg16 := e.field.elim (.hlUnder e.chain.getLast?) (.ofField none)

def instr : Instr := if loads then .loadPair e.pair else .storePair e.pair

def op : Byte :=
  match e.field with
  | none => if loads then 0x2A else 0x22
  | some p => 1#2 ++ p ++ (if loads then 0xB#4 else 0x3#4)

def opcodes : List Byte :=
  e.chain.map Index.code ++
    match e.field with
    | none => [e.op loads]
    | some _ => [0xED, e.op loads]

def bytes (nn : Word) : List Byte := e.opcodes loads ++ [nn.low, nn.high]

def encoding : Encoding where
  chain := e.chain.length
  table := if e.field.isSome then .extended else .main
  op := e.op loads

theorem pair_ne_af : e.pair ≠ .af := by
  obtain ⟨chain, _ | p⟩ := e
  · change Reg16.hlUnder _ ≠ .af
    rcases chain.getLast? with _ | _ | _ <;> decide
  · change Reg16.ofField none p ≠ .af
    revert p
    decide

theorem exists_pair {x : Reg16} (other : x ≠ .af) : ∃ e : WordForm, e.pair = x := by
  cases x with
  | bc => exact ⟨⟨[], some 0⟩, rfl⟩
  | de => exact ⟨⟨[], some 1⟩, rfl⟩
  | hl => exact ⟨⟨[], none⟩, rfl⟩
  | sp => exact ⟨⟨[], some 3⟩, rfl⟩
  | af => contradiction
  | ix => exact ⟨⟨[.ix], none⟩, rfl⟩
  | iy => exact ⟨⟨[.iy], none⟩, rfl⟩

theorem size_encoding : (e.encoding loads).size = (e.opcodes loads).length := by
  obtain ⟨chain, _ | p⟩ := e <;> simp [encoding, opcodes, Encoding.size, Table.rest]

theorem refreshes_encoding : (e.encoding loads).refreshes = (e.opcodes loads).length := by
  obtain ⟨chain, _ | p⟩ := e <;> simp [encoding, opcodes, Encoding.refreshes]

theorem indexOf_code (i : Index) : Opcode.indexOf i.code = some i := by
  cases i <;> rfl

theorem lastIndex_code {f : Nat → Byte} {chain : List Index}
    (codes : ∀ k, (h : k < chain.length) → f k = chain[k].code) :
    Opcode.lastIndex none f chain.length = chain.getLast? := by
  induction chain using List.reverseRecOn with
  | nil => rfl
  | append_singleton init i =>
    have last : f init.length = i.code := by simpa using codes init.length (by simp)
    rw [List.length_append, List.length_singleton, Opcode.lastIndex, last, indexOf_code,
      List.getLast?_concat]

theorem no_lead : (if loads then 0x2A else 0x22 : Byte) ∉ [0xCB, 0xDD, 0xED, 0xFD] := by
  revert loads
  decide

theorem decode_op (i : Option Index) :
    Opcode.decode i (if loads then 0x2A else 0x22) =
      .instr (if loads then .loadPair (.hlUnder i) else .storePair (.hlUnder i)) := by
  cases loads <;> rfl

theorem decodeExtended_op (p : BitVec 2) :
    Opcode.decodeExtended (1#2 ++ p ++ (if loads then 0xB#4 else 0x3#4)) =
      if loads then .loadPair (.ofField none p) else .storePair (.ofField none p) := by
  revert loads p
  decide

variable {e loads}

theorem instr_encoding {f : Nat → Byte} (last : (e.encoding loads).index f = e.chain.getLast?) :
    (e.encoding loads).instr f = e.instr loads := by
  obtain ⟨chain, _ | p⟩ := e
  · have code := Opcode.decode_main chain.getLast? (f (chain.length + 1)) _ (no_lead loads)
    rw [decode_op] at code
    rw [Encoding.instr, last]
    exact (Opcode.instr.inj code).symm
  · exact decodeExtended_op loads p

theorem getD_opcodes {k : Nat} (h : k < e.chain.length) :
    (e.opcodes loads).getD k 0 = e.chain[k].code := by
  rw [opcodes, List.getD, List.getElem?_append_left (by simpa using h)]
  simp [h]

theorem spells_opcodes : (e.encoding loads).Spells ((e.opcodes loads).getD · 0) where
  chain k hk := by
    rw [getD_opcodes hk]
    exact Opcode.isIndex_code _
  last := by
    obtain ⟨chain, _ | p⟩ := e
    · have lead : (opcodes ⟨chain, none⟩ loads).getD chain.length 0 = op ⟨chain, none⟩ loads := by
        simp [opcodes]
      exact ⟨lead, no_lead loads⟩
    · constructor <;> simp [opcodes, encoding]

theorem nextInstruction_held {bus : FlatBus} {regs : Registers}
    (held : bus.Holds regs.pc (e.opcodes loads)) :
    ∃ s : Core FlatBus,
      (Exec.nextInstruction : Exec FlatBus _) { regs, bus } = (some (e.instr loads), s) ∧
      s.regs = regs.past (.ofNat 16 (e.opcodes loads).length) (.ofNat 8 (e.opcodes loads).length) ∧
      s.bus = bus := by
  have here (k : Nat) (hk : k < (e.encoding loads).size) :
      Bus.stream bus regs.pc k = (e.opcodes loads).getD k 0 := by
    rw [size_encoding] at hk
    exact Bus.stream_held held hk
  have short := (spells_opcodes.congr here).1.short
  have last : (e.encoding loads).index ((e.opcodes loads).getD · 0) = e.chain.getLast? :=
    lastIndex_code fun k => getD_opcodes
  have fetched := Exec.nextInstruction_congr (s := { regs, bus }) spells_opcodes
    (Nat.le_of_lt short) here
  rw [instr_encoding last, size_encoding, refreshes_encoding] at fetched
  exact ⟨_, fetched, rfl, Bus.past_flat ..⟩

end WordForm

namespace Exec

variable {β : Type} [Bus β]

def storeWord (w : Word) : Exec β Unit := do
  let address ← fetchWord
  writeWord address w
  setSH (address + 1)

def loadWord : Exec β Word := do
  let address ← fetchWord
  let w ← readWord address
  setSH (address + 1)
  return w

variable {s : Core FlatBus} {nn : Word} (held : s.bus.Holds s.regs.pc [nn.low, nn.high])

include held

theorem fetchWord_held :
    fetchWord s =
      (nn,
        { s with
          regs := { s.regs with pc := s.regs.pc + 2 }
          charges := [.memOp, .memOp] ++ s.charges }) := by
  have two : s.regs.pc + 1 + 1 = s.regs.pc + 2 := BitVec.add_assoc ..
  rw [← held.peekWord, ← two]
  rfl

theorem storeWord_held (w : Word) :
    storeWord w s =
      ((),
        { regs := { s.regs with pc := s.regs.pc + 2, sh := nn + 1 }
          bus := s.bus.pokeWord nn w
          charges := [.mem, .mem, .memOp, .memOp] ++ s.charges }) := by
  rw [storeWord, bind_apply, fetchWord_held held]
  rfl

theorem loadWord_held :
    loadWord s =
      (s.bus.peekWord nn,
        { s with
          regs := { s.regs with pc := s.regs.pc + 2, sh := nn + 1 }
          charges := [.mem, .mem, .memOp, .memOp] ++ s.charges }) := by
  rw [loadWord, bind_apply, fetchWord_held held]
  rfl

end Exec

namespace Instr

variable {β : Type} [Bus β] (pins : Pins) (x : Reg16) (s : Core β)

theorem exec_storePair : (storePair x).exec pins s = Exec.storeWord (s.regs.get x) s := rfl

theorem exec_loadPair :
    (loadPair x).exec pins s =
      Exec.change (·.set x (Exec.loadWord s).1) (Exec.loadWord s).2 := rfl

end Instr

def Registers.beyond (r : Registers) (n : Nat) (nn : Word) : Registers :=
  { r with pc := r.pc + .ofNat 16 n + 2, r := r.r + .ofNat 8 n, sh := nn + 1 }

/-- The word at `nn` reaches none of the `n` bytes from `a` on. -/
def Misses (nn a : Word) (n : Nat) : Prop := ∀ k < n, a + .ofNat 16 k ∉ [nn, nn + 1]

instance (nn a : Word) (n : Nat) : Decidable (Misses nn a n) :=
  inferInstanceAs (Decidable (∀ k < n, _))

theorem FlatBus.Holds.pokeWord {bus : FlatBus} {nn a w : Word} {bytes : List Byte}
    (held : bus.Holds a bytes) (apart : Misses nn a bytes.length) :
    (bus.pokeWord nn w).Holds a bytes :=
  held.congr fun k hk => peek_pokeWord (apart k hk)

structure FlatBus.Copies (bus : FlatBus) (a nn : Word) (src dst : WordForm) : Prop where
  stores : bus.Holds a (src.bytes false nn)
  loads : bus.Holds (a + .ofNat 16 (src.bytes false nn).length) (dst.bytes true nn)
  apart : Misses nn (a + .ofNat 16 (src.bytes false nn).length) (dst.bytes true nn).length

/-- `src` has been copied to `dst` by way of `nn`. -/
structure Copied (nn : Word) (src dst : WordForm) (before between after : Registers) : Prop where
  stored : between = before.beyond (src.opcodes false).length nn
  loaded : after =
    (between.set dst.pair (before.get src.pair)).beyond (dst.opcodes true).length nn
  latch : between.sh = nn + 1 ∧ after.sh = nn + 1
  target : after.get dst.pair = before.get src.pair
  rest : ∀ x, x ≠ dst.pair → after.get x = before.get x
  flags : after.flags = before.flags

theorem Registers.get_beyond (r : Registers) (n : Nat) (nn : Word) (x : Reg16) :
    (r.beyond n nn).get x = r.get x := by
  cases x <;> rfl

theorem Copied.of_regs {nn : Word} {src dst : WordForm} {before between after : Registers}
    (stored : between = before.beyond (src.opcodes false).length nn)
    (loaded : after =
      (between.set dst.pair (before.get src.pair)).beyond (dst.opcodes true).length nn) :
    Copied nn src dst before between after := by
  have target : after.get dst.pair = before.get src.pair := by
    rw [loaded, Registers.get_beyond, Registers.get_set, if_pos rfl]
  have rest (x : Reg16) (other : x ≠ dst.pair) : after.get x = before.get x := by
    rw [loaded, Registers.get_beyond, Registers.get_set, if_neg other, stored,
      Registers.get_beyond]
  have latch : between.sh = nn + 1 ∧ after.sh = nn + 1 := by
    rw [loaded, stored]
    exact ⟨rfl, rfl⟩
  have af : after.af = before.af := rest .af dst.pair_ne_af.symm
  exact ⟨stored, loaded, latch, target, rest, congrArg (fun af : Word => Flags.ofByte af.low) af⟩

namespace Cpu

open Exec

variable {c : Cpu} {bus : FlatBus} {e src dst : WordForm} {nn : Word}

theorem next_of_fetched {i : Instr} {s : Core FlatBus}
    (fetched : (nextInstruction : Exec FlatBus _) { regs := c.regs, bus } = (some i, s))
    (plain : i.reschedules = false) :
    c.next bus = some (c.settle (i.exec c.pins s).2, (i.exec c.pins s).2.bus) := by
  have found : c.found bus nextInstruction = some i := congrArg Prod.fst fetched
  rw [next_of_found found, plain, ranCore, fetched]
  rfl

theorem next_store (held : bus.Holds c.regs.pc (e.bytes false nn)) :
    ∃ s : Core FlatBus, c.next bus = some (c.settle s, s.bus) ∧
      s.regs = c.regs.beyond (e.opcodes false).length nn ∧
      s.bus = bus.pokeWord nn (c.regs.get e.pair) := by
  obtain ⟨opcodes, address⟩ := FlatBus.holds_append.mp held
  obtain ⟨start, fetched, regs, rfl⟩ := WordForm.nextInstruction_held opcodes
  have address : start.bus.Holds start.regs.pc [nn.low, nn.high] := by
    rw [regs]
    exact address
  refine ⟨_, next_of_fetched fetched rfl, ?_⟩
  rw [WordForm.instr, if_neg Bool.false_ne_true, Instr.exec_storePair, storeWord_held address,
    regs, Registers.get_past]
  exact ⟨rfl, rfl⟩

theorem next_load (held : bus.Holds c.regs.pc (e.bytes true nn)) :
    ∃ s : Core FlatBus, c.next bus = some (c.settle s, s.bus) ∧
      s.regs = (c.regs.set e.pair (bus.peekWord nn)).beyond (e.opcodes true).length nn ∧
      s.bus = bus := by
  obtain ⟨opcodes, address⟩ := FlatBus.holds_append.mp held
  obtain ⟨start, fetched, regs, rfl⟩ := WordForm.nextInstruction_held opcodes
  have address : start.bus.Holds start.regs.pc [nn.low, nn.high] := by
    rw [regs]
    exact address
  refine ⟨_, next_of_fetched fetched rfl, ?_⟩
  rw [WordForm.instr, if_pos rfl, Instr.exec_loadPair, loadWord_held address, regs]
  refine ⟨?_, rfl⟩
  cases e.pair <;> rfl

/-- The two instructions one after the other, the second by a processor that has its registers
from the first. -/
theorem next_copy (copies : bus.Copies c.regs.pc nn src dst) :
    let after := bus.pokeWord nn (c.regs.get src.pair)
    ∃ s : Core FlatBus, c.next bus = some (c.settle s, after) ∧
      ∀ d : Cpu, d.regs = s.regs → ∃ t : Core FlatBus, d.next after = some (d.settle t, after) ∧
        Copied nn src dst c.regs s.regs t.regs := by
  intro after
  obtain ⟨s, stored, between, bus'⟩ := next_store copies.stores
  rw [bus'] at stored
  refine ⟨s, stored, ?_⟩
  intro d same
  have pc : d.regs.pc = c.regs.pc + .ofNat 16 (src.bytes false nn).length := by
    rw [same, between, WordForm.bytes, List.length_append, BitVec.ofNat_add, ← BitVec.add_assoc]
    rfl
  have held : after.Holds d.regs.pc (dst.bytes true nn) := by
    rw [pc]
    exact copies.loads.pokeWord copies.apart
  obtain ⟨t, loaded, last, bus''⟩ := next_load held
  rw [bus''] at loaded
  rw [FlatBus.peekWord_pokeWord, same] at last
  exact ⟨t, loaded, .of_regs between last⟩

theorem step_copy (quiet : c.eligible = false) (copies : bus.Copies c.regs.pc nn src dst) :
    let after := bus.pokeWord nn (c.regs.get src.pair)
    ∃ d e, c.step bus = some (d, after) ∧ d.step after = some (e, after) ∧
      Copied nn src dst c.shut.regs d.regs e.regs := by
  intro after
  obtain ⟨s, first, second⟩ := next_copy (c := c.shut) copies
  -- between the two the horizon is drawn anew, which leaves the registers as they are
  let d := (c.shut.settle s).refresh
  obtain ⟨t, last, copied⟩ := second d rfl
  have pair : c.shut.regs.get src.pair = c.regs.get src.pair := by cases src.pair <;> rfl
  rw [pair] at first last
  have quiet' : d.eligible = false := by
    have iff1 : s.regs.iff1 = c.regs.iff1 := by
      rw [copied.stored]
      rfl
    change c.pins.eligible s.regs.iff1 = false
    rw [iff1]
    exact quiet
  have shut : d.shut = d := by
    apply shut_eq_self
    change s.regs.eiMode = false
    rw [copied.stored]
    rfl
  refine ⟨d, (d.settle t).refresh, ?_, ?_, copied⟩
  · rw [step_of_running (running_of_quiet quiet), first]
    rfl
  · rw [step_of_running (running_of_quiet quiet'), shut, last]
    rfl

end Cpu

/-- A word that has been stored is loaded again, whatever came between that left the bus alone, and
nothing but its two bytes has changed. So the two instructions, one after the other, copy a pair in
all of their forms, and these are there for every pair but AF. -/
theorem word_comes_back (bus : FlatBus) (nn : Word) :
    (∀ (w : Word) (s t : Core FlatBus), s.bus = bus → bus.Holds s.regs.pc [nn.low, nn.high] →
      let stored := (Exec.storeWord w s).2
      t.bus = stored.bus → bus.Holds t.regs.pc [nn.low, nn.high] → Misses nn t.regs.pc 2 →
      let (loaded, last) := Exec.loadWord t
      loaded = w ∧ stored.regs.sh = nn + 1 ∧ last.regs.sh = nn + 1 ∧
        stored.bus = bus.pokeWord nn w ∧ last.bus = stored.bus) ∧
    (∀ w, (∀ x ∉ [nn, nn + 1], (bus.pokeWord nn w).peek x = bus.peek x) ∧
      (bus.pokeWord nn w).ports = bus.ports ∧ (bus.pokeWord nn w).outputs = bus.outputs) ∧
    (∀ (c : Cpu) (src dst : WordForm), bus.Copies c.regs.pc nn src dst →
      let after := bus.pokeWord nn (c.regs.get src.pair)
      (∃ d e, c.next bus = some (d, after) ∧ d.next after = some (e, after) ∧
        Copied nn src dst c.regs d.regs e.regs) ∧
      (c.eligible = false → ∃ d e, c.step bus = some (d, after) ∧ d.step after = some (e, after) ∧
        Copied nn src dst c.shut.regs d.regs e.regs)) ∧
    ∀ x, (∃ e : WordForm, e.pair = x) ↔ x ≠ .af := by
  refine ⟨?_, fun w => ⟨fun x apart => FlatBus.peek_pokeWord apart, rfl, rfl⟩, ?_, ?_⟩
  · rintro w s t rfl held
    rw [Exec.storeWord_held held]
    intro stored same held' apart
    have there : t.bus.Holds t.regs.pc [nn.low, nn.high] := by
      rw [same]
      exact held'.pokeWord apart
    have loaded : t.bus.peekWord nn = w := by
      rw [same]
      exact FlatBus.peekWord_pokeWord
    rw [Exec.loadWord_held there]
    exact ⟨loaded, rfl, rfl, rfl, same⟩
  · intro c src dst copies after
    obtain ⟨s, first, second⟩ := Cpu.next_copy copies
    obtain ⟨t, last, copied⟩ := second (c.settle s) rfl
    exact ⟨⟨_, _, first, last, copied⟩, fun quiet => Cpu.step_copy quiet copies⟩
  · intro x
    constructor
    · rintro ⟨e, rfl⟩
      exact e.pair_ne_af
    · exact WordForm.exists_pair

theorem word_comes_back_wrapped :
    let c : Cpu := { regs := { Registers.powerOn with pc := 0x100, ix := 0x1234 } }
    let bus := FlatBus.empty.load 0x100 [0xDD, 0x22, 0xFF, 0xFF, 0xFD, 0xED, 0x4B, 0xFF, 0xFF]
    let stored := (Exec.storeWord 0xABCD { regs := { c.regs with pc := 0x102 }, bus }).2
    (Exec.loadWord { stored with regs := { stored.regs with pc := 0x107 } }).1 = 0xABCD ∧
    (∃ d e after, c.next bus = some (d, after) ∧ d.next after = some (e, after) ∧
      e.regs.bc = 0x1234 ∧ after.peek 0xFFFF = 0x34 ∧ after.peek 0 = 0x12) ∧
    ∃ d e after, c.step bus = some (d, after) ∧ d.step after = some (e, after) ∧
      e.regs.bc = 0x1234 ∧ e.regs.sh = 0 := by
  intro c bus stored
  let src : WordForm := ⟨[.ix], none⟩
  let dst : WordForm := ⟨[.iy], some 0⟩
  have copies : bus.Copies c.regs.pc 0xFFFF src dst := by
    refine ⟨⟨?_, ?_, ?_, ?_, trivial⟩, ⟨?_, ?_, ?_, ?_, ?_, trivial⟩, ?_⟩
    all_goals decide +kernel
  have operand : bus.Holds 0x102 [0xFF, 0xFF] := ⟨by decide +kernel, by decide +kernel, trivial⟩
  have operand' : bus.Holds 0x107 [0xFF, 0xFF] := ⟨by decide +kernel, by decide +kernel, trivial⟩
  obtain ⟨words, -, copy, -⟩ := word_comes_back bus 0xFFFF
  let behind : Core FlatBus := { stored with regs := { stored.regs with pc := 0x107 } }
  have kept : behind.bus = stored.bus := rfl
  obtain ⟨back, -⟩ := words 0xABCD { regs := { c.regs with pc := 0x102 }, bus } behind rfl operand
    kept operand' (by decide)
  obtain ⟨⟨d, e, first, second, copied⟩, steps⟩ := copy c src dst copies
  obtain ⟨d', e', first', second', copied'⟩ := steps (by decide)
  exact ⟨back,
    ⟨d, e, _, first, second, copied.target, by decide +kernel, by decide +kernel⟩,
    d', e', _, first', second', copied'.target, copied'.latch.2⟩

end Z80
