import Z80.Exec.Fetch
import Z80.Bus.Flat

/-! An instruction as it is spelled, byte by byte, wherever the bytes come from: index prefixes
in any number, then an opcode of one of the three tables. Bytes spell one instruction at most,
and none only if all of them are prefixes. -/
namespace Z80

theorem Word.add_ofNat_succ (a : Word) (n : Nat) :
    a + .ofNat 16 (n + 1) = a + 1 + .ofNat 16 n := by
  rw [BitVec.ofNat_add, BitVec.add_comm (.ofNat 16 n), ← BitVec.add_assoc]
  rfl

namespace Bus

section

variable {β : Type} [Bus β]

/-- What reads from `a` upwards give, one after another. -/
def stream (bus : β) (a : Word) : Nat → Byte
  | 0 => (read bus a).1
  | n + 1 => stream (read bus a).2 (a + 1) n

def past (bus : β) (a : Word) : Nat → β
  | 0 => bus
  | n + 1 => past (read bus a).2 (a + 1) n

theorem past_add (bus : β) (a : Word) (m n : Nat) :
    past bus a (m + n) = past (past bus a m) (a + .ofNat 16 m) n := by
  induction m generalizing bus a with
  | zero => rw [Nat.zero_add, past, BitVec.add_zero]
  | succ m ih => rw [Nat.succ_add, past, ih, past, Word.add_ofNat_succ]

theorem stream_past (bus : β) (a : Word) (m n : Nat) :
    stream (past bus a m) (a + .ofNat 16 m) n = stream bus a (m + n) := by
  induction m generalizing bus a with
  | zero => rw [Nat.zero_add, past, BitVec.add_zero]
  | succ m ih => rw [Nat.succ_add, past, Word.add_ofNat_succ, ih, stream]

end

variable (bus : FlatBus) (a : Word)

theorem stream_flat (n : Nat) : stream bus a n = bus.peek (a + .ofNat 16 n) := by
  induction n generalizing a with
  | zero =>
    rw [BitVec.add_zero]
    rfl
  | succ n ih =>
    rw [Word.add_ofNat_succ]
    exact ih (a + 1)

theorem past_flat (n : Nat) : past bus a n = bus := by
  induction n generalizing a with
  | zero => rfl
  | succ n ih => exact ih (a + 1)

theorem exists_stream (x : Word) : ∃ k, k < 65536 ∧ stream bus a k = bus.peek x := by
  refine ⟨(x - a).toNat, (x - a).isLt, ?_⟩
  rw [stream_flat, BitVec.ofNat_toNat, BitVec.setWidth_eq, BitVec.add_comm, BitVec.sub_add_cancel]

end Bus

def followed (op : Byte) (f : Nat → Byte) : Nat → Byte
  | 0 => op
  | n + 1 => f n

theorem Bus.stream_eq_followed {β : Type} [Bus β] (bus : β) (a : Word) :
    stream bus a = followed (read bus a).1 (stream (read bus a).2 (a + 1)) := by
  funext k
  cases k <;> rfl

namespace Opcode

def isIndex (op : Byte) : Prop := op = 0xDD ∨ op = 0xFD

instance : DecidablePred isIndex := fun _ => inferInstanceAs (Decidable (_ ∨ _))

def indexOf (op : Byte) : Option Index :=
  if op = 0xDD then some .ix else if op = 0xFD then some .iy else none

/-- The index register that counts behind `n` prefixes, with `i` before them. -/
def lastIndex (i : Option Index) (f : Nat → Byte) : Nat → Option Index
  | 0 => i
  | n + 1 => indexOf (f n)

theorem isSome_indexOf {op : Byte} (index : isIndex op) : (indexOf op).isSome = true := by
  rcases index with rfl | rfl <;> rfl

theorem isSome_lastIndex {i : Option Index} {f : Nat → Byte} {n : Nat}
    (chain : ∀ k < n, isIndex (f k)) :
    (lastIndex i f n).isSome = (i.isSome || decide (0 < n)) := by
  cases n with
  | zero => simp [lastIndex]
  | succ n => simpa [lastIndex] using isSome_indexOf (chain n n.lt_succ_self)

end Opcode

inductive Table where
  | main | bits | extended
  deriving DecidableEq

namespace Table

/-- The opcode `op`, behind the byte that leads to its table. The displacement of an indexed bit
operation comes before its opcode. -/
def Spells (t : Table) (op : Byte) (indexed : Bool) (f : Nat → Byte) : Prop :=
  match t with
  | main => f 0 = op ∧ op ∉ [0xCB, 0xDD, 0xED, 0xFD]
  | bits => f 0 = 0xCB ∧ f (if indexed then 2 else 1) = op
  | extended => f 0 = 0xED ∧ f 1 = op

def instr (t : Table) (op : Byte) (i : Option Index) (d : Byte) : Instr :=
  match t, i with
  | main, i => match Opcode.decode i op with
    | .instr x => x
    | _ => .nop
  | bits, none => Opcode.decodeBits op
  | bits, some i => Opcode.decodeIndexedBits i d op
  | extended, _ => Opcode.decodeExtended op

def rest (t : Table) (indexed : Bool) : Nat :=
  match t with
  | main => 0
  | bits => if indexed then 2 else 1
  | extended => 1

def refreshes (t : Table) (indexed : Bool) : Nat :=
  match t with
  | main => 0
  | bits => if indexed then 0 else 1
  | extended => 1

def delays (t : Table) (indexed : Bool) : List Delay :=
  match t with
  | main => []
  | bits => if indexed then [.memOp, .memOp, .m1] else [.memOp, .m1]
  | extended => [.memOp, .m1]

theorem Spells.holds {t : Table} {op : Byte} {indexed : Bool} {f : Nat → Byte}
    (h : t.Spells op indexed f) : t = main → op ∉ [0xCB, 0xDD, 0xED, 0xFD] := by
  rintro rfl
  exact h.2

end Table

theorem Opcode.decode_main (i : Option Index) (d op : Byte)
    (h : op ∉ [0xCB, 0xDD, 0xED, 0xFD]) :
    decode i op = .instr (Table.main.instr op i d) := by
  have hx : decode i op matches .instr _ := by
    revert op
    rcases i with _ | _ | _ <;> decide +kernel
  unfold Table.instr
  cases hd : decode i op <;> simp_all

theorem Opcode.main_of_decode {i : Option Index} {op : Byte} {x : Instr}
    (code : decode i op = .instr x) : op ∉ [0xCB, 0xDD, 0xED, 0xFD] := by
  intro leads
  have other : ¬(decode i op matches .instr _) := by
    clear code
    revert op
    rcases i with _ | _ | _ <;> decide +kernel
  simp [code] at other

def chainDelays (n : Nat) : List Delay := (List.replicate n [.memOp, .m1]).flatten

/-- An instruction up to its last opcode. What more there is of it are operands. -/
structure Encoding where
  chain : Nat
  table : Table
  op : Byte
  deriving DecidableEq

namespace Encoding

structure Spells (e : Encoding) (f : Nat → Byte) : Prop where
  chain : ∀ k < e.chain, Opcode.isIndex (f k)
  last : e.table.Spells e.op (0 < e.chain) fun k => f (e.chain + k)

variable (e : Encoding)

def size : Nat := e.chain + 1 + e.table.rest (0 < e.chain)

def opcodes : Nat :=
  match e.table with
  | .main => e.chain + 1
  | .bits | .extended => e.chain + 2

def refreshes : Nat :=
  match e.table with
  | .main => e.chain + 1
  | .bits => if 0 < e.chain then e.chain + 1 else e.chain + 2
  | .extended => e.chain + 2

def delays : List Delay := .memOp :: .m1 :: (chainDelays e.chain ++ e.table.delays (0 < e.chain))

def index (f : Nat → Byte) : Option Index := Opcode.lastIndex none f e.chain

/-- The instruction, as `f` spells it. Only behind a prefix and CB is there a displacement. -/
def instr (f : Nat → Byte) : Instr := e.table.instr e.op (e.index f) (f (e.chain + 1))

def leading : (limit : Nat) → (Nat → Byte) → Nat
  | 0, _ => 0
  | n + 1, f => if Opcode.isIndex (f 0) then leading n (fun k => f (k + 1)) + 1 else 0

/-- What the bytes spell. -/
def ofBytes (f : Nat → Byte) : Encoding :=
  let n := leading Exec.chainLimit f
  if f n = 0xCB then ⟨n, .bits, f (if 0 < n then n + 2 else n + 1)⟩
  else if f n = 0xED then ⟨n, .extended, f (n + 1)⟩
  else ⟨n, .main, f n⟩

theorem refreshes_eq : e.refreshes = 1 + (e.chain + e.table.refreshes (0 < e.chain)) := by
  rw [← Nat.add_assoc, Nat.add_comm 1]
  obtain ⟨n, t, op⟩ := e
  cases t with
  | bits => cases n <;> rfl
  | _ => rfl

theorem size_sub_one : e.size - 1 = 0 + (e.chain + e.table.rest (0 < e.chain)) := by
  unfold size
  omega

variable {e} {f g : Nat → Byte} {n k : Nat}

theorem isIndex_of_lt_leading (h : k < leading n f) : Opcode.isIndex (f k) := by
  induction n generalizing f k with
  | zero => exact absurd h k.not_lt_zero
  | succ n ih =>
    unfold leading at h
    split at h
    next index =>
      cases k with
      | zero => exact index
      | succ k => exact ih (f := fun m => f (m + 1)) (Nat.lt_of_succ_lt_succ h)
    next => exact absurd h k.not_lt_zero

theorem leading_le : leading n f ≤ n := by
  induction n generalizing f with
  | zero => exact Nat.le_refl 0
  | succ n ih =>
    unfold leading
    split
    · exact Nat.succ_le_succ ih
    · exact Nat.zero_le _

theorem eq_leading {m : Nat} (chain : ∀ k < m, Opcode.isIndex (f k))
    (last : ¬Opcode.isIndex (f m)) (hm : m ≤ n) : leading n f = m := by
  induction n generalizing f m with
  | zero => exact (Nat.le_zero.mp hm).symm
  | succ n ih =>
    unfold leading
    cases m with
    | zero => rw [if_neg last]
    | succ m =>
      rw [if_pos (chain 0 m.succ_pos)]
      congr 1
      exact ih (fun k hk => chain (k + 1) (Nat.succ_lt_succ hk)) last (Nat.le_of_succ_le_succ hm)

theorem leading_ends (hk : k ≤ n) (other : ¬Opcode.isIndex (f k)) :
    ¬Opcode.isIndex (f (leading n f)) := by
  induction n generalizing f k with
  | zero =>
    obtain rfl := Nat.le_zero.mp hk
    exact other
  | succ n ih =>
    unfold leading
    split
    next index =>
      cases k with
      | zero => contradiction
      | succ k => exact ih (f := fun k => f (k + 1)) (Nat.le_of_succ_le_succ hk) other
    next here => exact here

theorem spells_ofBytes (last : ¬Opcode.isIndex (f (leading Exec.chainLimit f))) :
    (ofBytes f).Spells f ∧ (ofBytes f).chain ≤ Exec.chainLimit := by
  have chain : ∀ k < leading Exec.chainLimit f, Opcode.isIndex (f k) := fun _ =>
    isIndex_of_lt_leading
  have short : leading Exec.chainLimit f ≤ Exec.chainLimit := leading_le
  unfold ofBytes
  dsimp only
  split
  next bits =>
    refine ⟨⟨chain, bits, ?_⟩, short⟩
    by_cases h : 0 < leading Exec.chainLimit f <;> simp [h]
  next =>
    split
    next extended => exact ⟨⟨chain, extended, rfl⟩, short⟩
    next =>
      refine ⟨⟨chain, rfl, ?_⟩, short⟩
      simp_all [Opcode.isIndex]

theorem Spells.not_isIndex (h : e.Spells f) : ¬Opcode.isIndex (f e.chain) := by
  obtain ⟨n, t, op⟩ := e
  have last := h.last
  cases t with
  | main =>
    have lead : f n = op := last.1
    have other := last.2
    simp_all [Opcode.isIndex]
  | bits | extended =>
    have lead : f n = _ := last.1
    rw [lead]
    decide

theorem Spells.eq_ofBytes (h : e.Spells f) (short : e.chain ≤ Exec.chainLimit) :
    e = ofBytes f := by
  have chain := eq_leading h.chain h.not_isIndex short
  obtain ⟨n, t, op⟩ := e
  have last := h.last
  unfold ofBytes
  rw [chain]
  cases t with
  | main =>
    have lead : f n = op := last.1
    have other := last.2
    simp_all
  | bits =>
    have lead : f n = 0xCB := last.1
    have code : f (n + if 0 < n then 2 else 1) = op := by simpa using last.2
    by_cases hn : 0 < n <;> simp_all
  | extended =>
    have lead : f n = 0xED := last.1
    have code : f (n + 1) = op := last.2
    simp_all

/-- Through memory a chain cannot go right round. -/
theorem Spells.short {bus : FlatBus} {a : Word} (h : e.Spells (Bus.stream bus a)) :
    e.chain < Exec.chainLimit := by
  apply Nat.lt_of_not_le
  intro long
  have round : BitVec.ofNat 16 (e.chain - 65536) = .ofNat 16 e.chain := by
    apply BitVec.eq_of_toNat_eq
    simp only [BitVec.toNat_ofNat]
    unfold Exec.chainLimit at long
    omega
  have index := h.chain (e.chain - 65536) (by unfold Exec.chainLimit at long; omega)
  rw [Bus.stream_flat, round, ← Bus.stream_flat] at index
  exact h.not_isIndex index

/-- Only the bytes up to the last opcode count. -/
theorem Spells.congr (h : e.Spells f) (same : ∀ k < e.size, g k = f k) :
    e.Spells g ∧ e.instr g = e.instr f := by
  obtain ⟨n, t, op⟩ := e
  have chain (k : Nat) (hk : k < n) : g k = f k := same k (by simp only [size]; omega)
  have lead : g n = f n := same n (by simp only [size]; omega)
  have index : (Encoding.mk n t op).index g = (Encoding.mk n t op).index f := by
    cases n with
    | zero => rfl
    | succ n => exact congrArg Opcode.indexOf (chain n n.lt_succ_self)
  have last := h.last
  refine ⟨⟨fun k hk => ?_, ?_⟩, ?_⟩
  · rw [chain k hk]
    exact h.chain k hk
  · cases t with
    | main => exact ⟨lead.trans last.1, last.2⟩
    | extended =>
      have behind : g (n + 1) = f (n + 1) := same _ (by simp [size, Table.rest])
      exact ⟨lead.trans last.1, behind.trans last.2⟩
    | bits =>
      refine ⟨lead.trans last.1, (same _ ?_).trans last.2⟩
      by_cases hn : 0 < n <;> simp [size, Table.rest, hn]
  · unfold instr
    rw [index]
    cases t with
    | main | extended => rfl
    | bits =>
      cases n with
      | zero => rfl
      | succ n =>
        have displacement : g (n + 2) = f (n + 2) := same _ (by simp [size, Table.rest])
        exact congrArg _ displacement

theorem instr_main {i : Option Index} {op : Byte} {x : Instr}
    (code : Opcode.decode i op = .instr x) (last : index ⟨n, .main, op⟩ f = i) :
    instr ⟨n, .main, op⟩ f = x := by
  have main := Opcode.decode_main i (f (n + 1)) op (Opcode.main_of_decode code)
  rw [instr, last]
  exact Opcode.instr.inj (main.symm.trans code)

end Encoding

end Z80
