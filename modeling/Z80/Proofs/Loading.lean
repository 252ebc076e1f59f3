import Mathlib.Data.List.Induction
import Mathlib.Data.Set.Basic
import Mathlib.Order.Bounds.Defs
import Z80.Proofs.Encoding

/-! Bytes loaded into memory. They go to one address after another and round at the top, as often
as there are bytes for, so many of them may come to one address; there the last one stays. -/
namespace Z80.FlatBus

/-- Which of `n` bytes come to `x`, if they are written from `a` upwards. -/
def places (a x : Word) (n : Nat) : Set Nat := {i | i < n ∧ (a.toNat + i) % 65536 = x.toNat}

theorem eq_add_ofNat_iff {a x : Word} {n : Nat} :
    x = a + .ofNat 16 n ↔ (a.toNat + n) % 65536 = x.toNat := by
  rw [← BitVec.toNat_inj, BitVec.toNat_add, BitVec.toNat_ofNat, Nat.add_mod_mod, eq_comm]

theorem isGreatest_places {a x : Word} {n : Nat} (here : x = a + .ofNat 16 n) :
    IsGreatest (places a x (n + 1)) n :=
  ⟨⟨n.lt_succ_self, eq_add_ofNat_iff.mp here⟩, fun _ place => Nat.le_of_lt_succ place.1⟩

theorem places_succ {a x : Word} {n : Nat} (other : x ≠ a + .ofNat 16 n) :
    places a x (n + 1) = places a x n := by
  ext i
  constructor
  · rintro ⟨le, place⟩
    refine ⟨Nat.lt_of_le_of_ne (Nat.le_of_lt_succ le) ?_, place⟩
    rintro rfl
    exact other (eq_add_ofNat_iff.mpr place)
  · rintro ⟨lt, place⟩
    exact ⟨Nat.lt_succ_of_lt lt, place⟩

variable (bus : FlatBus) (a : Word)

theorem load_append (u v : List Byte) :
    bus.load a (u ++ v) = (bus.load a u).load (a + .ofNat 16 u.length) v := by
  induction u generalizing bus a with
  | nil => rw [List.length_nil, BitVec.add_zero, List.nil_append, load]
  | cons b u ih => rw [List.cons_append, load, ih, load, List.length_cons, Word.add_ofNat_succ]

theorem load_concat (data : List Byte) (b : Byte) :
    bus.load a (data ++ [b]) = (bus.load a data).poke (a + .ofNat 16 data.length) b :=
  bus.load_append a data [b]

theorem peek_load (data : List Byte) (x : Word) :
    (∃ i, IsGreatest (places a x data.length) i ∧ data[i]? = some ((bus.load a data).peek x)) ∨
    places a x data.length = ∅ ∧ (bus.load a data).peek x = bus.peek x := by
  -- from the back, for the byte that is written last is the one that counts
  induction data using List.reverseRecOn with
  | nil =>
    have nowhere : places a x 0 = ∅ :=
      Set.eq_empty_of_forall_notMem fun i place => absurd place.1 i.not_lt_zero
    exact .inr ⟨nowhere, rfl⟩
  | append_singleton data b ih =>
    rw [load_concat, peek_poke, List.length_append, List.length_singleton]
    by_cases here : x = a + .ofNat 16 data.length
    · rw [if_pos here]
      exact .inl ⟨data.length, isGreatest_places here, List.getElem?_concat_length⟩
    · rw [if_neg here, places_succ here]
      refine ih.imp_left fun ⟨i, last, byte⟩ => ⟨i, last, ?_⟩
      rw [List.getElem?_append_left last.1.1, byte]

theorem load_keeps (data : List Byte) :
    (bus.load a data).ports = bus.ports ∧ (bus.load a data).outputs = bus.outputs := by
  induction data generalizing bus a with
  | nil => exact ⟨rfl, rfl⟩
  | cons b data ih => exact ih (bus.poke a b) (a + 1)

/-- After a load an address holds the last byte that came to it, or what it held before if none
did, and nothing else is changed. So bytes may as well be loaded in two parts. -/
theorem load_last_wins (bus : FlatBus) (a : Word) (data : List Byte) :
    (∀ x,
      (∃ i, IsGreatest (places a x data.length) i ∧
        data[i]? = some ((bus.load a data).peek x)) ∨
      places a x data.length = ∅ ∧ (bus.load a data).peek x = bus.peek x) ∧
    (bus.load a data).ports = bus.ports ∧ (bus.load a data).outputs = bus.outputs ∧
    ∀ u v, bus.load a (u ++ v) = (bus.load a u).load (a + .ofNat 16 u.length) v := by
  obtain ⟨ports, outputs⟩ := bus.load_keeps a data
  exact ⟨bus.peek_load a data, ports, outputs, bus.load_append a⟩

example : (empty.load 0xFFFF [0x11, 0x22]).peekWord 0xFFFF = 0x2211 := by decide +kernel

end Z80.FlatBus
