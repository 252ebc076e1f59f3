import Z80.Cpu.Query
import Z80.Proofs.Halves

/-! What queries tell of a state. The paths that have an answer are those that are listed, whatever
the state; answers about the same part of it agree; and a state that is inspected stays as it is,
so that any number of queries tell of one and the same. -/
namespace Z80

theorem Flags.ofByte_masks : ∀ b : Byte, ofByte b =
    { s := b &&& 0x80 != 0, z := b &&& 0x40 != 0, y := b &&& 0x20 != 0, h := b &&& 0x10 != 0
      x := b &&& 0x08 != 0, p := b &&& 0x04 != 0, n := b &&& 0x02 != 0, c := b &&& 0x01 != 0 } := by
  decide +kernel

namespace Cpu

variable (c : Cpu) {path : String}

theorem isSome_query (listed : path ∈ paths) : (c.query path).isSome = true := by
  have all : paths.all (fun path => (c.query path).isSome) = true := rfl
  exact List.all_eq_true.mp all path listed

theorem query_eq_none (unlisted : path ∉ paths) : c.query path = none := by
  fun_cases query c path with
  | case49 => rfl
  | _ => exact absurd (by decide) unlisted

theorem isSome_query_iff : (c.query path).isSome = true ↔ path ∈ paths := by
  constructor
  · intro answered
    by_cases listed : path ∈ paths
    · exact listed
    · rw [c.query_eq_none listed] at answered
      contradiction
  · exact c.isSome_query

def pairPaths : List (String × String × String) :=
  [("af", "a", "f"), ("bc", "b", "c"), ("de", "d", "e"), ("hl", "h", "l"),
    ("ix", "ixh", "ixl"), ("iy", "iyh", "iyl")]

theorem query_pair : ∀ p ∈ pairPaths, ∃ w : Word, c.query p.1 = some (.word w) ∧
    c.query p.2.1 = some (.byte w.high) ∧ c.query p.2.2 = some (.byte w.low) := by
  simp only [pairPaths, List.forall_mem_cons]
  exact ⟨⟨_, rfl, rfl, rfl⟩, ⟨_, rfl, rfl, rfl⟩, ⟨_, rfl, rfl, rfl⟩, ⟨_, rfl, rfl, rfl⟩,
    ⟨_, rfl, rfl, rfl⟩, ⟨_, rfl, rfl, rfl⟩, List.forall_mem_nil _⟩

def flagPaths : List (String × Byte) :=
  [("flags.s", 0x80), ("flags.z", 0x40), ("flags.y", 0x20), ("flags.h", 0x10),
    ("flags.x", 0x08), ("flags.p", 0x04), ("flags.n", 0x02), ("flags.c", 0x01)]

theorem query_flag : ∀ p ∈ flagPaths,
    c.query p.1 = some (.bool (c.regs.af.low &&& p.2 != 0)) := by
  have told : ∀ read : Flags → Bool, some (Value.bool (read c.regs.flags)) = _ := fun read =>
    congrArg (fun f => some (Value.bool (read f))) (Flags.ofByte_masks c.regs.af.low)
  simp only [flagPaths, List.forall_mem_cons]
  exact ⟨told (·.s), told (·.z), told (·.y), told (·.h), told (·.x), told (·.p), told (·.n),
    told (·.c), List.forall_mem_nil _⟩

/-- A query as the surroundings make it of the processor that they hold. -/
def inspect (path : String) : StateM Cpu (Option Value) := return (← get).query path

theorem inspect_all (asked : List String) :
    (asked.mapM inspect).run c = (asked.map c.query, c) := by
  induction asked with
  | nil => rfl
  | cons path asked ih =>
    have first : ((path :: asked).mapM inspect).run c =
        (fun r => (c.query path :: r.1, r.2)) ((asked.mapM inspect).run c) := by
      rw [List.mapM_cons]
      rfl
    rw [first, ih, List.map_cons]

/-- A query has an answer if its path is listed, and in no state otherwise. A pair is told by its
halves, a flag by the flag register and the top bit of R by what was last loaded into R. However
many queries are made, they tell of the same state and leave it alone. -/
theorem queries_coherent (c : Cpu) :
    (∀ path, (c.query path).isSome = true ↔ path ∈ paths) ∧
    (∀ p ∈ pairPaths, ∃ (pair : Word) (high low : Byte), c.query p.1 = some (.word pair) ∧
      c.query p.2.1 = some (.byte high) ∧ c.query p.2.2 = some (.byte low) ∧
      pair.toNat = 256 * high.toNat + low.toNat) ∧
    (∃ f : Byte, c.query "f" = some (.byte f) ∧
      ∀ p ∈ flagPaths, c.query p.1 = some (.bool (f &&& p.2 != 0))) ∧
    (∃ r r2 : Byte, c.query "r" = some (.byte r) ∧ c.query "r2" = some (.byte r2) ∧
      r.getLsbD 7 = r2.getLsbD 7) ∧
    ∀ asked : List String, (asked.mapM inspect).run c = (asked.map c.query, c) := by
  refine ⟨fun _ => c.isSome_query_iff, fun p hp => ?_, ⟨_, rfl, c.query_flag⟩,
    ⟨_, _, rfl, rfl, c.regs.msb_visibleR⟩, c.inspect_all⟩
  obtain ⟨pair, whole, high, low⟩ := c.query_pair p hp
  exact ⟨pair, pair.high, pair.low, whole, high, low, pair.toNat_halves⟩

theorem queries_coherent_index :
    let c : Cpu := { regs := { Registers.powerOn with ix := 0x1234 } }
    (∃ pair high low, c.query "ix" = some (.word pair) ∧ c.query "ixh" = some (.byte high) ∧
      c.query "ixl" = some (.byte low) ∧ pair.toNat = 256 * high.toNat + low.toNat) ∧
    ¬(c.query "a'").isSome = true := by
  intro c
  obtain ⟨listed, pairs, -⟩ := queries_coherent c
  exact ⟨pairs ("ix", "ixh", "ixl") (by decide), mt (listed "a'").mp (by decide)⟩

end Cpu

end Z80
