/-! Addressed storage. A store over `n` address bits is a full binary tree of depth `n`,
so there is one leaf for each address, equal contents are equal trees, and an update
shares all but one path with the store before it. -/
namespace Z80

inductive Store (α : Type) : Nat → Type where
  | leaf (value : α) : Store α 0
  | node (low high : Store α n) : Store α (n + 1)

namespace Store

def get : Store α n → BitVec n → α
  | leaf v, _ => v
  | node (n := n) low high, i => if i.msb then high.get (i.setWidth n) else low.get (i.setWidth n)

def set : Store α n → BitVec n → α → Store α n
  | leaf _, _, v => leaf v
  | node (n := n) low high, i, v =>
    if i.msb then node low (high.set (i.setWidth n) v) else node (low.set (i.setWidth n) v) high

def replicate (v : α) : (n : Nat) → Store α n
  | 0 => leaf v
  | n + 1 => let half := replicate v n; node half half

def tabulate (f : Nat → α) : (n base : Nat) → Store α n
  | 0, base => leaf (f base)
  | n + 1, base => node (tabulate f n base) (tabulate f n (base + 2 ^ n))

def ofFn (f : BitVec n → α) : Store α n := tabulate (fun i => f (.ofNat n i)) n 0

def toListAppend : Store α n → List α → List α
  | leaf v, rest => v :: rest
  | node low high, rest => low.toListAppend (high.toListAppend rest)

def toList (s : Store α n) : List α := s.toListAppend []

theorem eq_iff_msb_setWidth {i j : BitVec (n + 1)} :
    i = j ↔ i.msb = j.msb ∧ i.setWidth n = j.setWidth n := by
  refine ⟨fun h => h ▸ ⟨rfl, rfl⟩, fun ⟨hm, hl⟩ => ?_⟩
  rw [← BitVec.cons_msb_setWidth i, ← BitVec.cons_msb_setWidth j, hm, hl]

theorem get_set (s : Store α n) (i j : BitVec n) (v : α) :
    (s.set i v).get j = if j = i then v else s.get j := by
  induction s with
  | leaf w => simp [set, get, BitVec.eq_nil i, BitVec.eq_nil j]
  | node low high hl hh =>
    cases hi : i.msb <;> cases hj : j.msb <;> simp [set, get, hi, hj, hl, hh, eq_iff_msb_setWidth]

@[simp] theorem get_replicate (v : α) (i : BitVec n) : (replicate v n).get i = v := by
  induction n with
  | zero => rfl
  | succ n ih => simp [replicate, get, ih]

theorem ext {s t : Store α n} (h : ∀ i, s.get i = t.get i) : s = t := by
  induction s with
  | leaf v => cases t with | leaf w => simpa [get] using h 0
  | node low high hl hh =>
    cases t with
    | node low' high' =>
      congr
      · exact hl fun i => by simpa [get, BitVec.msb_cons] using h (.cons false i)
      · exact hh fun i => by simpa [get, BitVec.msb_cons] using h (.cons true i)

end Store

end Z80
