import Z80.Time

/-! What an instruction costs. An instruction names the delays on its path; a timing gives each
of them a length. -/
namespace Z80

inductive Delay where
  | mem | memOp | preIo | postIo
  /-- What an opcode fetch takes beyond its read. -/
  | m1
  | im | im2 | nmi
  /-- Adding a displacement while the operand after it is fetched. -/
  | parallel
  | block | add8 | add16 | bit | call | djnz | exSpHl | inc | inc16 | inout | ld | ldi | push | ret
  | rld | ldSpHl | bitIx
  deriving DecidableEq

def Delay.all : List Delay :=
  [.mem, .memOp, .preIo, .postIo, .m1, .im, .im2, .nmi, .parallel, .block, .add8, .add16,
    .bit, .call, .djnz, .exSpHl, .inc, .inc16, .inout, .ld, .ldi, .push, .ret, .rld,
    .ldSpHl, .bitIx]

theorem Delay.mem_all (d : Delay) : d ∈ all := by cases d <;> decide

structure Timing where
  cost : Delay → Ticks

namespace Timing

theorem ext {t u : Timing} (h : ∀ d, t.cost d = u.cost d) : t = u := by
  cases t; cases u; congr; funext d; exact h d

instance : DecidableEq Timing := fun t u =>
  decidable_of_iff (∀ d ∈ Delay.all, t.cost d = u.cost d)
    ⟨fun h => ext fun d => h d d.mem_all, fun h _ _ => h ▸ rfl⟩

def z80 : Timing where
  cost
    | .mem | .memOp | .postIo | .exSpHl => 3
    | .im | .block | .add8 => 5
    | .im2 => 18
    | .nmi => 10
    | .parallel | .inc16 | .ldi | .ldSpHl | .bitIx => 2
    | .add16 => 7
    | .rld => 4
    | .preIo | .m1 | .bit | .call | .djnz | .inc | .inout | .ld | .push | .ret => 1

def msx : Timing where
  cost
    | .m1 | .im => 2
    | .im2 => 19
    | .nmi => 11
    | d => z80.cost d

def set (t : Timing) (d : Delay) (n : Ticks) : Timing where
  cost e := if e = d then n else t.cost e

def opcodeFetch (t : Timing) : Ticks := t.cost .memOp + t.cost .m1

def total (t : Timing) (path : List Delay) : Ticks := path.foldr (fun d n => t.cost d + n) 0

@[simp] theorem total_nil (t : Timing) : t.total [] = 0 := rfl

@[simp] theorem total_cons (t : Timing) (d : Delay) (path : List Delay) :
    t.total (d :: path) = t.cost d + t.total path := rfl

end Timing

end Z80
