import Z80.Bus.Flat
import Z80.Proofs.Effect

/-! One service for each edge. A falling edge arms the input, an acknowledge spends it, and only
when the line has been let go can it fall again; so along a log of all that was done to the
processor, edges and services take turns. -/
namespace Z80

variable {β : Type}

inductive Entry where
  | asked (line : NmiLine) (k : Cpu.Control)
  | stepped (line : NmiLine) (marks : List Mark)
  deriving DecidableEq

/-- What it was to the line: it fell, an acknowledge spent its edge, it was let go, or nothing. -/
inductive Deed where
  | arms | serves | frees | other
  deriving DecidableEq

def Cpu.Control.deed (line : NmiLine) : Cpu.Control → Deed
  | .setNmi => if line = .high then .arms else .other
  | .clearNmi | .resetAt _ => .frees
  | _ => .other

def Mark.isNmi : Mark → Bool
  | nmi _ => true
  | _ => false

namespace Entry

def line : Entry → NmiLine
  | asked line _ | stepped line _ => line

def deed : Entry → Deed
  | asked line k => k.deed line
  | stepped _ marks => if marks.any Mark.isNmi then .serves else .other

def leaves (x : Entry) : NmiLine :=
  match x.deed with
  | .arms => .edge
  | .serves => .low
  | .frees => .high
  | .other => x.line

theorem deed_asked_ne (line : NmiLine) (k : Cpu.Control) : (asked line k).deed ≠ .serves := by
  cases k with
  | setNmi =>
    change (if line = .high then Deed.arms else .other) ≠ _
    split <;> decide
  | _ => exact Deed.noConfusion

theorem line_of_arms {x : Entry} (h : x.deed = .arms) : x.line = .high := by
  cases x with
  | asked line k =>
    cases k with
    | setNmi =>
      by_cases high : line = .high
      · exact high
      · rw [deed, Cpu.Control.deed, if_neg high] at h
        contradiction
    | _ => contradiction
  | stepped line marks =>
    change (if _ then Deed.serves else .other) = _ at h
    split at h <;> contradiction

end Entry

def Rearmed (l : List Entry) : Prop :=
  ∃ r a : Entry, [r, a].Sublist l ∧ r.deed = .frees ∧ a.deed = .arms

theorem Rearmed.concat {l : List Entry} (h : Rearmed l) (x : Entry) : Rearmed (l ++ [x]) := by
  obtain ⟨r, a, sub, frees, arms⟩ := h
  exact ⟨r, a, sub.trans (List.sublist_append_left l [x]), frees, arms⟩

/-- What has been done since a service, with the line as it stands now. -/
structure Since (line : NmiLine) (l : List Entry) : Prop where
  freed : line = .high → ∃ r ∈ l, r.deed = .frees
  rearmed : line = .edge → Rearmed l
  spaced : ∀ mid x, mid ++ [x] <+: l → x.deed = .serves → Rearmed mid

namespace Since

theorem start : Since .low [] where
  freed h := by contradiction
  rearmed h := by contradiction
  spaced mid x h _ := by simp at h

variable {line : NmiLine} {l : List Entry} {x : Entry}

theorem spaced_concat (h : Since line l) (edge : x.deed = .serves → line = .edge) :
    ∀ mid y, mid ++ [y] <+: l ++ [x] → y.deed = .serves → Rearmed mid := by
  intro mid y pre serves
  obtain whole | pre := List.prefix_concat_iff.mp pre
  · obtain ⟨rfl, last⟩ := List.append_inj' whole rfl
    obtain rfl := List.singleton_inj.mp last
    exact h.rearmed (edge serves)
  · exact h.spaced mid y pre serves

theorem concat (h : Since line l) (found : x.line = line)
    (edge : x.deed = .serves → line = .edge) : Since x.leaves (l ++ [x]) := by
  have spaced := h.spaced_concat edge
  unfold Entry.leaves
  cases hd : x.deed with
  | arms =>
    -- Only a high line can fall, so it has been let go since the service.
    refine ⟨fun high => by contradiction, fun _ => ?_, spaced⟩
    obtain ⟨r, hr, frees⟩ := h.freed (found ▸ Entry.line_of_arms hd)
    refine ⟨r, x, ?_, frees, hd⟩
    exact (List.singleton_sublist.mpr hr).append (List.Sublist.refl [x])
  | serves => exact ⟨fun high => by contradiction, fun low => by contradiction, spaced⟩
  | frees => exact ⟨fun _ => ⟨x, by simp, hd⟩, fun low => by contradiction, spaced⟩
  | other =>
    refine ⟨fun high => ?_, fun low => ?_, spaced⟩
    · obtain ⟨r, hr, frees⟩ := h.freed (found ▸ high)
      exact ⟨r, List.mem_append_left _ hr, frees⟩
    · exact (h.rearmed (found ▸ low)).concat x

end Since

/-- What a log says of the line on which it ends. -/
structure Ledger (line : NmiLine) (log : List Entry) : Prop where
  served : log.countP (·.deed = .serves) + (if line = .edge then 1 else 0) ≤
    log.countP (·.deed = .arms)
  edge : ∀ x ∈ log, x.deed = .serves → x.line = .edge
  since : ∀ first l, first :: l <:+ log → first.deed = .serves → Since line l

namespace Ledger

variable {line : NmiLine} {log : List Entry} {x : Entry}

theorem served_concat (h : Ledger line log) (found : x.line = line)
    (edge : x.deed = .serves → line = .edge) :
    (log ++ [x]).countP (·.deed = .serves) + (if x.leaves = .edge then 1 else 0) ≤
      (log ++ [x]).countP (·.deed = .arms) := by
  have served := h.served
  rw [List.countP_append, List.countP_append, List.countP_singleton, List.countP_singleton]
  unfold Entry.leaves
  cases hd : x.deed with
  | arms =>
    have high : line = .high := found ▸ Entry.line_of_arms hd
    simpa [high] using served
  | serves => simpa [edge hd] using served
  | frees =>
    have bound : log.countP (·.deed = .serves) ≤ log.countP (·.deed = .arms) := by omega
    simpa using bound
  | other => simpa [found] using served

theorem since_concat (h : Ledger line log) (found : x.line = line)
    (edge : x.deed = .serves → line = .edge) :
    ∀ first l, first :: l <:+ log ++ [x] → first.deed = .serves → Since x.leaves l := by
  intro first l suffix serves
  obtain none | ⟨t, whole, older⟩ := List.suffix_concat_iff.mp suffix
  · contradiction
  · cases t with
    | nil =>
      obtain ⟨rfl, rfl⟩ : first = x ∧ l = [] := by simpa using whole
      have low : first.leaves = .low := by
        unfold Entry.leaves
        rw [serves]
      rw [low]
      exact Since.start
    | cons y t =>
      obtain ⟨rfl, rfl⟩ : first = y ∧ l = t ++ [x] := by simpa using whole
      have since := h.since first t older serves
      exact since.concat found edge

theorem concat (h : Ledger line log) (found : x.line = line)
    (edge : x.deed = .serves → line = .edge) : Ledger x.leaves (log ++ [x]) where
  served := h.served_concat found edge
  edge y hy serves := by
    obtain old | new := List.mem_append.mp hy
    · exact h.edge y old serves
    · obtain rfl := List.mem_singleton.mp new
      exact found.trans (edge serves)
  since := h.since_concat found edge

end Ledger

namespace Cpu

/-- All that has been done to a processor since power-on, over any memory. -/
inductive Logged [Bus β] : Cpu → β → List Entry → Prop
  | powerOn (t : Timing) (bus : β) : Logged (.ofTiming t) bus []
  | store {c : Cpu} {bus : β} {log : List Entry} (before : Logged c bus log) (bus' : β) :
      Logged c bus' log
  | control {c : Cpu} {bus : β} {log : List Entry} (before : Logged c bus log) (k : Control) :
      Logged (c.control k) bus (log ++ [.asked c.pins.nmi k])
  | step {c d : Cpu} {bus bus' : β} {log : List Entry} (before : Logged c bus log)
      (last : c.step bus = some (d, bus')) :
      Logged d bus' (log ++ [.stepped c.pins.nmi (c.marks bus)])

theorem leaves_of_control (c : Cpu) (k : Control) :
    (c.control k).pins.nmi = (Entry.asked c.pins.nmi k).leaves := by
  cases k with
  | setNmi =>
    by_cases high : c.pins.nmi = .high
    · rw [control_setNmi high, high]
      rfl
    · rw [control_setNmi_eq_self high, Entry.leaves, Entry.deed, Control.deed, if_neg high]
      rfl
  | _ => rfl

variable [Bus β] {c d : Cpu} {bus bus' : β} {log : List Entry}

theorem leaves_of_step (h : c.step bus = some (d, bus')) :
    d.pins.nmi = (Entry.stepped c.pins.nmi (c.marks bus)).leaves ∧
      ((Entry.stepped c.pins.nmi (c.marks bus)).deed = .serves → c.pins.nmi = .edge) := by
  obtain ⟨e, he, rfl, -⟩ := effect_of_step h
  rw [marks_of_effect he]
  cases arises_of_effect he with
  | nmi served edge => exact ⟨rfl, fun _ => edge⟩
  | _ => exact ⟨rfl, fun serves => by contradiction⟩

theorem ledger_of_logged (hl : Logged c bus log) : Ledger c.pins.nmi log := by
  induction hl with
  | powerOn t bus =>
    refine ⟨Nat.le_refl 0, by simp, fun first l suffix => ?_⟩
    simp at suffix
  | store before bus' ih => exact ih
  | control before k ih =>
    rw [leaves_of_control]
    exact ih.concat rfl fun serves => absurd serves (Entry.deed_asked_ne _ k)
  | step before last ih =>
    obtain ⟨line, edge⟩ := leaves_of_step last
    rw [line]
    exact ih.concat rfl edge

/-- There are no more services than edges. Between two of them the line is let go and falls
again; each finds an edge; and a request does nothing on a line that is not high. -/
theorem one_service_per_edge (hl : Logged c bus log) :
    log.countP (·.deed = .serves) ≤ log.countP (·.deed = .arms) ∧
    (∀ first mid last, first :: mid ++ [last] <:+: log → first.deed = .serves →
      last.deed = .serves → Rearmed mid) ∧
    (∀ x ∈ log, x.deed = .serves → x.line = .edge) ∧
    (c.pins.nmi ≠ .high → c.control .setNmi = c) := by
  have ledger := ledger_of_logged hl
  refine ⟨?_, ?_, ledger.edge, control_setNmi_eq_self⟩
  · exact Nat.le_trans (Nat.le_add_right _ _) ledger.served
  · rintro first mid last ⟨before, after, rfl⟩ serves again
    have suffix : first :: (mid ++ [last] ++ after) <:+
        before ++ (first :: mid ++ [last]) ++ after := ⟨before, by simp⟩
    exact (ledger.since first _ suffix serves).spaced mid last (List.prefix_append _ _) again

theorem one_service_per_edge_twice : ∃ (c : Cpu) (bus : FlatBus) (log : List Entry),
    Logged c bus log ∧ log.countP (·.deed = .serves) = 2 ∧ 2 ≤ log.countP (·.deed = .arms) := by
  let armed : Cpu := (ofTiming .z80).control .setNmi
  have runs : ((armed.step FlatBus.empty).any fun s₁ =>
      let rearmed := (s₁.1.control .clearNmi).control .setNmi
      (rearmed.step s₁.2).any fun _ =>
        (armed.marks FlatBus.empty).any Mark.isNmi && (rearmed.marks s₁.2).any Mark.isNmi) =
      true := by
    decide +kernel
  simp only [Option.any_eq_true, Bool.and_eq_true] at runs
  obtain ⟨s₁, h₁, s₂, h₂, served, again⟩ := runs
  have before := (((Logged.powerOn .z80 FlatBus.empty).control .setNmi).step h₁).control .clearNmi
  have logged := (before.control .setNmi).step h₂
  have serves (line : NmiLine) {marks : List Mark} (h : marks.any Mark.isNmi = true) :
      (Entry.stepped line marks).deed = .serves := if_pos h
  have concluded {log : List Entry} (logged : Logged s₂.1 s₂.2 log)
      (twice : log.countP (·.deed = .serves) = 2) : 2 ≤ log.countP (·.deed = .arms) := by
    rw [← twice]
    exact (one_service_per_edge logged).1
  refine ⟨_, _, _, logged, ?twice, concluded logged ?twice⟩
  simp only [armed] at served
  simp [serves _ served, serves _ again, Entry.deed_asked_ne]

end Cpu

end Z80
