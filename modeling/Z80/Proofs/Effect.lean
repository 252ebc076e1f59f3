import Z80.Proofs.Ran
import Z80.Proofs.Spelled

/-! A step apart from its clock. It runs the instruction at PC, or it acknowledges an interrupt
in one of four ways, two of which run an instruction as well. Registers, inputs and bus alone
settle that; then the clock moves on by the delays met on the way and the horizon is drawn anew. -/
namespace Z80

variable {β : Type}

/-- A non-maskable acknowledge is noted with the second enable as it found it. -/
inductive Mark where
  | reset
  | nmi (saved : Bool)
  | int
  | executed (i : Instr)
  deriving DecidableEq

/-- What a step comes to, before its time is counted. -/
structure Effect (β : Type) where
  marks : List Mark
  pins : Pins
  core : Core β

variable [Bus β]

open Exec

namespace Cpu

def effectOf (c : Cpu) (bus : β) (find : Exec β (Option Instr)) (marks : List Mark) :
    Option (Effect β) :=
  (c.found bus find).map fun i => ⟨marks ++ [.executed i], c.pins, c.ranCore bus find i⟩

def effect (c : Cpu) (bus : β) : Option (Effect β) :=
  match c.decision with
  | .acknowledge =>
    if c.pins.nmi = .edge then
      some
        { marks := [.nmi c.regs.iff2]
          pins := { c.pins with nmi := .low }
          core := (serveNmi { regs := c.regs, bus }).2 }
    else if c.regs.im = 0 then c.released.effectOf bus (supply c.pins.data) [.int]
    else if c.regs.im = 1 then c.disabled.effectOf bus (supply 0xFF) [.int]
    else
      some
        { marks := [.int]
          pins := c.pins.release
          core := (serveVector (.ofBytes c.regs.i c.pins.data) { regs := c.disabled.regs, bus }).2 }
  | _ => c.shut.effectOf bus nextInstruction []

omit [Bus β] in
def settled (c : Cpu) (e : Effect β) : Cpu × β :=
  (({ c with pins := e.pins }.settle e.core).refresh, e.core.bus)

def marks (c : Cpu) (bus : β) : List Mark := (c.effect bus).elim [] Effect.marks

variable {c d : Cpu} {bus bus' : β} {e : Effect β}

theorem marks_of_effect (h : c.effect bus = some e) : c.marks bus = e.marks := by
  rw [marks, h]
  rfl

omit [Bus β] in
theorem shut_eq_self (h : c.regs.eiMode = false) : c.shut = c := by
  unfold shut
  rw [← h]

omit [Bus β] in
theorem shut_of_instruction (h : c.decision = .instruction) : c.shut = c := by
  apply shut_eq_self
  unfold decision at h
  split at h <;> simp_all

theorem step_of_running (running : c.decision ≠ .acknowledge) :
    c.step bus = (c.shut.next bus).map refreshed := by
  unfold step
  cases hd : c.decision with
  | afterEI => rfl
  | acknowledge => contradiction
  | instruction => rw [shut_of_instruction hd]

theorem found_supply_rst (c : Cpu) (bus : β) : c.found bus (supply 0xFF) = some (.rst 7) :=
  congrArg Prod.fst (resolve_instr chainLimit rfl)

theorem run_refreshed {find : Exec β (Option Instr)} {live : Action (Clocked β) (Option Instr)}
    (same : Follows c.clocked live find) (marks : List Mark) :
    (c.run bus live).map refreshed = (c.effectOf bus find marks).map c.settled := by
  unfold effectOf
  cases hi : c.found bus find with
  | none =>
    rw [run_of_not_found same hi]
    rfl
  | some i =>
    rw [run_of_found same hi]
    cases i.reschedules <;> rfl

/-- The clock that goes along with an instruction decides nothing, so a step is its effect and the
time that this takes. -/
theorem step_eq_effect (c : Cpu) (bus : β) : c.step bus = (c.effect bus).map c.settled := by
  unfold effect
  cases hd : c.decision with
  | acknowledge =>
    have step_eq : c.step bus = c.acknowledge bus := by simp only [step, hd]
    rw [step_eq]
    unfold acknowledge acknowledgeInt acknowledgeNmi
    dsimp only
    split
    · rw [serve_eq (Follows.serveNmi (clocked_hom _))]
      rfl
    · split
      · exact run_refreshed (c.released.follows_supply c.pins.data) [.int]
      · split
        · exact run_refreshed (c.disabled.follows_supply 0xFF) [.int]
        · rw [serve_eq (Follows.serveVector (clocked_hom _) _)]
          rfl
  | _ =>
    rw [step_of_running (by simp [hd])]
    exact run_refreshed c.shut.follows_next []

theorem effect_of_step (h : c.step bus = some (d, bus')) :
    ∃ e, c.effect bus = some e ∧ d = (c.settled e).1 ∧ bus' = e.core.bus := by
  rw [step_eq_effect] at h
  obtain ⟨e, he, settled⟩ := Option.map_eq_some_iff.mp h
  exact ⟨e, he, (congrArg Prod.fst settled).symm, (congrArg Prod.snd settled).symm⟩

/-- How an effect can come about. -/
inductive Arises (c : Cpu) (bus : β) : Effect β → Prop
  | instruction (i : Instr) (running : c.decision ≠ .acknowledge)
      (found : c.shut.found bus nextInstruction = some i) :
      Arises c bus ⟨[.executed i], c.pins, c.shut.ranCore bus nextInstruction i⟩
  | nmi (served : c.decision = .acknowledge) (edge : c.pins.nmi = .edge) :
      Arises c bus
        ⟨[.nmi c.regs.iff2], { c.pins with nmi := .low }, (serveNmi { regs := c.regs, bus }).2⟩
  | supplied (i : Instr) (served : c.decision = .acknowledge) (maskable : c.pins.nmi ≠ .edge)
      (mode : c.regs.im = 0) (found : c.released.found bus (supply c.pins.data) = some i) :
      Arises c bus
        ⟨[.int, .executed i], c.pins.release, c.released.ranCore bus (supply c.pins.data) i⟩
  | restart (served : c.decision = .acknowledge) (maskable : c.pins.nmi ≠ .edge)
      (mode : c.regs.im = 1) :
      Arises c bus
        ⟨[.int, .executed (.rst 7)], c.pins, c.disabled.ranCore bus (supply 0xFF) (.rst 7)⟩
  | vector (served : c.decision = .acknowledge) (maskable : c.pins.nmi ≠ .edge)
      (zero : c.regs.im ≠ 0) (one : c.regs.im ≠ 1) :
      Arises c bus
        ⟨[.int], c.pins.release,
          (serveVector (.ofBytes c.regs.i c.pins.data) { regs := c.disabled.regs, bus }).2⟩

theorem arises_of_effect (h : c.effect bus = some e) : Arises c bus e := by
  unfold effect at h
  cases hd : c.decision with
  | acknowledge =>
    simp only [hd] at h
    split at h
    next edge =>
      cases h
      exact .nmi hd edge
    next maskable =>
      split at h
      next zero =>
        obtain ⟨i, found, rfl⟩ := Option.map_eq_some_iff.mp h
        exact .supplied i hd maskable zero found
      next zero =>
        split at h
        next one =>
          rw [effectOf, found_supply_rst] at h
          cases h
          exact .restart hd maskable one
        next one =>
          cases h
          exact .vector hd maskable zero one
  | _ =>
    simp only [hd] at h
    obtain ⟨i, found, rfl⟩ := Option.map_eq_some_iff.mp h
    exact .instruction i (by simp [hd]) found

theorem effect_of_arises (h : Arises c bus e) : c.effect bus = some e := by
  unfold effect
  cases h with
  | instruction i running found =>
    cases hd : c.decision with
    | acknowledge => contradiction
    | _ =>
      simp only [effectOf, found]
      rfl
  | nmi served edge => simp only [served, if_pos edge]
  | supplied i served maskable mode found =>
    simp only [served, if_neg maskable, if_pos mode, effectOf, found]
    rfl
  | restart served maskable mode =>
    have zero : c.regs.im ≠ 0 := by rw [mode]; decide
    simp only [served, if_neg maskable, if_neg zero, if_pos mode, effectOf, found_supply_rst]
    rfl
  | vector served maskable zero one =>
    simp only [served, if_neg maskable, if_neg zero, if_neg one]

end Cpu

end Z80
