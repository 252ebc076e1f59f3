import Z80.Proofs.Blind
import Z80.Proofs.Listed
import Z80.Proofs.Play

/-! Undocumented state confined. Of two processors that differ in nothing else, whatever is done
to both, each does what the other does until one pushes AF; and then they write bytes that
differ in bits 3 and 5. -/
namespace Z80

variable {β : Type}

def Registers.documented (r : Registers) : Registers := Veil.regs ⟨0, 0, 0⟩ r

/-- What the undocumented places hold. -/
def Veil.ofRegs (r : Registers) : Veil := ⟨r.sh, r.af.low, r.shadow.af.low⟩

namespace Veil

variable (v : Veil)

theorem regs_regs (w : Veil) (r : Registers) : w.regs (v.regs r) = w.regs r := by
  simp only [regs, Word.copyXY_copyXY]

theorem regs_ofRegs (r : Registers) : (ofRegs r).regs r = r := by
  simp only [regs, ofRegs, Word.copyXY_low]

def cpu (c : Cpu) : Cpu := { c with regs := v.regs c.regs }

theorem low_af_regs (r : Registers) : (v.regs r).af.low &&& 0xD7 = r.af.low &&& 0xD7 := by
  have bits : ∀ (b : Byte) (y x : Bool),
      Flags.toByte { Flags.ofByte b with y, x } &&& 0xD7 = b &&& 0xD7 := by
    decide +kernel
  change (r.af.copyXY v.f).low &&& 0xD7 = _
  rw [Word.copyXY, Word.low_withLow]
  exact bits r.af.low _ _

end Veil

namespace Cpu

def documented (c : Cpu) : Cpu := { c with regs := c.regs.documented }

theorem documented_cpu (v : Veil) (c : Cpu) : (v.cpu c).documented = c.documented :=
  congrArg (fun regs => { c with regs }) (v.regs_regs _ c.regs)

theorem cpu_ofRegs (v : Veil) (c : Cpu) : (Veil.ofRegs c.regs).cpu (v.cpu c) = c := by
  have regs : (Veil.ofRegs c.regs).regs (v.regs c.regs) = c.regs :=
    (v.regs_regs _ c.regs).trans (Veil.regs_ofRegs c.regs)
  exact congrArg (fun regs => { c with regs }) regs

theorem exists_veil {c c' : Cpu} (same : c.documented = c'.documented) :
    ∃ v : Veil, c' = v.cpu c := by
  refine ⟨.ofRegs c'.regs, ?_⟩
  have lifted := congrArg (Veil.ofRegs c'.regs).cpu same
  have left : (Veil.ofRegs c'.regs).cpu c.documented = (Veil.ofRegs c'.regs).cpu c :=
    congrArg (fun regs => { c with regs }) (Veil.regs_regs _ _ c.regs)
  rw [left] at lifted
  rw [lifted]
  exact (cpu_ofRegs ⟨0, 0, 0⟩ c').symm

end Cpu

theorem Opcode.Listed.push_of_readsAF {j : Option Index} {x : Instr} (listed : Listed j x)
    (reads : x.readsAF = true) : x = .push .af := by
  have good : (!x.readsAF || decide (x = .push .af)) = true := by
    refine listed.good (fun x => !x.readsAF || decide (x = .push .af)) ?_ ?_ ?_ ?_
    · rcases j with _ | _ | _ <;> decide +kernel
    · decide +kernel
    · intro i d op
      unfold decodeIndexedBits
      cases updateOf op <;> rfl
    · decide +kernel
  simpa [reads] using good

namespace Cpu

open Exec

variable [Bus β] {c : Cpu} {bus : β} {e : Effect β}

theorem ranCore_cpu {v w : Veil} {find : Exec β (Option Instr)} (i : Instr)
    (moved : find (v.core { regs := c.regs, bus }) =
      ((find { regs := c.regs, bus }).1, w.core (find { regs := c.regs, bus }).2)) :
    (v.cpu c).ranCore bus find i = (i.exec c.pins (w.core (find { regs := c.regs, bus }).2)).2 :=
  congrArg (fun s : Option Instr × Core β => (i.exec c.pins s.2).2) moved

/-- Under another veil the same instruction is run, or the same service routine entered. -/
theorem arises_cpu (v : Veil) (h : Arises c bus e) : ∃ core, Arises (v.cpu c) bus { e with core } ∧
    ((∃ w : Veil, core = w.core e.core) ∧ (∀ i, .executed i ∉ e.marks) ∨
      ∃ (i : Instr) (pins : Pins) (s : Core β) (w : Veil),
        (∀ j, .executed j ∈ e.marks ↔ j = i) ∧ e.core = (i.exec pins s).2 ∧
          core = (i.exec pins (w.core s)).2) := by
  cases h with
  | instruction i running found =>
    obtain ⟨w, moved⟩ := Blind.nextInstruction v { regs := c.shut.regs, bus }
    refine ⟨_, .instruction i running ((congrArg Prod.fst moved).trans found), .inr ?_⟩
    exact ⟨i, _, _, w, by simp, rfl, ranCore_cpu (c := c.shut) i moved⟩
  | nmi served edge =>
    obtain ⟨w, moved⟩ := Blind.serveNmi v { regs := c.regs, bus }
    exact ⟨_, .nmi served edge, .inl ⟨⟨w, congrArg Prod.snd moved⟩, by simp⟩⟩
  | supplied i served maskable mode found =>
    obtain ⟨w, moved⟩ := Blind.supply c.pins.data v { regs := c.released.regs, bus }
    refine ⟨_, .supplied i served maskable mode ((congrArg Prod.fst moved).trans found), .inr ?_⟩
    exact ⟨i, _, _, w, by simp, rfl, ranCore_cpu (c := c.released) i moved⟩
  | restart served maskable mode =>
    obtain ⟨w, moved⟩ := Blind.supply 0xFF v { regs := c.disabled.regs, bus }
    refine ⟨_, .restart served maskable mode, .inr ?_⟩
    exact ⟨.rst 7, _, _, w, by simp, rfl, ranCore_cpu (c := c.disabled) (.rst 7) moved⟩
  | vector served maskable zero one =>
    obtain ⟨w, moved⟩ := Blind.serveVector (.ofBytes c.regs.i c.pins.data) v
      { regs := c.disabled.regs, bus }
    exact ⟨_, .vector served maskable zero one, .inl ⟨⟨w, congrArg Prod.snd moved⟩, by simp⟩⟩

theorem effect_cpu (v : Veil) (h : c.effect bus = some e)
    (quiet : .executed (.push .af) ∉ e.marks) :
    ∃ w : Veil, (v.cpu c).effect bus = some { e with core := w.core e.core } := by
  obtain ⟨core, arises, ⟨⟨w, rfl⟩, -⟩ | ⟨i, pins, s, w, executed, ran, rfl⟩⟩ :=
    arises_cpu v (arises_of_effect h)
  · exact ⟨w, effect_of_arises arises⟩
  · have executed := (executed i).mpr rfl
    cases reads : i.readsAF with
    | true =>
      obtain rfl : i = .push .af := (listed_of_effect h executed).push_of_readsAF reads
      contradiction
    | false =>
      obtain ⟨u, moved⟩ := Instr.exec_blind reads w s
      rw [moved, ← ran] at arises
      exact ⟨u, effect_of_arises arises⟩

/-- A push writes its flag byte last, and only there do the two buses part. -/
theorem effect_cpu_push (v : Veil) (h : c.effect bus = some e)
    (pushes : .executed (.push .af) ∈ e.marks) : ∃ (w : Veil) (before : β) (f f' : Byte),
    (v.cpu c).effect bus = some { e with
      core := w.core { e.core with bus := Bus.write before e.core.regs.sp f' } } ∧
    e.core.bus = Bus.write before e.core.regs.sp f ∧ f &&& 0xD7 = f' &&& 0xD7 := by
  obtain ⟨core, arises, ⟨-, none⟩ | ⟨i, pins, s, w, executed, ran, rfl⟩⟩ :=
    arises_cpu v (arises_of_effect h)
  · exact absurd pushes (none _)
  · obtain rfl := (executed _).mp pushes
    let before := Bus.write s.bus (s.regs.sp - 1) s.regs.af.high
    refine ⟨w, before, s.regs.af.low, (w.regs s.regs).af.low, ?_, ?_, (w.low_af_regs s.regs).symm⟩
    · have high : (w.core s).regs.af.high = s.regs.af.high := Word.high_copyXY _ _
      have pushed (s : Core β) : (Instr.exec pins (.push .af) s).2 =
          ⟨{ s.regs with sp := s.regs.sp - 2 },
            Bus.write (Bus.write s.bus (s.regs.sp - 1) s.regs.af.high) (s.regs.sp - 2)
              s.regs.af.low, .mem :: .mem :: .push :: s.charges⟩ := rfl
      rw [effect_of_arises arises, ran, pushed, pushed, high]
      rfl
    · rw [ran]
      rfl

theorem effect_cpu_endless (v : Veil) (h : c.effect bus = none) : (v.cpu c).effect bus = none := by
  cases he : (v.cpu c).effect bus with
  | none => rfl
  | some e =>
    obtain ⟨core, back, -⟩ := arises_cpu (.ofRegs c.regs) (arises_of_effect he)
    rw [cpu_ofRegs] at back
    rw [effect_of_arises back] at h
    contradiction

omit [Bus β] in
theorem settled_cpu (v w : Veil) (c : Cpu) (e : Effect β) :
    (v.cpu c).settled { e with core := w.core e.core } =
      (w.cpu (c.settled e).1, (c.settled e).2) := rfl

omit [Bus β] in
theorem refresh_cpu (v : Veil) (c : Cpu) : (v.cpu c).refresh = v.cpu c.refresh := by
  unfold refresh due eligible
  rfl

omit [Bus β] in
theorem control_cpu (v : Veil) (c : Cpu) (k : Control) :
    ∃ w : Veil, (v.cpu c).control k = w.cpu (c.control k) := by
  cases k with
  | resetAt t =>
    refine ⟨.ofRegs (c.resetAt t).regs, ?_⟩
    exact congrArg (fun regs => { c.resetAt t with regs }) (Veil.regs_ofRegs _).symm
  | setNmi =>
    refine ⟨v, ?_⟩
    by_cases high : c.pins.nmi = .high
    · have veiled : (v.cpu c).pins.nmi = .high := high
      rw [control_setNmi high, control_setNmi veiled]
      exact refresh_cpu v { c with pins := { c.pins with nmi := .edge } }
    · have veiled : (v.cpu c).pins.nmi ≠ .high := high
      rw [control_setNmi_eq_self high, control_setNmi_eq_self veiled]
  | setInt => exact ⟨v, refresh_cpu v { c with pins := { c.pins with int := .low } }⟩
  | clearInt => exact ⟨v, refresh_cpu v { c with pins := { c.pins with int := .high } }⟩
  | clearNmi => exact ⟨v, refresh_cpu v { c with pins := { c.pins with nmi := .high } }⟩
  | setTimeout t => exact ⟨v, refresh_cpu v { c with timeout := t }⟩
  | setData | setDataIdle | stop => exact ⟨v, rfl⟩

end Cpu

def Play.documented (p : Play β) : Play β :=
  { p with last := p.last.map fun s => (s.1.documented, s.2) }

namespace Cpu

variable [Bus β] {c : Cpu}

theorem play_cpu (v : Veil) {bus : β} {ops : List Op}
    (quiet : ∀ s ∈ (c.play bus ops).shown, .executed (.push .af) ∉ s.marks) :
    ((v.cpu c).play bus ops).documented = (c.play bus ops).documented := by
  induction ops generalizing c v bus with
  | nil =>
    change Play.mk [] (some ((v.cpu c).documented, bus)) = ⟨[], some (c.documented, bus)⟩
    rw [documented_cpu]
  | cons op ops ih =>
    cases op with
    | control k =>
      obtain ⟨w, after⟩ := control_cpu v c k
      rw [play, after]
      exact ih w quiet
    | step =>
      cases h : c.effect (⟨bus, #[]⟩ : Recorded β) with
      | none => rw [play_endless h, play_endless (effect_cpu_endless v h)]
      | some e =>
        rw [play_step h] at quiet
        obtain ⟨w, hw⟩ := effect_cpu v h (quiet _ List.mem_cons_self)
        have rest := ih w fun s hs => quiet s (List.mem_cons_of_mem _ hs)
        rw [play_step h, play_step hw, settled_cpu]
        exact congrArg (Play.cons _) rest

/-- Two processors that differ in undocumented state alone do the same, whatever is done to both,
as long as no PUSH AF is run: the steps show the same, and all that is documented stays the same.
A PUSH AF leaves them so too, but writes flag bytes that can differ in bits 3 and 5. -/
theorem undocumented_confined (c c' : Cpu) (same : c.documented = c'.documented) (bus : β) :
    (∀ ops, (∀ s ∈ (c.play bus ops).shown, .executed (.push .af) ∉ s.marks) →
      (c.play bus ops).documented = (c'.play bus ops).documented) ∧
    ∀ d bus₁, c.step bus = some (d, bus₁) → .executed (.push .af) ∈ c.marks bus →
      ∃ d' bus₂ before f f', c'.step bus = some (d', bus₂) ∧ d.documented = d'.documented ∧
        bus₁ = Bus.write before d.regs.sp f ∧ bus₂ = Bus.write before d.regs.sp f' ∧
        f &&& 0xD7 = f' &&& 0xD7 := by
  obtain ⟨v, rfl⟩ := exists_veil same
  refine ⟨fun ops quiet => (play_cpu v quiet).symm, fun d bus₁ hs pushes => ?_⟩
  obtain ⟨e, he, rfl, rfl⟩ := effect_of_step hs
  rw [marks_of_effect he] at pushes
  obtain ⟨w, before, f, f', after, written, bits⟩ := effect_cpu_push v he pushes
  refine ⟨w.cpu (c.settled e).1, _, before, f, f', ?_, ?_, written, rfl, bits⟩
  · rw [step_eq_effect, after]
    rfl
  · exact (documented_cpu w _).symm

theorem undocumented_confined_push :
    let c : Cpu := .ofTiming .z80
    let c' : Cpu := { c with regs := { c.regs with sh := 0, af := 0xFFD7 } }
    let bit := FlatBus.empty.load 0 [0xCB, 0x46]
    let push := FlatBus.empty.load 0 [0xF5]
    c.documented = c'.documented ∧
    (c.play bit [.step]).documented = (c'.play bit [.step]).documented ∧
    ∃ d d' bus₁ bus₂, c.step push = some (d, bus₁) ∧ c'.step push = some (d', bus₂) ∧
      d.documented = d'.documented ∧ bus₁.peek 0xFFFD = 0xFF ∧ bus₂.peek 0xFFFD = 0xD7 := by
  intro c c' bit push
  have same : c.documented = c'.documented := by decide +kernel
  have quiet : ∀ s ∈ (c.play bit [.step]).shown, .executed (.push .af) ∉ s.marks := by
    decide +kernel
  have pushes : .executed (.push .af) ∈ c.marks push := by decide +kernel
  have top : ((c.step push).any fun s => s.2.peek 0xFFFD == 0xFF) = true := by decide +kernel
  have top' : ((c'.step push).any fun s => s.2.peek 0xFFFD == 0xD7) = true := by decide +kernel
  simp only [Option.any_eq_true, beq_iff_eq] at top top'
  obtain ⟨⟨d, bus₁⟩, hs, flags⟩ := top
  obtain ⟨s', hs', flags'⟩ := top'
  obtain ⟨d', bus₂, -, -, -, after, alike, -, -, -⟩ :=
    (undocumented_confined c c' same push).2 d bus₁ hs pushes
  obtain rfl : s' = (d', bus₂) := Option.some.inj (hs'.symm.trans after)
  exact ⟨same, (undocumented_confined c c' same bit).1 _ quiet, d, d', bus₁, bus₂, hs, after,
    alike, flags, flags'⟩

end Cpu

end Z80
