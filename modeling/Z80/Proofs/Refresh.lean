import Mathlib.Algebra.GroupWithZero.Nat
import Z80.Proofs.Executed
import Z80.Proofs.Reserve
import Z80.Proofs.Stepped

/-! The refresh register over whole runs. It has been loaded with A some time ago, or never, and has
counted the refreshes since then; what is read back takes its top bit from the load alone. -/
namespace Z80

variable {β : Type}

open Exec

theorem Registers.r_set (r : Registers) (x : Reg16) (w : Word) : (r.set x w).r = r.r := by
  cases x <;> rfl

theorem Exec.jumpRelative_r [Bus β] (taken : Bool) :
    Keeps Registers.r (jumpRelative taken : Exec β Unit) := by
  intro s
  cases taken <;> rfl

theorem Instr.exec_r [Bus β] {pins : Pins} {i : Instr} (h : i ≠ .ldRA) :
    Keeps Registers.r (i.exec pins : Exec β Unit) := by
  intro s
  cases i with
  | ldRA => contradiction
  | ld dst src =>
    rcases dst with x | _ | _ <;> rcases src with y | _ | _
    all_goals first | rfl | exact Registers.r_set ..
  | ldImm dst | update _ dst | alu _ dst =>
    rcases dst with x | _ | _
    all_goals first | rfl | exact Registers.r_set ..
  | updateIndexed _ _ _ copy | inC copy =>
    rcases copy with _ | x
    all_goals first | rfl | exact Registers.r_set ..
  | ldPair x | loadPair x | pop x | exStack x | incPair x | decPair x | addPair x =>
    exact Registers.r_set ..
  | jp cond | call cond =>
    simp only [exec, bind_apply]
    split <;> rfl
  | jr cond | djnz => exact jumpRelative_r ..
  | ret cond =>
    cases cond with
    | none => rfl
    | some k =>
      simp only [exec, bind_apply]
      split <;> rfl
  | block op dir repeats =>
    have round : (op.round dir s).2.regs.r = s.regs.r := by
      cases op <;> rfl
    simp only [exec, BlockOp.exec, bind_apply, ← round]
    split <;> rfl
  | halt =>
    rw [exec_halt]
    split <;> rfl
  | _ => rfl

theorem Instr.exec_refresh [Bus β] (pins : Pins) (i : Instr) (s : Core β) :
    ((i.exec pins s).2.regs.r, (i.exec pins s).2.regs.r2) =
      if i = .ldRA then (s.regs.a, s.regs.a) else (s.regs.r, s.regs.r2) := by
  split
  next load =>
    subst load
    rfl
  next other =>
    have kept : (i.exec pins s).2.regs.r2 = s.regs.r2 := by
      have reserve := congrArg Reserve.r2 (i.exec_reserve pins s)
      exact reserve.trans ((i.reserve_own s.regs).2.2.1.resolve_right other)
    rw [i.exec_r other s, kept]

theorem Instr.exec_ldAR [Bus β] (pins : Pins) (s : Core β) :
    (ldAR.exec pins s).2.regs.a = (ldAR.exec pins s).2.regs.visibleR := by
  have kept : (ldAR.exec pins s).2.regs.visibleR = s.regs.visibleR := rfl
  have read : (ldAR.exec pins s).2.regs =
      (s.regs.setA s.regs.visibleR).setFlags _ := rfl
  rw [kept, read, Registers.a_setFlags, Registers.a_setA]

theorem Registers.visibleR_spliced (r : Registers) :
    r.visibleR.msb = r.r2.msb ∧ r.visibleR.toNat % 128 = r.r.toNat % 128 := by
  have low : r.visibleR.setWidth 7 = r.r.setWidth 7 := by
    have ones : (0x7F : Byte).setWidth 7 = BitVec.allOnes 7 := by decide
    have zeros : (0x80 : Byte).setWidth 7 = 0#7 := by decide
    rw [visibleR, BitVec.setWidth_or, BitVec.setWidth_and, BitVec.setWidth_and, ones, zeros,
      BitVec.and_allOnes, BitVec.and_zero, BitVec.or_zero]
  have low := congrArg BitVec.toNat low
  rw [BitVec.toNat_setWidth, BitVec.toNat_setWidth] at low
  exact ⟨r.msb_visibleR, low⟩

/-- What a step does to the refresh register. -/
structure Pulse where
  refreshes : Nat
  /-- What `LD R,A` has written, after all refreshes of its own. -/
  loaded : Option Byte
  deriving DecidableEq

namespace Pulse

def lastLoaded (start : Byte) (h : List Pulse) : Byte :=
  (h.filterMap (·.loaded)).getLast?.getD start

def since (h : List Pulse) : Nat := ((h.reverse.takeWhile (·.loaded.isNone)).map (·.refreshes)).sum

variable {start : Byte} {h : List Pulse} {x : Pulse}

theorem lastLoaded_concat :
    lastLoaded start (h ++ [x]) = x.loaded.getD (lastLoaded start h) := by
  obtain ⟨n, _ | v⟩ := x <;> simp [lastLoaded]

theorem since_concat : since (h ++ [x]) = if x.loaded.isNone then x.refreshes + since h else 0 := by
  obtain ⟨n, _ | v⟩ := x <;> simp [since]

end Pulse

structure Registers.Counts (start : Registers) (h : List Pulse) (r : Registers) : Prop where
  r2 : r.r2 = Pulse.lastLoaded start.r2 h
  r : r.r = Pulse.lastLoaded start.r h + .ofNat 8 (Pulse.since h)

namespace Cpu

variable {c c₀ d : Cpu} [Bus β] {bus bus' : β} {e : Effect β} {i : Instr}

/-- The refreshes of a step. Only in mode 0 does an acknowledge read on. -/
def refreshes (c : Cpu) (bus : β) : Nat :=
  match c.decision with
  | .acknowledge =>
    if c.pins.nmi = .edge ∨ c.regs.im ≠ 0 then 1 else (c.spelled bus).refreshes
  | _ => (c.spelled bus).refreshes

def pulse (c : Cpu) (bus : β) : Pulse where
  refreshes := c.refreshes bus
  loaded := if .executed .ldRA ∈ c.marks bus then some c.regs.a else none

theorem spelled_restart (given : c.given = some 0xFF) :
    c.spelled bus = ⟨0, .main, 0xFF⟩ := by
  have spells : Encoding.Spells ⟨0, .main, 0xFF⟩ (c.bytes bus) := by
    rw [bytes, given]
    exact ⟨fun k hk => absurd hk k.not_lt_zero, rfl, by decide⟩
  exact (spells.eq_ofBytes (Nat.zero_le _)).symm

theorem refreshes_of_executed (h : c.effect bus = some e) (executed : .executed i ∈ e.marks) :
    c.refreshes bus = (c.spelled bus).refreshes := by
  unfold refreshes
  cases arises_of_effect h with
  | instruction i' running found =>
    cases hd : c.decision with
    | acknowledge => contradiction
    | _ => rfl
  | nmi served edge => simp at executed
  | supplied i' served maskable mode found =>
    rw [served]
    exact if_neg (not_or.mpr ⟨maskable, fun other => other mode⟩)
  | restart served maskable mode =>
    have zero : c.regs.im ≠ 0 := by rw [mode]; decide
    rw [served, spelled_restart (given_of_restart served maskable mode)]
    exact if_pos (.inr zero)
  | vector served maskable zero one => simp at executed

omit [Bus β] in
theorem entry_refresh (c : Cpu) :
    c.entry.r = c.regs.r ∧ c.entry.r2 = c.regs.r2 ∧ c.entry.a = c.regs.a := by
  unfold entry
  cases c.decision <;> exact ⟨rfl, rfl, rfl⟩

theorem fetched_refresh (c : Cpu) (bus : β) (x : Encoding) :
    (c.fetched bus x).regs.r = c.regs.r + .ofNat 8 x.refreshes ∧
      (c.fetched bus x).regs.r2 = c.regs.r2 ∧ (c.fetched bus x).regs.a = c.regs.a := by
  obtain ⟨hr, hr2, ha⟩ := c.entry_refresh
  rw [← hr, ← hr2, ← ha]
  unfold fetched
  cases c.given <;> exact ⟨rfl, rfl, rfl⟩

theorem refresh_of_executed (h : c.effect bus = some e) (executed : .executed i ∈ e.marks) :
    (e.core.regs.r, e.core.regs.r2) =
      if i = .ldRA then (c.regs.a, c.regs.a)
      else (c.regs.r + .ofNat 8 (c.refreshes bus), c.regs.r2) := by
  obtain ⟨pins, core⟩ := (executes_of_effect h executed).core
  obtain ⟨hr, hr2, ha⟩ := c.fetched_refresh bus (c.spelled bus)
  rw [core, i.exec_refresh, hr, hr2, ha, refreshes_of_executed h executed]

theorem refresh_of_effect (h : c.effect bus = some e) :
    (e.core.regs.r, e.core.regs.r2) =
      if .executed .ldRA ∈ e.marks then (c.regs.a, c.regs.a)
      else (c.regs.r + .ofNat 8 (c.refreshes bus), c.regs.r2) := by
  have ran (i : Instr) (executed : .executed i ∈ e.marks) := refresh_of_executed h executed
  cases arises_of_effect h with
  | instruction i running found => simpa [eq_comm] using ran i (by simp)
  | supplied i served maskable mode found => simpa [eq_comm] using ran i (by simp)
  | restart served maskable mode => simpa [eq_comm] using ran (.rst 7) (by simp)
  | nmi served edge =>
    have one : c.refreshes bus = 1 := by
      rw [refreshes, served]
      exact if_pos (.inl edge)
    rw [one]
    rfl
  | vector served maskable zero one =>
    have one : c.refreshes bus = 1 := by
      rw [refreshes, served]
      exact if_pos (.inr zero)
    rw [one]
    rfl

theorem counts_step {h : List Pulse} (counts : c₀.regs.Counts h c.regs)
    (step : c.step bus = some (d, bus')) : c₀.regs.Counts (h ++ [c.pulse bus]) d.regs := by
  obtain ⟨e, he, rfl, -⟩ := effect_of_step step
  have refresh := refresh_of_effect he
  rw [← marks_of_effect he] at refresh
  by_cases load : .executed .ldRA ∈ c.marks bus
  · have loaded : (c.pulse bus).loaded = some c.regs.a := if_pos load
    rw [if_pos load] at refresh
    obtain ⟨hr, hr2⟩ := Prod.mk.inj refresh
    -- the instruction loads after its own refreshes, so the count begins anew
    constructor
    · rw [Pulse.lastLoaded_concat, loaded]
      exact hr2
    · rw [Pulse.lastLoaded_concat, Pulse.since_concat, loaded]
      exact hr.trans (BitVec.add_zero _).symm
  · have loaded : (c.pulse bus).loaded = none := if_neg load
    rw [if_neg load] at refresh
    obtain ⟨hr, hr2⟩ := Prod.mk.inj refresh
    constructor
    · rw [Pulse.lastLoaded_concat, loaded]
      exact hr2.trans counts.r2
    · rw [Pulse.lastLoaded_concat, Pulse.since_concat, loaded]
      refine hr.trans ?_
      rw [counts.r, BitVec.add_assoc, ← BitVec.ofNat_add, Nat.add_comm]
      rfl

/-- Steps, each with any memory before it, and between them whatever is done to the inputs, the
timeout or the data lines. -/
inductive Session (β : Type) [Bus β] (c₀ : Cpu) : Cpu → List Pulse → Prop
  | start : Session β c₀ c₀ []
  | control {c : Cpu} {h : List Pulse} (k : Control) (before : Session β c₀ c h)
      (no_reset : ∀ t, k ≠ .resetAt t) : Session β c₀ (c.control k) h
  | step {c d : Cpu} {h : List Pulse} {bus bus' : β} (before : Session β c₀ c h)
      (step : c.step bus = some (d, bus')) : Session β c₀ d (h ++ [c.pulse bus])

theorem counts_of_session {h : List Pulse} (session : Session β c₀ c h) :
    c₀.regs.Counts h c.regs := by
  induction session with
  | start => exact ⟨rfl, (BitVec.add_zero _).symm⟩
  | control k before no_reset ih =>
    rw [regs_control no_reset]
    exact ih
  | step before step ih => exact counts_step ih step

theorem a_of_ldAR (step : c.step bus = some (d, bus')) (executed : .executed .ldAR ∈ c.marks bus) :
    d.regs.a = d.regs.visibleR := by
  obtain ⟨e, he, rfl, -⟩ := effect_of_step step
  rw [marks_of_effect he] at executed
  obtain ⟨pins, core⟩ := (executes_of_effect he executed).core
  have read := Instr.exec_ldAR pins (c.fetched bus (c.spelled bus))
  rwa [← core] at read

/-- R counts the opcode fetches since it was loaded, over any run, and `LD A,R` reads the count
with the top bit of what was loaded. -/
theorem refresh_counts {h : List Pulse} (session : Session β c₀ c h) :
    c.regs.r2 = Pulse.lastLoaded c₀.regs.r2 h ∧
    c.regs.r = Pulse.lastLoaded c₀.regs.r h + .ofNat 8 (Pulse.since h) ∧
    ∀ (bus bus' : β) (d : Cpu), c.step bus = some (d, bus') →
      .executed .ldAR ∈ c.marks bus →
        d.regs.a.msb = (Pulse.lastLoaded c₀.regs.r2 (h ++ [c.pulse bus])).msb ∧
        d.regs.a.toNat % 128 =
          (Pulse.lastLoaded c₀.regs.r (h ++ [c.pulse bus]) +
            .ofNat 8 (Pulse.since (h ++ [c.pulse bus]))).toNat % 128 := by
  have counts := counts_of_session session
  refine ⟨counts.r2, counts.r, fun bus bus' d step executed => ?_⟩
  have after := counts_of_session (session.step step)
  rw [a_of_ldAR step executed, ← after.r2, ← after.r]
  exact d.regs.visibleR_spliced

theorem refresh_counts_loaded : ∃ (c d : Cpu) (h : List Pulse),
    Session FlatBus (ofTiming .z80) c h ∧ c.regs.r2 = 0xFF ∧ c.regs.r = 0xFF ∧
      d.regs.a.msb = true ∧ d.regs.a.toNat % 128 = 1 := by
  let bus := FlatBus.empty.load 0 [0xED, 0x4F, 0xED, 0x5F]
  have loads : (ofTiming .z80).pulse bus = ⟨2, some 0xFF⟩ := by decide +kernel
  have runs : (((ofTiming .z80).step bus).any fun s => (s.1.step bus).any fun t =>
      .executed .ldAR ∈ s.1.marks bus ∧ s.1.pulse bus = ⟨2, none⟩) = true := by
    decide +kernel
  simp only [Option.any_eq_true, decide_eq_true_iff] at runs
  obtain ⟨⟨c, b⟩, first, ⟨d, b'⟩, second, executed, pulse⟩ := runs
  obtain ⟨r2, r, read⟩ := refresh_counts (.step .start first)
  have reads := read bus b' d second executed
  rw [pulse] at reads
  rw [loads] at r2 r reads
  exact ⟨c, d, _, .step .start first, r2, r, reads⟩

end Cpu

end Z80
