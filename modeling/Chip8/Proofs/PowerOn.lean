/-
# `Chip8.Proofs.PowerOn` — what a reset restores, and what it spares

A reset is power-on with the program in place, but for one region of the
memory.  Seen from the console that was reset, against a console that is
newly constructed with the same settings and given the same program:

    processor, stack, cycles, waiting       the same
    memory from the program start on        the same
    glyphs                                  the same
    memory below, the glyphs apart          as the program left it (`Spared`)
    timers, carried fraction, ticks         the same
    pixels, afterglow, frames, dirty        the same
    keys, halt, last fault                  the same
    pause                                   as before the reset

The fourth row is by design: a reset clears the program region and restores
the glyphs.  But a program can point its index below the region and store
there, and the next run of the same program finds these bytes
(`reset_spares_low_bytes`).  So the two consoles are equal up to the spared
bytes, and equal outright if those are zero, as they are at power-on.

What makes the comparison possible is `Configured`: whatever a host calls,
the settings remain ones that a new console can be constructed with.
-/
import Chip8.Proofs.Reachable

namespace Chip8

/-! ## The memory after a reset -/

namespace Memory

/-- The glyphs are at an address. -/
def InFont (i : Nat) : Prop := fontBase ≤ i ∧ i < fontBase + font.length

/-- A reset leaves the byte at an address alone. -/
def Spared (i : Nat) : Prop := i < programStart ∧ ¬ InFont i

instance : DecidablePred InFont := fun _ => inferInstanceAs (Decidable (_ ∧ _))

instance : DecidablePred Spared := fun _ => inferInstanceAs (Decidable (_ ∧ _))

/-- The memory with the spared bytes of an older one. -/
def withSpared (m old : Memory) : Memory :=
  ⟨m.cells.mapIdx fun i b => if Spared i then old.byteAt i else b⟩

variable {m m' : Memory}

theorem byteAt_withSpared (m old : Memory) (i : Nat) :
    (m.withSpared old).byteAt i = if Spared i then old.byteAt i else m.byteAt i := by
  by_cases hi : i < 4096
  · have hm : m.cells[i]? = some m.cells[i] := Vector.getElem?_eq_getElem hi
    simp only [byteAt, withSpared, Vector.getElem?_mapIdx, hm]
    split <;> rfl
  · have hs : ¬ Spared i := by
      intro hs
      have := hs.1
      simp only [programStart] at this
      omega
    rw [if_neg hs]
    simp only [byteAt, Vector.getElem?_eq_none (Nat.le_of_not_lt hi)]

theorem byteAt_installFont (m : Memory) (i : Nat) :
    m.installFont.byteAt i = if InFont i then font.getD (i - fontBase) 0 else m.byteAt i :=
  m.byteAt_put font i (by decide)

theorem byteAt_initial (i : Nat) :
    initial.byteAt i = if InFont i then font.getD (i - fontBase) 0 else 0 := by
  have hzero : (⟨Vector.replicate 4096 0⟩ : Memory).byteAt i = 0 := by
    by_cases hi : i < 4096 <;> simp [byteAt, hi]
  rw [initial, byteAt_installFont, hzero]

/-- A reset gives power-on memory with the spared bytes from before. -/
theorem reset_eq_withSpared (m : Memory) : m.reset = initial.withSpared m := by
  apply ext_byteAt
  intro i
  rw [byteAt_withSpared, byteAt_initial, reset, byteAt_installFont, byteAt_clearProgram]
  by_cases hf : InFont i
  · rw [if_pos hf, if_neg fun hs : Spared i => hs.2 hf, if_pos hf]
  · by_cases hp : i < programStart
    · rw [if_neg hf, if_pos hp, if_pos ⟨hp, hf⟩]
    · rw [if_neg hf, if_neg hp, if_neg fun hs : Spared i => hp hs.1, if_neg hf]

/-- Spared bytes that are the same make no difference. -/
theorem withSpared_eq_self {old : Memory} (h : ∀ i, Spared i → old.byteAt i = m.byteAt i) :
    m.withSpared old = m := by
  apply ext_byteAt
  intro i
  rw [byteAt_withSpared]
  by_cases hs : Spared i
  · rw [if_pos hs, h i hs]
  · rw [if_neg hs]

theorem byteAt_initial_of_spared {i : Nat} (h : Spared i) : initial.byteAt i = 0 := by
  rw [byteAt_initial, if_neg h.2]

theorem initial_reset : initial.reset = initial := by
  rw [reset_eq_withSpared]
  exact withSpared_eq_self fun _ _ => rfl

/-- A program is put where no byte is spared. -/
theorem withSpared_put (m old : Memory) {data : List UInt8} (hd : data.length ≤ programCapacity) :
    (m.withSpared old).put programStart data = (m.put programStart data).withSpared old := by
  have hfit : programStart + data.length ≤ memorySize := by
    simp only [programStart, programCapacity, memorySize] at hd ⊢
    omega
  apply ext_byteAt
  intro i
  rw [byteAt_put _ _ _ hfit, byteAt_withSpared, byteAt_withSpared, byteAt_put _ _ _ hfit]
  by_cases hs : Spared i
  · have hn : ¬ (programStart ≤ i ∧ i < programStart + data.length) :=
      fun h => Nat.not_le_of_lt hs.1 h.1
    rw [if_neg hn, if_pos hs, if_pos hs]
  · rw [if_neg hs, if_neg hs]

end Memory

namespace Console

open Memory

/-- Memory after a reset differs from that of a new console in the spared
bytes. -/
theorem bootMemory_eq_withSpared (m : Memory) (rom : Option Rom) :
    bootMemory m rom = (bootMemory Memory.initial rom).withSpared m := by
  cases rom with
  | none =>
      simp only [bootMemory, initial_reset]
      exact m.reset_eq_withSpared
  | some rom =>
      simp only [bootMemory, initial_reset]
      rw [m.reset_eq_withSpared, withSpared_put _ _ rom.fits]

theorem reset_byteAt_of_spared (s : Console) {i : Nat} (h : Spared i) :
    s.reset.machine.memory.byteAt i = s.machine.memory.byteAt i := by
  simp only [reset, bootMachine]
  rw [bootMemory_eq_withSpared, byteAt_withSpared, if_pos h]

/-! ## Settings that a new console can have -/

/-- The settings are ones that construction admits, and what is logged has
been decided by the environment.  A factor that is not a number comes only
from a host that leaves it out. -/
structure Configured (env : Environment) (s : Console) : Prop where
  speed : 1 ≤ s.cyclesPerFrame
  decay : s.machine.display.decay.isNaN = false →
    clampDecay s.machine.display.decay = s.machine.display.decay
  traceSteps : s.traceSteps = env.flag "CHIP8_TRACE"
  traceFaults : s.traceFaults = env.flag "CHIP8_TRACE_FAULTS"

/-- The second console has the program and the settings of the first. -/
structure SameSettings (s t : Console) : Prop where
  rom : t.rom = s.rom
  speed : t.cyclesPerFrame = s.cyclesPerFrame
  decay : t.machine.display.decay = s.machine.display.decay
  traceSteps : t.traceSteps = s.traceSteps
  traceFaults : t.traceFaults = s.traceFaults

variable {s t u : Console} {env : Environment}

theorem SameSettings.refl (s : Console) : SameSettings s s := ⟨rfl, rfl, rfl, rfl, rfl⟩

theorem SameSettings.trans (h : SameSettings s t) (h' : SameSettings t u) : SameSettings s u where
  rom := h'.rom.trans h.rom
  speed := h'.speed.trans h.speed
  decay := h'.decay.trans h.decay
  traceSteps := h'.traceSteps.trans h.traceSteps
  traceFaults := h'.traceFaults.trans h.traceFaults

theorem SameSettings.configured (h : SameSettings s t) (hs : s.Configured env) :
    t.Configured env where
  speed := by rw [h.speed]; exact hs.speed
  decay := by rw [h.decay]; exact hs.decay
  traceSteps := h.traceSteps.trans hs.traceSteps
  traceFaults := h.traceFaults.trans hs.traceFaults

/-- No instruction reaches the settings. -/
theorem attempt_sameSettings (s : Console) : SameSettings s s.attempt.console := by
  rcases s.attempt_cases with ⟨f, -, ha⟩ | ⟨w, ins, m', -, -, hx, ha⟩ | ⟨-, -, ha⟩
  · rw [ha]; exact ⟨rfl, rfl, rfl, rfl, rfl⟩
  · obtain ⟨memory, pixels, dirty, hm, -⟩ := Machine.execute_devices hx
    rw [ha, hm]
    exact ⟨rfl, rfl, rfl, rfl, rfl⟩
  · rw [ha]; exact ⟨rfl, rfl, rfl, rfl, rfl⟩

theorem stepInstruction_sameSettings (s : Console) :
    SameSettings s s.stepInstruction.console := by
  unfold stepInstruction
  split
  · exact .refl s
  · exact s.attempt_sameSettings

theorem runFrame_sameSettings (s : Console) (ms : Float) :
    SameSettings s (s.runFrame ms).console := by
  have hb : SameSettings s s.frameBurst.console :=
    frameBurst_invariant (fun t _ h => h.trans t.attempt_sameSettings) (.refl s)
  rcases s.runFrame_cases ms with ⟨-, hc⟩ | ⟨e, -, hc⟩ | ⟨-, executed, fault, -, hc, -⟩
  · rw [hc]; exact .refl s
  · rw [hc]; exact hb
  · rw [hc, closeFrame_eq]; exact hb.trans ⟨rfl, rfl, rfl, rfl, rfl⟩

/-- A factor that has been clamped stays as it is. -/
theorem clampDecay_idem (x : Float) : clampDecay (clampDecay x : Float) = clampDecay x := by
  have hzero : (Scalar.ofInt 0 : Float) ≤ Scalar.ofInt 0 := by decide +kernel
  have hmax : ¬ (maxDecay : Float) ≤ Scalar.ofInt 0 := by decide +kernel
  have hmax' : (maxDecay : Float) ≤ maxDecay := by decide +kernel
  by_cases h₀ : x ≤ Scalar.ofInt 0
  · simp only [clampDecay, if_pos h₀, if_pos hzero]
  · by_cases h₁ : maxDecay ≤ x
    · simp only [clampDecay, if_neg h₀, if_pos h₁, if_neg hmax, if_pos hmax']
    · simp only [clampDecay, if_neg h₀, if_neg h₁]

/-- A factor that is admitted has been clamped, or was left out. -/
theorem clampDecay_of_admitDecay {d : Argument} {x : Float} (h : admitDecay d = .ok x)
    (hx : x.isNaN = false) : clampDecay x = x := by
  have habsent : Number.nan.toFloat.isNaN = true := by decide +kernel
  unfold admitDecay at h
  split at h
  · cases h
    rw [habsent] at hx
    cases hx
  · simp only at h
    split at h <;> cases h
    exact clampDecay_idem _

theorem admitCycles_pos {n : Argument} {k : Nat} (h : Settings.admitCycles n = .ok k) : 1 ≤ k := by
  unfold Settings.admitCycles at h
  split at h
  · split at h <;> cases h
    omega
  · cases h

theorem create_configured {asked : Overrides} {random : RandomSource}
    (h : create asked env random = .ok s) : s.Configured env := by
  unfold create at h
  cases hr : Settings.resolve asked env.get? with
  | error e => rw [hr] at h; cases h
  | ok settings =>
      rw [hr] at h
      cases h
      simp only [Settings.resolve] at hr
      split at hr
      · cases hr
      · rename_i n hn
        split at hr
        · cases hr
        · rename_i d hd
          cases hr
          exact ⟨admitCycles_pos hn, clampDecay_of_admitDecay hd, rfl, rfl⟩

theorem perform_configured (h : s.Configured env) (a : Action) :
    (s.perform a).console.Configured env := by
  cases a with
  | loadRom data name =>
      refine (s.loadRom_settles data name).console (Q := Configured env) h ?_
      rintro t ⟨rom, rfl⟩
      exact ⟨h.speed, h.decay, h.traceSteps, h.traceFaults⟩
  | skip =>
      rw [perform, skip]
      split <;> exact ⟨h.speed, h.decay, h.traceSteps, h.traceFaults⟩
  | step => exact s.stepInstruction_sameSettings.configured h
  | frame ms => exact (s.runFrame_sameSettings ms).configured h
  | setCycles n =>
      refine (s.setCyclesPerFrame_settles n).console (Q := Configured env) h ?_
      rintro t ⟨k, hn, rfl⟩
      exact ⟨admitCycles_pos hn, h.decay, h.traceSteps, h.traceFaults⟩
  | setDecay d =>
      refine (s.setDecay_settles d).console (Q := Configured env) h ?_
      rintro t ⟨x, hd, rfl⟩
      exact ⟨h.speed, clampDecay_of_admitDecay hd, h.traceSteps, h.traceFaults⟩
  | _ => exact ⟨h.speed, h.decay, h.traceSteps, h.traceFaults⟩

theorem after_configured {asked : Overrides} {random : RandomSource} {start : Console}
    (h : create asked env random = .ok start) (actions : List Action) :
    (start.after actions).Configured env :=
  after_invariant (fun _ a _ hs => perform_configured hs a) (create_configured h)

/-- A new console can be constructed with these settings. -/
theorem Configured.exists_create (h : s.Configured env)
    (hd : s.machine.display.decay.isNaN = false) (random : RandomSource) :
    ∃ asked new, create asked env random = .ok new ∧ new.settings = s.settings := by
  refine ⟨⟨some (.whole s.cyclesPerFrame), some (.other s.machine.display.decay)⟩,
    fresh s.cyclesPerFrame s.machine.display.decay random s.traceSteps s.traceFaults, ?_, rfl⟩
  have hspeed : (1 : Int) ≤ s.cyclesPerFrame := by exact_mod_cast h.speed
  have hdecay : admitDecay (Number.other s.machine.display.decay) =
      .ok s.machine.display.decay := by
    show (if s.machine.display.decay.isNaN then _ else _ : Except Failure Float) = _
    rw [hd]
    exact congrArg Except.ok (h.decay hd)
  simp only [create, Settings.resolve, Settings.choose, Settings.admitCycles, if_pos hspeed,
    hdecay, Except.map, fresh, h.traceSteps, h.traceFaults, Int.toNat_natCast]

/-! ## A reset against a new console -/

/-- The console with the pause and the spared bytes of another one. -/
def inheriting (t s : Console) : Console :=
  { t with
    paused := s.paused
    machine := { t.machine with memory := t.machine.memory.withSpared s.machine.memory } }

theorem loadRom_eq (s : Console) (rom : Rom) :
    s.loadRom rom.data rom.name = ({ s with rom := some rom } : Console).reset.granted := by
  unfold loadRom Rom.parse
  rw [dif_pos rom.fits]

/-- A program in a new console. -/
theorem fresh_loadRom (cycles : Nat) (decay : Float) (random : RandomSource)
    (traceSteps traceFaults : Bool) (rom : Rom) :
    (fresh cycles decay random traceSteps traceFaults).loadRom rom.data rom.name =
      granted { fresh cycles decay random traceSteps traceFaults with
        rom := some rom
        machine := { Machine.initial decay random with
          memory := Memory.initial.put programStart rom.data } } := by
  rw [loadRom_eq]
  simp only [reset, bootMachine, bootMemory, fresh, Machine.initial, Memory.initial_reset]
  rfl

/-- Resetting a console gives a new one with the same settings and the same
program, up to the pause and the spared bytes. -/
theorem reset_eq_inheriting {new : Console} (hs : s.Configured env) {asked : Overrides}
    (hn : create asked env s.machine.random = .ok new) (hset : new.settings = s.settings) :
    s.reset = ({ new with rom := s.rom } : Console).reset.inheriting s := by
  have hconf := create_configured hn
  obtain ⟨cycles, decay, traceSteps, traceFaults, rfl⟩ := create_eq_ok hn
  obtain ⟨hcycles, hdecay⟩ : cycles = s.cyclesPerFrame ∧ decay = s.machine.display.decay := by
    simp only [settings, Settings.mk.injEq] at hset
    exact hset
  have hsteps : traceSteps = s.traceSteps := hconf.traceSteps.trans hs.traceSteps.symm
  have hfaults : traceFaults = s.traceFaults := hconf.traceFaults.trans hs.traceFaults.symm
  subst hcycles hdecay hsteps hfaults
  simp only [inheriting, reset, bootMachine]
  rw [bootMemory_eq_withSpared s.machine.memory]
  rfl

/-- Whatever a program and a host have done, a reset leaves the console that
a new one with the same settings becomes when it is given the same program:
all of it but the pause, and but the spared bytes, which stay as they were.
Loading the program once more does the same.  Where the spared bytes are
zero, as they are on the new console, only the pause can differ.  And unless
the host has left out the factor of the afterglow, there is such a new
console. -/
theorem reset_is_power_on_but_spared {asked : Overrides} {random : RandomSource}
    {start : Console} (hc : create asked env random = .ok start) (actions : List Action)
    {rom : Rom} (hrom : (start.after actions).rom = some rom) :
    let s := start.after actions
    (s.machine.display.decay.isNaN = false →
      ∃ asked' new, create asked' env s.machine.random = .ok new ∧ new.settings = s.settings) ∧
    ∀ asked' new, create asked' env s.machine.random = .ok new → new.settings = s.settings →
      ∃ loaded : Console, new.loadRom rom.data rom.name = loaded.granted ∧
        s.loadRom rom.data rom.name = s.reset.granted ∧
        s.reset = loaded.inheriting s ∧
        (∀ i, Spared i → loaded.machine.memory.byteAt i = 0) ∧
        ((∀ i, Spared i → s.machine.memory.byteAt i = 0) →
          s.reset = { loaded with paused := s.paused }) := by
  intro s
  have hs : s.Configured env := after_configured hc actions
  refine ⟨fun hd => hs.exists_create hd _, fun asked' new hn hset => ?_⟩
  have heq := reset_eq_inheriting hs hn hset
  rw [hrom] at heq
  have hzero : ∀ i, Spared i →
      ({ new with rom := some rom } : Console).reset.machine.memory.byteAt i = 0 := by
    intro i hi
    obtain ⟨cycles, decay, traceSteps, traceFaults, rfl⟩ := create_eq_ok hn
    rw [reset_byteAt_of_spared _ hi]
    exact byteAt_initial_of_spared hi
  refine ⟨_, new.loadRom_eq rom, ?_, heq, hzero, fun hspared => ?_⟩
  · have hself : ({ s with rom := some rom } : Console) = s := by rw [← hrom]
    rw [s.loadRom_eq rom, hself]
  · rw [inheriting, withSpared_eq_self fun i hi => (hspared i hi).trans (hzero i hi).symm] at heq
    exact heq

/-! ### A program that stores below its region -/

/-- The program stores a byte at the address 0. -/
def lowStore : Rom := ⟨[0xA0, 0x00, 0x60, 0xAB, 0xF0, 0x55], none, by decide⟩

/-- A new console with this program. -/
def lowStoreLoaded : Console :=
  let new := fresh 10 defaultDecay (RandomSource.cycle #[]) false false
  { new with
    rom := some lowStore
    machine := { new.machine with memory := Memory.initial.put programStart lowStore.data } }

/-- The console once the program has stored its byte. -/
def lowStored : Console :=
  lowStoreLoaded.stepInstruction.console.stepInstruction.console.stepInstruction.console

theorem after_lowStore :
    (fresh 10 defaultDecay (RandomSource.cycle #[]) false false).after
      [.loadRom lowStore.data none, .step, .step, .step] = lowStored := by
  rw [after_cons, perform, show (none : Option String) = lowStore.name from rfl, fresh_loadRom]
  simp only [granted, after_cons, after_nil, perform, answering]
  unfold lowStored
  rfl

theorem lowStored_sameSettings : SameSettings lowStoreLoaded lowStored :=
  ((stepInstruction_sameSettings _).trans (stepInstruction_sameSettings _)).trans
    (stepInstruction_sameSettings _)

theorem lowStored_settings (random : RandomSource) :
    (fresh 10 defaultDecay random false false).settings = lowStored.settings := by
  have hspeed : lowStored.cyclesPerFrame = 10 := lowStored_sameSettings.speed
  have hdecay : lowStored.machine.display.decay = defaultDecay := lowStored_sameSettings.decay
  rw [settings, settings, hspeed, hdecay]
  rfl

theorem lowStored_byteAt_zero : lowStored.machine.memory.byteAt 0 = 0xAB := by
  decide +kernel

/-- A new console that goes on with the random numbers. -/
def lowStoreNew : Console := fresh 10 defaultDecay lowStored.machine.random false false

/-- The stored byte is there after the reset, and all else is as on a new
console. -/
theorem reset_is_power_on_but_low_store :
    let start := fresh 10 defaultDecay (RandomSource.cycle #[]) false false
    let actions : List Action := [.loadRom lowStore.data none, .step, .step, .step]
    create .none .empty (RandomSource.cycle #[]) = .ok start ∧
      start.after actions = lowStored ∧ lowStored.rom = some lowStore ∧
      create .none .empty lowStored.machine.random = .ok lowStoreNew ∧
      lowStoreNew.settings = lowStored.settings ∧
      ∃ loaded : Console, lowStored.reset = loaded.inheriting lowStored ∧
        lowStored.machine.memory.byteAt 0 = 0xAB ∧ loaded.machine.memory.byteAt 0 = 0 := by
  intro start actions
  have hc : create .none .empty (RandomSource.cycle #[]) = .ok start := rfl
  have hs : start.after actions = lowStored := after_lowStore
  have hrom : (start.after actions).rom = some lowStore := by
    rw [hs]
    exact lowStored_sameSettings.rom
  have hall := (reset_is_power_on_but_spared hc actions hrom).2
  simp only [hs] at hrom hall
  obtain ⟨loaded, -, -, heq, hzero, -⟩ := hall .none lowStoreNew rfl (lowStored_settings _)
  exact ⟨hc, hs, hrom, rfl, lowStored_settings _, loaded, heq, lowStored_byteAt_zero,
    hzero 0 (by decide)⟩

/-- A reset is not power-on: the byte that the program has stored below its
own region stays. -/
theorem reset_spares_low_bytes :
    let start := fresh 10 defaultDecay (RandomSource.cycle #[]) false false
    let actions : List Action := [.loadRom lowStore.data none, .step, .step, .step]
    create .none .empty (RandomSource.cycle #[]) = .ok start ∧
      start.after actions = lowStored ∧ lowStored.rom = some lowStore ∧
      create .none .empty lowStored.machine.random = .ok lowStoreNew ∧
      lowStoreNew.settings = lowStored.settings ∧
      ∃ loaded : Console, lowStoreNew.loadRom lowStore.data none = loaded.granted ∧
        lowStored.reset.machine.memory.byteAt 0 = 0xAB ∧
        loaded.machine.memory.byteAt 0 = 0 ∧
        lowStored.reset.machine.memory ≠ loaded.machine.memory := by
  intro start actions
  have hspared : Spared 0 := by decide
  have hkept : lowStored.reset.machine.memory.byteAt 0 = 0xAB := by
    rw [reset_byteAt_of_spared _ hspared, lowStored_byteAt_zero]
  have hnew : ({ lowStoreNew with rom := some lowStore } : Console).reset.machine.memory.byteAt 0 =
      0 := by
    rw [reset_byteAt_of_spared _ hspared]
    exact byteAt_initial_of_spared hspared
  refine ⟨rfl, after_lowStore, lowStored_sameSettings.rom, rfl, lowStored_settings _, _,
    lowStoreNew.loadRom_eq lowStore, hkept, hnew, fun h => ?_⟩
  rw [h, hnew] at hkept
  cases hkept

end Console
end Chip8
