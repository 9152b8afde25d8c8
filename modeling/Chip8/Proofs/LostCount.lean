/-
# `Chip8.Proofs.LostCount` — delay and sound over whole runs

The delay and the sound timer are bytes after every run, unless the run
contains two frames of this kind, both of a positive, finite time and
neither of them paused:

    before … frame ms … between … frame ms' … rest
              │                    │
              60 · ms is infinite  the count is lost

and no restart in between.  Then, after the second frame, neither timer is a
number.  `LosesCount` is this shape, and `bytes_iff_not_losesCount` says
that it is the only way.

What the first frame does is kept in the carried fraction of a tick, which
nothing but time and a restart can change: no instruction, no key, and no
setting of a timer (`perform_timers`).  Hence the two directions.  From the
shape, the fraction stays lost until the second frame.  Towards it, both
frames are found by going back through the run from its end.
-/
import Chip8.Proofs.Bounds
import Chip8.Proofs.Ticks

namespace Chip8

theorem Countdown.IsByte.drop {c : Countdown} {k : Tally} (h : c.IsByte) (hk : k ≠ .unknown) :
    (c.drop k).IsByte := by
  obtain ⟨n, hn, rfl⟩ := h
  cases k with
  | times a => exact ⟨n - a, by omega, rfl⟩
  | endless => exact ⟨0, by decide, rfl⟩
  | unknown => exact absurd rfl hk

namespace Timers

variable {t t' t'' : Timers Float}

/-- Both countdowns are bytes. -/
def Bytes (t : Timers Float) : Prop := t.delay.IsByte ∧ t.sound.IsByte

theorem Rewritten.trans (h : t.Rewritten t') (h' : t'.Rewritten t'') : t.Rewritten t'' where
  delay := by
    rcases h'.delay with hd | hd
    · rw [hd]; exact h.delay
    · exact .inr hd
  sound := by
    rcases h'.sound with hs | hs
    · rw [hs]; exact h.sound
    · exact .inr hs
  pending := h'.pending.trans h.pending

theorem Rewritten.bytes (h : t.Rewritten t') (hb : t.Bytes) : t'.Bytes := by
  refine ⟨?_, ?_⟩
  · rcases h.delay with hd | hd
    · rw [hd]; exact hb.1
    · exact hd
  · rcases h.sound with hs | hs
    · rw [hs]; exact hb.2
    · exact hs

theorem Rewritten.counting (h : t.Rewritten t') (hc : t.Counting) : t'.Counting :=
  ⟨by rw [h.pending]; exact hc.fits, by rw [h.pending]; exact hc.ofSign⟩

theorem Rewritten.lost_iff (h : t.Rewritten t') : t'.Lost ↔ t.Lost := by
  rw [Lost, Lost, h.pending]

end Timers

/-- An instruction sets at most one countdown, to a byte. -/
theorem Machine.timersAfter_rewritten (m : Machine) (ins : Instruction Int) :
    m.timers.Rewritten (m.timersAfter ins) := by
  cases ins with
  | setDelay x => exact ⟨.inr (Countdown.isByte_byte _), .inl rfl, rfl⟩
  | setSound x => exact ⟨.inl rfl, .inr (Countdown.isByte_byte _), rfl⟩
  | _ => exact .refl _

namespace Console

variable {s : Console} {a : Action} {ms : Float}

/-! ## What a call does to the timers -/

theorem attempt_rewritten (s : Console) :
    s.machine.timers.Rewritten s.attempt.console.machine.timers := by
  rcases s.attempt_cases with ⟨f, -, ha⟩ | ⟨w, ins, m', -, -, hx, ha⟩ | ⟨-, -, ha⟩
  · rw [ha]; exact .refl _
  · rw [ha]
    simp only [Machine.countCycle_timers hx]
    exact s.machine.timersAfter_rewritten ins
  · rw [ha]; exact .refl _

theorem attempt_paused (s : Console) : s.attempt.console.paused = s.paused := by
  rcases s.attempt_cases with ⟨f, -, ha⟩ | ⟨w, ins, m', -, -, -, ha⟩ | ⟨-, -, ha⟩
  · rw [ha]; rfl
  · rw [ha]
  · rw [ha]

/-- The instructions of a frame do not touch the carried fraction, and do
not pause. -/
theorem frameBurst_rewritten (s : Console) :
    s.machine.timers.Rewritten s.frameBurst.console.machine.timers ∧
      s.frameBurst.console.paused = s.paused :=
  frameBurst_invariant
    (P := fun t => s.machine.timers.Rewritten t.machine.timers ∧ t.paused = s.paused)
    (fun t _ h => ⟨h.1.trans t.attempt_rewritten, t.attempt_paused.trans h.2⟩) ⟨.refl _, rfl⟩

theorem runFrame_paused (s : Console) (ms : Float) :
    (s.runFrame ms).console.paused = s.paused := by
  obtain ⟨-, hp⟩ := s.frameBurst_rewritten
  rcases s.runFrame_cases ms with ⟨-, hc⟩ | ⟨e, -, hc⟩ | ⟨-, executed, fault, -, hc, -⟩
  · rw [hc]
  · rw [hc]; exact hp
  · rw [hc, closeFrame_eq]; exact hp

/-- Time passes for the timers during a frame. -/
def LetsPass (s : Console) (ms : Float) : Prop :=
  s.paused = false ∧ ms.isFinite = true ∧ ¬ ms ≤ Scalar.ofInt 0

/-- A frame advances the timers, or at most sets them. -/
theorem runFrame_timers (hr : s.machine.random.Steady) (ms : Float) :
    (s.LetsPass ms ∧ ∃ t, s.machine.timers.Rewritten t ∧
      (s.runFrame ms).console.machine.timers = (t.advance ms).1) ∨
    (¬ s.LetsPass ms ∧
      s.machine.timers.Rewritten (s.runFrame ms).console.machine.timers) := by
  obtain ⟨hw, hp⟩ := s.frameBurst_rewritten
  rcases s.runFrame_cases ms with ⟨hms, hc⟩ | ⟨e, he, -⟩ | ⟨hms, executed, fault, -, hc, -⟩
  · refine .inr ⟨fun h => ?_, ?_⟩
    · rw [h.2.1] at hms; cases hms
    · rw [hc]; exact .refl _
  · obtain ⟨⟨r, hr'⟩, -⟩ := frameBurst_steady hr
    rw [hr'] at he
    cases he
  · rw [hc, closeFrame_eq, hp]
    by_cases hl : s.LetsPass ms
    · refine .inl ⟨hl, s.frameBurst.console.machine.timers, hw, ?_⟩
      rw [hl.1]
      rfl
    · refine .inr ⟨hl, ?_⟩
      cases hpause : s.paused with
      | true => exact hw
      | false =>
          have hle : ms ≤ Scalar.ofInt 0 := Decidable.not_not.1 fun hn => hl ⟨hpause, hms, hn⟩
          have hadv : (s.frameBurst.console.machine.timers.advance ms).1 =
              s.frameBurst.console.machine.timers := by
            rw [Timers.advance_of_le hle]
          show Timers.Rewritten _ (s.frameBurst.console.machine.timers.advance ms).1
          rw [hadv]
          exact hw

/-- All that a call does to the timers: it starts them again, it advances
them, or it sets them at most. -/
theorem perform_timers (hr : s.machine.random.Steady) (a : Action) :
    (a.restarts = true ∧ (s.perform a).console.machine.timers = Timers.initial) ∨
    (∃ ms, a = .frame ms ∧ s.LetsPass ms ∧ ∃ t, s.machine.timers.Rewritten t ∧
      (s.perform a).console.machine.timers = (t.advance ms).1) ∨
    (a.restarts = false ∧ (∀ ms, a = .frame ms → ¬ s.LetsPass ms) ∧
      s.machine.timers.Rewritten (s.perform a).console.machine.timers) := by
  rcases s.perform_cases a with ⟨ha, rom, hc⟩ | ⟨rfl, hh, hc⟩ | ⟨rfl, -, hc⟩ | ⟨ms, rfl, hc⟩ |
    ⟨ha, -, hf, hc⟩
  · exact .inl ⟨ha, by rw [hc]; rfl⟩
  · exact .inr (.inr ⟨rfl, nofun, by rw [hc]; exact .refl _⟩)
  · exact .inr (.inr ⟨rfl, nofun, by rw [hc]; exact s.attempt_rewritten⟩)
  · rw [hc]
    rcases runFrame_timers hr ms with ⟨hl, t, hw, ht⟩ | ⟨hl, hw⟩
    · exact .inr (.inl ⟨ms, rfl, hl, t, hw, ht⟩)
    · refine .inr (.inr ⟨rfl, ?_, hw⟩)
      rintro ms' ⟨⟩
      exact hl
  · exact .inr (.inr ⟨ha, fun ms h => absurd h (hf ms), hc.timers⟩)

/-! ## The run that loses count -/

/-- Two frames in a run: time passes in both, sixty times the first is
infinite, and nothing starts the machine again in between. -/
def LosesCount (s : Console) (actions : List Action) : Prop :=
  ∃ before ms between ms' rest,
    actions = before ++ .frame ms :: (between ++ .frame ms' :: rest) ∧
    (s.after before).LetsPass ms ∧ Overflows ms ∧
    (∀ a ∈ between, a.restarts = false) ∧
    (s.after (before ++ .frame ms :: between)).LetsPass ms'

theorem LosesCount.append {xs : List Action} (h : s.LosesCount xs) (ys : List Action) :
    s.LosesCount (xs ++ ys) := by
  obtain ⟨before, ms, between, ms', rest, rfl, hl, ho, hb, hl'⟩ := h
  refine ⟨before, ms, between, ms', rest ++ ys, ?_, hl, ho, hb, hl'⟩
  simp only [List.append_assoc, List.cons_append]

/-- What holds of the timers after every run: they count, and the countdowns
are bytes, or they have lost count. -/
def Timed (s : Console) : Prop :=
  (s.machine.timers.Counting ∧ s.machine.timers.Bytes) ∨ s.machine.timers.Lost

theorem initial_bytes : (Timers.initial : Timers Float).Bytes :=
  ⟨⟨0, by decide, rfl⟩, ⟨0, by decide, rfl⟩⟩

/-- An advance while the timers count. -/
theorem advance_bytes {t : Timers Float} (hc : t.Counting) (hb : t.Bytes) (hl : s.LetsPass ms) :
    (t.advance ms).1.Bytes := by
  obtain ⟨k, hk, hd, hs⟩ := hc.advance_countdowns hl.2.1 hl.2.2
  refine ⟨?_, ?_⟩
  · rw [hd]; exact hb.1.drop hk
  · rw [hs]; exact hb.2.drop hk

theorem Timed.perform (h : s.Timed) (hr : s.machine.random.Steady) (a : Action) :
    (s.perform a).console.Timed := by
  rcases perform_timers hr a with ⟨-, ht⟩ | ⟨ms, -, hl, t, hw, ht⟩ | ⟨-, -, hw⟩
  · exact .inl ⟨by rw [ht]; exact Timers.initial_counting, by rw [ht]; exact initial_bytes⟩
  · rw [Timed, ht]
    rcases h with ⟨hc, hb⟩ | hlost
    · have hc' := hw.counting hc
      by_cases ho : Overflows ms
      · exact .inr (hc'.advance_overflow hl.2.1 hl.2.2 ho)
      · exact .inl ⟨hc'.advance hl.2.1 hl.2.2 ho, advance_bytes hc' (hw.bytes hb) hl⟩
    · exact .inr ((hw.lost_iff.2 hlost).advance hl.2.2).2.2
  · rcases h with ⟨hc, hb⟩ | hlost
    · exact .inl ⟨hw.counting hc, hw.bytes hb⟩
    · exact .inr (hw.lost_iff.2 hlost)

section Run
variable {k : Nat} (hb : s.Bounded k)
include hb

/-- Timers that have lost count stay so until the machine starts again. -/
theorem lost_after {xs ys : List Action} (h : (s.after xs).machine.timers.Lost)
    (hn : ∀ a ∈ ys, a.restarts = false) : (s.after (xs ++ ys)).machine.timers.Lost := by
  induction ys using List.reverseRecOn with
  | nil => rw [List.append_nil]; exact h
  | append_singleton ys a ih =>
      have hys := ih fun b hb => hn b (List.mem_append_left _ hb)
      have ha := hn a (List.mem_append_right _ List.mem_cons_self)
      rw [← List.append_assoc, after_concat]
      rcases perform_timers (hb.after (xs ++ ys)).random a with ⟨hr, -⟩ | ⟨ms, -, hl, t, hw, hi⟩ |
        ⟨-, -, hw⟩
      · rw [ha] at hr; cases hr
      · rw [hi]; exact ((hw.lost_iff.2 hys).advance hl.2.2).2.2
      · exact hw.lost_iff.2 hys

variable (ht : s.machine.timers = Timers.initial)
include ht

theorem after_timed (actions : List Action) : (s.after actions).Timed := by
  induction actions using List.reverseRecOn with
  | nil =>
      refine .inl ⟨?_, ?_⟩
      · rw [after_nil, ht]; exact Timers.initial_counting
      · rw [after_nil, ht]; exact initial_bytes
  | append_singleton xs a ih =>
      rw [after_concat]
      exact ih.perform (hb.after xs).random a

/-- Timers that have lost count have seen a frame that overflowed. -/
theorem overflow_of_lost {actions : List Action} (h : (s.after actions).machine.timers.Lost) :
    ∃ before ms between, actions = before ++ .frame ms :: between ∧
      (s.after before).LetsPass ms ∧ Overflows ms ∧ ∀ a ∈ between, a.restarts = false := by
  induction actions using List.reverseRecOn with
  | nil =>
      rw [after_nil, ht] at h
      exact absurd h Timers.initial_counting.not_lost
  | append_singleton xs a ih =>
      have hextend : (s.after xs).machine.timers.Lost → a.restarts = false →
          ∃ before ms between, xs ++ [a] = before ++ .frame ms :: between ∧
            (s.after before).LetsPass ms ∧ Overflows ms ∧ ∀ a ∈ between, a.restarts = false := by
        intro hl ha
        obtain ⟨before, ms, between, hxs, hp, ho, hn⟩ := ih hl
        refine ⟨before, ms, between ++ [a], ?_, hp, ho, ?_⟩
        · rw [hxs, List.append_assoc, List.cons_append]
        · intro b hb
          rcases List.mem_append.1 hb with hb | hb
          · exact hn b hb
          · rw [List.mem_singleton.1 hb]; exact ha
      rw [after_concat] at h
      -- the last call has lost the count itself, or has found it lost
      rcases perform_timers (hb.after xs).random a with ⟨-, hi⟩ | ⟨ms, rfl, hl, t, hw, hi⟩ |
        ⟨ha, -, hw⟩
      · rw [hi] at h
        exact absurd h Timers.initial_counting.not_lost
      · rcases after_timed hb ht xs with ⟨hc, -⟩ | hlost
        · by_cases ho : Overflows ms
          · exact ⟨xs, ms, [], rfl, hl, ho, nofun⟩
          · rw [hi] at h
            exact absurd h ((hw.counting hc).advance hl.2.1 hl.2.2 ho).not_lost
        · exact hextend hlost rfl
      · exact hextend (hw.lost_iff.1 h) ha

/-- Countdowns that are no bytes come from a run that loses count. -/
theorem losesCount_of_not_bytes {actions : List Action}
    (h : ¬ (s.after actions).machine.timers.Bytes) : s.LosesCount actions := by
  induction actions using List.reverseRecOn with
  | nil =>
      rw [after_nil, ht] at h
      exact absurd initial_bytes h
  | append_singleton xs a ih =>
      by_cases hxs : (s.after xs).machine.timers.Bytes
      · rw [after_concat] at h
        rcases perform_timers (hb.after xs).random a with ⟨-, hi⟩ | ⟨ms, rfl, hl, t, hw, hi⟩ |
          ⟨-, -, hw⟩
        · rw [hi] at h
          exact absurd initial_bytes h
        · rcases after_timed hb ht xs with ⟨hc, -⟩ | hlost
          · rw [hi] at h
            exact absurd (advance_bytes (hw.counting hc) (hw.bytes hxs) hl) h
          · obtain ⟨before, ms₀, between, rfl, hp, ho, hn⟩ := overflow_of_lost hb ht hlost
            refine ⟨before, ms₀, between, ms, [], ?_, hp, ho, hn, hl⟩
            rw [List.append_assoc, List.cons_append]
        · exact absurd (hw.bytes hxs) h
      · exact (ih hxs).append [a]

/-- The second frame of the two leaves countdowns that are no numbers. -/
theorem unknown_after {before between : List Action} {ms ms' : Float}
    (hl : (s.after before).LetsPass ms) (ho : Overflows ms)
    (hn : ∀ a ∈ between, a.restarts = false)
    (hl' : (s.after (before ++ .frame ms :: between)).LetsPass ms') :
    let t := s.after (before ++ .frame ms :: between ++ [.frame ms'])
    t.machine.timers.delay = .unknown ∧ t.machine.timers.sound = .unknown := by
  have hframe : ∀ xs ms, (s.after xs).LetsPass ms → ∃ t,
      (s.after xs).machine.timers.Rewritten t ∧
        (s.after (xs ++ [.frame ms])).machine.timers = (t.advance ms).1 := by
    intro xs ms hp
    rw [after_concat]
    rcases perform_timers (hb.after xs).random (.frame ms) with ⟨hr, -⟩ | ⟨ms', he, -, t, hw, hi⟩ |
      ⟨-, hnp, -⟩
    · cases hr
    · cases he; exact ⟨t, hw, hi⟩
    · exact absurd hp (hnp ms rfl)
  have hlost : (s.after (before ++ [.frame ms])).machine.timers.Lost := by
    obtain ⟨t, hw, hi⟩ := hframe before ms hl
    rw [hi]
    rcases after_timed hb ht before with ⟨hc, -⟩ | hlost
    · exact (hw.counting hc).advance_overflow hl.2.1 hl.2.2 ho
    · exact ((hw.lost_iff.2 hlost).advance hl.2.2).2.2
  have hlost' := lost_after hb hlost hn
  rw [List.append_assoc, List.singleton_append] at hlost'
  obtain ⟨t, hw, hi⟩ := hframe _ ms' hl'
  obtain ⟨hd, hs, -⟩ := (hw.lost_iff.2 hlost').advance hl'.2.2
  simp only [hi]
  exact ⟨hd, hs⟩

/-- A run that loses count has a beginning after which no countdown is a
number. -/
theorem LosesCount.unknown {actions : List Action} (h : s.LosesCount actions) :
    ∃ before, before <+: actions ∧ (s.after before).machine.timers.delay = .unknown ∧
      (s.after before).machine.timers.sound = .unknown := by
  obtain ⟨before, ms, between, ms', rest, rfl, hl, ho, hn, hl'⟩ := h
  refine ⟨before ++ .frame ms :: between ++ [.frame ms'], ⟨rest, ?_⟩,
    unknown_after hb ht hl ho hn hl'⟩
  simp only [List.append_assoc, List.cons_append, List.nil_append]

/-- Delay and sound are bytes all along a run, unless it loses count. -/
theorem bytes_iff_not_losesCount (actions : List Action) :
    (∀ before, before <+: actions → (s.after before).machine.timers.Bytes) ↔
      ¬ s.LosesCount actions := by
  refine ⟨fun h hl => ?_, fun h before hp => Classical.byContradiction fun hn => ?_⟩
  · obtain ⟨before, hp, hd, -⟩ := hl.unknown hb ht
    obtain ⟨n, -, hn⟩ := (h before hp).1
    rw [hd] at hn
    cases hn
  · obtain ⟨rest, rfl⟩ := hp
    exact h ((losesCount_of_not_bytes hb ht hn).append rest)

end Run

end Console
end Chip8
