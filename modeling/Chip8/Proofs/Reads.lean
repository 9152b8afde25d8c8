/-
# `Chip8.Proofs.Reads` — which program a page ends up with

A file that is chosen has to be read, and the read ends later, in an event of
its own.  So several reads may be under way at a time, and the page takes no
part in the order in which they end.

    choose        one more read is under way
    readEnds      one less; what it gives is the program, or there is none
    anything else leaves the reads, the program and the image alone

This is `handle_cases`; the image is what the machine has loaded.  In the last
line is `start`, which loads the program once more.  That changes nothing
about the image because the image is the program already, if there is one
(`Loaded`).

It follows that the program is that of the read that ended last
(`Delivered.after`).  Which file that was is up to the reads: every chosen
file is read once (`Delivered.ended_perm`), and in the order of choosing if
only ever the oldest read ends (`Delivered.ended_in_order`).  The page keeps
no record of which choice was the last one, and so the file that was chosen
last need not be the one that stays.  An earlier file may take longer to
read, and a file that cannot be read leaves the page without a program but
with the image it had.
-/
import Chip8.Page
import Chip8.Proofs.PowerOn
import Mathlib.Data.List.Perm.Basic

namespace Chip8

/-- The program that reading a file gives, if the read succeeds and the
program fits. -/
def PageFile.program? (f : PageFile) : Option (List UInt8) :=
  match f.contents with
  | .ok bytes => if bytes.length ≤ programCapacity then some bytes else none
  | .error _ => none

namespace PageFile

variable {f : PageFile} {bytes : List UInt8}

theorem program?_of_error {t : Trouble} (h : f.contents = .error t) : f.program? = none := by
  rw [program?, h]

theorem program?_of_fits (h : f.contents = .ok bytes) (fits : bytes.length ≤ programCapacity) :
    f.program? = some bytes := by
  rw [program?, h]
  exact if_pos fits

theorem program?_of_long (h : f.contents = .ok bytes) (long : ¬ bytes.length ≤ programCapacity) :
    f.program? = none := by
  rw [program?, h]
  exact if_neg long

end PageFile

/-- A program that fits is loaded. -/
theorem Console.loadRom_of_fits (s : Console) {bytes : List UInt8}
    (fits : bytes.length ≤ programCapacity) :
    s.loadRom bytes none = { s with rom := some ⟨bytes, none, fits⟩ }.reset.granted :=
  s.loadRom_eq ⟨bytes, none, fits⟩

namespace Page

variable {d : Document} {p q r : Page} {e : Event} {events : List Event} {f : PageFile}

/-! ## Runs of events -/

/-- The page after a list of events. -/
def after (d : Document) (p : Page) (events : List Event) : Page :=
  events.foldl (fun p e => (p.handle d e).1) p

/-- The image that the machine has loaded. -/
def image (p : Page) : Option (List UInt8) := p.console.rom.map Rom.data

/-- The file that an event chooses. -/
def Event.chosen : Event → Option PageFile
  | .choose file => file
  | _ => none

/-- The file whose read an event ends. -/
def endedBy (p : Page) : Event → Option PageFile
  | .readEnds number => p.reads[number]?
  | _ => none

/-- The files that are chosen along a list of events, in this order. -/
def chosen (events : List Event) : List PageFile := events.filterMap Event.chosen

/-- The files whose reads end along a list of events, in the order in which
they end. -/
def ended (d : Document) (p : Page) : List Event → List PageFile
  | [] => []
  | e :: rest => (p.endedBy e).toList ++ ended d (p.handle d e).1 rest

/-! ## What an event leaves alone -/

/-- If a page has a program, it is what the machine has loaded. -/
def Loaded (p : Page) : Prop := ∀ bytes, p.program = some bytes → p.image = some bytes

/-- The second page has the program, the image and the reads of the first. -/
structure Keeps (p q : Page) : Prop where
  program : q.program = p.program
  image : q.image = p.image
  reads : q.reads = p.reads

theorem Keeps.refl (p : Page) : Keeps p p := ⟨rfl, rfl, rfl⟩

theorem Keeps.trans (h : Keeps p q) (h' : Keeps q r) : Keeps p r where
  program := h'.program.trans h.program
  image := h'.image.trans h.image
  reads := h'.reads.trans h.reads

/-- The image depends on the program of the machine only. -/
theorem image_congr (h : q.console.rom = p.console.rom) : q.image = p.image :=
  congrArg (Option.map Rom.data) h

theorem setBeep_keeps (p : Page) (on : Bool) : Keeps p (p.setBeep on) := by
  unfold setBeep
  split <;> exact ⟨rfl, rfl, rfl⟩

theorem startLoop_keeps (p : Page) : Keeps p p.startLoop := by
  unfold startLoop
  split <;> exact ⟨rfl, rfl, rfl⟩

/-- To start a program is to load what is loaded. -/
theorem start_keeps (hl : p.Loaded) : Keeps p p.start.1 := by
  unfold start
  split
  · exact .refl p
  next bytes hp =>
    have himage := hl bytes hp
    obtain ⟨rom, -, rfl⟩ := Option.map_eq_some_iff.mp himage
    simp only [p.console.loadRom_of_fits rom.fits]
    have hloop := startLoop_keeps ({ p with
      console := { p.console with rom := some ⟨rom.data, none, rom.fits⟩ }.reset.resume
      beep := p.beep.wake
      resumes := p.resumes + 1 }.say "Running")
    exact ⟨hloop.program, hloop.image.trans himage.symm, hloop.reads⟩

theorem togglePause_keeps (p : Page) : Keeps p p.togglePause := by
  unfold togglePause
  split
  · exact ⟨rfl, rfl, rfl⟩
  · have hbeep := setBeep_keeps { p with console := p.console.pause } false
    exact ⟨hbeep.program, hbeep.image, hbeep.reads⟩

theorem stepOnce_keeps (p : Page) : Keeps p p.stepOnce.1 := by
  have hrom := p.console.pause.stepInstruction_sameSettings.rom
  unfold stepOnce
  split
  · exact .refl p
  · dsimp only
    split <;> exact ⟨rfl, image_congr hrom, rfl⟩

theorem frame_keeps (p : Page) (stamp : Float) : Keeps p (p.frame stamp).1 := by
  have hrom := (p.console.runFrame_sameSettings (p.elapsed stamp)).rom
  unfold frame
  dsimp only
  split
  · exact ⟨rfl, image_congr hrom, rfl⟩
  · -- whether or not a fault is shown, the beeper is set last
    split <;> exact ⟨(setBeep_keeps _ _).program,
      (setBeep_keeps _ _).image.trans (image_congr hrom), (setBeep_keeps _ _).reads⟩

theorem animate_keeps (p : Page) (stamp : Float) (n : Nat) : Keeps p (p.animate stamp n).1 := by
  induction n generalizing p with
  | zero => exact .refl p
  | succ n ih =>
      have hframe := p.frame_keeps stamp
      unfold animate
      split
      next q e hq => exact hq ▸ hframe
      next q r _ hq => exact (hq ▸ hframe).trans (ih q)

theorem key_keeps (p : Page) (code : String) (down : Bool) : Keeps p (p.key code down).1 := by
  unfold key
  split <;> exact ⟨rfl, rfl, rfl⟩

theorem slideSpeed_keeps (p : Page) (value : String) : Keeps p (p.slideSpeed value).1 := by
  have hrom : (p.console.setCyclesPerFrame (sliderSpeed value)).console.rom = p.console.rom := by
    refine (p.console.setCyclesPerFrame_settles _).console (Q := (·.rom = p.console.rom)) rfl ?_
    rintro t ⟨k, -, rfl⟩
    rfl
  unfold slideSpeed
  dsimp only
  split <;> exact ⟨rfl, image_congr hrom, rfl⟩

theorem slideDecay_keeps (p : Page) (value : String) : Keeps p (p.slideDecay value).1 := by
  have hrom : (p.console.setDecay (Number.ofDecimalPrefix value)).console.rom = p.console.rom := by
    refine (p.console.setDecay_settles _).console (Q := (·.rom = p.console.rom)) rfl ?_
    rintro t ⟨x, -, rfl⟩
    rfl
  unfold slideDecay
  dsimp only
  split <;> exact ⟨rfl, image_congr hrom, rfl⟩

theorem pressFullscreen_keeps (p : Page) (refusal : Option Trouble) :
    Keeps p (p.pressFullscreen refusal) := by
  unfold pressFullscreen
  dsimp only
  split <;> exact ⟨rfl, rfl, rfl⟩

/-! ## What an event does -/

theorem finishRead_reads (p : Page) (f : PageFile) : (p.finishRead f).reads = p.reads := by
  unfold finishRead
  split
  · rfl
  · dsimp only
    split <;> rfl

/-- What was read becomes the program, and is loaded unless there is none. -/
theorem finishRead_program_image (p : Page) (f : PageFile) :
    (p.finishRead f).program = f.program? ∧ (p.finishRead f).image = f.program?.or p.image := by
  unfold finishRead
  split
  next t hf =>
    rw [PageFile.program?_of_error hf]
    exact ⟨rfl, rfl⟩
  next bytes hf =>
    by_cases fits : bytes.length ≤ programCapacity
    · rw [PageFile.program?_of_fits hf fits]
      simp only [p.console.loadRom_of_fits fits]
      exact ⟨rfl, rfl⟩
    · rw [PageFile.program?_of_long hf fits]
      simp only [Console.loadRom, Rom.parse, dif_neg fits]
      exact ⟨rfl, rfl⟩

/-- All that an event can do to the reads, the program and the image. -/
theorem handle_cases (d : Document) (hl : p.Loaded) (e : Event) :
    (∃ f, e.chosen = some f ∧ p.endedBy e = none ∧
      (p.handle d e).1.program = p.program ∧ (p.handle d e).1.image = p.image ∧
      (p.handle d e).1.reads = p.reads ++ [f]) ∨
    (∃ n f, e = .readEnds n ∧ p.reads[n]? = some f ∧
      (p.handle d e).1.program = f.program? ∧
      (p.handle d e).1.image = f.program?.or p.image ∧
      (p.handle d e).1.reads = p.reads.eraseIdx n) ∨
    (e.chosen = none ∧ p.endedBy e = none ∧ Keeps p (p.handle d e).1) := by
  cases e with
  | choose file =>
      cases file with
      | none => exact .inr (.inr ⟨rfl, rfl, .refl p⟩)
      | some f => exact .inl ⟨f, rfl, rfl, rfl, rfl, rfl⟩
  | readEnds n =>
      simp only [handle]
      split
      next hn => exact .inr (.inr ⟨rfl, hn, .refl p⟩)
      next f hn =>
        obtain ⟨hprogram, himage⟩ :=
          { p with reads := p.reads.eraseIdx n }.finishRead_program_image f
        exact .inr (.inl ⟨n, f, rfl, hn, hprogram, himage, finishRead_reads _ f⟩)
  | start => exact .inr (.inr ⟨rfl, rfl, start_keeps hl⟩)
  | pause => exact .inr (.inr ⟨rfl, rfl, p.togglePause_keeps⟩)
  | step => exact .inr (.inr ⟨rfl, rfl, p.stepOnce_keeps⟩)
  | fullscreen => exact .inr (.inr ⟨rfl, rfl, p.pressFullscreen_keeps d.refusal⟩)
  | slideSpeed value => exact .inr (.inr ⟨rfl, rfl, p.slideSpeed_keeps value⟩)
  | slideDecay value => exact .inr (.inr ⟨rfl, rfl, p.slideDecay_keeps value⟩)
  | keyDown code => exact .inr (.inr ⟨rfl, rfl, p.key_keeps code true⟩)
  | keyUp code => exact .inr (.inr ⟨rfl, rfl, p.key_keeps code false⟩)
  | animationFrame stamp =>
      have hframes := { p with loops := 0 }.animate_keeps stamp p.loops
      exact .inr (.inr ⟨rfl, rfl, hframes.program, hframes.image, hframes.reads⟩)

/-! ## What a run delivers -/

/-- These reads have ended, in this order: the program is what the last one
gave, and the image what the last one gave that gave something. -/
structure Delivered (p : Page) (files : List PageFile) : Prop where
  program : p.program = files.getLast?.bind PageFile.program?
  image : p.image = (files.filterMap PageFile.program?).getLast?

variable {files : List PageFile}

theorem Delivered.loaded (h : p.Delivered files) : p.Loaded := by
  intro bytes hbytes
  rw [h.program] at hbytes
  obtain ⟨f, hlast, hf⟩ := Option.bind_eq_some_iff.mp hbytes
  obtain ⟨before, rfl⟩ := List.getLast?_eq_some_iff.mp hlast
  rw [h.image, List.filterMap_append, List.getLast?_append, List.filterMap_cons_some hf]
  rfl

theorem Delivered.keep (h : p.Delivered files) (hk : Keeps p q) : q.Delivered files :=
  ⟨hk.program.trans h.program, hk.image.trans h.image⟩

/-- One event adds the file whose read it ends. -/
theorem Delivered.handle (h : p.Delivered files) (d : Document) (e : Event) :
    (p.handle d e).1.Delivered (files ++ (p.endedBy e).toList) := by
  rcases handle_cases d h.loaded e with
    ⟨f, -, hnone, hprogram, himage, -⟩ | ⟨n, f, rfl, hn, hprogram, himage, -⟩ | ⟨-, hnone, hk⟩
  · rw [hnone, Option.toList_none, List.append_nil]
    exact ⟨hprogram.trans h.program, himage.trans h.image⟩
  · have hend : p.endedBy (.readEnds n) = some f := hn
    rw [hend, Option.toList_some]
    constructor
    · rw [hprogram, List.getLast?_concat, Option.bind_some]
    · rw [himage, h.image, List.filterMap_append, List.getLast?_append]
      cases hf : f.program? with
      | none => simp [hf]
      | some bytes => simp [hf]
  · rw [hnone, Option.toList_none, List.append_nil]
    exact h.keep hk

theorem Delivered.after (h : p.Delivered files) (d : Document) (events : List Event) :
    (p.after d events).Delivered (files ++ p.ended d events) := by
  induction events generalizing p files with
  | nil => rwa [ended, List.append_nil]
  | cons e rest ih =>
      rw [ended, ← List.append_assoc]
      exact ih (h.handle d e)

/-- What an event ends and what it leaves under way are what was under way
and what it chooses, and in the same order if it ends no read but the
oldest. -/
theorem handle_reads (hl : p.Loaded) (d : Document) (e : Event) :
    ((p.endedBy e).toList ++ (p.handle d e).1.reads).Perm (p.reads ++ e.chosen.toList) ∧
    ((∀ n, e = .readEnds n → n = 0) →
      (p.endedBy e).toList ++ (p.handle d e).1.reads = p.reads ++ e.chosen.toList) := by
  rcases handle_cases d hl e with
    ⟨f, hf, hnone, -, -, hreads⟩ | ⟨n, f, rfl, hn, -, -, hreads⟩ | ⟨hf, hnone, hk⟩
  · rw [hf, hnone, hreads]
    exact ⟨.refl _, fun _ => rfl⟩
  · have hend : p.endedBy (.readEnds n) = some f := hn
    obtain ⟨hlt, rfl⟩ := List.getElem?_eq_some_iff.mp hn
    have hchosen : p.reads ++ (Event.readEnds n).chosen.toList = p.reads := List.append_nil _
    rw [hend, hreads, hchosen]
    refine ⟨List.getElem_cons_eraseIdx_perm hlt, fun hold => ?_⟩
    obtain rfl := hold n rfl
    rw [Option.toList_some, List.eraseIdx_zero, ← List.drop_one]
    exact List.getElem_cons_drop hlt
  · rw [hf, hnone, hk.reads]
    have hsame : [] ++ p.reads = p.reads ++ [] := (List.append_nil _).symm
    exact ⟨.of_eq hsame, fun _ => hsame⟩

theorem chosen_cons (e : Event) (rest : List Event) :
    chosen (e :: rest) = e.chosen.toList ++ chosen rest := by
  cases h : e.chosen with
  | none => rw [chosen, List.filterMap_cons_none h]; rfl
  | some f => rw [chosen, List.filterMap_cons_some h]; rfl

/-- Every file that was chosen has been read or is being read. -/
theorem Delivered.ended_perm (h : p.Delivered files) (d : Document) (events : List Event) :
    (p.ended d events ++ (p.after d events).reads).Perm (p.reads ++ chosen events) := by
  induction events generalizing p files with
  | nil => exact .of_eq (List.append_nil p.reads).symm
  | cons e rest ih =>
      rw [ended, chosen_cons, List.append_assoc, ← List.append_assoc p.reads]
      refine ((ih (h.handle d e)).append_left _).trans ?_
      rw [← List.append_assoc]
      exact (handle_reads h.loaded d e).1.append_right _

theorem Delivered.ended_in_order (h : p.Delivered files) (d : Document) {events : List Event}
    (horder : ∀ n, .readEnds n ∈ events → n = 0) :
    p.ended d events ++ (p.after d events).reads = p.reads ++ chosen events := by
  induction events generalizing p files with
  | nil => exact (List.append_nil p.reads).symm
  | cons e rest ih =>
      have hrest := ih (h.handle d e) fun n hn => horder n (.tail e hn)
      have hstep := (handle_reads h.loaded d e).2 fun n hn => horder n (hn ▸ .head rest)
      rw [ended, chosen_cons]
      calc
        _ = (p.endedBy e).toList ++ ((p.handle d e).1.reads ++ chosen rest) := by
              rw [List.append_assoc]
              exact congrArg _ hrest
        _ = p.reads ++ (e.chosen.toList ++ chosen rest) := by
              rw [← List.append_assoc, hstep, List.append_assoc]

/-- A page that has just been opened has read nothing. -/
theorem delivered_of_open? {env : Environment} {random : RandomSource}
    (h : open? d env random = .ok p) : p.Delivered [] ∧ p.reads = [] := by
  unfold open? at h
  split at h
  · cases h
  · split at h
    · cases h
    · dsimp only at h
      split at h
      · cases h
      next s hs =>
        cases h
        obtain ⟨cycles, decay, traceSteps, traceFaults, rfl⟩ := Console.create_eq_ok hs
        exact ⟨⟨rfl, rfl⟩, rfl⟩

/-- What a page ends up with.  Once no read is under way, every chosen file
has been read once.  The program is what the last read to end gave, and the
image what the last read gave that gave something; both are its contents if
it gave something.  And if only ever the oldest read ends, the reads end in
the order of choosing. -/
theorem last_read_to_end_stays {env : Environment} {random : RandomSource}
    (ho : open? d env random = .ok p) (events : List Event)
    (hdone : (p.after d events).reads = []) :
    (p.ended d events).Perm (chosen events) ∧
    (p.after d events).program = (p.ended d events).getLast?.bind PageFile.program? ∧
    (p.after d events).image = ((p.ended d events).filterMap PageFile.program?).getLast? ∧
    (∀ f bytes, (p.ended d events).getLast? = some f → f.program? = some bytes →
      (p.after d events).program = some bytes ∧ (p.after d events).image = some bytes) ∧
    ((∀ n, .readEnds n ∈ events → n = 0) → p.ended d events = chosen events) := by
  obtain ⟨hnew, hnone⟩ := delivered_of_open? ho
  have hafter := hnew.after d events
  have hperm := hnew.ended_perm d events
  rw [List.nil_append] at hafter
  rw [hdone, hnone, List.append_nil, List.nil_append] at hperm
  refine ⟨hperm, hafter.program, hafter.image, fun f bytes hlast hf => ?_, fun horder => ?_⟩
  · have hprogram : (p.after d events).program = some bytes := by
      rw [hafter.program, hlast, Option.bind_some, hf]
    exact ⟨hprogram, hafter.loaded bytes hprogram⟩
  · have hall := hnew.ended_in_order d horder
    rwa [hdone, hnone, List.append_nil, List.nil_append] at hall

/-- A document with all that a page needs. -/
def plainDocument : Document := ⟨"http://host/index.html", [], true, none⟩

/-- The page of that document. -/
def plainPage : Page :=
  (blank (Console.fresh 10 defaultDecay (.cycle #[]) false false)).syncLabels.draw

theorem open?_plainDocument : open? plainDocument .empty (.cycle #[]) = .ok plainPage := rfl

/-- A file that loops. -/
def looping : PageFile := ⟨"loop.ch8", .ok [0x12, 0x00]⟩

/-- A file that clears the screen. -/
def clearing : PageFile := ⟨"clear.ch8", .ok [0x00, 0xE0]⟩

/-- A file that cannot be read. -/
def unreadable : PageFile := ⟨"gone.ch8", .error (.error "gone")⟩

/-- The second of two choices is read first. -/
def overtaken : List Event :=
  [.choose (some looping), .choose (some clearing), .readEnds 1, .start, .readEnds 0]

/-- The second of two choices cannot be read. -/
def vanished : List Event :=
  [.choose (some looping), .readEnds 0, .choose (some unreadable), .readEnds 0]

theorem last_read_to_end_stays_overtaken :
    open? plainDocument .empty (.cycle #[]) = .ok plainPage ∧
    (plainPage.after plainDocument overtaken).reads = [] ∧
    (plainPage.ended plainDocument overtaken).getLast? = some looping ∧
    (plainPage.after plainDocument overtaken).program = some [0x12, 0x00] ∧
    (plainPage.after plainDocument overtaken).image = some [0x12, 0x00] := by
  have hdone : (plainPage.after plainDocument overtaken).reads = [] := rfl
  have hlast : (plainPage.ended plainDocument overtaken).getLast? = some looping := rfl
  have hstays := (last_read_to_end_stays open?_plainDocument overtaken hdone).2.2.2.1
  exact ⟨open?_plainDocument, hdone, hlast, hstays looping _ hlast rfl⟩

/-- The program need not be that of the file chosen last, nor need there be
one. -/
theorem last_choice_need_not_stay :
    open? plainDocument .empty (.cycle #[]) = .ok plainPage ∧
    ((plainPage.after plainDocument overtaken).reads = [] ∧
      (chosen overtaken).getLast? = some clearing ∧ clearing.program? = some [0x00, 0xE0] ∧
      (plainPage.after plainDocument overtaken).program = some [0x12, 0x00] ∧
      (plainPage.after plainDocument overtaken).image = some [0x12, 0x00]) ∧
    (plainPage.after plainDocument vanished).reads = [] ∧
    (chosen vanished).getLast? = some unreadable ∧
    (plainPage.after plainDocument vanished).program = none ∧
    (plainPage.after plainDocument vanished).image = some [0x12, 0x00] :=
  ⟨open?_plainDocument, ⟨rfl, rfl, rfl, rfl, rfl⟩, rfl, rfl, rfl, rfl⟩

end Page
end Chip8
