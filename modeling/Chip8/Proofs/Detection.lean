/-
# `Chip8.Proofs.Detection` — the checksum notices a local change

Two lists of bytes with the same checksum may well be different lists.  But
then they differ in places that are far apart.  Suppose that they differ only
within a window of four bytes:

    prefix     the same bytes        the same register
    window     four bytes            different registers
    suffix     the same bytes        different registers

The last row is that a step loses nothing: the bit that falls out of the
register is seen in its highest bit afterwards, because the polynomial has
that bit and a register that was moved down has not (`shift_injective`).  The
row before is the same fact once more.  A window is a word of the register,
and feeding it byte by byte is putting the whole word into the register and
shifting 32 times (`foldl_step_word`).  So the register after the window
determines the window.

Nothing like that holds for five bytes: there are more windows than
registers.

The fingerprint of a run is the checksum of its pixels, row by row, a byte
for each.  Hence two runs whose screens differ in a single pixel, or within
four adjacent pixels of a row, have different fingerprints.
-/
import Chip8.Proofs.Division
import Chip8.Proofs.Overlay
import Chip8.Run
import Mathlib.Data.Nat.Digits.Defs

namespace Chip8

/-- Two lists of one length agree at all positions outside of a window of `k`
positions that begins at `p`. -/
structure AgreeOutside {α : Type} (p k : Nat) (a b : List α) : Prop where
  length : a.length = b.length
  outside : ∀ i, i < p ∨ p + k ≤ i → a[i]? = b[i]?

/-- Such lists have the same beginning and the same end, and windows of the
same length between them. -/
theorem AgreeOutside.split {α : Type} {p k : Nat} {a b : List α} (h : AgreeOutside p k a b) :
    ∃ start window window' rest, a = start ++ window ++ rest ∧ b = start ++ window' ++ rest ∧
      window.length = window'.length ∧ window.length ≤ k := by
  have hstart : a.take p = b.take p := by
    refine List.ext_getElem? fun i => ?_
    rw [List.getElem?_take, List.getElem?_take]
    split
    · exact h.outside i (.inl ‹_›)
    · rfl
  have hrest : a.drop (p + k) = b.drop (p + k) := by
    refine List.ext_getElem? fun i => ?_
    rw [List.getElem?_drop, List.getElem?_drop]
    exact h.outside _ (.inr (Nat.le_add_right _ _))
  have hcut : ∀ l : List α, l = l.take p ++ (l.drop p).take k ++ l.drop (p + k) := by
    intro l
    rw [List.append_assoc, ← List.drop_drop, List.take_append_drop, List.take_append_drop]
  refine ⟨a.take p, (a.drop p).take k, (b.drop p).take k, a.drop (p + k), hcut a, ?_, ?_, ?_⟩
  · rw [hstart, hrest]
    exact hcut b
  · rw [List.length_take, List.length_take, List.length_drop, List.length_drop, h.length]
  · exact List.length_take_le _ _

namespace Checksum

/-! ## A step loses nothing -/

/-- What fell out at the bottom is seen at the top. -/
theorem testBit_shift (c : UInt32) : (shift c).toNat.testBit 31 = c.toNat.testBit 0 := by
  have hmoved : (c >>> 1).toNat.testBit 31 = false := by
    show (c.toNat >>> 1).testBit 31 = false
    rw [Nat.testBit_shiftRight]
    exact Nat.testBit_lt_two_pow c.toNat_lt
  rw [shift_eq, feed]
  cases c.toNat.testBit 0 with
  | false => exact hmoved
  | true =>
      rw [if_neg (by decide), UInt32.toNat_xor, Nat.testBit_xor, hmoved]
      rfl

theorem shift_injective : Function.Injective shift := by
  intro c d h
  have hbit : c.toNat.testBit 0 = d.toNat.testBit 0 := by
    rw [← testBit_shift, ← testBit_shift, h]
  have hmoved : c >>> 1 = d >>> 1 := by
    rw [shift_eq, shift_eq, feed, feed, hbit] at h
    split at h
    · exact h
    · exact (UInt32.xor_right_inj _).mp h
  have hhigh : c.toNat / 2 = d.toNat / 2 := congrArg UInt32.toNat hmoved
  have hlow : c.toNat % 2 = d.toNat % 2 := by
    rw [Nat.testBit_zero, Nat.testBit_zero, decide_eq_decide] at hbit
    omega
  exact UInt32.toNat_inj.mp (by omega)

theorem shifts_injective (k : Nat) : Function.Injective (shifts k) := by
  induction k with
  | zero => exact fun _ _ h => h
  | succ k ih => exact fun _ _ h => shift_injective (ih h)

theorem step_injective (b : UInt8) : Function.Injective (step · b) := by
  intro c d h
  have h : step c b = step d b := h
  rw [step_eq_bitStep, step_eq_bitStep] at h
  exact (UInt32.xor_left_inj _).mp (shifts_injective 8 h)

/-- The register behind a message determines the register before it. -/
theorem foldl_step_injective (bytes : List UInt8) : Function.Injective (bytes.foldl step ·) := by
  induction bytes with
  | nil => exact fun _ _ h => h
  | cons b rest ih => exact fun _ _ h => step_injective b (ih h)

/-! ## A window is a word -/

/-- Bytes as a number, the low one first. -/
def littleEndian (bytes : List UInt8) : Nat := Nat.ofDigits 256 (bytes.map UInt8.toNat)

theorem littleEndian_cons (b : UInt8) (rest : List UInt8) :
    littleEndian (b :: rest) = b.toNat + 256 * littleEndian rest := rfl

theorem littleEndian_lt (bytes : List UInt8) : littleEndian bytes < 2 ^ (8 * bytes.length) := by
  have hdigits : ∀ d ∈ bytes.map UInt8.toNat, d < 256 := by
    intro d hd
    obtain ⟨b, -, rfl⟩ := List.mem_map.mp hd
    exact b.toNat_lt
  have hlt := Nat.ofDigits_lt_base_pow_length (by decide) hdigits
  rwa [List.length_map, show (256 : Nat) = 2 ^ 8 from rfl, ← Nat.pow_mul] at hlt

theorem littleEndian_inj {a b : List UInt8} (hlen : a.length = b.length)
    (h : littleEndian a = littleEndian b) : a = b := by
  induction a generalizing b with
  | nil => exact (List.eq_nil_of_length_eq_zero hlen.symm).symm
  | cons x a ih =>
      obtain ⟨y, b, rfl⟩ := List.exists_cons_of_length_eq_add_one hlen.symm
      rw [littleEndian_cons, littleEndian_cons] at h
      have hx := x.toNat_lt
      have hy := y.toNat_lt
      have hhead : x = y := UInt8.toNat_inj.mp (by omega)
      have hrest : a = b := ih (Nat.succ.inj hlen) (by omega)
      rw [hhead, hrest]

theorem lowBits_add (n j k : Nat) : lowBits n (j + k) = lowBits n j ++ lowBits (n >>> j) k := by
  rw [lowBits, List.range_add, List.map_append, List.map_map]
  congr 1
  refine List.map_congr_left fun i _ => ?_
  rw [Function.comp_apply, Nat.testBit_shiftRight]

/-- The lowest bits of a number are those of its remainder. -/
theorem lowBits_mod (n k : Nat) : lowBits (n % 2 ^ k) k = lowBits n k := by
  refine List.map_congr_left fun i hi => ?_
  rw [Nat.testBit_mod_two_pow, decide_eq_true (List.mem_range.mp hi), Bool.true_and]

/-- The bits of a message are those of its number. -/
theorem messageBits_eq (bytes : List UInt8) :
    messageBits bytes = lowBits (littleEndian bytes) (8 * bytes.length) := by
  induction bytes with
  | nil => rfl
  | cons b rest ih =>
      have hb := b.toNat_lt
      have hlow : (b.toNat + 256 * littleEndian rest) % 2 ^ 8 = b.toNat := by omega
      have hhigh : (b.toNat + 256 * littleEndian rest) >>> 8 = littleEndian rest := by
        rw [Nat.shiftRight_eq_div_pow]
        omega
      have hlen : 8 * (b :: rest).length = 8 + 8 * rest.length := by
        rw [List.length_cons]
        omega
      rw [littleEndian_cons, hlen, lowBits_add, hhigh, ← ih, ← lowBits_mod, hlow]
      rfl

/-- Feeding at most four bytes is putting them into the register as a word and
shifting them out. -/
theorem foldl_step_word (c : UInt32) {w : List UInt8} (h : w.length ≤ 4) :
    w.foldl step c = shifts (8 * w.length) (c ^^^ UInt32.ofNat (littleEndian w)) := by
  have hlt := littleEndian_lt w
  have hfits : littleEndian w < 2 ^ 32 :=
    Nat.lt_of_lt_of_le hlt (Nat.pow_le_pow_right (by decide) (by omega))
  have hword : (UInt32.ofNat (littleEndian w)).toNat = littleEndian w := by
    rw [UInt32.toNat_ofNat', Nat.mod_eq_of_lt hfits]
  have hgone : littleEndian w >>> (8 * w.length) = 0 := by
    rw [Nat.shiftRight_eq_div_pow]
    exact Nat.div_eq_of_lt hlt
  have hstep : step = fun c b => (lowBits b.toNat 8).foldl feed c :=
    funext fun c => funext fun b => (step_eq_bitStep c b).trans (bitStep_eq c b)
  calc w.foldl step c
      = (messageBits w).foldl feed c := by rw [hstep, messageBits, List.foldl_flatMap]
    _ = shifts (8 * w.length) (c ^^^ UInt32.ofNat (littleEndian w)) := by
        rw [shifts_xor, hword, hgone, messageBits_eq]
        exact (UInt32.xor_zero).symm

/-- The register behind a window of at most four bytes determines the
window. -/
theorem window_inj {c : UInt32} {w w' : List UInt8} (hlen : w.length = w'.length)
    (hw : w.length ≤ 4) (h : w.foldl step c = w'.foldl step c) : w = w' := by
  have hfits : ∀ {v : List UInt8}, v.length ≤ 4 → littleEndian v % 2 ^ 32 = littleEndian v := by
    intro v hv
    exact Nat.mod_eq_of_lt (Nat.lt_of_lt_of_le (littleEndian_lt v)
      (Nat.pow_le_pow_right (by decide) (by omega)))
  rw [foldl_step_word c hw, foldl_step_word c (hlen ▸ hw), hlen] at h
  have hword := congrArg UInt32.toNat ((UInt32.xor_right_inj _).mp (shifts_injective _ h))
  rw [UInt32.toNat_ofNat', UInt32.toNat_ofNat', hfits hw, hfits (hlen ▸ hw)] at hword
  exact littleEndian_inj hlen hword

/-! ## The checksum -/

theorem crc32_inj_of_agreeOutside {a b : List UInt8} {seed : UInt32} {p : Nat}
    (hab : AgreeOutside p 4 a b) (h : crc32 a seed = crc32 b seed) : a = b := by
  obtain ⟨start, window, window', rest, rfl, rfl, hlen, hle⟩ := hab.split
  have h := UInt32.not_inj.mp h
  rw [List.foldl_append, List.foldl_append, List.foldl_append, List.foldl_append] at h
  rw [window_inj hlen hle (foldl_step_injective rest h)]

theorem crc32_seed_inj {bytes : List UInt8} {seed seed' : UInt32}
    (h : crc32 bytes seed = crc32 bytes seed') : seed = seed' :=
  UInt32.not_inj.mp (foldl_step_injective bytes (UInt32.not_inj.mp h))

end Checksum

/-! ## Screens -/

namespace Grid

variable {g h : Grid}

/-- The pixels in which two grids differ are `k` adjacent ones of a row, or
some of these. -/
def DifferWithin (k : Nat) (g h : Grid) : Prop :=
  g ≠ h ∧ ∃ (px : Fin 64) (py : Fin 32), ∀ qx qy, g.pixel qx qy ≠ h.pixel qx qy →
    qy = py ∧ px.val ≤ qx.val ∧ qx.val < px.val + k

/-- Two grids differ in exactly one pixel. -/
def DifferOnce (g h : Grid) : Prop :=
  ∃ px py, ∀ qx qy, g.pixel qx qy ≠ h.pixel qx qy ↔ qx = px ∧ qy = py

theorem DifferOnce.within (hd : DifferOnce g h) : DifferWithin 4 g h := by
  obtain ⟨px, py, hiff⟩ := hd
  refine ⟨?_, px, py, fun qx qy hne => ?_⟩
  · rintro rfl
    exact (hiff px py).mpr ⟨rfl, rfl⟩ rfl
  · obtain ⟨rfl, rfl⟩ := (hiff qx qy).mp hne
    exact ⟨rfl, Nat.le_refl _, by omega⟩

/-- Turning over a pixel makes a difference in that pixel. -/
theorem differOnce_toggle (g : Grid) (px : Fin 64) (py : Fin 32) :
    g.DifferOnce (g.toggle (pixelIndex px py)) := by
  refine ⟨px, py, fun qx qy => ?_⟩
  have hindex : pixelIndex px py = pixelIndex qx qy ↔ qx = px ∧ qy = py := by
    simp only [Fin.ext_iff, pixelIndex]
    omega
  have hget : (g.toggle (pixelIndex px py)).pixel qx qy =
      (g.pixel qx qy ^^ decide (pixelIndex px py = pixelIndex qx qy)) :=
    get_toggle _ _ _
  rw [hget, ← hindex]
  by_cases h : pixelIndex px py = pixelIndex qx qy
  · simp [h]
  · simp [h]

theorem getElem?_bytes (g : Grid) (i : Fin 2048) :
    g.bytes[i.val]? = some (if g.get i then 1 else 0) := by
  rw [bytes, List.getElem?_map, Vector.getElem?_toList, Vector.getElem?_eq_getElem i.isLt]
  rfl

theorem length_bytes (g : Grid) : g.bytes.length = 2048 := by
  rw [bytes, List.length_map, Vector.length_toList]

theorem bytes_injective : Function.Injective bytes := by
  intro g h heq
  refine ext_get fun i => ?_
  have hi := congrArg (·[i.val]?) heq
  simp only [getElem?_bytes, Option.some.injEq] at hi
  cases hg : g.get i <;> cases hh : h.get i <;> rw [hg, hh] at hi
  · cases hi
  · cases hi

theorem DifferWithin.agreeOutside {k : Nat} (hd : DifferWithin k g h) :
    ∃ p, AgreeOutside p k g.bytes h.bytes := by
  obtain ⟨-, px, py, hwithin⟩ := hd
  refine ⟨(pixelIndex px py).val, by rw [length_bytes, length_bytes], fun i hi => ?_⟩
  by_cases hlt : i < 2048
  · obtain ⟨qx, qy, hq⟩ := exists_pixelIndex ⟨i, hlt⟩
    have hsame : g.pixel qx qy = h.pixel qx qy := by
      by_contra hne
      obtain ⟨rfl, hle, hlt'⟩ := hwithin qx qy hne
      have hval := congrArg Fin.val hq
      simp only [pixelIndex] at hval hi
      omega
    have hget : g.get ⟨i, hlt⟩ = h.get ⟨i, hlt⟩ := by rw [hq]; exact hsame
    rw [g.getElem?_bytes ⟨i, hlt⟩, h.getElem?_bytes ⟨i, hlt⟩, hget]
  · rw [List.getElem?_eq_none (by rw [length_bytes]; omega),
      List.getElem?_eq_none (by rw [length_bytes]; omega)]

theorem DifferWithin.crc32_ne (hd : DifferWithin 4 g h) (seed : UInt32) :
    Checksum.crc32 g.bytes seed ≠ Checksum.crc32 h.bytes seed := by
  obtain ⟨p, hp⟩ := hd.agreeOutside
  exact fun heq => hd.1 (bytes_injective (Checksum.crc32_inj_of_agreeOutside hp heq))

end Grid

/-- The fingerprint in a summary is the checksum of the pixels that the run
leaves. -/
theorem Console.run_crc {s : Console} {limit : Nat} {policy : FaultPolicy}
    {events : List KeyEvent} {r : RunSummary} (h : (s.run limit policy events).answer = .ok r) :
    r.crc = Checksum.crc32 (s.run limit policy events).console.machine.display.pixels.bytes 0 := by
  unfold Console.run at h ⊢
  split at h
  · cases h
  · cases h; rfl

/-- Of two lists of numbers whose low bytes differ, but only within a window of
four positions, the checksums differ, for every seed; so two runs that leave
screens that differ in one pixel, or within four adjacent pixels of a row, have
different fingerprints; and different seeds of 32 bits give different checksums
of one list. -/
theorem checksum_notices_local_changes :
    (∀ (a b : List Number) (seed : Number) (p : Nat),
      AgreeOutside p 4 (a.map Number.byte) (b.map Number.byte) →
      a.map Number.byte ≠ b.map Number.byte →
      Checksum.crc32Numbers a seed ≠ Checksum.crc32Numbers b seed) ∧
    (∀ (s s' : Console) (limit limit' : Nat) (policy policy' : FaultPolicy)
      (events events' : List KeyEvent) (r r' : RunSummary),
      (s.run limit policy events).answer = .ok r →
      (s'.run limit' policy' events').answer = .ok r' →
      let g := (s.run limit policy events).console.machine.display.pixels
      let h := (s'.run limit' policy' events').console.machine.display.pixels
      g.DifferOnce h ∨ g.DifferWithin 4 h → r.crc ≠ r'.crc) ∧
    (∀ (values : List Number) (seed seed' : Number),
      Checksum.crc32Numbers values seed = Checksum.crc32Numbers values seed' ↔
        seed.word = seed'.word) := by
  refine ⟨fun a b seed p hab hne heq => ?_, ?_, fun values seed seed' => ?_⟩
  · rw [Checksum.crc32Numbers_eq_crc32, Checksum.crc32Numbers_eq_crc32] at heq
    exact hne (Checksum.crc32_inj_of_agreeOutside hab heq)
  · intro s s' limit limit' policy policy' events events' r r' hr hr' g h hd
    rw [Console.run_crc hr, Console.run_crc hr']
    exact (hd.elim Grid.DifferOnce.within id).crc32_ne 0
  · rw [Checksum.crc32Numbers_eq_crc32, Checksum.crc32Numbers_eq_crc32]
    refine ⟨fun h => ?_, fun h => by rw [h]⟩
    have hword := congrArg UInt32.toNat (Checksum.crc32_seed_inj h)
    rwa [UInt32.toNat_ofNat', UInt32.toNat_ofNat', Nat.mod_eq_of_lt seed.word_lt,
      Nat.mod_eq_of_lt seed'.word_lt] at hword

/-- Six numbers differ in the four in the middle, and a dark screen gets a
pixel in its lower right corner. -/
theorem checksum_notices_local_changes_in_the_corner :
    let a : List Number := [9, 1, 2, 3, 4, 9]
    let b : List Number := [9, 5, 6, 7, 8, 9]
    let s : Console :=
      ⟨Machine.initial 0 (RandomSource.cycle #[]), none, 10, false, false, none, false, false⟩
    let lit : Grid := Grid.dark.toggle (pixelIndex 63 31)
    let s' : Console :=
      { s with machine := { s.machine with display := { s.machine.display with pixels := lit } } }
    AgreeOutside 1 4 (a.map Number.byte) (b.map Number.byte) ∧
      a.map Number.byte ≠ b.map Number.byte ∧
      Checksum.crc32Numbers a 7 ≠ Checksum.crc32Numbers b 7 ∧
      Grid.dark.DifferOnce lit ∧
      ∃ r r', (s.run 0 .halt []).answer = .ok r ∧ (s'.run 0 .skip []).answer = .ok r' ∧
        r.crc ≠ r'.crc := by
  intro a b s lit s'
  have hab : AgreeOutside 1 4 (a.map Number.byte) (b.map Number.byte) := by
    refine ⟨rfl, ?_⟩
    rintro i (hi | hi)
    · obtain rfl : i = 0 := by omega
      rfl
    · obtain ⟨j, rfl⟩ := Nat.exists_eq_add_of_le' hi
      rfl
  have hne : a.map Number.byte ≠ b.map Number.byte := by decide
  have honce : Grid.dark.DifferOnce lit := Grid.dark.differOnce_toggle 63 31
  exact ⟨hab, hne, checksum_notices_local_changes.1 a b 7 1 hab hne, honce, _, _, rfl, rfl,
    checksum_notices_local_changes.2.1 s s' 0 0 .halt .skip [] [] _ _ rfl rfl (.inl honce)⟩

end Chip8
