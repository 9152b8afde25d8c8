/-
# `Chip8.Proofs.Rendering` — what a picture shows

A picture of scale `s` has `64 s` columns and `32 s` rows, and the pixel in
column `X` and row `Y` belongs to the cell

    (X / s, Y / s)       whose index is  Y / s * 64 + X / s.

Four loops paint it: over the rows of cells, over the cells of a row, over
the rows of a square, and along a run of `s` pixels.  What each of them does
is said by one relation: `Painted wanted bytes done b` when the buffer `b`
has so many bytes and every pixel of the set `done` shows the colour that is
wanted there.  A pixel that is stored in its own colour is added to the set
and none is lost, so a loop adds what its rounds add
(`Painted.foldl_range`), and all four together add every pixel
(`exists_run`).  Nothing is said about the order of the squares: whoever
stores a pixel stores the colour that is wanted there (`cellOf_run`).

This needs that a pixel is stored where it belongs, and so that the byte
offsets are less than `2 ^ 31`.  There are `2048 s²` pixels of four bytes,
and the bound is met exactly up to `s = 512`.  Beyond, the offset of pixel
`2 ^ 29` is negative.  Wherever the pixels behind it may go, no byte from
`2 ^ 31` on is ever reached (`putPixel_high`), and so the last pixels of the
picture stay zero, their alpha included.
-/
import Chip8.Picture
import Mathlib.Order.Interval.Set.Basic
import Mathlib.Tactic.Ring
import Mathlib.Tactic.NormNum

namespace Chip8
namespace Picture

variable {b : ByteArray} {c c' : Colour UInt8} {p q n : Nat}

/-! ## Buffers -/

@[simp] theorem size_set! (b : ByteArray) (i : Nat) (v : UInt8) : (b.set! i v).size = b.size :=
  Array.size_setIfInBounds

theorem getElem?_set! (b : ByteArray) (i j : Nat) (v : UInt8) :
    (b.set! i v).data[j]? =
      if i = j then if i < b.size then some v else none else b.data[j]? :=
  Array.getElem?_setIfInBounds

theorem data_addZeros (b : ByteArray) (n : Nat) :
    (addZeros b n).data = b.data ++ Array.replicate n 0 := by
  induction n generalizing b with
  | zero => exact Array.append_empty.symm
  | succ n ih =>
      rw [addZeros, ih, ByteArray.data_push, Array.push_eq_append, Array.append_assoc,
        show #[(0 : UInt8)] = Array.replicate 1 0 from rfl, Array.replicate_append_replicate,
        Nat.add_comm 1 n]

theorem data_addBlocks {block : ByteArray} {m : Nat} (hm : block.data = Array.replicate m 0)
    (b : ByteArray) (n : Nat) :
    (addBlocks block b n).data = b.data ++ Array.replicate (m * n) 0 := by
  induction n generalizing b with
  | zero => exact Array.append_empty.symm
  | succ n ih =>
      rw [addBlocks, ih, ByteArray.data_append, hm, Array.append_assoc,
        Array.replicate_append_replicate, Nat.mul_succ, Nat.add_comm m]

theorem data_zeros (n : Nat) : (zeros n).data = Array.replicate n 0 := by
  have hblock : (addZeros .empty 65536).data = Array.replicate 65536 0 :=
    (data_addZeros .empty 65536).trans Array.empty_append
  rw [zeros, data_addZeros, data_addBlocks hblock, Array.append_assoc,
    Array.replicate_append_replicate, Nat.div_add_mod]
  exact Array.empty_append

/-! ## One pixel -/

/-- A pixel has the bytes of an opaque colour. -/
structure Shows (b : ByteArray) (pixel : Nat) (c : Colour UInt8) : Prop where
  red : b.data[4 * pixel]? = some c.red
  green : b.data[4 * pixel + 1]? = some c.green
  blue : b.data[4 * pixel + 2]? = some c.blue
  alpha : b.data[4 * pixel + 3]? = some 255

theorem toNat_byteOffset (p : Nat) : (byteOffset p).toNat = 4 * p % 4294967296 := by
  have htwo : (2 : UInt32).toNat % 32 = 2 := rfl
  rw [byteOffset, UInt32.toNat_shiftLeft, UInt32.toNat_ofNat', htwo, Nat.shiftLeft_eq]
  omega

theorem byteOffset_lt_signBit (p : Nat) :
    byteOffset p < signBit ↔ 4 * p % 4294967296 < 2147483648 := by
  rw [UInt32.lt_iff_toNat_lt, toNat_byteOffset]
  rfl

@[simp] theorem size_putPixel (c : Colour UInt8) (b : ByteArray) (p : Nat) :
    (putPixel c b p).size = b.size := by
  unfold putPixel
  dsimp only
  split <;> simp only [size_set!]

/-- Where the offset needs no more than 31 bits, it is the place of the
pixel. -/
theorem putPixel_of_lt (h : 4 * p < 2147483648) :
    putPixel c b p =
      (((b.set! (4 * p) c.red).set! (4 * p + 1) c.green).set! (4 * p + 2) c.blue).set!
        (4 * p + 3) 255 := by
  have ho : (byteOffset p).toNat = 4 * p := by rw [toNat_byteOffset]; omega
  have hs : byteOffset p < signBit := by rw [byteOffset_lt_signBit]; omega
  rw [putPixel]
  simp only [if_pos hs, ho]

theorem shows_putPixel (c : Colour UInt8) (h : 4 * p < 2147483648) (hb : 4 * p + 3 < b.size) :
    Shows (putPixel c b p) p c := by
  rw [putPixel_of_lt h]
  constructor <;> simp only [getElem?_set!, size_set!] <;> grind

/-- A pixel is not touched where another one is stored. -/
theorem Shows.putPixel (hq : Shows b q c') (h : 4 * p < 2147483648) (hne : p ≠ q) :
    Shows (putPixel c b p) q c' := by
  obtain ⟨hred, hgreen, hblue, halpha⟩ := hq
  rw [putPixel_of_lt h]
  constructor <;> simp only [getElem?_set!, size_set!] <;> grind

/-- No pixel is stored behind the first `2 ^ 31` bytes. -/
theorem putPixel_high (c : Colour UInt8) (b : ByteArray) (p : Nat) {i : Nat}
    (hi : 2147483648 ≤ i) : (putPixel c b p).data[i]? = b.data[i]? := by
  unfold putPixel
  dsimp only
  split
  next h =>
    rw [byteOffset_lt_signBit] at h
    rw [toNat_byteOffset]
    simp only [getElem?_set!]
    rw [if_neg (by omega), if_neg (by omega), if_neg (by omega), if_neg (by omega)]
  next => rfl

/-! ## Loops -/

/-- A buffer of so many bytes, in which the pixels of a set show the colours
that are wanted. -/
structure Painted (wanted : Nat → Colour UInt8) (bytes : Nat) (done : Set Nat) (b : ByteArray) :
    Prop where
  size : b.size = bytes
  shows : ∀ p ∈ done, Shows b p (wanted p)

variable {wanted : Nat → Colour UInt8} {bytes : Nat} {done : Set Nat}

theorem Painted.mono {done' : Set Nat} (h : Painted wanted bytes done b) (hd : done' ⊆ done) :
    Painted wanted bytes done' b :=
  ⟨h.size, fun p hp => h.shows p (hd hp)⟩

theorem Painted.putPixel (h : Painted wanted bytes done b) (hfit : bytes ≤ 2147483648)
    (hp : 4 * p + 3 < bytes) :
    Painted wanted bytes (insert p done) (putPixel (wanted p) b p) where
  size := (size_putPixel _ _ _).trans h.size
  shows := by
    rintro q (rfl | hq)
    · exact shows_putPixel _ (by omega) (h.size ▸ hp)
    · by_cases hpq : p = q
      · subst hpq
        exact shows_putPixel _ (by omega) (h.size ▸ hp)
      · exact (h.shows q hq).putPixel (by omega) hpq

theorem Painted.putRun (h : Painted wanted bytes done b) (hfit : bytes ≤ 2147483648)
    (hin : 4 * (p + n) ≤ bytes) (hc : ∀ q ∈ Set.Ico p (p + n), wanted q = c) :
    Painted wanted bytes (done ∪ Set.Ico p (p + n)) (putRun c b p n) := by
  induction n generalizing p b done with
  | zero => exact h.mono (by simp)
  | succ n ih =>
      have hp : wanted p = c := hc p ⟨le_refl p, by omega⟩
      have hput : Painted wanted bytes (insert p done) (Picture.putPixel c b p) :=
        hp ▸ h.putPixel hfit (by omega)
      have hrest := ih (p := p + 1) hput (by omega) fun q ⟨hq, hq'⟩ => hc q ⟨by omega, by omega⟩
      refine hrest.mono ?_
      rintro q (hq | ⟨hq, hq'⟩)
      · exact .inl (.inr hq)
      · by_cases hpq : q = p
        · exact .inl (.inl hpq)
        · exact .inr ⟨by omega, by omega⟩

/-- A loop adds what its rounds add. -/
theorem Painted.foldl_range {f : ByteArray → Nat → ByteArray} {part : Nat → Set Nat}
    (h : Painted wanted bytes done b)
    (hf : ∀ k < n, ∀ done b, Painted wanted bytes done b →
      Painted wanted bytes (done ∪ part k) (f b k)) :
    Painted wanted bytes (done ∪ {p | ∃ k < n, p ∈ part k}) ((List.range n).foldl f b) := by
  induction n with
  | zero => exact h.mono (by simp)
  | succ n ih =>
      rw [List.range_succ, List.foldl_append]
      have hlast := hf n n.lt_succ_self _ _ (ih fun k hk => hf k (by omega))
      refine hlast.mono ?_
      rintro p (hp | ⟨k, hk, hp⟩)
      · exact .inl (.inl hp)
      · by_cases hkn : k = n
        · exact .inr (hkn ▸ hp)
        · exact .inl (.inr ⟨k, by omega, hp⟩)

/-! ## Where the pixels are -/

/-- The pixels of a row of the square of a cell. -/
def run (scale x y dy : Nat) : Set Nat :=
  Set.Ico (runStart scale x y dy) (runStart scale x y dy + scale)

/-- The index of the cell that a pixel belongs to. -/
def cellOf (scale pixel : Nat) : Nat :=
  pixel / width scale / scale * screenWidth + pixel % width scale / scale

variable {scale x y dy : Nat}

theorem size_eq (scale : Nat) : size scale = 8192 * (scale * scale) := by
  unfold size height width screenHeight screenWidth
  ring

theorem size_le_iff (scale : Nat) : size scale ≤ 2147483648 ↔ scale ≤ 512 := by
  rw [size_eq]
  constructor
  · intro h
    by_contra hs
    have := Nat.mul_le_mul (show 513 ≤ scale by omega) (show 513 ≤ scale by omega)
    omega
  · intro h
    have := Nat.mul_le_mul h h
    omega

/-- A number of so many blocks and a rest. -/
theorem div_mod_of_lt {m a r : Nat} (hr : r < m) : (a * m + r) / m = a ∧ (a * m + r) % m = r :=
  (Nat.div_mod_unique (by omega)).mpr ⟨by ring, hr⟩

/-- A row of a square lies in one row of the picture. -/
theorem column_le (scale : Nat) (hx : x < screenWidth) : x * scale + scale ≤ width scale := by
  have hcolumns : (x + 1) * scale ≤ screenWidth * scale := Nat.mul_le_mul_right scale hx
  rwa [Nat.add_mul, Nat.one_mul] at hcolumns

theorem run_in_picture (hx : x < screenWidth) (hy : y < screenHeight) (hdy : dy < scale) :
    4 * (runStart scale x y dy + scale) ≤ size scale := by
  have hcolumn := column_le scale hx
  have hrow : (y + 1) * scale ≤ height scale := Nat.mul_le_mul_right scale hy
  rw [Nat.add_mul, Nat.one_mul] at hrow
  have hrows : (y * scale + dy + 1) * width scale ≤ height scale * width scale :=
    Nat.mul_le_mul_right _ (by omega)
  rw [Nat.add_mul _ 1, Nat.one_mul] at hrows
  rw [runStart, size, Nat.mul_comm (width scale)]
  omega

/-- The pixels of a square belong to its cell. -/
theorem cellOf_run (hx : x < screenWidth) (hdy : dy < scale) (hp : p ∈ run scale x y dy) :
    cellOf scale p = y * screenWidth + x := by
  obtain ⟨r, rfl⟩ := Nat.exists_eq_add_of_le hp.1
  have hr : r < scale := by have := hp.2; omega
  have hcolumn := column_le scale hx
  have hp := div_mod_of_lt (m := width scale) (a := y * scale + dy) (r := x * scale + r) (by omega)
  rw [cellOf, runStart, Nat.add_assoc, hp.1, hp.2, (div_mod_of_lt hdy).1, (div_mod_of_lt hr).1]

/-- Every pixel lies in a row of a square. -/
theorem exists_run (hp : p < width scale * height scale) :
    ∃ y < screenHeight, ∃ x < screenWidth, ∃ dy < scale, p ∈ run scale x y dy := by
  have hs : 0 < scale := Nat.pos_of_ne_zero fun hs => by simp [hs, width] at hp
  have hw : 0 < width scale := Nat.mul_pos (by decide) hs
  have hrow : p / width scale < screenHeight * scale := Nat.div_lt_of_lt_mul hp
  have hcolumn : p % width scale < screenWidth * scale := Nat.mod_lt p hw
  refine ⟨p / width scale / scale, Nat.div_lt_of_lt_mul (Nat.mul_comm _ _ ▸ hrow),
    p % width scale / scale, Nat.div_lt_of_lt_mul (Nat.mul_comm _ _ ▸ hcolumn),
    p / width scale % scale, Nat.mod_lt _ hs, ?_⟩
  have hpixel := Nat.div_add_mod' p (width scale)
  have hcell := Nat.div_add_mod' (p % width scale) scale
  have hrest := Nat.mod_lt (p % width scale) hs
  rw [run, runStart, Nat.div_add_mod']
  exact ⟨by omega, by omega⟩

/-! ## The whole picture -/

theorem paint_painted (cell : Nat → Colour UInt8) (hs : scale ≤ 512) (hb : b.size = size scale) :
    Painted (fun p => cell (cellOf scale p)) (size scale)
      {p | p < width scale * height scale} (paint cell scale b) := by
  have hfit := (size_le_iff scale).mpr hs
  have hall : Painted (fun p => cell (cellOf scale p)) (size scale)
      (∅ ∪ {p | ∃ y < screenHeight, p ∈ {p | ∃ x < screenWidth, p ∈
        {p | ∃ dy < scale, p ∈ run scale x y dy}}}) (paint cell scale b) := by
    refine Painted.foldl_range ⟨hb, nofun⟩ fun y hy done b h => ?_
    refine h.foldl_range fun x hx done b h => ?_
    refine h.foldl_range fun dy hdy done b h => ?_
    exact h.putRun hfit (run_in_picture hx hy hdy) fun p hp =>
      congrArg cell (cellOf_run hx hdy hp)
  exact hall.mono fun p hp => .inr (exists_run hp)

/-- What storing a pixel keeps, painting keeps. -/
theorem foldl_keeps {β : Type} {g : ByteArray → β} {f : ByteArray → Nat → ByteArray}
    (hf : ∀ b k, g (f b k) = g b) (l : List Nat) (b : ByteArray) : g (l.foldl f b) = g b := by
  induction l generalizing b with
  | nil => rfl
  | cons k l ih => rw [List.foldl_cons, ih, hf]

theorem putRun_keeps {β : Type} {g : ByteArray → β} (hg : ∀ b p, g (putPixel c b p) = g b)
    (b : ByteArray) (p n : Nat) : g (putRun c b p n) = g b := by
  induction n generalizing p b with
  | zero => rfl
  | succ n ih => rw [putRun, ih, hg]

theorem paint_keeps {β : Type} {g : ByteArray → β} (hg : ∀ c b p, g (putPixel c b p) = g b)
    (cell : Nat → Colour UInt8) (scale : Nat) (b : ByteArray) : g (paint cell scale b) = g b :=
  foldl_keeps (fun b _ => foldl_keeps (fun b _ => foldl_keeps (fun b _ =>
    putRun_keeps (hg _) b _ scale) _ b) _ b) _ b

variable {α : Type} [Scalar α] (glow : Nat → α) (palette : Palette α) (storage : Storage)

theorem size_render (scale : Nat) : (render glow scale palette storage).size = size scale := by
  rw [render, paint_keeps size_putPixel, ByteArray.size, data_zeros, Array.size_replicate]

/-- From byte `2 ^ 31` on a picture consists of zeros. -/
theorem render_high {i : Nat} (hi : 2147483648 ≤ i) (hs : i < size scale) :
    (render glow scale palette storage).data[i]? = some 0 := by
  rw [render, paint_keeps (g := fun b => b.data[i]?) fun c b p => putPixel_high c b p hi,
    data_zeros, Array.getElem?_replicate, if_pos hs]

/-- A pixel that begins there is not even opaque. -/
theorem not_shows (hp : 536870912 ≤ p) (hin : p < width scale * height scale) (c : Colour UInt8) :
    ¬ Shows (render glow scale palette storage) p c := by
  intro h
  have hsize : 4 * p + 3 < size scale := by rw [size]; omega
  have hzero := render_high glow palette storage (by omega) hsize
  exact absurd (hzero.symm.trans h.alpha) (by decide)

theorem render_shows (hs : scale ≤ 512) {X Y : Nat} (hX : X < width scale)
    (hY : Y < height scale) :
    Shows (render glow scale palette storage) (Y * width scale + X)
      (storage.pixel (palette.shade (glow (Y / scale * screenWidth + X / scale)))) := by
  have hzeros : (zeros (size scale)).size = size scale := by
    rw [ByteArray.size, data_zeros, Array.size_replicate]
  have hpainted := paint_painted (fun i => storage.pixel (palette.shade (glow i))) hs hzeros
  have hin : Y * width scale + X < width scale * height scale := by
    have hrows : (Y + 1) * width scale ≤ height scale * width scale := Nat.mul_le_mul_right _ hY
    rw [Nat.add_mul, Nat.one_mul, Nat.mul_comm (height scale)] at hrows
    omega
  have hcell : cellOf scale (Y * width scale + X) = Y / scale * screenWidth + X / scale := by
    rw [cellOf, (div_mod_of_lt hX).1, (div_mod_of_lt hX).2]
  exact hcell ▸ hpainted.shows _ hin

/-- A picture of more than `2 ^ 31` bytes has a pixel that begins there. -/
theorem lt_of_large (hs : 512 < scale) : 536870912 < width scale * height scale := by
  have hsize : ¬ size scale ≤ 2147483648 := fun h => by have := (size_le_iff scale).mp h; omega
  rw [size] at hsize
  omega

/-- Every pixel that is painted is stored in its own place in the buffer. -/
def Placed (scale : Nat) : Prop :=
  ∀ y < screenHeight, ∀ x < screenWidth, ∀ dy < scale, ∀ p ∈ run scale x y dy,
    byteOffset p < signBit ∧ (byteOffset p).toNat = 4 * p ∧ 4 * p + 3 < size scale

theorem placed_iff (scale : Nat) : Placed scale ↔ scale ≤ 512 := by
  constructor
  · intro h
    by_contra hs
    obtain ⟨y, hy, x, hx, dy, hdy, hp⟩ := exists_run (lt_of_large (by omega : 512 < scale))
    have hoffset := (byteOffset_lt_signBit _).mp (h y hy x hx dy hdy _ hp).1
    omega
  · intro hs y hy x hx dy hdy p ⟨_, hp⟩
    have hfit := (size_le_iff scale).mpr hs
    have hin := run_in_picture hx hy hdy
    rw [byteOffset_lt_signBit, toNat_byteOffset]
    omega

/-- Every byte of the buffer is stored with some pixel. -/
def Written (scale : Nat) : Prop :=
  ∀ i < size scale, ∃ y < screenHeight, ∃ x < screenWidth, ∃ dy < scale, ∃ p ∈ run scale x y dy,
    byteOffset p < signBit ∧ (byteOffset p).toNat ≤ i ∧ i < (byteOffset p).toNat + 4

theorem written_iff (scale : Nat) : Written scale ↔ scale ≤ 512 := by
  constructor
  · intro h
    by_contra hs
    have hsize : 2147483648 < size scale := by
      have hlarge := lt_of_large (by omega : 512 < scale)
      rw [size]
      omega
    obtain ⟨_, _, _, _, _, _, p, -, hoffset, -, hi⟩ := h _ hsize
    rw [byteOffset_lt_signBit] at hoffset
    rw [toNat_byteOffset] at hi
    omega
  · intro hs i hi
    have hp : i / 4 < width scale * height scale := by rw [size] at hi; omega
    obtain ⟨y, hy, x, hx, dy, hdy, hrun⟩ := exists_run hp
    obtain ⟨hoffset, hplace, -⟩ := (placed_iff scale).mpr hs y hy x hx dy hdy _ hrun
    exact ⟨y, hy, x, hx, dy, hdy, i / 4, hrun, hoffset, by omega, by omega⟩

/-- The four bytes of every pixel are those of its cell, no byte of the
buffer is left out, and every pixel is stored in its place in the buffer,
exactly up to a scale of 512. -/
theorem render_covers_iff (scale : Nat) :
    (render glow scale palette storage).size = 64 * scale * (32 * scale) * 4 ∧
    ((∀ X Y, X < 64 * scale → Y < 32 * scale →
        Shows (render glow scale palette storage) (Y * (64 * scale) + X)
          (storage.pixel (palette.shade (glow (Y / scale * 64 + X / scale))))) ↔ scale ≤ 512) ∧
    (Written scale ↔ scale ≤ 512) ∧ (Placed scale ↔ scale ≤ 512) := by
  refine ⟨size_render glow palette storage scale, ⟨fun h => ?_, fun hs X Y hX hY => ?_⟩,
    written_iff scale, placed_iff scale⟩
  · by_contra hs
    have hlarge := lt_of_large (by omega : 512 < scale)
    have hw : 0 < width scale := Nat.mul_pos (by decide) (by omega : 0 < scale)
    have hshows := h (536870912 % width scale) (536870912 / width scale) (Nat.mod_lt _ hw)
      (Nat.div_lt_of_lt_mul hlarge)
    rw [show 64 * scale = width scale from rfl, Nat.div_add_mod'] at hshows
    exact not_shows glow palette storage (le_refl _) hlarge _ hshows
  · exact render_shows glow palette storage hs hX hY

/-- At a scale of 513 the last pixel is left out. -/
theorem last_pixel_is_left_out :
    32831 < 64 * 513 ∧ 16415 < 32 * 513 ∧
    ¬ Shows (render (fun _ => (0.0 : Float)) 513 .phosphor .wrapped) (16415 * (64 * 513) + 32831)
      (Storage.wrapped.pixel (Palette.phosphor.shade (0.0 : Float))) := by
  have hin : 16415 * (64 * 513) + 32831 < width 513 * height 513 := by
    norm_num [width, height, screenWidth, screenHeight]
  exact ⟨by norm_num, by norm_num, not_shows _ _ _ (by norm_num) hin _⟩

end Picture
end Chip8
