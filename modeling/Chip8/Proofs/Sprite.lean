/-
# `Chip8.Proofs.Sprite` — what drawing a sprite does to the screen

Drawing flips pixels one after another and asks at every flip whether the
pixel was lit.  Both of its results, the grid and the flag, are said here
without the order in which the flips are made:

    a pixel     its old value, turned over as often as the sprite covers it
    the flag    fewer pixels are lit than if every flip had lit one

**Flips.**  A list of flips acts on a pixel by the parity of its count
(`get_toggles`).  The flag is about the flips that found their pixel lit
(`hits`).  Each of these puts a pixel out, and each other one lights a pixel,
which is the balance `litCount_toggles`.

**Covering.**  The pixel of a column of a row is found by two remainders.
Modulo 64 the columns of one row fall on different pixels, so a row covers a
pixel once or not at all (`count_rowCells`).  Modulo 32 the rows of a sprite
fall on different rows of the screen only if there are at most 32 of them.
Then no pixel is flipped twice (`nodup_spriteCells`), and the flag says that
some pixel went out.  In a taller sprite a pixel may be flipped on and off
again, which raises the flag and leaves no trace.
-/
import Chip8.Machine.Encoded
import Chip8.Proofs.Atomicity
import Mathlib.Algebra.GroupWithZero.Nat
import Mathlib.Data.List.Nodup

namespace Chip8

/-! ## Flips -/

namespace Grid

/-- The grid with one pixel flipped. -/
def toggle (g : Grid) (i : Fin 2048) : Grid := g.setIfInBounds i (!g.get i)

/-- The grid after a list of flips. -/
def toggles (g : Grid) (l : List (Fin 2048)) : Grid := l.foldl toggle g

/-- How many flips find their pixel lit. -/
def hits (g : Grid) : List (Fin 2048) → Nat
  | [] => 0
  | i :: l => (if g.get i then 1 else 0) + (g.toggle i).hits l

variable {g : Grid} {i j : Fin 2048} {l : List (Fin 2048)}

@[simp] theorem toggles_nil (g : Grid) : g.toggles [] = g := rfl

@[simp] theorem toggles_cons (g : Grid) (i : Fin 2048) (l : List (Fin 2048)) :
    g.toggles (i :: l) = (g.toggle i).toggles l := rfl

/-- Drawing flips a pixel and remembers whether it was lit. -/
theorem flip_eq (g : Grid) (lit : Bool) (i : Fin 2048) :
    flip (g, lit) (i.val : Int) = (g.toggle i, lit || g.get i) := by
  have hset : g.set i (!g[i]) = g.toggle i :=
    Vector.toList_inj.1 ((Vector.toList_set i.isLt).trans Vector.toList_setIfInBounds.symm)
  exact (dif_pos i.isLt).trans (congrArg (·, lit || g[i]) hset)

/-- A flip turns one pixel over. -/
theorem get_toggle (g : Grid) (i j : Fin 2048) :
    (g.toggle i).get j = (g.get j ^^ decide (i = j)) := by
  have hset : (g.toggle i).get j = if i.val = j.val then !g.get i else g.get j :=
    Vector.getElem_setIfInBounds j.isLt
  rw [hset]
  by_cases h : i = j
  · rw [if_pos (congrArg Fin.val h), decide_eq_true h, h, Bool.xor_true]
  · rw [if_neg fun hv => h (Fin.ext hv), decide_eq_false h, Bool.xor_false]

/-- A list of flips turns a pixel over as often as it is in the list. -/
theorem get_toggles (g : Grid) (l : List (Fin 2048)) (j : Fin 2048) :
    (g.toggles l).get j = (g.get j ^^ decide (l.count j % 2 = 1)) := by
  induction l generalizing g with
  | nil => simp
  | cons i l ih =>
      rw [toggles_cons, ih, get_toggle, Bool.xor_assoc, List.count_cons]
      congr 1
      by_cases h : i = j
      · rw [decide_eq_true h, if_pos (beq_iff_eq.2 h), Bool.true_xor, ← decide_not]
        exact decide_eq_decide.2 (by omega)
      · rw [decide_eq_false h, if_neg (mt beq_iff_eq.1 h), Bool.false_xor, Nat.add_zero]

/-- A flip lights a pixel or puts one out. -/
theorem litCount_toggle (g : Grid) (i : Fin 2048) :
    (g.toggle i).litCount + 2 * (if g.get i then 1 else 0) = g.litCount + 1 := by
  have hi : i.val < g.toList.length := by rw [Vector.length_toList]; exact i.isLt
  -- a lit pixel is among those counted, so no difference below is cut off at zero
  have hle := List.boole_getElem_le_countP (p := id) hi
  have hset : (g.toggle i).litCount = (g.toList.set i.val (!g.get i)).countP id := by
    rw [litCount, toggle, Vector.toList_setIfInBounds]
  rw [hset, List.countP_set hi, litCount]
  rw [show g.toList[i.val] = g.get i from Vector.getElem_toList hi] at hle ⊢
  generalize g.toList.countP id = n at hle ⊢
  generalize g.get i = lit at hle ⊢
  cases lit with
  | false =>
      simp only [id, Bool.not_false, Bool.false_eq_true, if_true, if_false]
      omega
  | true =>
      simp only [id, Bool.not_true, Bool.false_eq_true, if_true, if_false] at hle ⊢
      omega

/-- Every flip lights a pixel, but for those that find it lit. -/
theorem litCount_toggles (g : Grid) (l : List (Fin 2048)) :
    (g.toggles l).litCount + 2 * g.hits l = g.litCount + l.length := by
  induction l generalizing g with
  | nil => rfl
  | cons i l ih =>
      have hone := g.litCount_toggle i
      have hrest := ih (g.toggle i)
      rw [toggles_cons, hits, List.length_cons]
      omega

/-- The fold that draws makes the flips, and remembers whether one of them
found its pixel lit. -/
theorem foldl_flip (g : Grid) (lit : Bool) (l : List (Fin 2048)) :
    (l.map fun i => ((i.val : Nat) : Int)).foldl flip (g, lit) =
      (g.toggles l, lit || decide (0 < g.hits l)) := by
  induction l generalizing g lit with
  | nil => simp [hits]
  | cons i l ih =>
      rw [List.map_cons, List.foldl_cons, flip_eq, ih, toggles_cons, hits]
      cases g.get i with
      | false => simp
      | true => simp [show 0 < 1 + (g.toggle i).hits l by omega]

/-- If no pixel is flipped twice, a flip finds its pixel lit if it was lit to
begin with. -/
theorem hits_pos_iff (hl : l.Nodup) : 0 < g.hits l ↔ ∃ i ∈ l, g.get i = true := by
  induction l generalizing g with
  | nil => simp [hits]
  | cons i l ih =>
      obtain ⟨hi, hl⟩ := List.nodup_cons.1 hl
      have hsame : ∀ j ∈ l, (g.toggle i).get j = g.get j := by
        intro j hj
        have hne : ¬ i = j := fun h => hi (h ▸ hj)
        rw [get_toggle, decide_eq_false hne, Bool.xor_false]
      have hrest : (∃ j ∈ l, (g.toggle i).get j = true) ↔ ∃ j ∈ l, g.get j = true :=
        exists_congr fun j => and_congr_right fun hj => by rw [hsame j hj]
      rw [hits]
      simp only [List.mem_cons, exists_eq_or_imp, ← hrest, ← ih hl]
      cases g.get i with
      | false => simp
      | true => simp [show 0 < 1 + (g.toggle i).hits l by omega]

end Grid

/-! ## Covering -/

/-- The pixel of a column of a row of a sprite. -/
def cell (x y row column : Nat) : Fin 2048 :=
  ⟨(y + row) % 32 * 64 + (x + column) % 64, by omega⟩

/-- The pixels of one row. -/
def rowCells (x y row : Nat) (bits : UInt8) : List (Fin 2048) :=
  (setColumns bits).map (cell x y row)

/-- The pixels of a sprite whose first row has the number `row`. -/
def spriteCells (x y row : Nat) : List UInt8 → List (Fin 2048)
  | [] => []
  | bits :: rest => rowCells x y row bits ++ spriteCells x y (row + 1) rest

/-- The number of set bits of a byte. -/
def setBits (bits : UInt8) : Nat := (List.range 8).countP bits.toNat.testBit

/-- The index of the pixel at coordinates on the screen. -/
def pixelIndex (px : Fin 64) (py : Fin 32) : Fin 2048 := ⟨py.val * 64 + px.val, by omega⟩

/-- The column of a sprite at `x` that falls on a column of the screen. -/
def columnAt (x px : Nat) : Nat := (((px : Int) - x) % 64).toNat

/-- Whether a row of a sprite covers a pixel: it falls on the row of the
pixel, and the bit of the column that falls on its column is set. -/
def covers (x y : Nat) (px : Fin 64) (py : Fin 32) (row : Nat) (bits : UInt8) : Bool :=
  (y + row) % 32 = py.val && (columnAt x px < 8 && bits.toNat.testBit (7 - columnAt x px))

/-- How many rows of a sprite cover a pixel. -/
def covering (x y : Nat) (px : Fin 64) (py : Fin 32) (rows : List UInt8) : Nat :=
  (List.range rows.length).countP fun row => covers x y px py row (rows.getD row 0)

section Covering

variable {x y row column : Nat} {bits : UInt8} {rows : List UInt8} {px : Fin 64} {py : Fin 32}

theorem spriteIndex_eq (x y row column : Nat) :
    spriteIndex x y row column = ((cell x y row column).val : Int) := by
  simp only [spriteIndex, cell, screenWidth, screenHeight, ← Int.ofNat_tmod, ← Int.natCast_add]
  omega

theorem spriteIndices_eq (x y row : Nat) (rows : List UInt8) :
    spriteIndices x y row rows = (spriteCells x y row rows).map fun i => ((i.val : Nat) : Int) := by
  induction rows generalizing row with
  | nil => rfl
  | cons bits rest ih =>
      rw [spriteIndices, spriteCells, List.map_append, ih, rowIndices, rowCells, List.map_map]
      congr 1
      exact List.map_congr_left fun column _ => spriteIndex_eq x y row column

/-- The columns of one row fall on different pixels. -/
theorem cell_eq_pixelIndex (hc : column < 64) :
    cell x y row column = pixelIndex px py ↔ (y + row) % 32 = py.val ∧ column = columnAt x px := by
  rw [Fin.ext_iff]
  simp only [cell, pixelIndex, columnAt]
  omega

theorem mem_setColumns : column ∈ setColumns bits ↔ column < 8 ∧ bits.toNat.testBit (7 - column) := by
  rw [setColumns, List.mem_filter, List.mem_range]

theorem mem_rowCells : pixelIndex px py ∈ rowCells x y row bits ↔ covers x y px py row bits := by
  rw [rowCells, List.mem_map]
  simp only [covers, Bool.and_eq_true, decide_eq_true_eq]
  constructor
  · rintro ⟨column, hmem, hcell⟩
    obtain ⟨hlt, hbit⟩ := mem_setColumns.1 hmem
    obtain ⟨hrow, rfl⟩ := (cell_eq_pixelIndex (by omega)).1 hcell
    exact ⟨hrow, hlt, hbit⟩
  · rintro ⟨hrow, hlt, hbit⟩
    exact ⟨columnAt x px, mem_setColumns.2 ⟨hlt, hbit⟩, (cell_eq_pixelIndex (by omega)).2 ⟨hrow, rfl⟩⟩

theorem nodup_rowCells (x y row : Nat) (bits : UInt8) : (rowCells x y row bits).Nodup := by
  refine List.Nodup.map_on ?_ (List.nodup_range.filter _)
  intro a ha b hb h
  have ha := (mem_setColumns.1 ha).1
  have hb := (mem_setColumns.1 hb).1
  have hv := congrArg Fin.val h
  simp only [cell] at hv
  omega

/-- A row covers a pixel once or not at all. -/
theorem count_rowCells :
    (rowCells x y row bits).count (pixelIndex px py) = if covers x y px py row bits then 1 else 0 := by
  rw [(nodup_rowCells x y row bits).count]
  simp only [mem_rowCells]

theorem count_spriteCells (x y row : Nat) (rows : List UInt8) (px : Fin 64) (py : Fin 32) :
    (spriteCells x y row rows).count (pixelIndex px py) =
      (List.range rows.length).countP fun r => covers x y px py (row + r) (rows.getD r 0) := by
  induction rows generalizing row with
  | nil => rfl
  | cons bits rest ih =>
      rw [spriteCells, List.count_append, count_rowCells, ih, List.length_cons,
        List.range_succ_eq_map, List.countP_cons, List.countP_map, Nat.add_comm]
      congr 1
      refine List.countP_congr fun r _ => ?_
      simp only [Function.comp, Nat.succ_eq_add_one, List.getD_cons_succ]
      rw [Nat.add_assoc, Nat.add_comm 1 r]

theorem length_setColumns (bits : UInt8) : (setColumns bits).length = setBits bits := by
  rw [setColumns, ← List.countP_eq_length_filter, setBits]
  simp only [show List.range 8 = [0, 1, 2, 3, 4, 5, 6, 7] from rfl, List.countP_cons,
    List.countP_nil, Nat.reduceSub]
  omega

theorem length_spriteCells (x y row : Nat) (rows : List UInt8) :
    (spriteCells x y row rows).length = (rows.map setBits).sum := by
  induction rows generalizing row with
  | nil => rfl
  | cons bits rest ih =>
      rw [spriteCells, List.length_append, rowCells, List.length_map, length_setColumns, ih,
        List.map_cons, List.sum_cons]

/-- Of at most 32 rows only one falls on the row of a pixel. -/
theorem covering_le_one (h : rows.length ≤ 32) : covering x y px py rows ≤ 1 := by
  -- of the numbers below 32 only this one falls on the row of the pixel
  let row := (((py.val : Int) - y) % 32).toNat
  have hle : covering x y px py rows ≤ (List.range rows.length).count row := by
    rw [covering, List.count_eq_countP]
    refine List.countP_mono_left fun r hr hcovers => ?_
    have hr := List.mem_range.1 hr
    simp only [covers, Bool.and_eq_true, decide_eq_true_eq] at hcovers
    simp only [row, beq_iff_eq]
    omega
  exact Nat.le_trans hle (List.nodup_iff_count_le_one.1 List.nodup_range row)

theorem exists_pixelIndex (i : Fin 2048) : ∃ px py, i = pixelIndex px py :=
  ⟨⟨i.val % 64, by omega⟩, ⟨i.val / 64, by omega⟩, Fin.ext (by simp only [pixelIndex]; omega)⟩

/-- At most 32 rows flip no pixel twice. -/
theorem nodup_spriteCells (h : rows.length ≤ 32) : (spriteCells x y 0 rows).Nodup := by
  refine List.nodup_iff_count_le_one.2 fun i => ?_
  obtain ⟨px, py, rfl⟩ := exists_pixelIndex i
  rw [count_spriteCells]
  simp only [Nat.zero_add]
  exact covering_le_one h

end Covering

/-! ## Drawing -/

namespace Grid

/-- The pixel at coordinates on the screen. -/
def pixel (g : Grid) (px : Fin 64) (py : Fin 32) : Bool := g.get (pixelIndex px py)

variable {g : Grid} {x y : Nat} {rows : List UInt8}

theorem draw_eq (g : Grid) (x y : Nat) (rows : List UInt8) :
    g.draw x y rows =
      (g.toggles (spriteCells x y 0 rows), decide (0 < g.hits (spriteCells x y 0 rows))) := by
  rw [draw, spriteIndices_eq, foldl_flip, Bool.false_or]

/-- A pixel is turned over as often as the sprite covers it. -/
theorem pixel_draw (g : Grid) (x y : Nat) (rows : List UInt8) (px : Fin 64) (py : Fin 32) :
    (g.draw x y rows).1.pixel px py =
      (g.pixel px py ^^ decide (covering x y px py rows % 2 = 1)) := by
  rw [draw_eq, pixel, get_toggles, count_spriteCells]
  simp only [Nat.zero_add]
  rfl

/-- The flag says that not every flip has lit a pixel. -/
theorem draw_flag_iff (g : Grid) (x y : Nat) (rows : List UInt8) :
    (g.draw x y rows).2 = true ↔
      (g.draw x y rows).1.litCount < g.litCount + (rows.map setBits).sum := by
  have hbalance := g.litCount_toggles (spriteCells x y 0 rows)
  rw [length_spriteCells] at hbalance
  rw [draw_eq, decide_eq_true_eq]
  simp only
  omega

/-- For at most 32 rows the flag says that a pixel was lit and is dark. -/
theorem draw_flag_iff_exists (h : rows.length ≤ 32) :
    (g.draw x y rows).2 = true ↔
      ∃ px py, g.pixel px py = true ∧ (g.draw x y rows).1.pixel px py = false := by
  have hnodup := nodup_spriteCells (x := x) (y := y) h
  simp only [draw_eq, decide_eq_true_eq, hits_pos_iff hnodup]
  constructor
  · rintro ⟨i, hmem, hlit⟩
    obtain ⟨px, py, rfl⟩ := exists_pixelIndex i
    refine ⟨px, py, hlit, ?_⟩
    rw [pixel, get_toggles, hnodup.count, if_pos hmem, hlit]
    rfl
  · rintro ⟨px, py, hlit, hdark⟩
    refine ⟨pixelIndex px py, ?_, hlit⟩
    by_contra hmem
    rw [pixel, get_toggles, hnodup.count, if_neg hmem] at hdark
    rw [pixel] at hlit
    rw [hlit] at hdark
    cases hdark

end Grid

/-! ## The instruction -/

namespace Machine

variable {m : Machine} {w : Nat} {x y n : Int}

/-- The rows of a sprite are as many as the instruction says. -/
theorem readRange_of_draw (hn : Instruction.IsDigit n)
    (h : Memory.outside? m.cpu.i n .read = none) :
    ∃ rows, m.memory.readRange m.cpu.i n = .ok rows ∧ (rows.length : Int) = n := by
  obtain ⟨i, -, hr⟩ := Memory.readRange_of_inside (m := m.memory) h
  exact ⟨_, hr, Memory.length_of_readRange hn.1 hr⟩

/-- A sprite is drawn at the coordinates in two registers, VF not excepted,
and VF becomes the flag. -/
theorem step_of_draw (hd : m.fetchDecode = .ok (w, .draw x y n)) (hs : m.stop? = none) :
    ∃ rows, m.memory.readRange m.cpu.i n = .ok rows ∧ (rows.length : Int) = n ∧
      let drawn := m.display.pixels.draw (m.cpu.reg x).toNat (m.cpu.reg y).toNat rows
      m.step = ({ m with
        display := { m.display with pixels := drawn.1, dirty := true }
        cpu := { m.cpu.setFlag drawn.2 with
          pc := m.cpu.pc + 2
          cycles := m.cpu.cycles + 1 } }, .ok (.draw x y n)) := by
  obtain ⟨hx, hy, hn⟩ := fetchDecode_inRange hd
  have hpc := movePc_pc hd
  rw [stop?_of_fetchDecode_ok hd] at hs
  obtain ⟨rows, hrows, hlen⟩ := readRange_of_draw (m := m) hn hs
  refine ⟨rows, hrows, hlen, ?_⟩
  have hmove : m.movePc 2 = { m with cpu := { m.cpu with pc := m.cpu.pc + 2 } } := by
    rw [← hpc]
    rfl
  have hx' : ({ m.cpu with pc := m.cpu.pc + 2 } : Cpu).reg? x = some (m.cpu.reg x) :=
    Cpu.reg?_digit hx
  have hy' : ({ m.cpu with pc := m.cpu.pc + 2 } : Cpu).reg? y = some (m.cpu.reg y) :=
    Cpu.reg?_digit hy
  rw [step, hd, hmove]
  simp only [execute, drawRows, hrows, hx', hy']
  rfl

end Machine

/-- What drawing does, for sprites of any height at any coordinates.  Only
pixels of the screen are touched; each is turned over as often as the sprite
covers it; and the flag says that not every flip has lit a pixel, which for at
most 32 rows means that some pixel went out.  The instruction draws at most 15
rows.  It takes the coordinates from the registers as they were, VF not
excepted, and the flag goes to VF and nowhere else. -/
theorem sprite_semantics :
    (∀ (g : Grid) (x y : Nat) (rows : List UInt8),
      (∀ i ∈ spriteIndices x y 0 rows, 0 ≤ i ∧ i < 2048) ∧
      (∀ b ∈ (g.draw x y rows).1.bytes, b = 0 ∨ b = 1) ∧
      (∀ (px : Fin 64) (py : Fin 32), (g.draw x y rows).1.pixel px py =
        (g.pixel px py ^^ decide (covering x y px py rows % 2 = 1))) ∧
      ((g.draw x y rows).2 = true ↔
        (g.draw x y rows).1.litCount < g.litCount + (rows.map setBits).sum) ∧
      (rows.length ≤ 32 → ((g.draw x y rows).2 = true ↔
        ∃ px py, g.pixel px py = true ∧ (g.draw x y rows).1.pixel px py = false))) ∧
    (∀ (m : Machine) (x y n : Int), m.step.2 = .ok (.draw x y n) →
      ∃ rows, m.memory.readRange m.cpu.i n = .ok rows ∧ rows.length ≤ 15 ∧
        (rows.length : Int) = n ∧
        let drawn := m.display.pixels.draw (m.cpu.reg x).toNat (m.cpu.reg y).toNat rows
        m.step.1.display.pixels = drawn.1 ∧
          m.step.1.cpu.reg? 15 = some (if drawn.2 then 1 else 0) ∧
          ∀ q, q ≠ 15 → m.step.1.cpu.reg? q = m.cpu.reg? q) := by
  refine ⟨fun g x y rows => ?_, fun m x y n hstep => ?_⟩
  · refine ⟨?_, Grid.bytes_le_one _, g.pixel_draw x y rows, g.draw_flag_iff x y rows,
      Grid.draw_flag_iff_exists⟩
    rw [spriteIndices_eq]
    intro i hi
    obtain ⟨j, -, rfl⟩ := List.mem_map.1 hi
    omega
  · obtain ⟨w, -, hs, hd, -, -⟩ := Machine.step_of_ok hstep
    obtain ⟨-, -, hn⟩ := Machine.fetchDecode_inRange hd
    obtain ⟨rows, hrows, hlen, hdrawn⟩ := Machine.step_of_draw hd hs
    refine ⟨rows, hrows, by have := hn.2; omega, hlen, ?_⟩
    simp only [hdrawn]
    refine ⟨trivial, ?_, fun q hq => ?_⟩
    · exact (m.cpu.reg?_setReg 15 15 _).trans (if_pos (by decide))
    · exact (m.cpu.reg?_setReg 15 q _).trans (if_neg fun h => hq h.1)

/-- A row of eight pixels at the lower right corner wraps around on a dark
screen.  Drawn at the coordinates in VF, a row takes VF as it was. -/
theorem sprite_semantics_at_the_corner :
    let m : Machine :=
      { Machine.initial 0 (RandomSource.cycle #[]) with
        memory := Memory.initial.put 0 [0xDF, 0xF1]
        cpu := (Cpu.initial 0).setReg 15 63 }
    [(0xFF : UInt8)].length ≤ 32 ∧
      ((Grid.dark.draw (63 : Nat) (31 : Nat) [0xFF]).2 = true ↔
        ∃ px py, Grid.dark.pixel px py = true ∧
          (Grid.dark.draw (63 : Nat) (31 : Nat) [0xFF]).1.pixel px py = false) ∧
      m.step.2 = .ok (.draw 15 15 1) ∧
      ∃ rows, m.memory.readRange m.cpu.i 1 = .ok rows ∧
        m.step.1.display.pixels = (m.display.pixels.draw (63 : Nat) (63 : Nat) rows).1 := by
  intro m
  have hshort : [(0xFF : UInt8)].length ≤ 32 := by decide
  have hstep : m.step.2 = .ok (.draw 15 15 1) := by
    have h : m.step.2.toOption = some (.draw 15 15 1) := by
      simp only [m]
      decide +kernel
    cases hs : m.step.2 with
    | error e => rw [hs] at h; cases h
    | ok ins => rw [hs] at h; cases h; rfl
  obtain ⟨-, -, -, -, hflag⟩ := sprite_semantics.1 Grid.dark 63 31 [0xFF]
  obtain ⟨rows, hrows, -, -, hpixels, -⟩ := sprite_semantics.2 m 15 15 1 hstep
  exact ⟨hshort, hflag hshort, hstep, rows, hrows, hpixels⟩

end Chip8
