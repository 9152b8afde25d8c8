/-
# `Chip8.Proofs.Overlay` — sprites on top of each other

A pixel only remembers how often it was flipped, and that modulo two.  So of
several sprites drawn one after another the screen keeps

    not the order        a list of drawings may be permuted
    not the pairs        a sprite drawn twice at one place is gone
    not the joints       a sprite is its upper rows, and then the lower ones
                         drawn that many rows further down

All three are facts about lists of flips (`toggles_perm`,
`toggles_append_self`, `toggles_append`), because a sprite is such a list and
drawing several sprites is drawing the lists one behind the other
(`drawAll_eq`).  Nothing is asked of the lists: sprites may overlap, and a
sprite taller than the screen overlaps itself.

The collision flag is another matter.  It does depend on the order, for it
tells what was lit when a flip came to it.  But the flips before and behind a
joint find what they found without it, so the flag of a sprite is that of its
upper or of its lower rows (`hits_append`).
-/
import Chip8.Proofs.Sprite

namespace Chip8

/-! ## Lists of flips -/

namespace Grid

variable {g h : Grid} {l l' : List (Fin 2048)}

theorem ext_get (hg : ∀ i : Fin 2048, g.get i = h.get i) : g = h :=
  Vector.ext fun i hi => hg ⟨i, hi⟩

/-- The order of flips leaves no trace. -/
theorem toggles_perm (g : Grid) (hl : l.Perm l') : g.toggles l = g.toggles l' := by
  refine ext_get fun i => ?_
  rw [get_toggles, get_toggles, hl.count_eq]

theorem toggles_append (g : Grid) (l l' : List (Fin 2048)) :
    g.toggles (l ++ l') = (g.toggles l).toggles l' := List.foldl_append

/-- Flips made twice are undone. -/
theorem toggles_append_self (g : Grid) (l : List (Fin 2048)) : (g.toggles l).toggles l = g := by
  refine ext_get fun i => ?_
  have heven : ¬ (l ++ l).count i % 2 = 1 := by rw [List.count_append]; omega
  rw [← toggles_append, get_toggles, decide_eq_false heven, Bool.xor_false]

/-- What the later flips find is what the earlier ones have left. -/
theorem hits_append (g : Grid) (l l' : List (Fin 2048)) :
    g.hits (l ++ l') = g.hits l + (g.toggles l).hits l' := by
  induction l generalizing g with
  | nil => simp [hits]
  | cons i l ih => rw [List.cons_append, hits, hits, ih, toggles_cons, Nat.add_assoc]

end Grid

/-! ## The flips of a sprite -/

theorem spriteCells_append (x y row : Nat) (a b : List UInt8) :
    spriteCells x y row (a ++ b) =
      spriteCells x y row a ++ spriteCells x y (row + a.length) b := by
  induction a generalizing row with
  | nil => rfl
  | cons bits rest ih =>
      have hrow : row + 1 + rest.length = row + (rest.length + 1) := by omega
      simp only [List.cons_append, spriteCells, ih, List.append_assoc, List.length_cons, hrow]

/-- To count the rows of a sprite from `k` is to draw it `k` rows further
down. -/
theorem spriteCells_lower (x y k row : Nat) (rows : List UInt8) :
    spriteCells x y (k + row) rows = spriteCells x (y + k) row rows := by
  induction rows generalizing row with
  | nil => rfl
  | cons bits rest ih =>
      have hcell : ∀ column, cell x y (k + row) column = cell x (y + k) row column := by
        intro column
        rw [cell, cell]
        simp only [Nat.add_assoc]
      rw [spriteCells, spriteCells, Nat.add_assoc, ih, rowCells, rowCells]
      congr 1
      exact List.map_congr_left fun column _ => hcell column

/-- A sprite is its upper rows and, further down, its lower ones. -/
theorem spriteCells_split (x y : Nat) (a b : List UInt8) :
    spriteCells x y 0 (a ++ b) =
      spriteCells x y 0 a ++ spriteCells x (y + a.length) 0 b := by
  rw [spriteCells_append, Nat.zero_add, ← spriteCells_lower, Nat.add_zero]

namespace Grid

theorem draw_draw (g : Grid) (x y : Nat) (rows : List UInt8) :
    ((g.draw x y rows).1.draw x y rows).1 = g := by
  simp only [draw_eq, toggles_append_self]

theorem draw_append (g : Grid) (x y : Nat) (a b : List UInt8) :
    g.draw x y (a ++ b) =
      (((g.draw x y a).1.draw x (y + a.length : Nat) b).1,
        (g.draw x y a).2 || ((g.draw x y a).1.draw x (y + a.length : Nat) b).2) := by
  simp only [draw_eq, spriteCells_split, toggles_append, hits_append, ← Bool.decide_or]
  congr 1
  exact decide_eq_decide.2 (by omega)

end Grid

/-! ## Drawing on the screen -/

/-- A sprite and where it is drawn. -/
structure Stamp where
  x : Nat
  y : Nat
  rows : List UInt8

/-- The pixels that a drawing flips. -/
def Stamp.cells (s : Stamp) : List (Fin 2048) := spriteCells s.x s.y 0 s.rows

namespace Display

variable {α : Type}

/-- The screen after a list of drawings. -/
def drawAll (d : Display α) (l : List Stamp) : Display α :=
  l.foldl (fun d s => (d.draw s.x s.y s.rows).1) d

/-- Drawings one after another are their flips one after another. -/
theorem drawAll_eq (d : Display α) (l : List Stamp) :
    d.drawAll l = { d with
      pixels := d.pixels.toggles (l.flatMap Stamp.cells)
      dirty := d.dirty || !l.isEmpty } := by
  induction l generalizing d with
  | nil => simp [drawAll]
  | cons s l ih =>
      have hfirst : d.drawAll (s :: l) = (d.draw s.x s.y s.rows).1.drawAll l := rfl
      rw [hfirst, ih, List.flatMap_cons, Grid.toggles_append]
      simp [draw, Grid.draw_eq, Stamp.cells]

end Display

/-- Drawings may be permuted; a sprite drawn twice in a row at one place
leaves the screen as it was, but for having been drawn on; and to draw a
sprite is to draw its upper rows and then its lower ones further down, with a
collision if there is one in either. -/
theorem drawing_superposes {α : Type} (d : Display α) :
    (∀ l l' : List Stamp, l.Perm l' → d.drawAll l = d.drawAll l') ∧
    (∀ (x y : Nat) (rows : List UInt8),
      ((d.draw x y rows).1.draw x y rows).1 = { d with dirty := true }) ∧
    (∀ (x y : Nat) (a b : List UInt8),
      let upper := d.draw x y a
      let lower := upper.1.draw x (y + a.length : Nat) b
      d.draw x y (a ++ b) = (lower.1, upper.2 || lower.2)) := by
  refine ⟨fun l l' h => ?_, fun x y rows => ?_, fun x y a b => ?_⟩
  -- The sprites of a permutation have their flips in another order.
  · have hcells : (l.flatMap Stamp.cells).Perm (l'.flatMap Stamp.cells) :=
      h.flatMap_right Stamp.cells
    rw [Display.drawAll_eq, Display.drawAll_eq, Grid.toggles_perm _ hcells, h.isEmpty_eq]
  · simp only [Display.draw, Grid.draw_draw]
  · simp only [Display.draw, Grid.draw_append]

/-- A sprite of 33 rows in the lower right corner covers its own first row, and
a second one lies across it. -/
theorem drawing_superposes_in_the_corner :
    let d : Display Float := Display.initial 0
    let tall : Stamp := ⟨60, 31, List.replicate 33 0xFF⟩
    let low : Stamp := ⟨63, 31, [0x81, 0x7E]⟩
    [tall, low].Perm [low, tall] ∧ d.drawAll [tall, low] = d.drawAll [low, tall] := by
  intro d tall low
  have hswap : [tall, low].Perm [low, tall] := List.Perm.swap low tall []
  exact ⟨hswap, (drawing_superposes d).1 _ _ hswap⟩

end Chip8
