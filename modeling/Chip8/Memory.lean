/-
# `Chip8.Memory` — 4 KiB of bytes behind a bounds check

The memory is a vector of 4096 bytes.  Every access goes through `check`,
which is the only place that decides whether a range `[addr, addr + len)`
lies inside.  If it does not, the fault carries the first address of the
range that is outside: the address itself if it is negative or not whole,
otherwise the larger of the address and 4096.  An empty range is inside
wherever it begins, as long as it does not begin below zero.

What a write or a copy leaves behind is the memory after it, together with
what stopped it, if anything.

Reading a range is a copy from `addr` to `addr + len`.  A host may ask for a
negative length; the range is then empty as far as the check is concerned,
and an end below zero is counted back from the end of the memory.

Power-on memory is zero except for the sixteen glyphs of the hexadecimal
digits, five rows each.  Programs begin at `0x200`; a reset clears the bytes
from there on, restores the glyphs, and leaves the bytes below alone.
-/
import Chip8.Fault

namespace Chip8

/-- The number of bytes. -/
def memorySize : Nat := 4096

/-- Where programs begin. -/
def programStart : Nat := 0x200

/-- The number of bytes a program may have. -/
def programCapacity : Nat := 3584

/-- Where the glyphs begin. -/
def fontBase : Nat := 0x50

/-- The rows of a glyph. -/
def glyphRows : Nat := 5

/-- The glyphs of the digits 0 to F, row after row. -/
def font : List UInt8 :=
  [0xF0, 0x90, 0x90, 0x90, 0xF0,
   0x20, 0x60, 0x20, 0x20, 0x70,
   0xF0, 0x10, 0xF0, 0x80, 0xF0,
   0xF0, 0x10, 0xF0, 0x10, 0xF0,
   0x90, 0x90, 0xF0, 0x10, 0x10,
   0xF0, 0x80, 0xF0, 0x10, 0xF0,
   0xF0, 0x80, 0xF0, 0x90, 0xF0,
   0xF0, 0x10, 0x20, 0x40, 0x40,
   0xF0, 0x90, 0xF0, 0x90, 0xF0,
   0xF0, 0x90, 0xF0, 0x10, 0xF0,
   0xF0, 0x90, 0xF0, 0x90, 0x90,
   0xE0, 0x90, 0xE0, 0x90, 0xE0,
   0xF0, 0x80, 0x80, 0x80, 0xF0,
   0xE0, 0x90, 0x90, 0x90, 0xE0,
   0xF0, 0x80, 0xF0, 0x80, 0xF0,
   0xF0, 0x80, 0xF0, 0x80, 0x80]

/-- The bytes of a machine. -/
structure Memory where
  cells : Vector UInt8 4096
deriving DecidableEq

namespace Memory

/-! ## The bounds check -/

/-- The address as an index, if the `len` bytes from there on are inside. -/
def check (addr : Number) (len : Int) (access : Access) : Except Fault Nat :=
  match addr with
  | .other x => .error (.memoryBounds (.other x) access)
  | .whole a =>
      if a < 0 then .error (.memoryBounds (.whole a) access)
      else if 0 < len ∧ (memorySize : Int) < a + len then
        .error (.memoryBounds (.whole (max a memorySize)) access)
      else .ok a.toNat

/-! ## Reading -/

/-- The byte at an index; outside there are zeros. -/
def byteAt (m : Memory) (i : Nat) : UInt8 := m.cells[i]?.getD 0

/-- The byte at an address. -/
def read (m : Memory) (addr : Number) : Except Fault UInt8 :=
  (check addr 1 .read).map m.byteAt

/-- The big-endian word at an index. -/
def wordAt (m : Memory) (i : Nat) : Nat := (m.byteAt i).toNat * 256 + (m.byteAt (i + 1)).toNat

/-- The big-endian word at an address, as an instruction is fetched. -/
def fetch (m : Memory) (addr : Number) : Except Fault Nat :=
  (check addr 2 .fetch).map m.wordAt

/-- The index at which a copy ends: one below zero counts back from the end
of the memory. -/
def endIndex (stop : Int) : Nat :=
  if stop < 0 then (memorySize + stop).toNat else min stop.toNat memorySize

/-- The bytes from an index up to an end. -/
def slice (m : Memory) (start : Nat) (stop : Int) : List UInt8 :=
  (m.cells.extract start (endIndex stop)).toList

/-- A copy of the `len` bytes at an address. -/
def readRange (m : Memory) (addr : Number) (len : Int) : Except Fault (List UInt8) :=
  (check addr len .read).map fun start => m.slice start (start + len)

/-- The number of bytes from an index on that a host means by a length and
an end that need not be whole.  The end counts without its fraction.  Past
the end of the memory the length is one that no index admits. -/
def lengthTo (start : Int) (len stop : Number) : Int :=
  if Number.lt 0 len && Number.lt memorySize stop then memorySize + 1
  else stop.extent - start

/-- A copy of the bytes at an address, of a length that need not be whole. -/
def readSpan (m : Memory) (addr len : Number) : Except Fault (List UInt8) :=
  match addr with
  | .whole a => m.readRange a (lengthTo a len (.whole a + len))
  | .other x => m.readRange (.other x) 0

/-! ## Writing -/

/-- Puts bytes from an index on. -/
def put (m : Memory) (i : Nat) : List UInt8 → Memory
  | [] => m
  | b :: bs => put ⟨m.cells.setIfInBounds i b⟩ (i + 1) bs

/-- Writes the low eight bits of a value. -/
def write (m : Memory) (addr value : Number) : Memory × Option Fault :=
  match check addr 1 .write with
  | .error f => (m, some f)
  | .ok i => (m.put i [value.byte], none)

/-- Copies bytes to an address.  Copying nothing is refused past the end. -/
def load (m : Memory) (data : List UInt8) (addr : Number) : Memory × Option Failure :=
  match check addr data.length .write with
  | .error f => (m, some (.fault f))
  | .ok i =>
      if data.isEmpty && memorySize < i then (m, some (.rejected .offset))
      else (m.put i data, none)

/-! ## Power-on and reset -/

/-- The memory with the glyphs in place. -/
def installFont (m : Memory) : Memory := m.put fontBase font

/-- Power-on memory. -/
def initial : Memory := installFont ⟨Vector.replicate 4096 0⟩

/-- Clears the bytes from the program start on. -/
def clearProgram (m : Memory) : Memory :=
  ⟨m.cells.mapIdx fun i b => if i < programStart then b else 0⟩

/-- Clears the program region and restores the glyphs. -/
def reset (m : Memory) : Memory := m.clearProgram.installFont

/-! ## What a read gives -/

/-- A memory is what can be read from it. -/
theorem ext_byteAt {m m' : Memory} (h : ∀ i, m.byteAt i = m'.byteAt i) : m = m' := by
  obtain ⟨cells⟩ := m
  obtain ⟨cells'⟩ := m'
  congr 1
  apply Vector.ext
  intro i hi
  have hb := h i
  simp only [byteAt, Vector.getElem?_eq_getElem hi, Option.getD_some] at hb
  exact hb

/-- An address that passes the check is the index itself, and the range lies
inside. -/
theorem check_eq_ok {addr : Number} {len : Int} {access : Access} {i : Nat}
    (h : check addr len access = .ok i) :
    addr = .whole i ∧ (0 < len → i + len ≤ memorySize) := by
  cases addr with
  | other x => cases h
  | whole a =>
    unfold check at h
    by_cases ha : a < 0
    · simp [ha] at h
    · by_cases hl : 0 < len ∧ (memorySize : Int) < a + len
      · simp [ha, hl] at h
      · simp only [ha, hl, if_false, Except.ok.injEq] at h
        refine ⟨congrArg Number.whole (by omega), fun hp => ?_⟩
        have : ¬ (memorySize : Int) < a + len := fun hm => hl ⟨hp, hm⟩
        omega

/-- A copy has the length that was asked for. -/
theorem length_of_readRange {m : Memory} {addr : Number} {len : Int} {bytes : List UInt8}
    (hlen : 0 ≤ len) (h : m.readRange addr len = .ok bytes) : (bytes.length : Int) = len := by
  unfold readRange at h
  cases hc : check addr len .read with
  | error f => rw [hc] at h; cases h
  | ok i =>
    rw [hc] at h
    cases h
    have hfit := (check_eq_ok hc).2
    simp only [slice, endIndex, memorySize, Vector.length_toList] at hfit ⊢
    rw [if_neg (by omega)]
    omega

/-- A copy inside the memory holds the bytes that stand there. -/
theorem getElem?_slice (m : Memory) {i n j : Nat} (h : i + n ≤ memorySize) (hj : j < n) :
    (m.slice i (i + n))[j]? = some (m.byteAt (i + j)) := by
  simp only [memorySize] at h
  have hl : j < (m.slice i (i + n)).length := by
    simp only [slice, endIndex, memorySize, Vector.length_toList]
    rw [if_neg (by omega)]
    omega
  rw [List.getElem?_eq_getElem hl]
  simp only [slice, Vector.getElem_toList, Vector.getElem_extract, byteAt]
  rw [Vector.getElem?_eq_getElem (by omega), Option.getD_some]

/-! ## What a write changes -/

/-- A write reaches no index in front of it. -/
theorem byteAt_put_of_lt (m : Memory) (bytes : List UInt8) {i j : Nat} (h : j < i) :
    (m.put i bytes).byteAt j = m.byteAt j := by
  induction bytes generalizing m i with
  | nil => rfl
  | cons b rest ih =>
    rw [put, ih _ (by omega)]
    simp only [byteAt]
    rw [Vector.getElem?_setIfInBounds_ne (by omega)]

/-- Within the memory a write decides about the indices that it covers, and
about no others. -/
theorem byteAt_put (m : Memory) (bytes : List UInt8) {i : Nat} (j : Nat)
    (h : i + bytes.length ≤ memorySize) :
    (m.put i bytes).byteAt j =
      if i ≤ j ∧ j < i + bytes.length then bytes.getD (j - i) 0 else m.byteAt j := by
  induction bytes generalizing m i with
  | nil => rw [if_neg (by simp only [List.length_nil]; omega)]; rfl
  | cons b rest ih =>
    simp only [List.length_cons, memorySize] at h
    rcases Nat.lt_trichotomy j i with hj | rfl | hj
    · rw [byteAt_put_of_lt _ _ hj, if_neg (by omega)]
    · rw [put, byteAt_put_of_lt _ _ (Nat.lt_succ_self j), if_pos (by simp)]
      simp [byteAt, show j < 4096 by omega]
    · rw [put, ih _ (by simp only [memorySize]; omega)]
      obtain ⟨k, rfl⟩ : ∃ k, j = i + 1 + k := ⟨j - (i + 1), by omega⟩
      have hk : i + 1 + k - (i + 1) = k := by omega
      have hk' : i + 1 + k - i = k + 1 := by omega
      have hm : (⟨m.cells.setIfInBounds i b⟩ : Memory).byteAt (i + 1 + k) =
          m.byteAt (i + 1 + k) := by
        simp only [byteAt]
        rw [Vector.getElem?_setIfInBounds_ne (by omega)]
      simp only [hk, hk', hm, List.length_cons, List.getD_cons_succ]
      congr 1
      simp only [eq_iff_iff]
      omega

/-- Clearing leaves the bytes below the program start alone. -/
theorem byteAt_clearProgram (m : Memory) (i : Nat) :
    m.clearProgram.byteAt i = if i < programStart then m.byteAt i else 0 := by
  by_cases hi : i < 4096
  · simp only [byteAt, clearProgram, Vector.getElem?_mapIdx]
    rw [Vector.getElem?_eq_getElem hi]
    split <;> rfl
  · simp [byteAt, clearProgram, Vector.getElem?_eq_none (Nat.le_of_not_lt hi)]

end Memory
end Chip8
