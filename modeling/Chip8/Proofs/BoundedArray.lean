/-
# `Chip8.Proofs.BoundedArray` — the memory is an array with bounds

A host reaches the memory in five ways.  Each is about a range of `n`
addresses that begins at `a`:

| request | n | answer |
| :-- | :-- | :-- |
| `read` | 1 | the byte |
| `write v` | 1 | |
| `fetch` | 2 | the word, high byte first |
| `readRange n` | n | the bytes |
| `load data` | the length of `data` | |

One rule holds for all of them.  The request is granted if `[a, a + n)` lies in
`[0, 4096)`.  Otherwise it is refused, the memory stays what it was, and the
fault names

    the least element of  [a, a + n) \ [0, 4096).

Nothing searches for that address.  It is `a` if `a` is negative, and the larger
of `a` and 4096 if it is not (`firstOutside`), and this is the least one whether
the range lies below the memory, across one of its ends, or behind it
(`firstOutside_isLeast`).

What is stored is said through `byteAt`: an address inside the range of a load
holds its byte of the data, and any other holds what it held.  To write the
bytes one at a time says the same of every address once each of them has had its
turn (`writeEach_of_fits`), so the order of the turns cannot matter.
-/
import Chip8.Proofs.Decoding
import Mathlib

namespace Chip8
namespace Memory

variable {m : Memory} {a : Int} {n : Nat}

/-! ## The first address outside -/

/-- The addresses of the memory. -/
def extent : Set Int := Set.Ico 0 memorySize

/-- The address that the check names, if the range from `a` on is not inside. -/
def firstOutside (a : Int) : Int := if a < 0 then a else max a memorySize

/-- A range that is not empty is inside if both its ends are. -/
theorem subset_extent_iff (hn : 1 ≤ n) :
    Set.Ico a (a + n) ⊆ extent ↔ 0 ≤ a ∧ a + n ≤ memorySize := by
  constructor
  · intro h
    have hfirst : a ∈ extent := h ⟨le_refl a, by omega⟩
    have hlast : a + n - 1 ∈ extent := h ⟨by omega, by omega⟩
    exact ⟨hfirst.1, Int.le_of_sub_one_lt hlast.2⟩
  · rintro ⟨hlow, hhigh⟩ b ⟨hb, hb'⟩
    exact ⟨le_trans hlow hb, lt_of_lt_of_le hb' hhigh⟩

theorem firstOutside_isLeast (hn : 1 ≤ n) (h : ¬ Set.Ico a (a + n) ⊆ extent) :
    IsLeast (Set.Ico a (a + n) \ extent) (firstOutside a) := by
  rw [subset_extent_iff hn] at h
  unfold firstOutside
  by_cases ha : a < 0
  · rw [if_pos ha]
    refine ⟨⟨⟨le_refl a, by omega⟩, fun hin => absurd hin.1 (not_le.2 ha)⟩, ?_⟩
    intro b hb
    exact hb.1.1
  · rw [if_neg ha]
    have hhigh : (memorySize : Int) < a + n := by omega
    refine ⟨⟨⟨le_max_left _ _, max_lt (by omega) hhigh⟩, ?_⟩, ?_⟩
    · intro hin
      exact absurd hin.2 (not_lt.2 (le_max_right _ _))
    · rintro b ⟨⟨hb, -⟩, hout⟩
      refine max_le hb (not_lt.1 fun hlt => hout ⟨?_, hlt⟩)
      exact le_trans (not_lt.1 ha) hb

/-! ## The check -/

theorem check_of_subset (hn : 1 ≤ n) (access : Access) (h : Set.Ico a (a + n) ⊆ extent) :
    check a n access = .ok a.toNat := by
  obtain ⟨hlow, hhigh⟩ := (subset_extent_iff hn).1 h
  exact check_of_le access hlow hhigh

theorem check_of_not_subset (hn : 1 ≤ n) (access : Access)
    (h : ¬ Set.Ico a (a + n) ⊆ extent) :
    check a n access = .error (.memoryBounds (firstOutside a) access) := by
  rw [subset_extent_iff hn] at h
  unfold firstOutside
  by_cases ha : a < 0
  · simp only [check, if_pos ha]
  · rw [if_neg ha]
    exact check_of_lt access (not_lt.1 ha) (by omega) (by omega)

/-! ## Requests -/

/-- What a host asks of the memory at an address. -/
inductive Request where
  | read
  | write (value : Number)
  | fetch
  | readRange (len : Nat)
  | load (data : List UInt8)

namespace Request

/-- The number of addresses that a request is about. -/
def len : Request → Nat
  | read => 1
  | write _ => 1
  | fetch => 2
  | readRange n => n
  | load data => data.length

/-- What the range is wanted for. -/
def access : Request → Access
  | read => .read
  | write _ => .write
  | fetch => .fetch
  | readRange _ => .read
  | load _ => .write

end Request

/-- What a request that is granted gets back. -/
inductive Reply where
  | byte (b : UInt8)
  | word (w : Nat)
  | bytes (bs : List UInt8)
  | stored
deriving DecidableEq

/-- The outcome of a read.  It leaves the memory as it is. -/
def reading {β : Type} (m : Memory) (reply : β → Reply) :
    Except Fault β → Memory × Except Failure Reply
  | .error f => (m, .error (.fault f))
  | .ok b => (m, .ok (reply b))

/-- The outcome of a write, with the memory that it leaves in either case. -/
def writing : Memory × Option Failure → Memory × Except Failure Reply
  | (m, none) => (m, .ok .stored)
  | (m, some e) => (m, .error e)

/-- The memory after a request, and the answer. -/
def perform (m : Memory) (addr : Number) : Request → Memory × Except Failure Reply
  | .read => m.reading .byte (m.read addr)
  | .write v => writing ((m.write addr v).map id (Option.map .fault))
  | .fetch => m.reading .word (m.fetch addr)
  | .readRange n => m.reading .bytes (m.readRange addr n)
  | .load data => writing (m.load data addr)

/-- A request that the check refuses changes nothing. -/
theorem perform_of_error {addr : Number} {r : Request} {f : Fault}
    (h : check addr r.len r.access = .error f) : m.perform addr r = (m, .error (.fault f)) := by
  cases r with
  | read =>
      change check addr 1 .read = .error f at h
      rw [perform, read, h]
      rfl
  | write v =>
      change check addr 1 .write = .error f at h
      simp only [perform, write, h]
      rfl
  | fetch =>
      change check addr 2 .fetch = .error f at h
      rw [perform, fetch, h]
      rfl
  | readRange n =>
      change check addr n .read = .error f at h
      rw [perform, readRange, h]
      rfl
  | load data =>
      change check addr data.length .write = .error f at h
      simp only [perform, load, h]
      rfl

/-- A request that the check admits is granted. -/
theorem perform_of_ok {addr : Number} {r : Request} {i : Nat} (hr : 1 ≤ r.len)
    (h : check addr r.len r.access = .ok i) : ∃ m' reply, m.perform addr r = (m', .ok reply) := by
  cases r with
  | read =>
      change check addr 1 .read = .ok i at h
      rw [perform, read, h]
      exact ⟨_, _, rfl⟩
  | write v =>
      change check addr 1 .write = .ok i at h
      rw [perform, write_of_ok h]
      exact ⟨_, _, rfl⟩
  | fetch =>
      change check addr 2 .fetch = .ok i at h
      rw [perform, fetch, h]
      exact ⟨_, _, rfl⟩
  | readRange n =>
      change check addr n .read = .ok i at h
      rw [perform, readRange, h]
      exact ⟨_, _, rfl⟩
  | load data =>
      rw [perform, load_of_ok (List.ne_nil_of_length_pos hr) h]
      exact ⟨_, _, rfl⟩

/-! ## Loads and single writes -/

section Inside
variable {data : List UInt8} (hn : 1 ≤ data.length)
  (h : Set.Ico a (a + data.length) ⊆ extent)
include hn h

theorem load_of_subset (m : Memory) : m.load data a = (m.put a.toNat data, none) :=
  load_of_ok (List.ne_nil_of_length_pos hn) (check_of_subset hn .write h)

theorem fits_of_subset : a.toNat + data.length ≤ memorySize := by
  obtain ⟨hlow, hhigh⟩ := (subset_extent_iff hn).1 h
  omega

/-- What was loaded is read back. -/
theorem readRange_put (m : Memory) :
    (m.put a.toNat data).readRange a data.length = .ok data := by
  have hfit := fits_of_subset hn h
  have ha := Int.toNat_of_nonneg ((subset_extent_iff hn).1 h).1
  have hcheck := check_of_subset hn .read h
  have hread : (m.put a.toNat data).readRange a data.length =
      .ok ((m.put a.toNat data).slice a.toNat (a.toNat + data.length)) := by
    rw [readRange, hcheck]
    rfl
  rw [hread]
  refine congrArg Except.ok (List.ext_getElem? fun j => ?_)
  have hlen : ((m.put a.toNat data).slice a.toNat (a.toNat + data.length)).length = data.length :=
    Int.ofNat.inj (length_of_readRange (Int.natCast_nonneg _) hread)
  by_cases hj : j < data.length
  · rw [getElem?_slice _ hfit hj, byteAt_put _ _ _ hfit, if_pos (by omega),
      Nat.add_sub_cancel_left, List.getD_eq_getElem?_getD, List.getElem?_eq_getElem hj,
      Option.getD_some]
  · rw [List.getElem?_eq_none (by omega), List.getElem?_eq_none (by omega)]

/-- Outside of what was loaded every address reads as before, in the memory and
outside of it. -/
theorem read_put_of_not_mem (m : Memory) {b : Int} (hb : b ∉ Set.Ico a (a + data.length)) :
    (m.put a.toNat data).read b = m.read b := by
  unfold read
  cases hc : check b 1 .read with
  | error f => rfl
  | ok i =>
      obtain ⟨hbi, -⟩ := check_eq_ok hc
      have hbi : b = i := by injection hbi
      have hout : ¬ (a.toNat ≤ i ∧ i < a.toNat + data.length) := by
        rintro ⟨hlow, hhigh⟩
        have ha := ((subset_extent_iff hn).1 h).1
        exact hb ⟨by omega, by omega⟩
      show Except.ok ((m.put a.toNat data).byteAt i) = Except.ok (m.byteAt i)
      rw [byteAt_put _ _ _ (fits_of_subset hn h), if_neg hout]

end Inside

/-- A byte is its own low eight bits. -/
theorem byte_toNat (b : UInt8) : Number.byte (b.toNat : Int) = b := by
  have hb := b.toNat_lt
  have hword : Number.word ((b.toNat : Int) : Number) = b.toNat := by
    simp only [Number.word]
    omega
  rw [Number.byte, hword, UInt8.ofNat_toNat]

/-- Writes bytes of the data one at a time, those with the indices of a list, up
to the first that is refused. -/
def writeEach (a : Int) (data : List UInt8) (m : Memory) : List Nat → Memory × Option Fault
  | [] => (m, none)
  | i :: rest =>
      match m.write (.whole (a + i)) (.whole (data.getD i 0).toNat) with
      | (m, none) => writeEach a data m rest
      | (m, some f) => (m, some f)

/-- Whatever the order, an address that had its turn holds its byte of the data,
and any other holds what it held. -/
theorem writeEach_of_fits (data : List UInt8) (ha : 0 ≤ a) (order : List Nat)
    (hfit : ∀ i ∈ order, a.toNat + i < memorySize) (m : Memory) :
    ∃ m', writeEach a data m order = (m', none) ∧ ∀ j, m'.byteAt j =
      if a.toNat ≤ j ∧ j - a.toNat ∈ order then data.getD (j - a.toNat) 0 else m.byteAt j := by
  induction order generalizing m with
  | nil =>
      refine ⟨m, rfl, fun j => ?_⟩
      rw [if_neg (fun hj => List.not_mem_nil hj.2)]
  | cons i rest ih =>
      have hi : a.toNat + i < memorySize := hfit i List.mem_cons_self
      have hwrite : m.write (.whole (a + i)) (.whole (data.getD i 0).toNat) =
          (m.put (a.toNat + i) [data.getD i 0], none) := by
        rw [write_of_ok (check_of_le .write (by omega) (by omega)), byte_toNat,
          Int.toNat_add ha (Int.natCast_nonneg i), Int.toNat_natCast]
      obtain ⟨m', hm', hbytes⟩ :=
        ih (fun j hj => hfit j (List.mem_cons_of_mem i hj)) (m.put (a.toNat + i) [data.getD i 0])
      refine ⟨m', ?_, fun j => ?_⟩
      · rw [writeEach, hwrite]
        exact hm'
      · rw [hbytes j, byteAt_put _ _ _ (by simp only [List.length_singleton]; omega)]
        simp only [List.length_singleton, List.mem_cons]
        by_cases hj : a.toNat ≤ j ∧ j - a.toNat ∈ rest
        · rw [if_pos hj, if_pos ⟨hj.1, .inr hj.2⟩]
        · rw [if_neg hj]
          by_cases hij : j = a.toNat + i
          · subst hij
            rw [if_pos (by omega), if_pos ⟨by omega, .inl (by omega)⟩, Nat.sub_self,
              Nat.add_sub_cancel_left, List.getD_cons_zero]
          · rw [if_neg (by omega), if_neg]
            rintro ⟨hle, heq | hmem⟩
            · omega
            · exact hj ⟨hle, hmem⟩

/-- Every byte has its turn, in whatever order: that is to load them all. -/
theorem writeEach_eq_put {data : List UInt8} (hn : 1 ≤ data.length)
    (h : Set.Ico a (a + data.length) ⊆ extent) {order : List Nat}
    (horder : order.Perm (List.range data.length)) (m : Memory) :
    writeEach a data m order = (m.put a.toNat data, none) := by
  have hfit := fits_of_subset hn h
  have hmem : ∀ i, i ∈ order ↔ i < data.length := fun i =>
    horder.mem_iff.trans List.mem_range
  obtain ⟨m', hm', hbytes⟩ := writeEach_of_fits data ((subset_extent_iff hn).1 h).1 order
    (fun i hi => by have := (hmem i).1 hi; omega) m
  rw [hm']
  refine congrArg (·, none) (ext_byteAt fun j => ?_)
  rw [hbytes j, byteAt_put _ _ _ hfit]
  refine if_congr ?_ rfl rfl
  rw [hmem]
  omega

/-- A word is read as its two bytes, the high one first. -/
theorem fetch_of_subset (m : Memory) (h : Set.Ico a (a + (2 : Nat)) ⊆ extent) :
    ∃ high low : UInt8, m.read a = .ok high ∧ m.read ((a + 1 : Int) : Number) = .ok low ∧
      m.fetch a = .ok (256 * high.toNat + low.toNat) := by
  obtain ⟨hlow, hhigh⟩ := (subset_extent_iff (by decide)).1 h
  simp only [memorySize] at hhigh
  refine ⟨m.byteAt a.toNat, m.byteAt (a.toNat + 1), m.read_of_le hlow (by omega), ?_, ?_⟩
  · rw [m.read_of_le (by omega) (by omega), Int.toNat_add hlow (by decide)]
    rfl
  · rw [m.fetch_of_le hlow (by omega), wordAt, Nat.mul_comm]

/-- Every request is granted if its range lies inside the memory.  Otherwise it
is refused with the least address outside, and the memory is unchanged.  What is
loaded is read back, stays away from all other addresses, and is what single
writes in any order make; a word is its two bytes. -/
theorem bounded_array_laws (m : Memory) (a : Int) :
    (∀ r : Request, 1 ≤ r.len →
      (Set.Ico a (a + r.len) ⊆ Set.Ico 0 4096 → ∃ m' reply, m.perform a r = (m', .ok reply)) ∧
      (¬ Set.Ico a (a + r.len) ⊆ Set.Ico 0 4096 →
        ∃ b, IsLeast (Set.Ico a (a + r.len) \ Set.Ico 0 4096) b ∧
          m.perform a r = (m, .error (.fault (.memoryBounds (.whole b) r.access))))) ∧
    (∀ data : List UInt8, 1 ≤ data.length → Set.Ico a (a + data.length) ⊆ Set.Ico 0 4096 →
      ∃ m', m.load data a = (m', none) ∧ m'.readRange a data.length = .ok data ∧
        (∀ b : Int, b ∉ Set.Ico a (a + data.length) → m'.read b = m.read b) ∧
        ∀ order, order.Perm (List.range data.length) → writeEach a data m order = (m', none)) ∧
    (Set.Ico a (a + 2) ⊆ Set.Ico 0 4096 → ∃ high low : UInt8,
      m.read a = .ok high ∧ m.read ((a + 1 : Int) : Number) = .ok low ∧
        m.fetch a = .ok (256 * high.toNat + low.toNat)) := by
  refine ⟨fun r hr => ⟨fun h => ?_, fun h => ?_⟩, fun data hn h => ?_, fun h => ?_⟩
  · exact perform_of_ok hr (check_of_subset hr r.access h)
  · exact ⟨firstOutside a, firstOutside_isLeast hr h,
      perform_of_error (check_of_not_subset hr r.access h)⟩
  · refine ⟨m.put a.toNat data, load_of_subset hn h m, readRange_put hn h m, ?_, ?_⟩
    · intro b hb
      exact read_put_of_not_mem hn h m hb
    · intro order horder
      exact writeEach_eq_put hn h horder m
  · exact m.fetch_of_subset h

/-- Two bytes still fit in front of the end of the memory, in either order.  Three
do not, and the third is the first that does not. -/
theorem bounded_array_laws_at_the_end :
    (∃ m', initial.load [0xAB, 0xCD] (4094 : Int) = (m', none) ∧
      m'.readRange (4094 : Int) 2 = .ok [0xAB, 0xCD] ∧
      writeEach 4094 [0xAB, 0xCD] initial [1, 0] = (m', none)) ∧
    initial.perform (4094 : Int) (.load [0xAB, 0xCD, 0xEF]) =
      (initial, .error (.fault (.memoryBounds 4096 .write))) := by
  obtain ⟨hrequest, hload, -⟩ := bounded_array_laws initial 4094
  constructor
  · have hin : Set.Ico (4094 : Int) (4094 + 2) ⊆ Set.Ico 0 4096 :=
      Set.Ico_subset_Ico (by decide) (by decide)
    obtain ⟨m', hm', hread, -, horder⟩ := hload [0xAB, 0xCD] (by decide) hin
    exact ⟨m', hm', hread, horder [1, 0] (List.Perm.swap 0 1 [])⟩
  · have hout : ¬ Set.Ico (4094 : Int) (4094 + 3) ⊆ Set.Ico 0 4096 := by
      intro h
      have hlast : (4096 : Int) ∈ Set.Ico (0 : Int) 4096 := h ⟨by decide, by decide⟩
      exact absurd hlast.2 (lt_irrefl _)
    obtain ⟨b, ⟨⟨hb, hb'⟩, -⟩, hperform⟩ := (hrequest (.load [0xAB, 0xCD, 0xEF]) (by decide)).2 hout
    have hfirst : b = 4096 := by
      have hlow := hb.1
      have hhigh : b < 4094 + 3 := hb.2
      by_contra hne
      exact hb' ⟨by omega, by omega⟩
    rw [hperform, hfirst]
    rfl

end Memory
end Chip8
