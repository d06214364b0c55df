import Mathlib.Algebra.Group.Nat.Defs
import Mathlib.Logic.Function.Basic
import SccShm.Loop

/-!
# The shared heap: `SCCMallocPtr` and `SCCFreePtr`

The free-list allocator of `sccmalloc.c`, translated statement by statement.

The heap is an array of `block_t` units of eight bytes (the cores are 32-bit),
and a `block_t *` is the number of the unit it points to, that is, its byte
address divided by eight; `NULL` is `0`. `mmap` returns page-aligned addresses,
so every block pointer of the program has such a number, `curr + n` is `+`, and
pointers compare as their numbers do. A payload pointer `(void *) (curr + 1)` is
a unit number as well.

`Mem` also records which units the allocator has written (`wrote`); no function
reads it.
-/

namespace SccShm

/-! ## Constants of the platform -/

/-- `PAGE_SIZE`. -/
def pageSize : ℕ := 16 * 1024 * 1024

/-- `sizeof(block_t)`: a 32-bit pointer and a 32-bit `size_t`. -/
def sizeofBlock : ℕ := 8

/-- Values of `size_t` and `unsigned int` stay below this. -/
def wordSize : ℕ := 2 ^ 32

/-! ## Memory -/

/-- `block_t`: the header at the start of a block. -/
structure Block : Type where
  /-- `hdr.next`; `0` is `NULL` -/
  next : ℕ
  /-- `hdr.size`, in units, header included -/
  size : ℕ
  deriving DecidableEq

/-- The units of memory, seen as headers. -/
structure Mem : Type where
  /-- contents of a unit -/
  cell : ℕ → Block
  /-- units the allocator has written, newest first -/
  wrote : List ℕ

namespace Mem

/-- Read `*p`; `NULL` has no contents. -/
def load (m : Mem) (p : ℕ) : Exec Block :=
  if p = 0 then .error .fault else .ok (m.cell p)

/-- `*p = b`. -/
def store (m : Mem) (p : ℕ) (b : Block) : Mem :=
  ⟨Function.update m.cell p b, p :: m.wrote⟩

/-- `p->hdr.next = q`. -/
def setNext (m : Mem) (p q : ℕ) : Mem := m.store p { m.cell p with next := q }

/-- `p->hdr.size = n`. -/
def setSize (m : Mem) (p n : ℕ) : Mem := m.store p { m.cell p with size := n }

variable {m : Mem} {p q u n : ℕ} {b : Block}

@[simp] theorem load_of_ne (h : p ≠ 0) : m.load p = .ok (m.cell p) := if_neg h

theorem load_null : m.load 0 = .error .fault := rfl

@[simp] theorem cell_store_self : (m.store p b).cell p = b := Function.update_self ..

theorem cell_store_of_ne (h : u ≠ p) : (m.store p b).cell u = m.cell u :=
  Function.update_of_ne h ..

@[simp] theorem wrote_store : (m.store p b).wrote = p :: m.wrote := rfl

@[simp] theorem wrote_setNext : (m.setNext p q).wrote = p :: m.wrote := rfl

@[simp] theorem wrote_setSize : (m.setSize p n).wrote = p :: m.wrote := rfl

@[simp] theorem next_setNext_self : ((m.setNext p q).cell p).next = q := by
  rw [setNext, cell_store_self]

@[simp] theorem size_setSize_self : ((m.setSize p n).cell p).size = n := by
  rw [setSize, cell_store_self]

@[simp] theorem size_setNext : ((m.setNext p q).cell u).size = (m.cell u).size := by
  by_cases h : u = p
  · rw [h, setNext, cell_store_self]
  · rw [setNext, cell_store_of_ne h]

@[simp] theorem next_setSize : ((m.setSize p n).cell u).next = (m.cell u).next := by
  by_cases h : u = p
  · rw [h, setSize, cell_store_self]
  · rw [setSize, cell_store_of_ne h]

theorem cell_setNext_of_ne (h : u ≠ p) : (m.setNext p q).cell u = m.cell u :=
  cell_store_of_ne h

theorem cell_setSize_of_ne (h : u ≠ p) : (m.setSize p n).cell u = m.cell u :=
  cell_store_of_ne h

/-- From `m` to `m'` the allocator wrote the units `ws` and nothing else changed. -/
structure Writes (m : Mem) (ws : List ℕ) (m' : Mem) : Prop where
  wrote : m'.wrote = ws ++ m.wrote
  frame : ∀ u ∉ ws, m'.cell u = m.cell u

theorem Writes.refl (m : Mem) : m.Writes [] m := ⟨rfl, fun _ _ => rfl⟩

theorem Writes.store {m' : Mem} {ws : List ℕ} (h : m.Writes ws m') (p : ℕ) (b : Block) :
    m.Writes (p :: ws) (m'.store p b) := by
  refine ⟨by rw [wrote_store, h.wrote, List.cons_append], fun u hu => ?_⟩
  obtain ⟨hp, hws⟩ : u ≠ p ∧ u ∉ ws := by simpa using hu
  rw [cell_store_of_ne hp, h.frame u hws]

theorem Writes.setNext {m' : Mem} {ws : List ℕ} (h : m.Writes ws m') (p q : ℕ) :
    m.Writes (p :: ws) (m'.setNext p q) := h.store p _

theorem Writes.setSize {m' : Mem} {ws : List ℕ} (h : m.Writes ws m') (p n : ℕ) :
    m.Writes (p :: ws) (m'.setSize p n) := h.store p _

theorem Writes.trans {m₁ m₂ : Mem} {ws ws' : List ℕ} (h : m.Writes ws m₁)
    (h' : m₁.Writes ws' m₂) : m.Writes (ws' ++ ws) m₂ := by
  refine ⟨by rw [h'.wrote, h.wrote, List.append_assoc], fun u hu => ?_⟩
  rw [List.mem_append, not_or] at hu
  rw [h'.frame u hu.1, h.frame u hu.2]

end Mem

/-- What the allocator works on: memory and the variable `freeList`. -/
structure Heap : Type where
  mem : Mem
  /-- `freeList`; `0` is `NULL` -/
  freeList : ℕ

/-! ## `SCCInit` -/

/-- `(size * PAGE_SIZE) / sizeof(block_t)`: the units of the first block. The
`int` product is converted to `size_t` by the division. -/
def heapUnits (size : ℕ) : ℕ := size * pageSize % wordSize / sizeofBlock

/-- `local + 0x10` as a unit. -/
def heapBase (loc : ℕ) : ℕ := (loc + 0x10) / sizeofBlock

/-- The heap `SCCInit(size)` sets up in the window mapped at `loc`: one free
block, linked to itself. -/
def sccInitHeap (loc size : ℕ) (m : Mem) : Heap :=
  let freeList := heapBase loc
  let m := m.setNext freeList freeList
  let m := m.setSize freeList (heapUnits size)
  ⟨m, freeList⟩

/-! ## `SCCMallocPtr` -/

/-- `nunits`: the request rounded up to units, plus the header. The sum is taken
in `size_t`. -/
def nunits (size : ℕ) : ℕ := (size + sizeofBlock - 1) % wordSize / sizeofBlock + 1

/-- Keep the `n` low units of `curr`; the rest becomes a block of its own, which
takes the place of `curr` behind `prev`. -/
def splitBlock (m : Mem) (n prev curr : ℕ) : Heap :=
  let new := curr + n
  let m := m.store new (m.cell curr)
  let m := m.setSize new ((m.cell new).size - n)
  let m := m.setSize curr n
  let prev := if prev = curr then new else prev
  ⟨m.setNext prev new, prev⟩

/-- One pass through the `do`-`while` loop at `(prev, curr)`: leave with the
returned pointer and the new state, or go on to the next block. -/
def mallocBody (n : ℕ) (h : Heap) : ℕ × ℕ → Exec ((ℕ × ℕ) ⊕ (ℕ × Heap))
  | (prev, curr) => do
    let c ← h.mem.load curr
    if n ≤ c.size then
      if c.size = n then
        if prev = curr then
          .ok (.inr (curr + 1, { h with freeList := 0 }))
        else
          .ok (.inr (curr + 1, ⟨h.mem.setNext prev c.next, prev⟩))
      else
        .ok (.inr (curr + 1, splitBlock h.mem n prev curr))
    else if curr ≠ h.freeList ∧ c.next ≠ 0 then
      .ok (.inl (curr, c.next))
    else
      .ok (.inr (0, h))

/-- `SCCMallocPtr(size)`: the returned pointer, `0` for `NULL`, and the new
state. A `NULL` `freeList` is reported but then read through all the same. -/
def sccMallocPtr (fuel size : ℕ) (h : Heap) : Exec (ℕ × Heap) := do
  let f ← h.mem.load h.freeList
  loop (mallocBody (nunits size) h) fuel (h.freeList, f.next)

/-! ## `SCCFreePtr` -/

/-- One pass through the search loop of `SCCFreePtr` at `curr`. -/
def freeBody (m : Mem) (block curr : ℕ) : Exec (ℕ ⊕ ℕ) := do
  let c ← m.load curr
  if curr < block ∧ block < c.next then
    .ok (.inr curr)
  else if c.next ≤ curr ∧ (curr < block ∨ block < c.next) then
    .ok (.inr curr)
  else
    .ok (.inl c.next)

/-- Put `block` in front of `curr->hdr.next`, merging the two if they touch. -/
def mergeUpper (m : Mem) (block curr : ℕ) : Exec Mem := do
  let c ← m.load curr
  let b ← m.load block
  if block + b.size = c.next then
    let n ← m.load c.next
    let m := m.setSize block (b.size + n.size)
    if curr = (m.cell curr).next then
      .ok (m.setNext block block)
    else
      .ok (m.setNext block (m.cell (m.cell curr).next).next)
  else
    .ok (m.setNext block c.next)

/-- Put `block` behind `curr`, merging the two if they touch. -/
def mergeLower (m : Mem) (block curr : ℕ) : Mem :=
  if curr + (m.cell curr).size = block then
    let m := m.setSize curr ((m.cell curr).size + (m.cell block).size)
    m.setNext curr (m.cell block).next
  else
    m.setNext curr block

/-- `SCCFreePtr(p)`. -/
def sccFreePtr (fuel p : ℕ) (h : Heap) : Exec Heap :=
  let block := p - 1
  if h.freeList = 0 then
    .ok ⟨h.mem.setNext block block, block⟩
  else do
    let curr ← loop (freeBody h.mem block) fuel h.freeList
    let m ← mergeUpper h.mem block curr
    .ok ⟨mergeLower m block curr, curr⟩

/-! ### More fuel changes nothing -/

theorem sccMallocPtr_fuelMono (size : ℕ) (h : Heap) :
    FuelMono fun fuel => sccMallocPtr fuel size h :=
  (FuelStable.bind (FuelStable.const _) fun _ => loop_fuelStable _ _).mono

theorem sccFreePtr_fuelMono (p : ℕ) (h : Heap) : FuelMono fun fuel => sccFreePtr fuel p h := by
  unfold sccFreePtr
  apply FuelStable.mono
  split
  · exact FuelStable.const _
  · exact FuelStable.bind (loop_fuelStable _ _) fun _ => FuelStable.const _

end SccShm
