import SccShm.Address
import SccShm.SharedHeap

/-!
# The shared window

`SccInit` makes pages of one node visible on every core: it copies lookup table
entries of that node behind the private pages, and `SCCInit` maps the pages
behind them at a fixed address. Objects are passed between cores as offsets from
that address (`get_ptr`, `get_addr`).

The variable that counts up the table index in the copy loop is then passed on as
the number of pages: ten entries are copied, thirty pages are mapped.

* `ChipStep` — the cores run `SccInit` and use the heap in any order.
* `same_byte_iff` — where an offset means the same byte on two cores.
* `other_byte` — an allocation that reaches beyond the shared pages.
-/

namespace SccShm

/-! ## `SccInit` -/

/-- The lookup tables, by node and index. -/
abbrev Luts : Type := ℕ → ℕ → ℕ

/-- `LUT(node, idx) = e`. -/
def Luts.set (l : Luts) (node idx e : ℕ) : Luts :=
  Function.update l node (Function.update (l node) idx e)

/-- `num_nodes`. -/
def numNodes : ℕ := 8

/-- `PAGES_PER_CORE - (LINUX_PRIV_PAGES+1)`. -/
def privatePages : ℕ := 41 - (20 + 1)

/-- The first `n` passes of the loop of `SccInit` that copies table entries: the
tables and `num_pages`. -/
def copyLuts (node : ℕ) (l : Luts) : ℕ → Luts × ℕ
  | 0 => (l, privatePages)
  | n + 1 =>
    let (l, numPages) := copyLuts node l n
    (l.set node numPages (l (numNodes + 1) n), (numPages + 1) % charSize)

/-- The loop of `SccInit`. -/
def sccInitLuts (node : ℕ) (l : Luts) : Luts × ℕ := copyLuts node l 10

/-- `nkAddr`, where the window is mapped on every core: `local` and
`shmem_start_address`. -/
def nkAddr : ℕ := 2572472320

/-- `get_ptr(addr)`. -/
def getPtr (addr : ℤ) : ℤ := (addr - nkAddr) % wordSize

/-- `get_addr(i_addr)`. -/
def getAddr (i : ℤ) : ℤ := (nkAddr + i) % wordSize

/-- What core `c` finds at the address `x` of its window: the contents of a lookup
table entry, and the offset in the page. The window shows the physical addresses
from `LOCAL_LUT << 24` on. -/
def physAt (l : Luts) (c : ℕ) (x : ℤ) : ℕ × ℕ :=
  (l c (localLut + (x - nkAddr).toNat / pageSize), (x - nkAddr).toNat % pageSize)

/-! ## Runs -/

/-- The cores' heap and their lookup tables. -/
structure Chip : Type where
  shared : Shared ℕ
  luts : Luts

/-- One call of one core. -/
inductive ChipStep : Chip → SharedOp ℕ → Chip → Prop where
  | init {s : Chip} {v : Shared ℕ} (c : ℕ) :
      SharedStep nkAddr (sccInitLuts c s.luts).2 s.shared (.init c) v →
      ChipStep s (.init c) ⟨v, (sccInitLuts c s.luts).1⟩
  | act {s : Chip} {v : Shared ℕ} (c : ℕ) (op : HeapOp) :
      SharedStep nkAddr (sccInitLuts c s.luts).2 s.shared (.act c op) v →
      ChipStep s (.act c op) ⟨v, s.luts⟩

/-- The pages of the window: `num_pages` after the loop. -/
theorem sccInitLuts_pages (c : ℕ) (l : Luts) : (sccInitLuts c l).2 = 30 := rfl

/-- The address `p + k`, for the block `p`. -/
def Held.byte (b : Held) (k : ℕ) : ℤ := (b.ptr * sizeofBlock + k : ℕ)

/-- The address lies in the window. -/
def InLocal (x : ℤ) : Prop := nkAddr ≤ x ∧ x < nkAddr + 30 * pageSize

instance (x : ℤ) : Decidable (InLocal x) := inferInstanceAs (Decidable (_ ∧ _))

section Copy

variable {l : Luts} {node d i n : ℕ}

theorem copyLuts_pages (hn : n ≤ 10) : (copyLuts node l n).2 = privatePages + n := by
  induction n with
  | zero => rfl
  | succ n ih =>
    change ((copyLuts node l n).2 + 1) % charSize = _
    rw [ih (by omega), privatePages, charSize]
    omega

/-- The copy loop changes the entries from `privatePages` on. -/
theorem copyLuts_entry (hn : n ≤ 10) :
    (copyLuts node l n).1 d i =
      if d = node ∧ privatePages ≤ i ∧ i < privatePages + n then
        l (numNodes + 1) (i - privatePages)
      else l d i := by
  induction n generalizing d i with
  | zero => rw [if_neg (by omega)]; rfl
  | succ n ih =>
    have hsrc : (copyLuts node l n).1 (numNodes + 1) n = l (numNodes + 1) n := by
      rw [ih (by omega), if_neg (by rw [privatePages]; omega)]
    change ((copyLuts node l n).1.set node (copyLuts node l n).2 _) d i = _
    rw [hsrc, copyLuts_pages (by omega), Luts.set]
    by_cases hd : d = node
    · subst hd
      rw [Function.update_self]
      by_cases hi : i = privatePages + n
      · rw [hi, Function.update_self, if_pos (by omega), Nat.add_sub_cancel_left]
      · rw [Function.update_of_ne hi, ih (by omega)]
        refine if_congr ?_ rfl rfl
        omega
    · rw [Function.update_of_ne hd, ih (by omega), if_neg (by tauto), if_neg (by tauto)]

end Copy

/-- Node 9 keeps its entries `0` to `9`, every core that has run `SccInit` has copies of
them, and what lies behind the copies is left alone. -/
structure Copied (l₀ : Luts) (s : Chip) : Prop where
  source : ∀ i < 10, s.luts (numNodes + 1) i = l₀ (numNodes + 1) i
  copy : ∀ c, s.shared.started c = true → ∀ i < 10,
    s.luts c (privatePages + i) = l₀ (numNodes + 1) i
  /-- entries behind the ten copied ones stay as they were before any `SccInit` -/
  rest : ∀ c i, 10 ≤ i → s.luts c (privatePages + i) = l₀ c (privatePages + i)

theorem Copied.step {l₀ : Luts} {s s' : Chip} {op : SharedOp ℕ} (hI : Copied l₀ s)
    (hs : ChipStep s op s') : Copied l₀ s' := by
  cases hs with
  | act c op hstep =>
    cases hstep with
    | act _ _ _ => exact ⟨hI.source, hI.copy, hI.rest⟩
  | init c hstep =>
    cases hstep with
    | init _ _ =>
      have hentry : ∀ d i, (sccInitLuts c s.luts).1 d i =
          if d = c ∧ privatePages ≤ i ∧ i < privatePages + 10 then
            s.luts (numNodes + 1) (i - privatePages)
          else s.luts d i := fun d i => copyLuts_entry (le_refl 10)
      refine ⟨fun i hi => ?_, fun d hd i hi => ?_, fun d i hi => ?_⟩
      · change (sccInitLuts c s.luts).1 _ _ = _
        rw [hentry, if_neg (by rw [privatePages]; omega), hI.source i hi]
      · change (sccInitLuts c s.luts).1 _ _ = _
        rw [hentry]
        by_cases hdc : d = c
        · rw [if_pos (by omega), Nat.add_sub_cancel_left, hI.source i hi]
        · rw [if_neg (by tauto)]
          refine hI.copy d ?_ i hi
          exact (Function.update_of_ne hdc ..).symm.trans hd
      · change (sccInitLuts c s.luts).1 _ _ = _
        rw [hentry, if_neg (by omega), hI.rest d i hi]

/-- **Where an offset means the same byte.** For two cores that have run `SccInit`,
a block in use on the first and a byte of it in the window: the second finds the
same byte at the same offset exactly if the byte lies in the first ten pages of
the window, or the two cores' table entries for its page agreed from the beginning,
before any `SccInit`. -/
theorem same_byte_iff {cell : ℕ → Block} {l₀ : Luts} {s : Chip}
    (h : Reach ChipStep ⟨Shared.initial ℕ cell, l₀⟩ s) {a b : ℕ}
    (ha : s.shared.started a = true) (hb : s.shared.started b = true) :
    ∀ p ∈ s.shared.live a, ∀ k < p.size, InLocal (p.byte k) →
      (physAt s.luts a (p.byte k) = physAt s.luts b (getAddr (getPtr (p.byte 0) + k)) ↔
        (p.byte k - nkAddr).toNat / pageSize < 10 ∨
        l₀ a (localLut + (p.byte k - nkAddr).toNat / pageSize)
          = l₀ b (localLut + (p.byte k - nkAddr).toNat / pageSize)) := by
  intro p _ k _ hwin
  have hI := h.invariant (I := Copied l₀) ⟨fun _ _ => rfl, fun _ hc => (by cases hc),
    fun _ _ _ => rfl⟩ fun _ _ _ hI hs => hI.step hs
  have haddr : getAddr (getPtr (p.byte 0) + k) = p.byte k := by
    obtain ⟨h₁, h₂⟩ := hwin
    have hw : (wordSize : ℤ) = 4294967296 := rfl
    have hp : pageSize = 16777216 := rfl
    simp only [getAddr, getPtr, Held.byte, nkAddr, hw, hp] at *
    omega
  rw [haddr, physAt, physAt, Prod.mk.injEq, and_iff_left rfl]
  have hlut : localLut = privatePages := rfl
  rw [hlut]
  by_cases hpage : (p.byte k - nkAddr).toNat / pageSize < 10
  · rw [hI.copy a ha _ hpage, hI.copy b hb _ hpage]
    exact iff_of_true rfl (Or.inl hpage)
  · rw [hI.rest a _ (by omega), hI.rest b _ (by omega), or_iff_right hpage]

/-- Tables that differ from node to node. -/
def demoLuts : Luts := fun node _ => node

/-- A small block: its first byte is the same on core 1. -/
theorem same_byte_small :
    ∃ s : Chip, ⟨321559042, 8⟩ ∈ s.shared.live 0 ∧
      physAt s.luts 0 (Held.byte ⟨321559042, 8⟩ 0)
        = physAt s.luts 1 (getAddr (getPtr (Held.byte ⟨321559042, 8⟩ 0) + (0 : ℕ))) := by
  have r₀ : Reach ChipStep ⟨Shared.initial ℕ fun _ => ⟨0, 0⟩, demoLuts⟩ _ := Reach.init
  have r₁ := r₀.next (.init 0 (.init 0 rfl))
  have r₂ := r₁.next (.init 1 (.init 1 rfl))
  have r₃ := r₂.next (.act 0 _ (.act 0 rfl (.malloc 8 (by decide) ⟨1, rfl⟩ (by decide))))
  exact ⟨_, List.mem_cons_self, (same_byte_iff r₃ (a := 0) (b := 1) rfl rfl ⟨321559042, 8⟩
    List.mem_cons_self 0 (by decide) (by decide)).mpr (Or.inl (by decide))⟩

/-- The last byte of a block of ten pages: cores 0 and 1 find different bytes. -/
theorem other_byte :
    ∃ s : Chip, Reach ChipStep ⟨Shared.initial ℕ fun _ => ⟨0, 0⟩, demoLuts⟩ s ∧
      s.shared.started 0 = true ∧ s.shared.started 1 = true ∧
      ∃ p ∈ s.shared.live 0, ∃ k < p.size, InLocal (p.byte k) ∧
        physAt s.luts 0 (p.byte k) ≠ physAt s.luts 1 (getAddr (getPtr (p.byte 0) + k)) := by
  have r₀ : Reach ChipStep ⟨Shared.initial ℕ fun _ => ⟨0, 0⟩, demoLuts⟩ _ := Reach.init
  have r₁ := r₀.next (.init 0 (.init 0 rfl))
  have r₂ := r₁.next (.init 1 (.init 1 rfl))
  have r₃ := r₂.next
    (.act 0 _ (.act 0 rfl (.malloc (10 * pageSize) (by decide) ⟨1, rfl⟩ (by decide))))
  exact ⟨_, r₃, rfl, rfl, ⟨321559042, 10 * pageSize⟩, List.mem_cons_self, 10 * pageSize - 1,
    by decide, by decide, by decide⟩

end SccShm
