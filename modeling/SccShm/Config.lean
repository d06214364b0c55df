import SccShm.Nodes
import SccShm.PageMap

/-!
# Mapped registers

`SCCAPI.c` maps the pages of configuration registers and message passing buffers into the
address space of a core; the kernel picks the pages.

* `mallocConfigReg`, `freeConfigReg`, `mpbAlloc`, `mpbUnalloc` — the calls, for pages of
  `2 ^ k` bytes and with the address that `mmap` gave. A call for which `mmap` fails ends the
  program.
* `Grants` — what `mmap` promises of the address it picks.
* `setConfigBit_spec` — a bit of a register is set, by way of two pages of its own.
* `pointers_lead` — after any calls, every pointer not given back leads to what it was asked
  for.
-/

namespace SccShm

/-! ## The calls -/

/-- What is behind a page: `/dev/rckncm`, `/dev/rckmpb`, `/dev/rckdcm`, or anything else. -/
inductive Device : Type where
  | ncm
  | mpb
  | cache
  | other
deriving DecidableEq

section Api

variable (k : ℕ)

/-- `ConfigAddr & (~(getpagesize()-1))`. -/
def alignedAddr (a : BitVec 32) : BitVec 32 := a &&& ~~~(BitVec.ofNat 32 (2 ^ k) - 1#32)

/-- `pageOffset`. -/
def pageOffset (a : BitVec 32) : BitVec 32 := a - alignedAddr k a

/-- The number of pages that `length` bytes from the beginning of a page on touch. -/
def pageCount (length : ℕ) : ℕ := (length + 2 ^ k - 1) / 2 ^ k

/-- `mmap(.., length, .., fd, offset)` returns `m`, and with it these pages. -/
def mmapAt (m : BitVec 32) (length : ℕ) (fd : Device) (offset : BitVec 32) : Mapping Device where
  page := m.toNat / 2 ^ k
  count := pageCount k length
  dev := fd
  frame := offset.toNat / 2 ^ k

/-- `munmap(p, length)`. An address inside a page is refused. -/
def munmap (t : PageMap Device) (p : BitVec 32) (length : ℕ) : PageMap Device :=
  if p.toNat % 2 ^ k = 0 then t.unmap (p.toNat / 2 ^ k) (pageCount k length) else t

/-- What `mmap(NULL, length, ..)` promises of the address `m` that it returns. -/
structure Grants (t : PageMap Device) (m : BitVec 32) (length : ℕ) : Prop where
  aligned : m.toNat % 2 ^ k = 0
  fits : m.toNat + pageCount k length * 2 ^ k ≤ 2 ^ 32
  vacant : t.Vacant (m.toNat / 2 ^ k) (pageCount k length)

/-- `MallocConfigReg(a)`, when `mmap` returns `m`. -/
def mallocConfigReg (t : PageMap Device) (m a : BitVec 32) : BitVec 32 × PageMap Device :=
  (m + pageOffset k a, t.map (mmapAt k m (2 ^ k) .ncm (alignedAddr k a)))

/-- `FreeConfigReg(p)`. -/
def freeConfigReg (t : PageMap Device) (p : BitVec 32) : PageMap Device :=
  munmap k t (alignedAddr k p) (2 ^ k)

/-- `isOwnMPB ? MPB_OWN+(MPBSIZE*core) : MPB_ADDR(x,y,core)`, with 32 bits. -/
def mpbBase (x y core : ℤ) (isOwnMPB : Bool) : BitVec 32 :=
  BitVec.ofInt 32 (if isOwnMPB then mpbOwn + mpbSize * core
    else 0xc0000000 + 0x01000000 * x + 0x01000000 * numCols * y + mpbSize * core)

/-- `MPBalloc(MPB, x, y, core, isOwnMPB)`: `*MPB` and the pages. Coordinates that are too big
are refused, negative ones are not. -/
def mpbAlloc (t : PageMap Device) (m : BitVec 32) (x y core : ℤ) (isOwnMPB : Bool) :
    BitVec 32 × PageMap Device :=
  let a := mpbBase x y core isOwnMPB
  if numCols ≤ x ∨ numRows ≤ y ∨ numCores ≤ core then (0, t)
  else (m + pageOffset k a, t.map (mmapAt k m mpbSize .mpb (alignedAddr k a)))

/-- `MPBunalloc(MPB)`, with `*MPB = p`. -/
def mpbUnalloc (t : PageMap Device) (p : BitVec 32) : BitVec 32 × PageMap Device :=
  (0, munmap k t p mpbSize)

/-- Where an access to `p` goes. -/
def access (t : PageMap Device) (p : BitVec 32) : Option (Device × ℕ) := t.lead (2 ^ k) p.toNat

/-- `ReadConfigReg(a)`; `regs` is what the registers contain. The last result is the pages. -/
def readConfigReg (t : PageMap Device) (regs : Device × ℕ → BitVec 32) (m a : BitVec 32) :
    Option (BitVec 32) × PageMap Device :=
  let (p, t') := mallocConfigReg k t m a
  ((access k t' p).map regs, munmap k t' m (2 ^ k))

/-- `SetConfigReg(a, v)`. -/
def setConfigReg (t : PageMap Device) (regs : Device × ℕ → BitVec 32) (m a v : BitVec 32) :
    Option (Device × ℕ → BitVec 32) × PageMap Device :=
  let (p, t') := mallocConfigReg k t m a
  ((access k t' p).map fun r => Function.update regs r v, munmap k t' m (2 ^ k))

/-- `SetConfigBit(a, pos, value)`; the two calls get the pages at `m` and `m'`. -/
def setConfigBit (t : PageMap Device) (regs : Device × ℕ → BitVec 32) (m m' a : BitVec 32)
    (pos : ℕ) (value : Bool) : Option (Device × ℕ → BitVec 32) × PageMap Device :=
  match readConfigReg k t regs m a with
  | (none, t') => (none, t')
  | (some r, t') =>
    setConfigReg k t' regs m' a (if value then r ||| (1#32 <<< pos) else r &&& ~~~(1#32 <<< pos))

end Api

section Aligned

variable {k : ℕ} {t : PageMap Device} {m a p : BitVec 32}

theorem toNat_alignedAddr (hk : k ≤ 13) (a : BitVec 32) :
    (alignedAddr k a).toNat = a.toNat / 2 ^ k * 2 ^ k := by
  have hpow : 2 ^ k < 2 ^ 32 := Nat.pow_lt_pow_right (by decide) (by omega)
  have hmask : BitVec.ofNat 32 (2 ^ k) - 1#32 = BitVec.ofNat 32 (2 ^ k - 1) := by
    rw [BitVec.ofNat_sub_ofNat_of_le]
    · decide
    · exact Nat.one_le_two_pow
  apply Nat.eq_of_testBit_eq
  intro i
  rw [BitVec.testBit_toNat, alignedAddr, hmask, BitVec.getLsbD_and, BitVec.getLsbD_not,
    BitVec.getLsbD_ofNat, Nat.testBit_two_pow_sub_one, Nat.testBit_mul_two_pow,
    Nat.testBit_div_two_pow, BitVec.testBit_toNat]
  by_cases hi : i < 32
  · by_cases hik : i < k
    · simp [hi, hik, Nat.not_le.mpr hik]
    · simp [hi, hik, Nat.le_of_not_lt hik]
  · have hki : k ≤ i := by omega
    simp [hi, hki, BitVec.getLsbD_of_ge a i (by omega)]

theorem toNat_pageOffset (hk : k ≤ 13) (a : BitVec 32) :
    (pageOffset k a).toNat = a.toNat % 2 ^ k := by
  have hle : alignedAddr k a ≤ a := by
    rw [BitVec.le_def, toNat_alignedAddr hk]
    exact Nat.div_mul_le_self ..
  rw [pageOffset, BitVec.toNat_sub_of_le hle, toNat_alignedAddr hk, Nat.mod_def, Nat.mul_comm]

theorem pageCount_self : pageCount k (2 ^ k) = 1 := by
  have hpos : 0 < 2 ^ k := Nat.two_pow_pos k
  rw [pageCount]
  exact Nat.div_eq_of_lt_le (by omega) (by omega)

end Aligned

/-! ## Pointers held -/

/-- What a pointer is asked for. -/
inductive Request : Type where
  /-- `MallocConfigReg(a)` -/
  | reg (a : BitVec 32)
  /-- `MPBalloc(.., x, y, core, isOwnMPB)` -/
  | mpb (x y core : ℤ) (isOwnMPB : Bool)
deriving DecidableEq

namespace Request

/-- It is not refused. -/
def Valid : Request → Prop
  | reg _ => True
  | mpb x y core _ => x < numCols ∧ y < numRows ∧ core < numCores

/-- The address asked for. -/
def addr : Request → BitVec 32
  | reg a => a
  | mpb x y core isOwnMPB => mpbBase x y core isOwnMPB

def dev : Request → Device
  | reg _ => .ncm
  | mpb .. => .mpb

/-- How many bytes are mapped, with pages of `2 ^ k` bytes. -/
def length (k : ℕ) : Request → ℕ
  | reg _ => 2 ^ k
  | mpb .. => mpbSize

/-- The call: the pointer, and the pages. -/
def alloc (k : ℕ) (t : PageMap Device) (m : BitVec 32) : Request → BitVec 32 × PageMap Device
  | reg a => mallocConfigReg k t m a
  | mpb x y core isOwnMPB => mpbAlloc k t m x y core isOwnMPB

/-- The call that gives the pointer `p` back: what the pointer is then, and the pages. -/
def release (k : ℕ) (t : PageMap Device) (p : BitVec 32) : Request → BitVec 32 × PageMap Device
  | reg _ => (p, freeConfigReg k t p)
  | mpb .. => mpbUnalloc k t p

end Request

/-- The address space of a core. -/
structure Space : Type where
  pages : PageMap Device
  /-- the pointers that were returned and not given back, with what they were asked for -/
  held : List (Request × BitVec 32)

namespace Space

/-- Nothing has been called yet. -/
def initial (t₀ : PageMap Device) : Space := ⟨t₀, []⟩

/-- The pointer for `x` is returned, with the address `m` from `mmap`. -/
def alloc (k : ℕ) (s : Space) (x : Request) (m : BitVec 32) : Space where
  pages := (x.alloc k s.pages m).2
  held := (x, (x.alloc k s.pages m).1) :: s.held

/-- A pointer is given back. -/
def free (k : ℕ) (s : Space) (e : Request × BitVec 32) : Space where
  pages := (e.1.release k s.pages e.2).2
  held := s.held.erase e

end Space

/-- What a core calls. -/
inductive ApiOp : Type where
  /-- `MallocConfigReg` or `MPBalloc` -/
  | alloc (x : Request)
  /-- `FreeConfigReg` or `MPBunalloc` of a pointer that was asked for so -/
  | free (e : Request × BitVec 32)
  /-- `ReadConfigReg(a)` or `SetConfigReg(a, ..)` -/
  | config (a : BitVec 32)

/-- One call that returns. -/
inductive ApiStep (k : ℕ) : Space → ApiOp → Space → Prop where
  | alloc {s : Space} (x : Request) (m : BitVec 32) : x.Valid → Grants k s.pages m (x.length k) →
      ApiStep k s (.alloc x) (s.alloc k x m)
  /-- `NULL` is returned; there is no `mmap` that the address `m` could be from -/
  | refused {s : Space} (x : Request) (m : BitVec 32) : ¬ x.Valid →
      ApiStep k s (.alloc x) { s with pages := (x.alloc k s.pages m).2 }
  | free {s : Space} (e : Request × BitVec 32) : ApiStep k s (.free e) (s.free k e)
  | config {s : Space} (a m : BitVec 32) : Grants k s.pages m (2 ^ k) →
      ApiStep k s (.config a)
        { s with pages := munmap k (mallocConfigReg k s.pages m a).2 m (2 ^ k) }

/-- Only a pointer that was returned, and not yet given back, is given back. -/
def ApiOk (s : Space) : ApiOp → Prop
  | .free e => e ∈ s.held
  | .alloc _ | .config _ => True

/-! ## What is mapped -/

/-- The mapping behind a pointer. -/
def mappingOf (k : ℕ) (e : Request × BitVec 32) : Mapping Device where
  page := e.2.toNat / 2 ^ k
  count := pageCount k (e.1.length k)
  dev := e.1.dev
  frame := e.1.addr.toNat / 2 ^ k

/-- The pages are those of the pointers held, and every pointer is at its place in them. -/
structure SpaceHolds (k : ℕ) (t₀ : PageMap Device) (s : Space) : Prop where
  mapped : Mapped t₀ s.pages (s.held.map (mappingOf k))
  held : ∀ e ∈ s.held, e.2.toNat % 2 ^ k = e.1.addr.toNat % 2 ^ k ∧
    (e.2.toNat / 2 ^ k + pageCount k (e.1.length k)) * 2 ^ k ≤ 2 ^ 32

section Holds

variable {k : ℕ} {t t₀ : PageMap Device} {m a p : BitVec 32} {x : Request} {s s' : Space}
  {op : ApiOp} {j : ℕ} {e : Request × BitVec 32}

/-- A buffer begins at the beginning of a page. -/
theorem mpbBase_mod (hk : k ≤ 13) (x y core : ℤ) (isOwnMPB : Bool) :
    (mpbBase x y core isOwnMPB).toNat % 2 ^ k = 0 := by
  have hdvd : 2 ^ k ∣ 2 ^ 13 := Nat.pow_dvd_pow 2 hk
  have h13 : 2 ^ 13 ∣ (mpbBase x y core isOwnMPB).toNat := by
    have hsize : (mpbSize : ℤ) = 2 ^ 13 := rfl
    have hcols : (numCols : ℤ) = 6 := rfl
    rw [mpbBase, BitVec.toNat_ofInt, hsize, hcols, mpbOwn]
    split <;> omega
  exact Nat.mod_eq_zero_of_dvd (Nat.dvd_trans hdvd h13)

theorem Request.alloc_eq (hx : x.Valid) : x.alloc k t m =
    (m + pageOffset k x.addr, t.map (mmapAt k m (x.length k) x.dev (alignedAddr k x.addr))) := by
  cases x with
  | reg a => rfl
  | mpb x y core isOwnMPB =>
    obtain ⟨hcol, hrow, hcore⟩ := hx
    exact if_neg (by omega)

/-- A call that is refused maps nothing. -/
theorem Request.alloc_of_not_valid (hx : ¬ x.Valid) : x.alloc k t m = (0, t) := by
  cases x with
  | reg a => exact absurd trivial hx
  | mpb x y core isOwnMPB =>
    refine if_pos ?_
    rw [Valid] at hx
    omega

theorem Space.pages_alloc (hx : x.Valid) : (s.alloc k x m).pages =
    s.pages.map (mmapAt k m (x.length k) x.dev (alignedAddr k x.addr)) := by
  rw [Space.alloc, Request.alloc_eq hx]

theorem Grants.toNat_ptr (hk : k ≤ 13) (hg : Grants k t m j) (a : BitVec 32) :
    (m + pageOffset k a).toNat = m.toNat / 2 ^ k * 2 ^ k + a.toNat % 2 ^ k := by
  have hpos : 0 < 2 ^ k := Nat.two_pow_pos k
  have hm : m.toNat / 2 ^ k * 2 ^ k = m.toNat :=
    Nat.div_mul_cancel (Nat.dvd_of_mod_eq_zero hg.aligned)
  have hlt := m.isLt
  have hmod := Nat.mod_lt a.toNat hpos
  have h32 : 2 ^ 32 = 2 ^ (32 - k) * 2 ^ k := by rw [← Nat.pow_add, Nat.sub_add_cancel (by omega)]
  have hnext : (m.toNat / 2 ^ k + 1) * 2 ^ k ≤ 2 ^ 32 := by
    rw [h32]
    exact Nat.mul_le_mul_right _ (Nat.div_lt_of_lt_mul (by rwa [Nat.mul_comm, ← h32]))
  rw [Nat.add_mul, hm, Nat.one_mul] at hnext
  rw [BitVec.toNat_add, toNat_pageOffset hk, hm, Nat.mod_eq_of_lt (by omega)]

theorem Grants.ptr_div (hk : k ≤ 13) (hg : Grants k t m j) (a : BitVec 32) :
    (m + pageOffset k a).toNat / 2 ^ k = m.toNat / 2 ^ k := by
  have hpos : 0 < 2 ^ k := Nat.two_pow_pos k
  rw [hg.toNat_ptr hk, Nat.add_comm, Nat.add_mul_div_right _ _ hpos,
    Nat.div_eq_of_lt (Nat.mod_lt _ hpos), Nat.zero_add]

theorem Grants.ptr_mod (hk : k ≤ 13) (hg : Grants k t m j) (a : BitVec 32) :
    (m + pageOffset k a).toNat % 2 ^ k = a.toNat % 2 ^ k := by
  rw [hg.toNat_ptr hk, Nat.mul_add_mod', Nat.mod_mod]

/-- What is mapped for a pointer is what its call maps. -/
theorem mappingOf_alloc (hk : k ≤ 13) (hg : Grants k t m j) (x : Request) :
    mappingOf k (x, m + pageOffset k x.addr)
      = mmapAt k m (x.length k) x.dev (alignedAddr k x.addr) := by
  rw [mappingOf, mmapAt, hg.ptr_div hk, toNat_alignedAddr hk,
    Nat.mul_div_cancel _ (Nat.two_pow_pos k)]

theorem SpaceHolds.alloc (hk : k ≤ 13) (hI : SpaceHolds k t₀ s) (hx : x.Valid)
    (hg : Grants k s.pages m (x.length k)) : SpaceHolds k t₀ (s.alloc k x m) := by
  rw [Space.alloc, Request.alloc_eq hx]
  refine ⟨?_, fun e he => ?_⟩
  · rw [List.map_cons, mappingOf_alloc hk hg]
    exact hI.mapped.map hg.vacant
  · rcases List.mem_cons.mp he with rfl | he
    · refine ⟨hg.ptr_mod hk _, ?_⟩
      have hm := Nat.div_mul_cancel (Nat.dvd_of_mod_eq_zero hg.aligned)
      rw [hg.ptr_div hk, Nat.add_mul, hm]
      exact hg.fits
    · exact hI.held e he

/-- A pointer is given back with the mapping behind it. -/
theorem SpaceHolds.release_eq (hk : k ≤ 13) (hI : SpaceHolds k t₀ s) (he : e ∈ s.held) :
    (e.1.release k s.pages e.2).2
      = s.pages.unmap (mappingOf k e).page (mappingOf k e).count := by
  have hmod := (hI.held e he).1
  obtain ⟨x, p⟩ := e
  cases x with
  | reg a =>
    change munmap k s.pages (alignedAddr k p) (2 ^ k) = _
    rw [munmap, toNat_alignedAddr hk, if_pos (Nat.mul_mod_left ..),
      Nat.mul_div_cancel _ (Nat.two_pow_pos k)]
    rfl
  | mpb x y core isOwnMPB =>
    have hp : p.toNat % 2 ^ k = 0 := hmod.trans (mpbBase_mod hk x y core isOwnMPB)
    rw [Request.release, mpbUnalloc, munmap, if_pos hp]
    rfl

theorem SpaceHolds.free (hk : k ≤ 13) (hI : SpaceHolds k t₀ s) (he : e ∈ s.held) :
    SpaceHolds k t₀ (s.free k e) := by
  refine ⟨?_, fun e' he' => hI.held e' (List.mem_of_mem_erase he')⟩
  rw [Space.free, hI.release_eq hk he]
  exact (hI.mapped.perm ((List.perm_cons_erase he).map _)).unmap

/-- The pointer that `MallocConfigReg` returns leads to the register. -/
theorem Grants.access_ptr (hk : k ≤ 13) (hg : Grants k t m (2 ^ k)) (a : BitVec 32) :
    access k (mallocConfigReg k t m a).2 (mallocConfigReg k t m a).1 = some (.ncm, a.toNat) := by
  have hpos : 0 < 2 ^ k := Nat.two_pow_pos k
  have hmap := (mapped_nil (t := t)).map (a := mmapAt k m (2 ^ k) .ncm (alignedAddr k a)) hg.vacant
  have hlead := hmap.lead (List.mem_singleton_self _) (b := 2 ^ k) (j := a.toNat % 2 ^ k) (by
    rw [mmapAt, pageCount_self, Nat.one_mul]
    exact Nat.mod_lt _ hpos)
  rw [mmapAt, toNat_alignedAddr hk, Nat.mul_div_cancel _ hpos, Nat.div_add_mod'] at hlead
  rw [access, mallocConfigReg, hg.toNat_ptr hk, mmapAt, toNat_alignedAddr hk,
    Nat.mul_div_cancel _ hpos]
  exact hlead

/-- `ReadConfigReg` and `SetConfigReg` leave no page behind. -/
theorem Grants.unmap (hg : Grants k t m (2 ^ k)) (a : BitVec 32) :
    munmap k (mallocConfigReg k t m a).2 m (2 ^ k) = t := by
  rw [munmap, if_pos hg.aligned]
  exact PageMap.unmap_map (a := mmapAt k m (2 ^ k) .ncm (alignedAddr k a)) hg.vacant

theorem readConfigReg_eq (hk : k ≤ 13) (hg : Grants k t m (2 ^ k))
    (regs : Device × ℕ → BitVec 32) (a : BitVec 32) :
    readConfigReg k t regs m a = (some (regs (.ncm, a.toNat)), t) := by
  change ((access k (mallocConfigReg k t m a).2 (mallocConfigReg k t m a).1).map regs,
    munmap k (mallocConfigReg k t m a).2 m (2 ^ k)) = _
  rw [hg.access_ptr hk, hg.unmap, Option.map_some]

theorem setConfigReg_eq (hk : k ≤ 13) (hg : Grants k t m (2 ^ k))
    (regs : Device × ℕ → BitVec 32) (a v : BitVec 32) :
    setConfigReg k t regs m a v = (some (Function.update regs (.ncm, a.toNat) v), t) := by
  change ((access k (mallocConfigReg k t m a).2 (mallocConfigReg k t m a).1).map fun r =>
    Function.update regs r v, munmap k (mallocConfigReg k t m a).2 m (2 ^ k)) = _
  rw [hg.access_ptr hk, hg.unmap, Option.map_some]

/-- **`SetConfigBit` sets one bit.** Whatever pages the kernel picks for the two calls, exactly
this bit of this register is changed, and the pages are as before. -/
theorem setConfigBit_spec (hk : k ≤ 13) {m' : BitVec 32} (hg : Grants k t m (2 ^ k))
    (hg' : Grants k t m' (2 ^ k)) (regs : Device × ℕ → BitVec 32) (a : BitVec 32) {pos : ℕ}
    (hpos : pos < 32) (value : Bool) :
    ∃ regs', setConfigBit k t regs m m' a pos value = (some regs', t) ∧
      (∀ r, r ≠ (.ncm, a.toNat) → regs' r = regs r) ∧
      ∀ i < 32, (regs' (.ncm, a.toNat)).getLsbD i =
        if i = pos then value else (regs (.ncm, a.toNat)).getLsbD i := by
  have hbit : ∀ i, (1#32 <<< pos).getLsbD i = decide (i = pos) := by
    intro i
    rw [← BitVec.twoPow_eq, BitVec.getLsbD_twoPow]
    by_cases h : i = pos
    · simp [h, hpos]
    · simp [h, Ne.symm h]
  rw [setConfigBit, readConfigReg_eq hk hg]
  refine ⟨_, setConfigReg_eq hk hg' regs a _, fun r hr => Function.update_of_ne hr _ _,
    fun i hi => ?_⟩
  rw [Function.update_self]
  cases value with
  | true =>
    rw [if_pos rfl, BitVec.getLsbD_or, hbit]
    split <;> simp_all
  | false =>
    rw [if_neg Bool.false_ne_true, BitVec.getLsbD_and, BitVec.getLsbD_not, hbit]
    split <;> simp_all

theorem SpaceHolds.step (hk : k ≤ 13) (hI : SpaceHolds k t₀ s) (hok : ApiOk s op)
    (hs : ApiStep k s op s') : SpaceHolds k t₀ s' := by
  cases hs with
  | alloc x m hx hg => exact hI.alloc hk hx hg
  | refused x m hx =>
    rw [Request.alloc_of_not_valid hx]
    exact hI
  | free e => exact hI.free hk hok
  | config a m hg =>
    rw [hg.unmap a]
    exact hI

theorem spaceHolds_initial (t₀ : PageMap Device) : SpaceHolds k t₀ (Space.initial t₀) :=
  ⟨mapped_nil, fun _ he => absurd he List.not_mem_nil⟩

/-- A pointer held leads to the address it is for, and on from there as far as is mapped. -/
theorem SpaceHolds.access_held (hI : SpaceHolds k t₀ s) (he : (x, p) ∈ s.held)
    (hj : x.addr.toNat % 2 ^ k + j < pageCount k (x.length k) * 2 ^ k) :
    access k s.pages (p + BitVec.ofNat 32 j) = some (x.dev, x.addr.toNat + j) := by
  obtain ⟨hmod, hfits⟩ : p.toNat % 2 ^ k = x.addr.toNat % 2 ^ k ∧
      (p.toNat / 2 ^ k + pageCount k (x.length k)) * 2 ^ k ≤ 2 ^ 32 := hI.held _ he
  have hpage := Nat.div_add_mod' p.toNat (2 ^ k)
  have haddr := Nat.div_add_mod' x.addr.toNat (2 ^ k)
  have hlead := hI.mapped.lead (List.mem_map_of_mem he) hj
  rw [Nat.add_mul] at hfits
  have hp : (p + BitVec.ofNat 32 j).toNat
      = p.toNat / 2 ^ k * 2 ^ k + (x.addr.toNat % 2 ^ k + j) := by
    rw [BitVec.toNat_add, BitVec.toNat_ofNat, Nat.add_mod_mod, Nat.mod_eq_of_lt (by omega)]
    omega
  rw [mappingOf, ← Nat.add_assoc (x.addr.toNat / 2 ^ k * 2 ^ k), haddr] at hlead
  rw [access, hp, hlead]

/-- **Pointers lead to what they were asked for.** After any calls, for any addresses and
coordinates, in which only pointers held are given back, and whatever pages the kernel picks:
every pointer held leads to the address it was asked for; all other pages are as they were
before the first call, so many are not as the pointers held need; and `ReadConfigReg` and
`SetConfigReg` reach their register and leave the pages as they are. -/
theorem pointers_lead (hk : k ≤ 13)
    (h : Reach (Guarded (ApiStep k) ApiOk) (Space.initial t₀) s) :
    (∀ x p, (x, p) ∈ s.held → ∀ j,
      x.addr.toNat % 2 ^ k + j < pageCount k (x.length k) * 2 ^ k →
      access k s.pages (p + BitVec.ofNat 32 j) = some (x.dev, x.addr.toNat + j)) ∧
    (∃ S : Finset ℕ, S.card = (s.held.map fun e => pageCount k (e.1.length k)).sum ∧
      (∀ v ∈ S, t₀ v = none ∧ s.pages v ≠ none) ∧ ∀ v, v ∉ S → s.pages v = t₀ v) ∧
    ∀ m, Grants k s.pages m (2 ^ k) → ∀ a,
      access k (mallocConfigReg k s.pages m a).2 (mallocConfigReg k s.pages m a).1
        = some (.ncm, a.toNat) ∧
      munmap k (mallocConfigReg k s.pages m a).2 m (2 ^ k) = s.pages := by
  have hI : SpaceHolds k t₀ s :=
    h.invariant (spaceHolds_initial t₀) fun _ _ _ hI hs => hI.step hk hs.1 hs.2
  refine ⟨fun x p he j hj => hI.access_held he hj, ?_,
    fun m hg a => ⟨hg.access_ptr hk a, hg.unmap a⟩⟩
  obtain ⟨S, hcard, hS⟩ := hI.mapped.exists_pages
  refine ⟨S, by rw [hcard, List.map_map]; rfl, fun v hv => ?_, fun v hv => ?_⟩
  · have hmem := List.mem_flatMap.mpr ((hS v).mp hv)
    exact ⟨hI.mapped.fresh v hmem, hI.mapped.ne_none hmem⟩
  · exact hI.mapped.other v fun hmem => hv ((hS v).mpr (List.mem_flatMap.mp hmem))

/-- The register at `0xf8000100` is mapped twice, and then a buffer; the second pointer is given
back. -/
theorem pointers_lead_demo : ∃ s : Space,
    s.held = [(.mpb 0 0 1 false, 0x30000#32), (.reg 0xf8000100#32, 0x10100#32)] ∧
      access 12 s.pages 0x10103#32 = some (.ncm, 0xf8000103) ∧
      access 12 s.pages 0x31fff#32 = some (.mpb, 0xc0003fff) := by
  have r₀ : Reach (Guarded (ApiStep 12) ApiOk) (Space.initial fun _ => none) _ := Reach.init
  have r₁ := r₀.next (a := ApiOp.alloc (.reg 0xf8000100#32)) ⟨trivial, .alloc _ 0x10000#32
    trivial ⟨by decide, by decide, fun _ _ _ => rfl⟩⟩
  have r₂ := r₁.next (a := ApiOp.alloc (.reg 0xf8000100#32)) ⟨trivial, .alloc _ 0x20000#32
    trivial ⟨by decide, by decide,
      fun p hle _ => if_neg fun h => absurd (hle.trans_lt h.2) (by decide)⟩⟩
  have r₃ := r₂.next (a := ApiOp.alloc (.mpb 0 0 1 false)) ⟨trivial, .alloc _ 0x30000#32
    ⟨by decide, by decide, by decide⟩ ⟨by decide, by decide, fun p hle _ =>
      (if_neg fun h => absurd (hle.trans_lt h.2) (by decide)).trans
        (if_neg fun h => absurd (hle.trans_lt h.2) (by decide))⟩⟩
  have r₄ := r₃.next (a := ApiOp.free (.reg 0xf8000100#32, 0x20100#32))
    ⟨List.mem_cons_of_mem _ List.mem_cons_self, .free _⟩
  obtain ⟨hlead, -⟩ := pointers_lead (by decide) r₄
  exact ⟨_, rfl, hlead (.reg 0xf8000100#32) 0x10100#32 (by decide) 3 (by decide),
    hlead (.mpb 0 0 1 false) 0x30000#32 (by decide) 0x1fff (by decide)⟩

end Holds

end SccShm
