import SccShm.Blit
import SccShm.Config
import SccShm.SharedWindow

/-!
# The tables of `SccInit`

What `SccInit` and `SccCleanup` call, in their order. `SccCleanup` gives back the locks and
the buffers, but neither the interrupt pins nor the lookup tables nor the counters.

* `registers_reached` — what the tables lead to, once `SCCInit` has mapped its windows: one of
  them at a fixed address, over whatever is there.
* `cleanup_leaves` — what stays mapped after any number of rounds.
-/

namespace SccShm

/-! ## The pointers -/

/-- The pointers of `SccInit`: the bases of the two sets of counters, and what is in the
tables. -/
inductive Slot : Type where
  | airE
  | airF
  | irqPin (cpu : ℕ)
  | lock (cpu : ℕ)
  | lut (cpu : ℕ)
  | mpb (cpu : ℕ)
deriving DecidableEq

namespace Slot

def Exists : Slot → Prop
  | airE | airF => True
  | irqPin cpu | lock cpu | lut cpu | mpb cpu => cpu < cores

/-- The address it is for, on core `self`. -/
def addr (self : ℕ) : Slot → ℕ
  | airE => fpgaBase + 0xE000
  | airF => fpgaBase + 0xF000
  | irqPin cpu => irqPinAddr self cpu
  | lock cpu => lockAddr self cpu
  | lut cpu => lutAddr self cpu
  | mpb cpu => mpbsAddr self cpu

def dev : Slot → Device
  | mpb _ => .mpb
  | _ => .ncm

/-- How core `self` asks for it. -/
def request (self : ℕ) : Slot → Request
  | mpb cpu => .mpb (xPid cpu) (yPid cpu) (zPid cpu) (cpu == self)
  | x => .reg (BitVec.ofNat 32 (x.addr self))

end Slot

/-- The address space of a core, and its tables. -/
structure Core : Type extends Space where
  ptr : Slot → BitVec 32

namespace Core

/-- A core that has called nothing yet. -/
def initial (t₀ : PageMap Device) : Core := ⟨Space.initial t₀, fun _ => 0⟩

/-- The pointer `x` is set, with the address `m` from `mmap`. -/
def alloc (k self : ℕ) (s : Core) (x : Slot) (m : BitVec 32) : Core where
  toSpace := s.toSpace.alloc k (x.request self) m
  ptr := Function.update s.ptr x ((x.request self).alloc k s.pages m).1

/-- What `x` points to is given back. -/
def free (k self : ℕ) (s : Core) (x : Slot) : Core where
  toSpace := s.toSpace.free k (x.request self, s.ptr x)
  ptr := Function.update s.ptr x ((x.request self).release k s.pages (s.ptr x)).1

section Pointers

variable {k self : ℕ} {s : Core} {x y : Slot} {m : BitVec 32}

@[simp] theorem ptr_alloc_self :
    (s.alloc k self x m).ptr x = ((x.request self).alloc k s.pages m).1 :=
  Function.update_self ..

theorem ptr_alloc_of_ne (hne : y ≠ x) : (s.alloc k self x m).ptr y = s.ptr y :=
  Function.update_of_ne hne ..

theorem ptr_free_of_ne (hne : y ≠ x) : (s.free k self x).ptr y = s.ptr y :=
  Function.update_of_ne hne ..

end Pointers

end Core

/-! ## The calls -/

/-- What `SccInit` and `SccCleanup` call. -/
inductive TableOp : Type where
  /-- `MallocConfigReg` or `MPBalloc` for a pointer, in use or not -/
  | alloc (x : Slot)
  /-- `FreeConfigReg` or `MPBunalloc` of what the pointer is -/
  | free (x : Slot)
  /-- `ReadConfigReg(a)` -/
  | config (a : BitVec 32)

/-- One call that returns, on core `self`. -/
inductive TableStep (k self : ℕ) : Core → TableOp → Core → Prop where
  | alloc {s : Core} (x : Slot) (m : BitVec 32) : x.Exists →
      Grants k s.pages m ((x.request self).length k) →
      TableStep k self s (.alloc x) (s.alloc k self x m)
  | free {s : Core} (x : Slot) : TableStep k self s (.free x) (s.free k self x)
  | config {s : Core} (a m : BitVec 32) : Grants k s.pages m (2 ^ k) →
      TableStep k self s (.config a)
        { s with pages := munmap k (mallocConfigReg k s.pages m a).2 m (2 ^ k) }

/-- The pointers that `SccInit` sets, in the order in which it does. -/
def sccInitSlots : List Slot :=
  .airE :: .airF :: (List.range cores).flatMap fun cpu =>
    [.irqPin cpu, .lock cpu, .lut cpu, .mpb cpu]

/-- `SccInit`, before `SCCInit`: the register `MYTILEID` is read, then the tables are set. -/
def sccInitCalls : List TableOp :=
  .config (BitVec.ofNat 32 (crbOwn + 0x100)) :: sccInitSlots.map .alloc

/-- The pointers that `SccCleanup` gives back. -/
def sccCleanupSlots : List Slot := (List.range cores).flatMap fun cpu => [.mpb cpu, .lock cpu]

/-- `SccCleanup`. -/
def sccCleanupCalls : List TableOp := sccCleanupSlots.map .free

/-- The pointers that nothing gives back. -/
def keptSlots : List Slot :=
  .airE :: .airF :: (List.range cores).flatMap fun cpu => [.irqPin cpu, .lut cpu]

/-- `n` rounds of `SccInit` and `SccCleanup`. -/
def rounds (n : ℕ) : List TableOp := (List.replicate n (sccInitCalls ++ sccCleanupCalls)).flatten

section Calls

variable {k self n : ℕ} {t₀ : PageMap Device} {s s' : Core} {xs : List Slot}
  {l : List (Request × BitVec 32)} {x : Slot} {op : TableOp}

theorem Slot.addr_lt (hx : x.Exists) : x.addr self < 2 ^ 32 := by
  have hcores : cores = 48 := rfl
  have hcrb : ∀ cpu < cores, crbBase self cpu < 2 ^ 32 - 0x01000000 := by
    intro cpu hcpu
    rw [crbBase]
    split
    · rw [crbOwn]
      decide
    · rw [crbAddr_eq]
      omega
  cases x with
  | airE | airF =>
    rw [addr, fpgaBase]
    decide
  | irqPin cpu =>
    have := hcrb cpu hx
    rw [addr, irqPinAddr]
    split <;> omega
  | lock cpu =>
    have := hcrb cpu hx
    rw [addr, lockAddr]
    split <;> omega
  | lut cpu =>
    have := hcrb cpu hx
    rw [addr, lutAddr]
    split <;> omega
  | mpb cpu =>
    have hcpu : cpu < 48 := hx
    have hsize : mpbSize = 0x2000 := rfl
    have hz : zPid cpu = cpu % 2 := rfl
    rw [addr, mpbsAddr, hsize, hz]
    split
    · rw [mpbOwn]
      omega
    · rw [mpbAddr_eq]
      omega

/-- `SccInit` asks for what is in its tables. -/
theorem Slot.addr_request (self : ℕ) (x : Slot) :
    (x.request self).addr = BitVec.ofNat 32 (x.addr self) := by
  cases x with
  | mpb cpu =>
    have haddr : (if (cpu == self) = true then (mpbOwn + mpbSize * zPid cpu : ℤ)
        else 0xc0000000 + 0x01000000 * xPid cpu + 0x01000000 * numCols * yPid cpu
          + mpbSize * zPid cpu) = (mpbsAddr self cpu : ℕ) := by
      rw [mpbsAddr, mpbAddr, apply_ite Nat.cast]
      push_cast
      exact if_congr beq_iff_eq rfl rfl
    rw [request, Request.addr, mpbBase, haddr, BitVec.ofInt_natCast]
    rfl
  | _ => rfl

theorem Slot.toNat_addr_request (self : ℕ) (hx : x.Exists) : (x.request self).addr.toNat = x.addr self := by
  rw [addr_request, BitVec.toNat_ofNat, Nat.mod_eq_of_lt (addr_lt hx)]

theorem Slot.dev_request (self : ℕ) (x : Slot) : (x.request self).dev = x.dev := by
  cases x <;> rfl

/-- No pointer of `SccInit` is refused. -/
theorem Slot.valid (hx : x.Exists) : (x.request self).Valid := by
  cases x with
  | mpb cpu =>
    obtain ⟨hcol, hrow, hcore, -⟩ := coords_lt hx
    exact ⟨Int.ofNat_lt.mpr hcol, Int.ofNat_lt.mpr hrow, Int.ofNat_lt.mpr hcore⟩
  | _ => trivial

/-- The call behind a step. -/
def TableOp.call (self : ℕ) (s : Core) : TableOp → ApiOp
  | alloc x => .alloc (x.request self)
  | free x => .free (x.request self, s.ptr x)
  | config a => .config a

theorem TableStep.apiStep (hs : TableStep k self s op s') :
    ApiStep k s.toSpace (op.call self s) s'.toSpace := by
  cases hs with
  | alloc x m hx hg => exact .alloc _ m (Slot.valid hx) hg
  | free x => exact .free _
  | config a m hg => exact .config a m hg

/-- What a pointer set in the tables is held as. -/
def Core.entry (self : ℕ) (s : Core) (x : Slot) : Request × BitVec 32 := (x.request self, s.ptr x)

theorem mem_sccInitSlots : x ∈ sccInitSlots ↔ x.Exists := by
  cases x <;> simp [sccInitSlots, Slot.Exists]

theorem nodup_sccInitSlots : sccInitSlots.Nodup := by
  rw [sccInitSlots, List.nodup_cons, List.nodup_cons, List.nodup_flatMap]
  refine ⟨by simp, by simp, fun cpu _ => by simp, ?_⟩
  refine List.nodup_range.pairwise_of_forall_ne fun i _ j _ hne => ?_
  simp [Function.onFun, List.disjoint_left, hne]

/-- What is set is given back or kept. -/
theorem sccInitSlots_perm : sccInitSlots.Perm (sccCleanupSlots ++ keptSlots) := by
  have hcpu : ∀ cpu, [Slot.irqPin cpu, .lock cpu, .lut cpu, .mpb cpu].Perm
      ([.mpb cpu, .lock cpu] ++ [.irqPin cpu, .lut cpu]) := by
    intro cpu
    refine (List.perm_ext_iff_of_nodup (by simp) (by simp)).mpr fun x => ?_
    simp only [List.cons_append, List.nil_append, List.mem_cons, List.not_mem_nil, or_false]
    tauto
  have htables := (List.Perm.flatMap_left (List.range cores) fun cpu _ => hcpu cpu).trans
    (List.flatMap_append_perm _ _ _).symm
  rw [sccInitSlots, keptSlots]
  refine ((htables.cons .airF).cons .airE).trans ?_
  exact ((List.perm_middle.symm).cons _).trans List.perm_middle.symm

/-- Calls for different pointers: the pointers are held, besides those from before. -/
theorem SpaceHolds.allocs (hk : k ≤ 13) (hI : SpaceHolds k t₀ s.toSpace) (hxs : xs.Nodup)
    (h : Trace (TableStep k self) s (xs.map .alloc) s') :
    SpaceHolds k t₀ s'.toSpace ∧ s'.held.Perm (xs.map (s'.entry self) ++ s.held) ∧
      ∀ x, x ∉ xs → s'.ptr x = s.ptr x := by
  induction xs generalizing s with
  | nil =>
    cases h
    exact ⟨hI, List.Perm.refl _, fun _ _ => rfl⟩
  | cons y xs ih =>
    obtain ⟨hy, hxs⟩ := List.nodup_cons.mp hxs
    cases h with
    | cons hs hl =>
      have hI₁ :=
        hI.step hk (show ApiOk s.toSpace (.alloc (y.request self)) from trivial) hs.apiStep
      cases hs with
      | alloc _ m hx hg =>
        obtain ⟨hI', hheld, hptr⟩ := ih hI₁ hxs hl
        refine ⟨hI', ?_, fun x hx' => ?_⟩
        · rw [List.map_cons, Core.entry, hptr y hy, Core.ptr_alloc_self]
          exact hheld.trans List.perm_middle
        · obtain ⟨hne, hx'⟩ := not_or.mp (List.mem_cons.not.mp hx')
          rw [hptr x hx', Core.ptr_alloc_of_ne hne]

/-- Different pointers that are held are given back: the others remain. -/
theorem SpaceHolds.frees (hk : k ≤ 13) (hI : SpaceHolds k t₀ s.toSpace) (hxs : xs.Nodup)
    (hheld : s.held.Perm (xs.map (s.entry self) ++ l))
    (h : Trace (TableStep k self) s (xs.map .free) s') :
    SpaceHolds k t₀ s'.toSpace ∧ s'.held.Perm l := by
  induction xs generalizing s with
  | nil =>
    cases h
    exact ⟨hI, hheld⟩
  | cons y xs ih =>
    obtain ⟨hy, hxs⟩ := List.nodup_cons.mp hxs
    cases h with
    | cons hs hl =>
      have hmem : s.entry self y ∈ s.held := hheld.mem_iff.mpr (List.mem_cons_self ..)
      cases hs with
      | free =>
        refine ih (hI.free hk hmem) hxs ?_ hl
        have herase := hheld.erase (s.entry self y)
        rw [List.map_cons, List.cons_append, List.erase_cons_head] at herase
        refine herase.trans (List.Perm.of_eq ?_)
        congr 1
        refine List.map_congr_left fun x hx => ?_
        rw [Core.entry, Core.entry, Core.ptr_free_of_ne (ne_of_mem_of_not_mem hx hy)]

/-- One round: what stays is held. -/
theorem SpaceHolds.round (hk : k ≤ 13) (hI : SpaceHolds k t₀ s.toSpace)
    (h : Trace (TableStep k self) s (sccInitCalls ++ sccCleanupCalls) s') :
    SpaceHolds k t₀ s'.toSpace ∧
      ∃ s₁ : Core, s'.held.Perm (keptSlots.map (s₁.entry self) ++ s.held) := by
  obtain ⟨s₁, hinit, hcleanup⟩ := h.split
  cases hinit with
  | cons hs hl =>
    cases hs with
    | config _ m hg =>
      rw [hg.unmap] at hl
      obtain ⟨hI₁, hheld, -⟩ := hI.allocs hk nodup_sccInitSlots hl
      have hperm := (sccInitSlots_perm.map (s₁.entry self)).append_right s.held
      rw [List.map_append, List.append_assoc] at hperm
      have hnodup := (List.nodup_append.mp (sccInitSlots_perm.nodup_iff.mp nodup_sccInitSlots)).1
      obtain ⟨hI', hheld'⟩ := hI₁.frees hk hnodup (hheld.trans hperm) hcleanup
      exact ⟨hI', s₁, hheld'⟩

theorem length_keptSlots : keptSlots.length = 98 := by decide

theorem SpaceHolds.rounds (hk : k ≤ 13) (hI : SpaceHolds k t₀ s.toSpace)
    (hkept : ∀ e ∈ s.held, e.1 ∈ keptSlots.map (Slot.request self))
    (h : Trace (TableStep k self) s (rounds n) s') :
    SpaceHolds k t₀ s'.toSpace ∧ s'.held.length = 98 * n + s.held.length ∧
      ∀ e ∈ s'.held, e.1 ∈ keptSlots.map (Slot.request self) := by
  induction n generalizing s with
  | zero =>
    cases h
    exact ⟨hI, (Nat.zero_add _).symm, hkept⟩
  | succ n ih =>
    rw [SccShm.rounds, List.replicate_succ, List.flatten_cons] at h
    obtain ⟨s₁, hround, hrest⟩ := h.split
    obtain ⟨hI₁, s₀, hheld⟩ := hI.round hk hround
    have hkept₁ : ∀ e ∈ s₁.held, e.1 ∈ keptSlots.map (Slot.request self) := by
      intro e he
      rcases List.mem_append.mp (hheld.mem_iff.mp he) with he | he
      · obtain ⟨x, hx, rfl⟩ := List.mem_map.mp he
        exact List.mem_map_of_mem hx
      · exact hkept e he
    obtain ⟨hI', hlen, hkept'⟩ := ih hI₁ hkept₁ hrest
    refine ⟨hI', ?_, hkept'⟩
    rw [hlen, hheld.length_eq, List.length_append, List.length_map, length_keptSlots]
    omega

/-- The pointers kept are to single pages of registers. -/
theorem keptSlots_request (k self : ℕ) (hx : x ∈ keptSlots) : x.Exists ∧
    (x.request self).dev = .ncm ∧ (x.request self).length k = 2 ^ k := by
  refine ⟨mem_sccInitSlots.mp (sccInitSlots_perm.mem_iff.mpr (List.mem_append_right _ hx)), ?_⟩
  cases x <;> simp [keptSlots] at hx <;> exact ⟨rfl, rfl⟩

/-- **`SccCleanup` does not give back everything.** However many times `SccInit` sets its tables
and `SccCleanup` is called, and whatever pages the kernel picks, 98 pages stay mapped each
time: those of the interrupt pins, of the lookup tables and of the counters. All others are
as they were before. -/
theorem cleanup_leaves (hk : k ≤ 13) (n : ℕ)
    (h : Trace (TableStep k self) (Core.initial t₀) (rounds n) s) :
    ∃ S : Finset ℕ, S.card = 98 * n ∧
      (∀ v ∈ S, t₀ v = none ∧
        ∃ x ∈ keptSlots, s.pages v = some (.ncm, x.addr self / 2 ^ k)) ∧
      ∀ v, v ∉ S → s.pages v = t₀ v := by
  obtain ⟨hI, hlen, hkept⟩ := SpaceHolds.rounds hk (spaceHolds_initial t₀)
    (fun _ he => absurd he List.not_mem_nil) h
  have hslot : ∀ e ∈ s.held, (mappingOf k e).count = 1 ∧
      ∃ x ∈ keptSlots, (mappingOf k e).dev = .ncm ∧ (mappingOf k e).frame = x.addr self / 2 ^ k := by
    intro e he
    obtain ⟨x, hx, heq⟩ := List.mem_map.mp (hkept e he)
    obtain ⟨hexists, hdev, hlength⟩ := keptSlots_request k self hx
    rw [mappingOf, ← heq, hlength, pageCount_self, hdev, Slot.toNat_addr_request self hexists]
    exact ⟨rfl, x, hx, rfl, rfl⟩
  obtain ⟨S, hcard, hS⟩ := hI.mapped.exists_pages
  refine ⟨S, ?_, fun v hv => ?_, fun v hv => ?_⟩
  · have hmap : s.held.map (Mapping.count ∘ mappingOf k) = s.held.map fun _ => 1 :=
      List.map_congr_left fun e he => (hslot e he).1
    rw [hcard, List.map_map, hmap, List.map_const', List.sum_replicate, hlen]
    exact Nat.mul_one _
  · obtain ⟨a, ha, hv⟩ := (hS v).mp hv
    obtain ⟨e, he, rfl⟩ := List.mem_map.mp ha
    obtain ⟨hcount, x, hx, hdev, hframe⟩ := hslot e he
    refine ⟨hI.mapped.fresh v (List.mem_flatMap.mpr ⟨_, ha, hv⟩), x, hx, ?_⟩
    obtain ⟨hle, hlt⟩ := Mapping.mem_pages.mp hv
    rw [hcount] at hlt
    have heq : v = (mappingOf k e).page := by omega
    rw [hI.mapped.maps _ ha v hv, heq, Nat.sub_self, hdev, hframe, Nat.add_zero]
  · exact hI.mapped.other v fun hmem => hv ((hS v).mpr (List.mem_flatMap.mp hmem))

/-- The kernel can grant calls for which there is room, all below the address `w`. -/
theorem exists_allocs (self : ℕ) {v w : ℕ} (xs : List Slot) (hx : ∀ x ∈ xs, x.Exists)
    (hroom : (v + 2 * xs.length) * 2 ^ 12 ≤ w) (hw : w ≤ 2 ^ 32)
    (hvacant : s.pages.Vacant v (2 * xs.length)) (hbelow : ∀ x, (s.ptr x).toNat < w) :
    ∃ s', Trace (TableStep 12 self) s (xs.map .alloc) s' ∧ ∀ x, (s'.ptr x).toNat < w := by
  induction xs generalizing s v with
  | nil => exact ⟨s, .nil, hbelow⟩
  | cons x xs ih =>
    rw [List.length_cons] at hroom hvacant
    have hv : (BitVec.ofNat 32 (v * 2 ^ 12)).toNat = v * 2 ^ 12 := by
      rw [BitVec.toNat_ofNat, Nat.mod_eq_of_lt (by omega)]
    have hpage : (BitVec.ofNat 32 (v * 2 ^ 12)).toNat / 2 ^ 12 = v := by
      rw [hv, Nat.mul_div_cancel _ (Nat.two_pow_pos 12)]
    have hcount : pageCount 12 ((x.request self).length 12) ≤ 2 := by
      cases x <;> simp only [Slot.request, Request.length] <;> decide
    have hg : Grants 12 s.pages (BitVec.ofNat 32 (v * 2 ^ 12)) ((x.request self).length 12) := by
      refine ⟨by rw [hv, Nat.mul_mod_left], by rw [hv]; omega, ?_⟩
      rw [hpage]
      exact fun p hle hlt => hvacant p hle (by omega)
    have hexists := hx x (List.mem_cons_self ..)
    have hvacant' : (s.alloc 12 self x (BitVec.ofNat 32 (v * 2 ^ 12))).pages.Vacant (v + 2)
        (2 * xs.length) := by
      intro p hle hlt
      rw [Core.alloc, Space.pages_alloc (Slot.valid hexists), PageMap.map_of_notMem]
      · exact hvacant p (by omega) (by omega)
      · intro hp
        obtain ⟨-, hlt'⟩ := Mapping.mem_pages.mp hp
        simp only [mmapAt, hpage] at hlt'
        omega
    have hbelow' : ∀ y, ((s.alloc 12 self x (BitVec.ofNat 32 (v * 2 ^ 12))).ptr y).toNat < w := by
      intro y
      by_cases hy : y = x
      · have hptr := hg.toNat_ptr (by decide) (x.request self).addr
        have hmod := Nat.mod_lt (x.request self).addr.toNat (Nat.two_pow_pos 12)
        rw [hpage] at hptr
        rw [hy, Core.ptr_alloc_self, Request.alloc_eq (Slot.valid hexists)]
        dsimp only
        omega
      · rw [Core.ptr_alloc_of_ne hy]
        exact hbelow y
    have hroom' : (v + 2 + 2 * xs.length) * 2 ^ 12 ≤ w := by
      rwa [Nat.add_assoc, Nat.add_comm 2, ← Nat.mul_succ]
    obtain ⟨s', hs', hlt⟩ :=
      ih (fun y hy => hx y (List.mem_cons_of_mem _ hy)) hroom' hvacant' hbelow'
    exact ⟨s', .cons (.alloc x _ hexists hg) hs', hlt⟩

theorem exists_frees (self : ℕ) (xs : List Slot) :
    ∃ s', Trace (TableStep k self) s (xs.map .free) s' := by
  induction xs generalizing s with
  | nil => exact ⟨s, .nil⟩
  | cons x xs ih =>
    obtain ⟨s', hs'⟩ := ih (s := s.free k self x)
    exact ⟨s', .cons (.free x) hs'⟩

theorem length_sccInitSlots : sccInitSlots.length = 194 := by
  simp [sccInitSlots, cores, numRows, numCols, numCores]

/-- `SccInit` in an address space in which nothing is mapped. -/
theorem exists_sccInit (self : ℕ) :
    ∃ s, Trace (TableStep 12 self) (Core.initial fun _ => none) sccInitCalls s ∧
      ∀ x, (s.ptr x).toNat < 388 * 2 ^ 12 := by
  have hg : Grants 12 (Core.initial fun _ => none).pages 0#32 (2 ^ 12) :=
    ⟨rfl, by decide, fun _ _ _ => rfl⟩
  obtain ⟨s, hs, hlt⟩ := exists_allocs self (s := Core.initial fun _ => none) (v := 0)
    sccInitSlots (fun x hx => mem_sccInitSlots.mp hx)
    (by rw [length_sccInitSlots]) (w := 388 * 2 ^ 12) (by decide) (fun _ _ _ => rfl)
    fun _ => (by decide : 0 < 388 * 2 ^ 12)
  refine ⟨s, .cons (.config _ _ hg) ?_, hlt⟩
  rw [hg.unmap]
  exact hs

/-- One round, in an address space in which nothing is mapped. -/
theorem cleanup_leaves_demo : ∃ (s : Core) (S : Finset ℕ),
    Trace (TableStep 12 0) (Core.initial fun _ => none) (rounds 1) s ∧ S.card = 98 ∧
      ∀ v, v ∈ S ↔ s.pages v ≠ none := by
  obtain ⟨s₁, h₁, -⟩ := exists_sccInit 0
  obtain ⟨s, h₂⟩ := exists_frees (k := 12) (s := s₁) 0 sccCleanupSlots
  have h : Trace (TableStep 12 0) (Core.initial fun _ => none) (rounds 1) s := by
    rw [rounds, List.replicate_one, List.flatten_singleton]
    exact h₁.append h₂
  obtain ⟨S, hcard, hS, hother⟩ := cleanup_leaves (by decide) 1 h
  refine ⟨s, S, h, hcard, fun v => ⟨fun hv => ?_, fun hv => ?_⟩⟩
  · obtain ⟨-, x, -, hx⟩ := hS v hv
    rw [hx]
    exact Option.some_ne_none _
  · by_contra hnot
    exact hv (hother v hnot)

end Calls

/-! ## What the tables lead to -/

/-- The first window of `SCCInit(30)`: mapped at `nkAddr` (`MAP_FIXED`), over what is there. -/
def localWindow : Mapping Device :=
  mmapAt 12 (BitVec.ofNat 32 nkAddr) (30 * pageSize) .cache (BitVec.ofNat 32 (localLut <<< 24))

/-- The second window of `SCCInit(30)`, when `mmap` returns `m`. -/
def remoteWindow (m : BitVec 32) : Mapping Device :=
  mmapAt 12 m ((maxPages - 30) * pageSize) .cache (BitVec.ofNat 32 ((localLut + 30) <<< 24))

/-- The pages after `SCCInit(30)`. That `mmap` has no room for the second window is not
noticed. -/
def sccInitWindows (t : PageMap Device) : Option (BitVec 32) → PageMap Device
  | none => t.map localWindow
  | some m => (t.map localWindow).map (remoteWindow m)

/-- The kernel has room for the second window. -/
def Grants.Remote (t : PageMap Device) : Option (BitVec 32) → Prop
  | none => True
  | some m => Grants 12 (t.map localWindow) m ((maxPages - 30) * pageSize)

namespace Register

/-- The pointer that leads to a register. -/
def slot : Register → Slot
  | irqPin cpu => .irqPin cpu
  | lock cpu => .lock cpu
  | lut cpu _ => .lut cpu
  | mpb cpu _ => .mpb cpu
  | counter i | init i => if i < cores then .airE else .airF

/-- How many bytes behind the pointer it is. -/
def offset : Register → ℕ
  | irqPin _ | lock _ => 0
  | lut _ idx => 8 * idx
  | mpb _ k => k
  | counter i => 4 * (2 * if i < cores then i else i - cores)
  | init i => 4 * (2 * if i < cores then i else i - cores) + 4

end Register

/-- The pointer to a register, from the tables. -/
def Core.regPtr (s : Core) (r : Register) : BitVec 32 := s.ptr r.slot + BitVec.ofNat 32 r.offset

section Registers

variable {self v j : ℕ} {t t₀ : PageMap Device} {s : Core} {r : Register} {p : BitVec 32}
  {d : Device × ℕ} {remote : Option (BitVec 32)}

theorem crbBase_mod (self cpu : ℕ) : crbBase self cpu % 2 ^ 12 = 0 := by
  rw [crbBase]
  split
  · rfl
  · rw [crbAddr_eq]
    omega

theorem Register.slot_exists (hr : r.Exists) : r.slot.Exists := by
  cases r with
  | irqPin | lock => exact hr
  | lut | mpb => exact hr.1
  | counter | init =>
    rw [slot]
    split <;> exact trivial

theorem Register.address_eq (r : Register) : r.address self = r.slot.addr self + r.offset := by
  cases r with
  | irqPin | lock | lut | mpb => rfl
  | counter i | init i =>
    simp only [address, slot, offset, airInit, airCounter]
    split <;> rfl

/-- What is mapped for a pointer is enough for its registers. -/
theorem Register.fits (self : ℕ) (hr : r.Exists) : r.slot.addr self % 2 ^ 12 + (r.offset + r.width)
    ≤ pageCount 12 ((r.slot.request self).length 12) * 2 ^ 12 := by
  have hcores : cores = 48 := rfl
  have hbuffer : pageCount 12 mpbSize * 2 ^ 12 = mpbSize := rfl
  have hpage : pageCount 12 (2 ^ 12) * 2 ^ 12 = 2 ^ 12 := rfl
  cases r with
  | irqPin cpu =>
    have := crbBase_mod self cpu
    simp only [slot, offset, width, Slot.request, Request.length, Slot.addr, hpage, irqPinAddr]
    split <;> omega
  | lock cpu =>
    have := crbBase_mod self cpu
    simp only [slot, offset, width, Slot.request, Request.length, Slot.addr, hpage, lockAddr]
    split <;> omega
  | lut cpu idx =>
    have := crbBase_mod self cpu
    have hidx := hr.2
    simp only [slot, offset, width, Slot.request, Request.length, Slot.addr, hpage, lutAddr]
    split <;> omega
  | mpb cpu k =>
    have hk := hr.2
    simp only [slot, offset, width, Slot.request, Request.length, Slot.addr, hbuffer]
    have hmod := mpbBase_mod (k := 12) (by decide) (xPid cpu) (yPid cpu) (zPid cpu) (cpu == self)
    have haddr := Slot.toNat_addr_request self (x := .mpb cpu) hr.1
    rw [Slot.request, Request.addr, Slot.addr] at haddr
    rw [← haddr, hmod]
    omega
  | counter i | init i =>
    have hi : i < 2 * cores := hr
    simp only [slot, offset, width]
    split <;> simp only [Slot.request, Request.length, Slot.addr, hpage, fpgaBase] <;> omega

theorem mem_localWindow : p.toNat / 2 ^ 12 ∈ localWindow.pages ↔
    nkAddr ≤ p.toNat ∧ p.toNat < nkAddr + 30 * pageSize := by
  have hpage : localWindow.page = nkAddr / 2 ^ 12 := rfl
  have hcount : localWindow.count = 30 * pageSize / 2 ^ 12 := rfl
  rw [Mapping.mem_pages, hpage, hcount, nkAddr, pageSize]
  omega

/-- The second window is put where nothing is. -/
theorem sccInitWindows_eq (hremote : Grants.Remote t remote) (h : t.map localWindow v ≠ none) :
    sccInitWindows t remote v = t.map localWindow v := by
  cases remote with
  | none => rfl
  | some m =>
    refine PageMap.map_of_notMem fun hv => h ?_
    obtain ⟨hle, hlt⟩ := Mapping.mem_pages.mp hv
    exact hremote.vacant v hle hlt

/-- An access, with the windows mapped. -/
theorem access_windows (hremote : Grants.Remote t remote) (h : access 12 t p = some d)
    (hd : d.1 ≠ .cache) : access 12 (sccInitWindows t remote) p = some d ↔
      ¬ (nkAddr ≤ p.toNat ∧ p.toNat < nkAddr + 30 * pageSize) := by
  rw [← mem_localWindow]
  by_cases hv : p.toNat / 2 ^ 12 ∈ localWindow.pages
  · have hmap := PageMap.map_of_mem (t := t) hv
    refine iff_of_false (fun heq => hd ?_) (not_not.mpr hv)
    rw [access, PageMap.lead, sccInitWindows_eq hremote (by rw [hmap]; simp), hmap] at heq
    rw [← Option.some.inj heq]
    rfl
  · have hmap := PageMap.map_of_notMem (t := t) hv
    refine iff_of_true ?_ hv
    have hne : t (p.toNat / 2 ^ 12) ≠ none := by
      intro hnone
      rw [access, PageMap.lead, hnone] at h
      cases h
    rw [access, PageMap.lead, sccInitWindows_eq hremote (by rwa [hmap]), hmap]
    exact h

/-- **The tables lead to the registers**, except where the first window covers them. After
`SccInit` on core `self`, with whatever pages the kernel picks, the pointer to a register
leads to each of its bytes exactly if the pointer to that byte is not in the window that
`SCCInit` maps at `nkAddr`. -/
theorem registers_reached
    (h : Trace (TableStep 12 self) (Core.initial t₀) sccInitCalls s)
    (hremote : Grants.Remote s.pages remote) (hr : r.Exists) (hj : j < r.width) :
    access 12 (sccInitWindows s.pages remote) (s.regPtr r + BitVec.ofNat 32 j)
        = some (r.slot.dev, r.address self + j) ↔
      ¬ (nkAddr ≤ (s.regPtr r + BitVec.ofNat 32 j).toNat ∧
        (s.regPtr r + BitVec.ofNat 32 j).toNat < nkAddr + 30 * pageSize) := by
  have hdev : r.slot.dev ≠ .cache := by
    cases r.slot <;> exact nofun
  refine access_windows hremote ?_ hdev
  cases h with
  | cons hs hl =>
    cases hs with
    | config _ m hg =>
      rw [hg.unmap] at hl
      obtain ⟨hI, hheld, -⟩ :=
        SpaceHolds.allocs (by decide) (spaceHolds_initial t₀) nodup_sccInitSlots hl
      have hslot := Register.slot_exists hr
      have hmem : s.entry self r.slot ∈ s.held := by
        refine hheld.mem_iff.mpr (List.mem_append_left _ ?_)
        exact List.mem_map_of_mem (mem_sccInitSlots.mpr hslot)
      have hfits := Register.fits self hr
      have hlead := hI.access_held hmem (j := r.offset + j) (by
        rw [Slot.toNat_addr_request self hslot]
        omega)
      rw [Slot.toNat_addr_request self hslot, Slot.dev_request] at hlead
      rw [Core.regPtr, ← add_ofNat_add, hlead, Register.address_eq, Nat.add_assoc]

/-- Entry 255 of the lookup table of core 47, without the second window, when all pointers are
far below the first one. -/
theorem registers_reached_demo : ∃ s : Core,
    Trace (TableStep 12 0) (Core.initial fun _ => none) sccInitCalls s ∧
      access 12 (sccInitWindows s.pages none) (s.regPtr (.lut 47 255) + 3#32)
        = some (.ncm, 0xf70017fb) := by
  obtain ⟨s, h, hbelow⟩ := exists_sccInit 0
  have hptr : (s.regPtr (.lut 47 255) + 3#32).toNat < nkAddr := by
    have hlut := hbelow (.lut 47)
    have hslot : (Register.lut 47 255).slot = .lut 47 := rfl
    have hoffset : (BitVec.ofNat 32 (Register.lut 47 255).offset).toNat = 2040 := by decide
    have hthree : (3#32).toNat = 3 := rfl
    rw [Core.regPtr, BitVec.toNat_add, BitVec.toNat_add, hslot, hoffset, hthree, nkAddr]
    omega
  exact ⟨s, h, (registers_reached (r := .lut 47 255) (j := 3) h
    (show Grants.Remote _ none from trivial) ⟨by decide, by decide⟩ (by decide)).mpr fun hwin =>
      absurd hwin.1 (Nat.not_le.mpr hptr)⟩

end Registers

end SccShm
