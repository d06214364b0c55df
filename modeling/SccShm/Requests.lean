import SccShm.WellFormed

/-!
# Requests in a run

What a request gets in the states that runs of the shared heap reach.

* `failure_clean`: a request that no listed block can satisfy returns `NULL` and changes
  nothing, unless the list is empty: then the `NULL` in `freeList` is read through.
* `returned_room`: the returned block has room for the request, unless rounding it up
  wraps around.
-/

namespace SccShm

variable {lo hi : ℕ} {h h' : Heap} {s : HeapState} {b : Held} {size p i n c prev curr fuel : ℕ}

/-! ## The list of a reachable state -/

/-- The free pieces are the blocks of a well-formed list. -/
theorem Holds.wellFormed (hlo : 0 < lo) {a : Arena lo hi} {others : ℕ → ℕ → Prop}
    (hI : Holds a s others) : WellFormed s.heap a.starts :=
  (hI.reps.wellFormed hlo ⟨fun _ _ => rfl, rfl⟩ (Set.subset_univ _)).1

/-! ## Failure -/

/-- `NULL` is read through. -/
theorem malloc_null (h0 : h.freeList = 0) (size fuel : ℕ) :
    sccMallocPtr fuel size h = .error .fault := by
  rw [sccMallocPtr, h0, Mem.load_null, Exec.error_bind]

/-- The pass at a block that is large enough is the last one. -/
theorem mallocBody_fits (hne : curr ≠ 0) (hfit : n ≤ (h.mem.cell curr).size) :
    ∃ h', mallocBody n h (prev, curr) = .ok (.inr (curr + 1, h')) := by
  rw [mallocBody, Mem.load_of_ne hne, Exec.ok_bind, if_pos hfit]
  split
  · split
    · exact ⟨_, rfl⟩
    · exact ⟨_, rfl⟩
  · exact ⟨_, rfl⟩

/-- Every request that a listed block can satisfy is served. -/
def Serves (h : Heap) : Prop :=
  ∀ size c, OnList h c → nunits size ≤ (h.mem.cell c).size →
    ∃ p h', Returns (fun fuel => sccMallocPtr fuel size h) (p, h') ∧ p ≠ 0

theorem WellFormed.serves {F : Finset ℕ} (hwf : WellFormed h F) : Serves h := by
  intro size c hc hfit
  have hcF := hwf.onList_iff.mp hc
  have hf := hwf.head.mem_of_mem hcF
  obtain ⟨r, h', hret, ⟨-, -, hsmall⟩ | ⟨i, -, rfl, -⟩⟩ := malloc_cases hwf hf size
  · exact absurd (hsmall c hcF) (not_lt.mpr hfit)
  · exact ⟨i + 1, h', hret, Nat.succ_ne_zero i⟩

/-- So it is even after `freeList` was left on an absorbed block: the scan begins at the
block that absorbed it. -/
theorem Absorbed.serves (hab : Absorbed h i h') (hi : 0 < i) (hf : h.freeList ≠ 0) :
    Serves h' := by
  have hon : ∀ c, OnList h' c → (h'.mem.cell c).size ≤ (h'.mem.cell i).size := by
    intro c hc
    have hmem : c = h.freeList ∨ c = i := by
      induction hc with
      | head _ => exact Or.inl hab.freeList
      | next _ _ ih =>
        rcases ih with rfl | rfl
        · exact Or.inr hab.next
        · exact Or.inr hab.next_self
    rcases hmem with rfl | rfl
    · rw [hab.size, hab.size_self]
      exact Nat.le_add_left _ _
    · exact le_refl _
  intro size c hc hfit
  obtain ⟨h'', hbody⟩ : ∃ h'', mallocBody (nunits size) h' (h.freeList, i)
      = .ok (.inr (i + 1, h'')) := mallocBody_fits hi.ne' (hfit.trans (hon c hc))
  refine ⟨i + 1, h'', ⟨1, ?_⟩, Nat.succ_ne_zero i⟩
  change sccMallocPtr 1 size h' = _
  rw [sccMallocPtr, hab.freeList, Mem.load_of_ne hf, Exec.ok_bind, hab.next]
  exact loop_done hbody 0

/-- Giving back a block in use ends, and leaves a heap that serves what fits. -/
theorem Holds.free_serves (hlo : 0 < lo) {a : Arena lo hi} {others : ℕ → ℕ → Prop}
    (hI : Holds a s others) (hb : b ∈ s.live) :
    ∃ h', Returns (fun fuel => sccFreePtr fuel b.ptr s.heap) h' ∧ Serves h' := by
  have hwf := hI.wellFormed hlo
  have hsize := hI.size_eq hb
  have hpos : 0 < (s.heap.mem.cell b.block).size := hsize ▸ b.units_pos
  have hi : 0 < b.block := hlo.trans_le (hI.liveAt hb).bounds.1
  by_cases hbad : b.block + (s.heap.mem.cell b.block).size = s.heap.freeList ∧
      (s.heap.mem.cell s.heap.freeList).next = s.heap.freeList
  · obtain ⟨h', hret, hab⟩ := free_absorbed hi hpos hbad.1 hbad.2
    exact ⟨h', hret, hab.serves hi (by omega)⟩
  · obtain ⟨h', hret, F', hwf', -⟩ := free_restored hwf hi hpos
      (fun c hc => hsize ▸ hI.safe.onList b hb c (hwf.onList_iff.mpr hc)) hbad
    exact ⟨h', hret, hwf'.serves⟩

/-- In `s` a request for `size` bytes returns `NULL` and changes nothing, and once a block
is given back, what fits is served again. -/
def CleanFailure (s : HeapState) (size : ℕ) : Prop :=
  Returns (fun fuel => sccMallocPtr fuel size s.heap) (0, s.heap) ∧
    ∀ b ∈ s.live, ∃ h', Returns (fun fuel => sccFreePtr fuel b.ptr s.heap) h' ∧ Serves h'

/-- **Allocation failure.** In every run from `SCCInit` in which no `SCCFreePtr` is given a
block that ends where the only free block begins, a request that no listed block can
satisfy fails cleanly exactly when the list is not empty. -/
theorem failure_clean {loc size : ℕ} (hpos : 0 < size) (hsize : size < 256)
    {cell : ℕ → Block} (h : Reach (Guarded HeapStep FreeOk) (sccInitState loc size cell) s)
    {request : ℕ} (hnone : ∀ c, OnList s.heap c → (s.heap.mem.cell c).size < nunits request) :
    CleanFailure s request ↔ s.heap.freeList ≠ 0 := by
  have hlo := heapBase_pos loc
  obtain ⟨a, hI⟩ := holds_of_reach hpos hsize h
  refine ⟨?_, ?_⟩
  · rintro ⟨⟨fuel, hret⟩, -⟩ h0
    cases (malloc_null h0 request fuel).symm.trans hret
  · intro hne
    have hwf := hI.wellFormed hlo
    have hf := hwf.head.mem_of_ne hne
    refine ⟨?_, fun b hb => hI.free_serves hlo hb⟩
    obtain ⟨r, h', hret, ⟨rfl, rfl, -⟩ | ⟨i, F', -, hcarved⟩⟩ := malloc_cases hwf hf request
    · exact hret
    · have := hnone i (hwf.onList_iff.mpr hcarved.block)
      have := hcarved.fits
      omega

/-- A request for more than the whole heap of `SCCInit(30)`, with one block in use. -/
theorem failure_clean_demo :
    ∃ s : HeapState, s.live = [⟨321559042, 8⟩] ∧ CleanFailure s 503316480 := by
  have r₀ : Reach (Guarded HeapStep FreeOk) (sccInitState 2572472320 30 fun _ => ⟨0, 0⟩) _ :=
    Reach.init
  have r₁ := r₀.next ⟨freeOk_malloc _ 8, HeapStep.malloc 8 (by decide) ⟨1, rfl⟩ (by decide)⟩
  refine ⟨_, rfl, (failure_clean (by decide) (by decide) r₁ fun c hc => ?_).mpr (by decide)⟩
  have honly : c = 321559044 := by
    induction hc with
    | head _ => rfl
    | next _ _ ih =>
      rw [ih]
      rfl
  rw [honly]
  decide

/-- The whole heap of `SCCInit(30)` is in use; the next request reads through `NULL`. -/
theorem failure_faults :
    ∃ s, Reach HeapStep (sccInitState 2572472320 30 fun _ => ⟨0, 0⟩) s ∧
      (∀ c, ¬ OnList s.heap c) ∧ ¬ CleanFailure s 1 := by
  have r₀ : Reach HeapStep (sccInitState 2572472320 30 fun _ => ⟨0, 0⟩) _ := Reach.init
  have r₁ := r₀.next (HeapStep.malloc 503316472 (by decide) ⟨1, rfl⟩ (by decide))
  refine ⟨_, r₁, fun c hc => ?_, ?_⟩
  · induction hc with
    | head hne => exact hne rfl
    | next _ _ ih => exact ih
  · rintro ⟨⟨fuel, hret⟩, -⟩
    cases (malloc_null rfl 1 fuel).symm.trans hret

/-! ## Room -/

/-- The last pass leaves the size asked for in the header of the block it takes. -/
theorem mallocBody_size {out : ℕ × Heap}
    (hbody : mallocBody n h (prev, curr) = .ok (.inr out)) (hp : out.1 ≠ 0) :
    (out.2.mem.cell (out.1 - 1)).size = n := by
  rcases mallocBody_inr hbody with ⟨hexact, ⟨-, rfl⟩ | ⟨-, rfl⟩⟩ | ⟨-, rfl⟩ | ⟨-, rfl⟩
  · exact hexact
  · simpa only [Nat.add_sub_cancel, Mem.size_setNext] using hexact
  · simpa only [Nat.add_sub_cancel] using splitBlock_size_self h.mem n prev curr
  · exact absurd rfl hp

/-- The block before the returned pointer has the size asked for, in any heap. -/
theorem malloc_size (hret : Returns (fun fuel => sccMallocPtr fuel size h) (p, h'))
    (hp : p ≠ 0) : (h'.mem.cell (p - 1)).size = nunits size := by
  obtain ⟨fuel, hret⟩ := hret
  obtain ⟨f, -, hloop⟩ := Exec.bind_eq_ok.mp hret
  exact loop_partial (I := fun _ => True) (Q := fun out : ℕ × Heap => out.1 ≠ 0 →
    (out.2.mem.cell (out.1 - 1)).size = nunits size) (fun _ _ _ _ => trivial)
    (fun _ _ _ hbody => mallocBody_size hbody) trivial hloop hp

/-- The block before `p` has room for `size` bytes behind its header. -/
def Room (h : Heap) (p size : ℕ) : Prop :=
  size ≤ ((h.mem.cell (p - 1)).size - 1) * sizeofBlock

instance : Decidable (Room h p size) := inferInstanceAs (Decidable (_ ≤ _))

/-- None of the `size` bytes from `p` on is in a block of `live` or in one on the list, header
included. -/
def Private (h : Heap) (live : List Held) (p size : ℕ) : Prop :=
  ∀ x, p * sizeofBlock ≤ x → x < p * sizeofBlock + size →
    (∀ b ∈ live, x / sizeofBlock ∉ Set.Ico b.block (b.block + b.units)) ∧
    ∀ c, OnList h c → x / sizeofBlock ∉ Set.Ico c (c + (h.mem.cell c).size)

/-- Rounding up makes room, unless it wraps around. -/
theorem nunits_room (hsize : size < wordSize) :
    size ≤ (nunits size - 1) * sizeofBlock ↔ size + (sizeofBlock - 1) < wordSize := by
  simp only [nunits, sizeofBlock, wordSize] at hsize ⊢
  omega

theorem room_iff (hsize : size < wordSize)
    (hret : Returns (fun fuel => sccMallocPtr fuel size h) (p, h')) (hp : p ≠ 0) :
    Room h' p size ↔ size + (sizeofBlock - 1) < wordSize := by
  rw [Room, malloc_size hret hp, nunits_room hsize]

/-- Bytes that fit into the payload are in the block's units. -/
theorem byte_mem {x : ℕ} (hroom : size ≤ (n - 1) * sizeofBlock)
    (hle : (i + 1) * sizeofBlock ≤ x) (hlt : x < (i + 1) * sizeofBlock + size) :
    i ≤ x / sizeofBlock ∧ x / sizeofBlock < i + n := by
  simp only [sizeofBlock] at hroom hle hlt ⊢
  omega

/-- **Returned blocks are big enough.** Whatever the list, the block before the returned
pointer has room for the request exactly when rounding the request up does not wrap
around. In every run from `SCCInit` in which no `SCCFreePtr` is given a block that ends
where the only free block begins, this room belongs to nobody else. -/
theorem returned_room {loc init : ℕ} (hpos : 0 < init) (hinit : init < 256) {cell : ℕ → Block}
    (hsize : size < wordSize)
    (hret : Returns (fun fuel => sccMallocPtr fuel size s.heap) (p, h')) (hp : p ≠ 0) :
    (Room h' p size ↔ size + (sizeofBlock - 1) < wordSize) ∧
      (Reach (Guarded HeapStep FreeOk) (sccInitState loc init cell) s →
        (Room h' p size ∧ Private h' s.live p size ↔
          size + (sizeofBlock - 1) < wordSize)) := by
  have hiff := room_iff hsize hret hp
  refine ⟨hiff, fun hreach => ⟨fun hboth => hiff.mp hboth.1, fun hfits => ⟨hiff.mpr hfits, ?_⟩⟩⟩
  obtain ⟨a, hI⟩ := holds_of_reach hpos hinit hreach
  rcases hI.malloc (heapBase_pos loc) hret with ⟨hp0, -⟩ | ⟨i, a', ws, rfl, -, hI', -⟩
  · exact absurd hp0 hp
  have hsafe := hI'.safe
  have hroom := (nunits_room hsize).mpr hfits
  intro x hle hlt
  have hx := byte_mem hroom hle hlt
  refine ⟨fun b hb hbx => ?_, fun c hc hcx => ?_⟩
  · exact (List.pairwise_cons.mp hsafe.live).1 b hb _ ⟨hx, hbx⟩
  · exact hsafe.onList ⟨i, size⟩ List.mem_cons_self c hc _ ⟨hx, hcx⟩

/-- Nine bytes from the heap of `SCCInit(30)`. -/
theorem returned_room_demo :
    ∃ p h', Returns (fun fuel => sccMallocPtr fuel 9 (sccInitHeap 2572472320 30
        ⟨fun _ => ⟨0, 0⟩, []⟩)) (p, h') ∧ Room h' p 9 ∧ Private h' [] p 9 := by
  have hreach : Reach (Guarded HeapStep FreeOk) (sccInitState 2572472320 30 fun _ => ⟨0, 0⟩)
    (sccInitState 2572472320 30 fun _ => ⟨0, 0⟩) := Reach.init
  refine ⟨_, _, ⟨1, rfl⟩, ?_⟩
  exact ((returned_room (s := sccInitState 2572472320 30 fun _ => ⟨0, 0⟩) (by decide) (by decide)
    (by decide) ⟨1, rfl⟩ (by decide)).2 hreach).mpr (by decide)

/-- A request for all bytes but one is rounded up to a header alone. -/
theorem returned_no_room :
    ∃ p h', Returns (fun fuel => sccMallocPtr fuel 4294967295 (sccInitHeap 2572472320 30
        ⟨fun _ => ⟨0, 0⟩, []⟩)) (p, h') ∧ p ≠ 0 ∧ ¬ Room h' p 4294967295 :=
  ⟨_, _, ⟨1, rfl⟩, by decide, by decide⟩

end SccShm
