import SccShm.Counting
import SccShm.Requests
import SccShm.LutRuns
import SccShm.LpelRuns

/-!
# What the three allocators have room for

The heap, the page table and the LPEL allocator each represent an arena, so the counts of
pieces hold of all three, in every state reached.

* `heap_capacity` — the listed blocks and the blocks in use add up to the heap that
  `SCCInit` built, no more than one block more is listed than is in use, a call of
  `SCCMallocPtr` looks at no more blocks than that, and a request is served once the free
  units exceed what that many smaller blocks can hold.
* `lut_capacity`, `lpel_capacity` — the same for pages, and for bytes and nodes.
-/

namespace SccShm

/-! ## The heap -/

section Heap

variable {lo hi : ℕ} {a : Arena lo hi} {s : HeapState} {h : Heap} {F : Finset ℕ}

/-- The blocks in use are what is live. -/
theorem Holds.lists (hI : Holds a s nobody) :
    a.Lists (s.live.map fun b => (b.block, b.units)) := by
  refine ⟨fun i n => ?_, ?_⟩
  · rw [hI.live, nobody, or_false, List.mem_map]
    simp only [Prod.mk.injEq]
  · rw [List.map_map]
    exact hI.distinct

/-- `cs` are the blocks of the free list, each once. -/
structure Heap.Listing (h : Heap) (cs : List ℕ) : Prop where
  nodup : cs.Nodup
  mem : ∀ c, c ∈ cs ↔ OnList h c

/-- The free pieces are the blocks listed. -/
theorem Holds.listing (hlo : 0 < lo) (hI : Holds a s nobody) :
    s.heap.Listing ((frees a.pieces).map Piece.start) := by
  refine ⟨?_, fun c => ?_⟩
  · refine (a.pieces_nodup.filter _).map_on fun p hp q hq heq => ?_
    exact a.tiles.eq_of_start (mem_frees.mp hp).1 (mem_frees.mp hq).1 heq
  · rw [(hI.wellFormed hlo).onList_iff, Arena.mem_starts, List.mem_map]
    refine ⟨?_, fun ⟨k, hk⟩ => ⟨_, mem_frees.mpr ⟨hk, rfl⟩, rfl⟩⟩
    rintro ⟨⟨i, k, f⟩, hp, rfl⟩
    obtain ⟨hp, rfl⟩ := mem_frees.mp hp
    exact ⟨k, hp⟩

/-- Their headers say how long they are. -/
theorem Holds.sum_sizes (hI : Holds a s nobody) :
    (((frees a.pieces).map Piece.start).map fun c => (s.heap.mem.cell c).size).sum =
      extent (frees a.pieces) := by
  rw [List.map_map]
  refine congrArg List.sum (List.map_congr_left fun p hp => ?_)
  exact hI.mem.size p (mem_frees.mp hp).1

/-- The scan of `SCCMallocPtr` passes each block of the list at most once. -/
theorem WellFormed.malloc_fuel (hwf : WellFormed h F) (hf : h.freeList ∈ F) (size : ℕ) :
    ∃ out, sccMallocPtr F.card size h = .ok out := by
  have hload : ∀ c ∈ F, h.mem.load c = .ok (h.mem.cell c) := fun c hc =>
    Mem.load_of_ne (hwf.pos c hc).ne'
  have hcard : ∀ {b c : ℕ}, CycSucc F b c → 0 < (ahead F h.freeList b).card := fun hbc =>
    Finset.card_pos.mpr ⟨_, hbc.mem_ahead hf⟩
  have hloop := loop_total (mallocBody (nunits size) h) (I := fun s => CycSucc F s.1 s.2)
    (Q := fun _ => True) (fun s => (ahead F h.freeList s.1).card - 1) ?_
    F.card (h.freeList, (h.mem.cell h.freeList).next) (hwf.links _ hf) ?_
  · obtain ⟨out, hout, -⟩ := hloop
    exact ⟨out, by rw [sccMallocPtr, hload _ hf, Exec.ok_bind, hout]⟩
  · rintro ⟨prev, curr⟩ (hlink : CycSucc F prev curr)
    have hnext := hwf.links curr hlink.right
    by_cases hfit : nunits size ≤ (h.mem.cell curr).size
    · obtain ⟨h', hbody⟩ :
          ∃ h', mallocBody (nunits size) h (prev, curr) = .ok (.inr (curr + 1, h')) :=
        mallocBody_fits (hwf.pos _ hlink.right).ne' hfit
      exact Or.inl ⟨_, hbody, trivial⟩
    · by_cases hlast : curr = h.freeList
      · subst hlast
        exact Or.inl ⟨(0, h), by simp [mallocBody, hload _ hf, hfit], trivial⟩
      · refine Or.inr ⟨(curr, (h.mem.cell curr).next), ?_, hnext, ?_⟩
        · have hnz := (hwf.pos _ hnext.right).ne'
          simp [mallocBody, hload _ hlink.right, hfit, hlast, hnz]
        · -- the blocks still ahead lose `curr`, but never `freeList`
          have hlt := hlink.card_ahead_lt hf hlast
          have hleft := hcard hnext
          change (ahead F h.freeList curr).card - 1 < (ahead F h.freeList prev).card - 1
          omega
  · have hleft := hcard (hwf.links _ hf)
    change (ahead F h.freeList h.freeList).card - 1 < F.card
    rw [ahead_self] at hleft ⊢
    omega

/-- **What the heap has room for.** In every run from `SCCInit` in which no `SCCFreePtr` is
given a block that ends where the only free block begins:

* the units of the blocks listed and of the blocks in use add up to the heap, so none are
  lost, and at most one block more is listed than is in use;
* `SCCMallocPtr` looks at no more blocks than that;
* it serves every request as soon as the units not in use are more than so many blocks can
  hold without one of them being large enough. -/
theorem heap_capacity {loc size : ℕ} (hpos : 0 < size) (hsize : size < 256) (cell : ℕ → Block)
    {s : HeapState} (h : Reach (Guarded HeapStep FreeOk) (sccInitState loc size cell) s) :
    (∃ cs, s.heap.Listing cs ∧ cs.length ≤ s.live.length + 1 ∧
      (cs.map fun c => (s.heap.mem.cell c).size).sum + (s.live.map Held.units).sum =
        heapUnits size) ∧
    (s.heap.freeList ≠ 0 → ∀ request,
      ∃ out, sccMallocPtr (s.live.length + 1) request s.heap = .ok out) ∧
    ∀ request, (nunits request - 1) * (s.live.length + 1) + (s.live.map Held.units).sum <
        heapUnits size →
      ∃ p h', p ≠ 0 ∧ Returns (fun fuel => sccMallocPtr fuel request s.heap) (p, h') := by
  obtain ⟨a, hI⟩ := holds_of_reach hpos hsize h
  have hlo := heapBase_pos loc
  have hwf := hI.wellFormed hlo
  have hunits : (s.live.map fun b => (b.block, b.units)).map Prod.snd = s.live.map Held.units := by
    rw [List.map_map]
    rfl
  have hlen : (frees a.pieces).length ≤ s.live.length + 1 := by
    have := hI.lists.length_frees
    rwa [List.length_map] at this
  have hsum := hI.lists.extent_frees
  rw [hunits, Nat.add_sub_cancel_left] at hsum
  have hcard : a.starts.card ≤ s.live.length + 1 :=
    calc a.starts.card
        ≤ ((frees a.pieces).map Piece.start).length := List.toFinset_card_le _
      _ = (frees a.pieces).length := List.length_map _
      _ ≤ s.live.length + 1 := hlen
  refine ⟨⟨_, hI.listing hlo, by rwa [List.length_map], by rwa [hI.sum_sizes]⟩,
    fun hne request => ?_, fun request hroom => ?_⟩
  · obtain ⟨out, hout⟩ := hwf.malloc_fuel (hwf.head.mem_of_ne hne) request
    exact ⟨out, sccMallocPtr_fuelMono request s.heap hcard hout⟩
  · obtain ⟨i, k, hfree, hle⟩ := hI.lists.exists_free_of_lt (n := nunits request) (by
      rw [hunits, List.length_map, Nat.add_sub_cancel_left]
      exact hroom)
    have hi := Arena.mem_starts.mpr ⟨k, hfree⟩
    obtain ⟨p, h', hret, hp⟩ := hwf.serves request i (hwf.onList_iff.mpr hi)
      (by rw [hI.mem.size _ hfree]; exact hle)
    exact ⟨p, h', hp, hret⟩

/-- One block in use and two on the list; a request of 16 bytes is sure to be served. -/
theorem heap_capacity_demo :
    ∃ s : HeapState, s.live = [⟨321559044, 8⟩] ∧ (∃ cs, s.heap.Listing cs ∧ cs.length ≤ 2) ∧
      ∃ p h', p ≠ 0 ∧ Returns (fun fuel => sccMallocPtr fuel 16 s.heap) (p, h') := by
  have r₀ : Reach (Guarded HeapStep FreeOk) (sccInitState 2572472320 30 fun _ => ⟨0, 0⟩) _ :=
    Reach.init
  have r₁ := r₀.next ⟨freeOk_malloc _ 8, HeapStep.malloc 8 (by decide) ⟨1, rfl⟩ (by decide)⟩
  have r₂ := r₁.next ⟨freeOk_malloc _ 8, HeapStep.malloc 8 (by decide) ⟨1, rfl⟩ (by decide)⟩
  have r₃ := r₂.next (a := HeapOp.free ⟨321559042, 8⟩)
    ⟨freeOk_of_ne (by decide), HeapStep.free _ (by decide) ⟨1, rfl⟩⟩
  obtain ⟨⟨cs, hcs, hlen, -⟩, -, hserve⟩ := heap_capacity (by decide) (by decide) _ r₃
  exact ⟨_, rfl, ⟨cs, hcs, hlen⟩, hserve 16 (by decide)⟩

end Heap

/-! ## The page table -/

section Lut

variable {n : ℕ} {a : Arena 0 n} {s : LutRun} {A : PtrArith} {P : Placement}

theorem LutHolds.lists (hI : LutHolds a s) : a.Lists s.live := ⟨hI.live, hI.distinct⟩

/-- **What the page table has room for.** In every state that the calls allowed lead to,
the walk over the table meets at most two runs for each one in use, and one; the pages of
the free ones and of those in use add up to all pages; and `SCCMallocLut` serves every
request as soon as the free pages are more than the gaps can hold without one of them
being large enough. -/
theorem lut_capacity (hP : P.Remapped) {s : LutRun} (h : LutReached A P s) :
    (∃ ps, Walk s.table s.table.pages 0 ps ∧ ps.length ≤ 2 * s.live.length + 1 ∧
      extent (frees ps) + (s.live.map Prod.snd).sum = P.remotePages) ∧
    ∀ request, 0 < request →
      (request - 1) * (s.live.length + 1) + (s.live.map Prod.snd).sum < P.remotePages →
      ∃ i t', Returns (fun fuel => sccMallocLut P.remoteLut fuel request s.table)
        (P.remoteLut + i, t') := by
  obtain ⟨a, hI⟩ := h.holds hP
  obtain ⟨hpos, hn, hlut⟩ := hP.bounds
  refine ⟨⟨a.pieces, hI.ok.walk, ?_, hI.lists.extent_frees⟩, fun request hsize hroom => ?_⟩
  · have hsplit := length_frees_add a.pieces
    have hfrees := hI.lists.length_frees
    have hlives := hI.lists.length_lives
    omega
  · obtain ⟨i, k, hfree, hle⟩ := hI.lists.exists_free_of_lt hroom
    obtain ⟨r, t', hret, ⟨-, -, hsmall⟩ | ⟨j, b, rfl, hall, -⟩⟩ :=
      sccMallocLut_spec hpos hn hI.tagged hsize P.remoteLut
    · exact absurd (hsmall i k hfree) (not_lt.mpr hle)
    · obtain ⟨m, hm, -⟩ := hall.2.1
      have := hm.bounds
      rw [Nat.mod_eq_of_lt (by omega)] at hret
      exact ⟨j, t', hret⟩

/-- One page in use, behind a gap of three: 70 pages are sure to be found. -/
theorem lut_capacity_demo :
    ∃ s : LutRun, s.live = [(3, 1)] ∧
      ∃ i t', Returns (fun fuel => sccMallocLut demoPlacement.remoteLut fuel 70 s.table)
        (demoPlacement.remoteLut + i, t') := by
  have hP : demoPlacement.Remapped := ⟨by decide, by decide, rfl⟩
  have r₀ : Reach (Guarded (LutStep PtrArith.word32 demoPlacement) (LutFreeOk .word32))
    (⟨(LutTable.tag ⟨fun _ => ⟨false, 0⟩, 142⟩ 0 142 true), []⟩ : LutRun) _ := Reach.init
  have r₁ := r₀.next (a := LutOp.malloc 3)
    ⟨trivial, .malloc 3 (by decide) (by decide) ⟨1, rfl⟩ (by decide)⟩
  have r₂ := r₁.next (a := LutOp.malloc 1)
    ⟨trivial, .malloc 1 (by decide) (by decide) ⟨2, rfl⟩ (by decide)⟩
  have r₃ := r₂.next (a := LutOp.free (0, 3))
    ⟨rfl, .free (0, 3) (by decide) rfl⟩
  exact ⟨_, rfl, (lut_capacity hP ⟨_, _, rfl, r₃⟩).2 70 (by decide) (by decide)⟩

end Lut

/-! ## The LPEL allocator -/

section Lpel

variable {lo hi : ℕ} {a : Arena lo hi} {s : LpelState}

theorem LpelHolds.lists (hI : LpelHolds a s) : a.Lists s.live := ⟨hI.live, hI.distinct⟩

/-- What the blocks of the list say is free adds up to what is. -/
theorem Arena.sum_freeSize (a : Arena lo hi) :
    ((a.table.map Piece.entry).map Entry.freeSize).sum = extent (frees a.pieces) := by
  have hroom : ∀ ps : List Piece,
      ((ps.map Piece.entry).map Entry.freeSize).sum = extent (frees ps) := by
    intro ps
    induction ps with
    | nil => rfl
    | cons p ps ih =>
      rw [List.map_cons, List.map_cons, List.sum_cons, ih]
      change p.room + _ = _
      cases hp : p.free with
      | true => rw [Piece.room_of_free hp, frees_cons_free hp, extent_cons]
      | false => rw [Piece.room_of_live hp, frees_cons_live hp, Nat.zero_add]
  rcases a.table_cases with ⟨-, htable⟩ | ⟨ps, p, hps, -, htable⟩
  · -- the room at the top adds nothing
    rw [htable, List.map_append, List.map_append, List.sum_append, hroom]
    rfl
  · rw [htable, ← hps, hroom]

/-- **What the LPEL allocator has room for.** After any sequence of calls the list has at
most two nodes for each allocation, and one; what they say is free and what is in use add up
to all of the memory; and a request is served as soon as what is free is more than the gaps
can hold without one of them being large enough. -/
theorem lpel_capacity {node base : ℕ} {s : LpelState}
    (h : Reach LpelStep (lpelInit node base) s) :
    (∃ l, s.lpel.Blocks l ∧ l.length ≤ 2 * s.live.length + 1 ∧
      (l.map Entry.freeSize).sum + (s.live.map Prod.snd).sum = lpelSize) ∧
    ∀ new size, s.lpel.store new = none → 0 < size →
      (size - 1) * (s.live.length + 1) + (s.live.map Prod.snd).sum < lpelSize →
      ∃ i s', Returns (fun fuel => lpelShmalloc fuel new size s.lpel) (some i, s') := by
  obtain ⟨a, hI⟩ := lpelHolds_of_reach h
  obtain ⟨l, hl⟩ := hI.reps
  have hsum := hI.lists.extent_frees
  rw [Nat.add_sub_cancel_left, ← a.sum_freeSize] at hsum
  refine ⟨⟨_, hl.blocks, ?_, hsum⟩, fun new size hnew hsize hroom => ?_⟩
  · rw [List.length_map]
    exact hI.lists.length_table
  · obtain ⟨i, k, hfree, hle⟩ := hI.lists.exists_free_of_lt (n := size) (by
      rw [Nat.add_sub_cancel_left]
      exact hroom)
    obtain ⟨out, hout, ⟨-, hnone⟩ | ⟨j, s', -, -, rfl, -⟩⟩ := lpelShmalloc_spec hl hnew size
    · rcases hnone with h0 | hsmall
      · omega
      · exact absurd (hsmall _ (Arena.free_iff_table.mp hfree).1 rfl) (not_lt.mpr hle)
    · exact ⟨j, s', _, hout _ (le_refl _)⟩

/-- Two allocations with a gap between them. -/
theorem lpel_capacity_demo :
    ∃ s : LpelState, s.live = [(1030, 30), (1000, 10)] ∧
      (∃ l, s.lpel.Blocks l ∧ l.length ≤ 5) ∧
      ∃ i s', Returns (fun fuel => lpelShmalloc fuel 4 87000 s.lpel) (some i, s') := by
  have r₀ : Reach LpelStep (lpelInit 0 1000) _ := Reach.init
  have r₁ := r₀.next (.malloc 1 10 rfl ⟨1, rfl⟩)
  have r₂ := r₁.next (.malloc 2 20 rfl ⟨1, rfl⟩)
  have r₃ := r₂.next (.malloc 3 30 rfl ⟨1, rfl⟩)
  have r₄ := r₃.next (.free 1010 ⟨4, rfl⟩)
  obtain ⟨⟨l, hl, hlen, -⟩, hserve⟩ := lpel_capacity r₄
  exact ⟨_, rfl, ⟨l, hl, hlen⟩, hserve 4 87000 rfl (by decide) (by decide)⟩

end Lpel

end SccShm
