import SccShm.Requests
import SccShm.HeapWindow

/-!
# The layout of the heap

Where the blocks lie in the states that runs of the shared heap reach.

* `heap_canonical`: the blocks listed are the gaps between the blocks in use, linked in the
  cyclic order of their addresses. So the list depends on what is in use only, not on how it
  came to be, and when nothing is in use it is the one `SCCInit` built. What does depend on
  the past is where in the circle `freeList` points.
* `malloc_next_fit`: a request is served from the first block that is large enough, going up
  from `freeList` and around.
* `mallocs_packed`: requests that follow one another are laid end to end in the block behind
  `freeList`, as long as they fit.
-/

namespace SccShm

variable {lo hi : ℕ} {a : Arena lo hi} {s s' : HeapState} {F : Finset ℕ} {m : Mem}
  {b c f i k n p : ℕ}

/-! ## The list depends on what is in use -/

/-- The units `[i, i + n)` are a block in use. -/
def InUse (s : HeapState) (i n : ℕ) : Prop := ∃ b ∈ s.live, b.block = i ∧ b.units = n

theorem Holds.live_iff (hI : Holds a s nobody) : a.Live i n ↔ InUse s i n := by
  rw [hI.live, nobody, or_false, InUse]

/-- A listed block of `k` units is a free piece. -/
theorem Holds.free_iff (hlo : 0 < lo) (hI : Holds a s nobody) :
    a.Free c k ↔ OnList s.heap c ∧ (s.heap.mem.cell c).size = k := by
  rw [(hI.wellFormed hlo).onList_iff, Arena.mem_starts]
  refine ⟨fun hk => ⟨⟨k, hk⟩, hI.mem.size _ hk⟩, ?_⟩
  rintro ⟨⟨j, hj⟩, hsize⟩
  have : (s.heap.mem.cell c).size = j := hI.mem.size _ hj
  rw [← hsize, this]
  exact hj

/-- The header of a listed block is the same wherever the arena is. -/
theorem Holds.cell_eq (hlo : 0 < lo) (hI : Holds a s nobody) (hI' : Holds a s' nobody)
    (hc : OnList s.heap c) : s.heap.mem.cell c = s'.heap.mem.cell c := by
  have hfree := (hI.free_iff hlo).mpr ⟨hc, rfl⟩
  have hstart := Arena.mem_starts.mpr ⟨_, hfree⟩
  have hnext := (hI.mem.links c hstart).unique_right (hI'.mem.links c hstart)
  have hsize : (s'.heap.mem.cell c).size = (s.heap.mem.cell c).size := hI'.mem.size _ hfree
  rcases hcell : s.heap.mem.cell c with ⟨next, size⟩
  rcases hcell' : s'.heap.mem.cell c with ⟨next', size'⟩
  rw [hcell, hcell'] at hnext hsize
  rw [Block.mk.injEq]
  exact ⟨hnext, hsize.symm⟩

/-- **The free list is canonical.** In every run from `SCCInit` in which no `SCCFreePtr` is
given a block that ends where the only free block begins, the blocks listed are the gaps
between the blocks in use. Two such runs, over whatever memory, that end with the same blocks
in use end with the same list: the same blocks with the same headers. And once everything is
given back, the heap is the one that `SCCInit` built. -/
theorem heap_canonical {loc size : ℕ} (hpos : 0 < size) (hsize : size < 256) (cell : ℕ → Block)
    {s : HeapState} (h : Reach (Guarded HeapStep FreeOk) (sccInitState loc size cell) s) :
    (∀ c k, OnList s.heap c ∧ (s.heap.mem.cell c).size = k ↔
      IsGap (InUse s) (heapBase loc) (heapTop loc size) c k) ∧
    (∀ cell' s', Reach (Guarded HeapStep FreeOk) (sccInitState loc size cell') s' →
      (∀ i n, InUse s i n ↔ InUse s' i n) → ∀ c, (OnList s.heap c ↔ OnList s'.heap c) ∧
        (OnList s.heap c → s.heap.mem.cell c = s'.heap.mem.cell c)) ∧
    (s.live = [] → s.heap.freeList = heapBase loc ∧
      s.heap.mem.cell (heapBase loc) = ⟨heapBase loc, heapUnits size⟩) := by
  have hlo := heapBase_pos loc
  obtain ⟨a, hI⟩ := holds_of_reach hpos hsize h
  refine ⟨fun c k => ?_, fun cell' s' h' hsame c => ?_, fun hnil => ?_⟩
  · have hlive : a.Live = InUse s := funext fun i => funext fun n => propext hI.live_iff
    rw [← hI.free_iff hlo, Arena.free_iff_gap, hlive, heapTop]
  · obtain ⟨a', hI'⟩ := holds_of_reach hpos hsize h'
    obtain rfl : a = a' := Arena.ext_live fun i n => by
      rw [hI.live_iff, hI'.live_iff, hsame]
    refine ⟨?_, hI.cell_eq hlo hI'⟩
    rw [(hI.wellFormed hlo).onList_iff, (hI'.wellFormed hlo).onList_iff]
  · -- nothing is live: the arena is the one of `SCCInit`
    obtain rfl : a = Arena.whole (heapBase_lt loc hpos hsize) := Arena.ext_live fun i n => by
      rw [hI.live_iff, InUse, hnil]
      simp
    have hI₀ := holds_sccInit loc hpos hsize fun _ => ⟨0, 0⟩
    have hbase : heapBase loc ∈ (Arena.whole (heapBase_lt loc hpos hsize)).starts :=
      Finset.mem_singleton_self _
    have hf := hI.head.mem_of_mem hbase
    refine ⟨Finset.mem_singleton.mp hf, ?_⟩
    rw [hI.cell_eq hlo hI₀ ((hI.wellFormed hlo).onList_iff.mpr hbase)]
    simp [sccInitState, sccInitHeap, Mem.setNext, Mem.setSize]

/-- Two blocks taken and given back. -/
theorem heap_canonical_demo :
    ∃ s : HeapState, s.live = [] ∧ s.heap.mem.cell (heapBase 2572472320) =
      ⟨heapBase 2572472320, heapUnits 30⟩ := by
  have r₀ : Reach (Guarded HeapStep FreeOk) (sccInitState 2572472320 30 fun _ => ⟨0, 0⟩) _ :=
    Reach.init
  have r₁ := r₀.next ⟨freeOk_malloc _ 8, HeapStep.malloc 8 (by decide) ⟨1, rfl⟩ (by decide)⟩
  have r₂ := r₁.next ⟨freeOk_malloc _ 8, HeapStep.malloc 8 (by decide) ⟨1, rfl⟩ (by decide)⟩
  have r₃ := r₂.next (a := HeapOp.free ⟨321559042, 8⟩)
    ⟨freeOk_of_ne (by decide), HeapStep.free _ (by decide) ⟨1, rfl⟩⟩
  have r₄ := r₃.next (a := HeapOp.free ⟨321559044, 8⟩)
    ⟨fun hb => absurd hb.2 (by decide), HeapStep.free _ (by decide) ⟨2, rfl⟩⟩
  exact ⟨_, rfl, ((heap_canonical (by decide) (by decide) _ r₄).2.2 rfl).2⟩

/-! ## Which block is taken -/

/-- The block found is large enough. -/
theorem FirstFit.fits (h : FirstFit m f n c i) : n ≤ (m.cell i).size := by
  induction h with
  | here hfit => exact hfit
  | next _ _ _ ih => exact ih

/-- It lies on the list. -/
theorem FirstFit.mem (hlinks : ∀ b ∈ F, CycSucc F b (m.cell b).next) (h : FirstFit m f n c i)
    (hc : c ∈ F) : i ∈ F := by
  induction h with
  | here _ => exact hc
  | next _ _ _ ih => exact ih (hlinks _ hc).right

/-- The scan meets it before the other blocks that are large enough. -/
theorem FirstFit.noLater (hlinks : ∀ b ∈ F, CycSucc F b (m.cell b).next) (hf : f ∈ F)
    (h : FirstFit m f n c i) (hbc : CycSucc F b c) {x : ℕ} (hx : x ∈ ahead F f b)
    (hfit : n ≤ (m.cell x).size) : NoLater f i x := by
  induction h generalizing b with
  | here _ => exact hbc.noLater hx
  | @next c i hsmall hne _ ih =>
    refine ih (hlinks c hbc.right) ?_
    rw [hbc.ahead_erase hf hne]
    refine Finset.mem_erase.mpr ⟨?_, hx⟩
    rintro rfl
    exact absurd hfit (not_le.mpr hsmall)

/-- **`SCCMallocPtr` is next fit.** In every run from `SCCInit` in which no `SCCFreePtr` is
given a block that ends where the only free block begins, a request that is served gets a
listed block that is large enough, and among those the first one going up from `freeList`,
around and back to it. -/
theorem malloc_next_fit {loc size : ℕ} (hpos : 0 < size) (hsize : size < 256)
    (cell : ℕ → Block) {s : HeapState}
    (h : Reach (Guarded HeapStep FreeOk) (sccInitState loc size cell) s) {request p : ℕ}
    {h' : Heap} (hret : Returns (fun fuel => sccMallocPtr fuel request s.heap) (p, h'))
    (hp : p ≠ 0) :
    OnList s.heap (p - 1) ∧ nunits request ≤ (s.heap.mem.cell (p - 1)).size ∧
      ∀ c, OnList s.heap c → nunits request ≤ (s.heap.mem.cell c).size →
        NoLater s.heap.freeList (p - 1) c := by
  have hlo := heapBase_pos loc
  obtain ⟨a, hI⟩ := holds_of_reach hpos hsize h
  have hwf := hI.wellFormed hlo
  rcases hI.malloc hlo hret with ⟨h0, -⟩ | ⟨i, a', ws, rfl, hall, -, -, -, -, hfit⟩
  · exact absurd h0 hp
  · rw [Nat.add_sub_cancel]
    obtain ⟨k, hk, -⟩ := hall.2.1
    have hf := hI.head.mem_of_mem (Arena.mem_starts.mpr ⟨k, hk⟩)
    have hfirst := hwf.links _ hf
    refine ⟨hwf.onList_iff.mpr (hfit.mem hwf.links hfirst.right), hfit.fits, fun c hc hle => ?_⟩
    refine hfit.noLater hwf.links hf hfirst ?_ hle
    rw [ahead_self]
    exact hwf.onList_iff.mp hc

/-- The gap of two units below `freeList` comes first, but is too small. -/
theorem malloc_next_fit_demo :
    ∃ s : HeapState, s.heap.freeList = 321559046 ∧ OnList s.heap 321559046 ∧
      ∀ c, OnList s.heap c → nunits 16 ≤ (s.heap.mem.cell c).size →
        NoLater s.heap.freeList 321559046 c := by
  have r₀ : Reach (Guarded HeapStep FreeOk) (sccInitState 2572472320 30 fun _ => ⟨0, 0⟩) _ :=
    Reach.init
  have r₁ := r₀.next ⟨freeOk_malloc _ 8, HeapStep.malloc 8 (by decide) ⟨1, rfl⟩ (by decide)⟩
  have r₂ := r₁.next ⟨freeOk_malloc _ 8, HeapStep.malloc 8 (by decide) ⟨1, rfl⟩ (by decide)⟩
  have r₃ := r₂.next (a := HeapOp.free ⟨321559042, 8⟩)
    ⟨freeOk_of_ne (by decide), HeapStep.free _ (by decide) ⟨1, rfl⟩⟩
  obtain ⟨hon, -, hfirst⟩ :=
    malloc_next_fit (by decide) (by decide) _ r₃
      (show Returns (fun fuel => sccMallocPtr fuel 16 _) _ from ⟨2, rfl⟩) (by decide)
  exact ⟨_, rfl, hon, hfirst⟩

/-! ## Requests that follow one another -/

theorem nunits_pos (size : ℕ) : 0 < nunits size := Nat.succ_pos _

/-- The first block of the scan, if it is large enough, is taken; what is left of it is
where the next scan begins. -/
theorem Holds.malloc_first (hlo : 0 < lo) {others : ℕ → ℕ → Prop} (hI : Holds a s others)
    (hf : s.heap.freeList ≠ 0) (hc : (s.heap.mem.cell s.heap.freeList).next = c) {size : ℕ}
    (hfit : nunits size ≤ (s.heap.mem.cell c).size) :
    ∃ (h' : Heap) (a' : Arena lo hi), Returns (fun fuel => sccMallocPtr fuel size s.heap)
        (c + 1, h') ∧ Holds a' ⟨h', ⟨c, size⟩ :: s.live⟩ others ∧
      (nunits size < (s.heap.mem.cell c).size → h'.freeList ≠ 0 ∧
        (h'.mem.cell h'.freeList).next = c + nunits size ∧
        (h'.mem.cell (c + nunits size)).size = (s.heap.mem.cell c).size - nunits size) := by
  have hn := nunits_pos size
  have hfa := hI.head.mem_of_ne hf
  have hlink := hI.mem.links _ hfa
  rw [hc] at hlink
  have hload : ∀ x ∈ a.starts, s.heap.mem.load x = .ok (s.heap.mem.cell x) := fun x hx =>
    Mem.load_of_ne (Arena.ne_zero_of_mem_starts hlo hx)
  obtain ⟨h', hbody, -⟩ := mallocBody_take hlo hI.mem hn hlink hfit
  have hret : Returns (fun fuel => sccMallocPtr fuel size s.heap) (c + 1, h') := by
    refine ⟨1, ?_⟩
    change sccMallocPtr 1 size s.heap = _
    rw [sccMallocPtr, hload _ hfa, Exec.ok_bind, hc, loop_done hbody]
  rcases hI.malloc hlo hret with ⟨h0, -⟩ | ⟨i, a', ws, hi, -, hI', -⟩
  · exact absurd h0 (Nat.succ_ne_zero c)
  · obtain rfl : c = i := Nat.succ.inj hi
    refine ⟨h', a', hret, hI', fun hlt => ?_⟩
    -- the block is split
    have hsplit : h' = splitBlock s.heap.mem (nunits size) s.heap.freeList c := by
      have hb := hbody
      rw [mallocBody, hload _ hlink.right, Exec.ok_bind, if_pos hfit, if_neg (ne_of_gt hlt)] at hb
      exact (Prod.mk.inj (Sum.inr.inj (Except.ok.inj hb))).2.symm
    rw [hsplit]
    refine ⟨?_, splitBlock_next_prev .., splitBlock_size_rest hn⟩
    rw [splitBlock_freeList]
    split
    · omega
    · exact hf

/-- Calls of `SCCMallocPtr` with the sizes `rs`, one after the other, return `ps`. -/
inductive Mallocs : Heap → List ℕ → List ℕ → Heap → Prop where
  | nil {h : Heap} : Mallocs h [] [] h
  | cons {h h₁ h₂ : Heap} {r p : ℕ} {rs ps : List ℕ} :
      Returns (fun fuel => sccMallocPtr fuel r h) (p, h₁) → Mallocs h₁ rs ps h₂ →
      Mallocs h (r :: rs) (p :: ps) h₂

/-- The payloads of blocks for the sizes `rs`, laid end to end from unit `c` on. -/
def packed (c : ℕ) : List ℕ → List ℕ
  | [] => []
  | r :: rs => (c + 1) :: packed (c + nunits r) rs

theorem Holds.mallocs (hlo : 0 < lo) {others : ℕ → ℕ → Prop} {rs : List ℕ}
    (hI : Holds a s others) (hf : s.heap.freeList ≠ 0)
    (hc : (s.heap.mem.cell s.heap.freeList).next = c)
    (hfit : (rs.map nunits).sum ≤ (s.heap.mem.cell c).size) :
    ∃ h', Mallocs s.heap rs (packed c rs) h' := by
  induction rs generalizing a s c with
  | nil => exact ⟨_, .nil⟩
  | cons r rs ih =>
    rw [List.map_cons, List.sum_cons] at hfit
    obtain ⟨h₁, a₁, hret, hI₁, hrest⟩ :=
      hI.malloc_first hlo hf hc (le_trans (Nat.le_add_right _ _) hfit)
    rcases rs with _ | ⟨r', rs⟩
    · exact ⟨h₁, .cons hret .nil⟩
    · -- another request follows, so something is left of the block
      have hpos : 0 < ((r' :: rs).map nunits).sum := by
        have := nunits_pos r'
        rw [List.map_cons, List.sum_cons]
        omega
      obtain ⟨hf₁, hc₁, hsize₁⟩ := hrest (by omega)
      obtain ⟨h', hh'⟩ := ih hI₁ hf₁ hc₁ (by
        rw [hsize₁]
        omega)
      exact ⟨h', .cons hret hh'⟩

/-- **Requests that follow one another lie end to end.** In every run from `SCCInit` in which
no `SCCFreePtr` is given a block that ends where the only free block begins, the requests
made next are all served, one behind the other, from the block that follows `freeList` in
the list, if together they fit into it. -/
theorem mallocs_packed {loc size : ℕ} (hpos : 0 < size) (hsize : size < 256) (cell : ℕ → Block)
    {s : HeapState} (h : Reach (Guarded HeapStep FreeOk) (sccInitState loc size cell) s)
    (hf : s.heap.freeList ≠ 0) (rs : List ℕ)
    (hfit : (rs.map nunits).sum ≤
      (s.heap.mem.cell (s.heap.mem.cell s.heap.freeList).next).size) :
    ∃ h', Mallocs s.heap rs (packed (s.heap.mem.cell s.heap.freeList).next rs) h' := by
  obtain ⟨a, hI⟩ := holds_of_reach hpos hsize h
  exact hI.mallocs (heapBase_pos loc) hf rfl hfit

/-- Three requests in the fresh heap. -/
theorem mallocs_packed_demo :
    ∃ h', Mallocs (sccInitHeap 2572472320 30 ⟨fun _ => ⟨0, 0⟩, []⟩) [8, 100, 8]
      [321559043, 321559045, 321559059] h' :=
  mallocs_packed (by decide) (by decide) (fun _ => ⟨0, 0⟩) Reach.init (by decide) [8, 100, 8]
    (by decide)

end SccShm
