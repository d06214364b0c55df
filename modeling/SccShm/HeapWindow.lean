import SccShm.Footprint
import SccShm.HeapRuns

/-!
# The heap and its window

`SCCInit(size)` maps `size` pages at `local`, starts the heap `0x10` bytes into
them and yet gives it all their units: the last two units of the heap lie behind
the window.

`window_kept`: as long as every allocation that is served from the top of the
heap leaves three units there, the heap never uses them. `window_left` is the
allocation of everything. Its condition on frees is there for the stores of the
clients: `window_kept_calls` does without it where only the allocator writes.
-/

namespace SccShm

/-- `[i, i + n)` lies in the `size` pages mapped at `loc`. -/
def InWindow (loc size i n : ℕ) : Prop :=
  loc ≤ sizeofBlock * i ∧ sizeofBlock * (i + n) ≤ loc + size * pageSize

instance (loc size i n : ℕ) : Decidable (InWindow loc size i n) :=
  inferInstanceAs (Decidable (_ ∧ _))

/-- Blocks in use and headers written so far lie in the window. -/
structure WindowKept (loc size : ℕ) (s : HeapState) : Prop where
  live : ∀ b ∈ s.live, InWindow loc size b.block b.units
  wrote : ∀ u ∈ s.heap.mem.wrote, InWindow loc size u 1

/-- One past the last unit of the heap. -/
def heapTop (loc size : ℕ) : ℕ := heapBase loc + heapUnits size

/-- If the block the request is served from reaches up to the top of the heap, it
has three units to spare. -/
def TopOk (loc size : ℕ) (s : HeapState) : HeapOp → Prop
  | .malloc req => ∀ i, FirstFit s.heap.mem s.heap.freeList (nunits req)
      (s.heap.mem.cell s.heap.freeList).next i →
      i + (s.heap.mem.cell i).size = heapTop loc size →
      nunits req + 3 ≤ (s.heap.mem.cell i).size
  | _ => True

/-! ## The top of an arena -/

variable {lo hi : ℕ} {a : Arena lo hi}

/-- The three topmost positions are free. -/
def Arena.TopFree (a : Arena lo hi) : Prop :=
  lo + 3 ≤ hi ∧ ∀ i n, a.Live i n → i + n + 3 ≤ hi

/-- Then no piece starts there. -/
theorem Arena.TopFree.start_le (h : a.TopFree) {p : Piece} (hp : p ∈ a.pieces) :
    p.start + 3 ≤ hi := by
  obtain ⟨i, n, f⟩ := p
  cases f with
  | false =>
    have := h.2 i n hp
    change i + 3 ≤ hi
    omega
  | true =>
    change i + 3 ≤ hi
    rcases (Arena.Free.isGap hp).left with heq | ⟨j, k, hl, hj, hk⟩
    · have := h.1
      omega
    · have := h.2 j k hl
      omega

theorem Arena.TopFree.releases (h : a.TopFree) {i n : ℕ} {b : Arena lo hi}
    (hrel : a.Releases i n b) : b.TopFree :=
  ⟨h.1, fun j k hl => h.2 j k ((hrel.2 j k).mp hl).1⟩

/-- Allocating keeps the top free if it leaves three positions of the topmost piece. -/
theorem Arena.TopFree.allocates (h : a.TopFree) {i n m : ℕ} {b : Arena lo hi}
    (hall : a.Allocates i n b) (hm : a.Free i m) (htop : i + m = hi → n + 3 ≤ m) :
    b.TopFree := by
  refine ⟨h.1, fun j k hl => ?_⟩
  rcases (hall.2.2 j k).mp hl with hl | ⟨rfl, rfl⟩
  · exact h.2 j k hl
  · obtain ⟨-, ⟨m', hm', hle⟩, -⟩ := hall
    have heq := a.tiles.eq_of_start hm hm' rfl
    simp only [Piece.mk.injEq, and_true, true_and] at heq
    rcases hm.isGap.right with hhi | ⟨x, y, hl, hx, hy⟩
    · have := htop hhi
      omega
    · have := h.2 x y hl
      omega

/-! ## Runs -/

theorem inWindow_iff {loc size : ℕ} (hloc : sizeofBlock ∣ loc) (hsize : size < 256)
    {i n : ℕ} : InWindow loc size i n ↔
      heapBase loc ≤ i + 2 ∧ i + n + 2 ≤ heapTop loc size := by
  obtain ⟨k, rfl⟩ := hloc
  rw [heapTop, heapUnits_of_lt hsize]
  simp only [InWindow, heapBase, sizeofBlock, pageSize]
  omega

section Runs

variable {loc size : ℕ} {s s' : HeapState} {op : HeapOp}

/-- The invariant of the runs. -/
structure TopKept (a : Arena lo hi) (s : HeapState) : Prop where
  holds : Holds a s nobody
  top : a.TopFree
  wrote : ∀ u ∈ s.heap.mem.wrote, lo ≤ u ∧ u + 3 ≤ hi

/-- Headers stay below the three topmost units. -/
theorem wrote_le {m m' : Mem} {ws : List ℕ} (hw : m.Writes ws m')
    (hold : ∀ u ∈ m.wrote, lo ≤ u ∧ u + 3 ≤ hi) (htop : a.TopFree)
    (hws : ∀ u ∈ ws, ∃ p ∈ a.pieces, p.start = u) :
    ∀ u ∈ m'.wrote, lo ≤ u ∧ u + 3 ≤ hi := by
  intro u hu
  rw [hw.wrote, List.mem_append] at hu
  rcases hu with hu | hu
  · obtain ⟨p, hp, rfl⟩ := hws u hu
    exact ⟨(a.tiles.bounds hp).1, htop.start_le hp⟩
  · exact hold u hu

theorem TopKept.step {a : Arena (heapBase loc) (heapTop loc size)} (hI : TopKept a s)
    (hfree : FreeOk s op) (htop : TopOk loc size s op) (hs : HeapStep s op s') :
    ∃ a' : Arena (heapBase loc) (heapTop loc size), TopKept a' s' := by
  have hlo := heapBase_pos loc
  cases hs with
  | malloc _ _ hret hp =>
    rcases hI.holds.malloc hlo hret with ⟨hp0, -⟩ |
      ⟨i, a', ws, rfl, hall, hI', hw, -, hws, hfit⟩
    · exact absurd hp0 hp
    · obtain ⟨-, ⟨m, hm, -⟩, -⟩ := id hall
      have hsz := hI.holds.reps.mem.size _ hm
      have hroom := htop i hfit
      rw [hsz] at hroom
      have htop' := hI.top.allocates hall hm hroom
      exact ⟨a', hI', htop', wrote_le hw hI.wrote htop' hws⟩
  | mallocNull _ _ hret =>
    rcases hI.holds.malloc hlo hret with ⟨-, rfl⟩ | ⟨i, _, _, hp, -⟩
    · exact ⟨a, hI⟩
    · exact absurd hp.symm (Nat.succ_ne_zero i)
  | free _ hb hret =>
    obtain ⟨a', ws, hrel, hI', hw, hws⟩ := hI.holds.free hlo hb hfree hret
    refine ⟨a', hI', hI.top.releases hrel, wrote_le hw hI.wrote hI.top fun u hu => ?_⟩
    rcases hws u hu with rfl | hu
    · exact ⟨_, hI.holds.liveAt hb, rfl⟩
    · exact Arena.exists_start hu
  | write _ _ _ hb hlt hu =>
    exact ⟨a, ⟨hI.holds.write hb hlt hu _, hI.holds.head⟩, hI.top, hI.wrote⟩

theorem topKept_sccInit (loc : ℕ) (hpos : 0 < size) (hsize : size < 256) (cell : ℕ → Block) :
    ∃ a : Arena (heapBase loc) (heapTop loc size), TopKept a (sccInitState loc size cell) := by
  have hunits := heapUnits_of_lt hsize
  refine ⟨_, holds_sccInit loc hpos hsize cell, ⟨?_, fun i n hl => ?_⟩, ?_⟩
  · rw [heapTop]
    omega
  · exact absurd hl (Arena.not_live_whole _ i n)
  · intro u hu
    have : u = heapBase loc := by simpa [sccInitState, sccInitHeap] using hu
    rw [heapTop]
    omega

/-- **The heap stays in its window.** With at least one page mapped, in every run
in which requests served from the top of the heap leave three units there, and
no freed block ends where the only free block begins, every block in use and
every header the allocator has written lies in the window. The frees matter only if
clients store into their blocks: see `window_kept_calls`. -/
theorem window_kept (hloc : sizeofBlock ∣ loc) (hpos : 0 < size) (hsize : size < 256)
    (cell : ℕ → Block)
    (h : Reach (Guarded HeapStep fun s op => FreeOk s op ∧ TopOk loc size s op)
      (sccInitState loc size cell) s) :
    WindowKept loc size s := by
  obtain ⟨a, hI⟩ := h.invariant
    (I := fun s => ∃ a : Arena (heapBase loc) (heapTop loc size), TopKept a s)
    (topKept_sccInit loc hpos hsize cell)
    fun s op s' ⟨a, hI⟩ hs => hI.step hs.1.1 hs.1.2 hs.2
  refine ⟨fun b hb => ?_, fun u hu => ?_⟩
  · have hlive := hI.holds.liveAt hb
    have := hI.top.2 _ _ hlive
    have := hlive.bounds.1
    rw [inWindow_iff hloc hsize]
    omega
  · have := hI.wrote u hu
    rw [inWindow_iff hloc hsize]
    omega

/-- A small block from the heap of `SCCInit(30)`. -/
theorem window_kept_small :
    ∃ s, s.live = [⟨321559042, 8⟩] ∧ WindowKept 2572472320 30 s := by
  have r₀ : Reach (Guarded HeapStep fun s op => FreeOk s op ∧ TopOk 2572472320 30 s op)
    (sccInitState 2572472320 30 fun _ => ⟨0, 0⟩) _ := Reach.init
  have hok : TopOk 2572472320 30 (sccInitState 2572472320 30 fun _ => ⟨0, 0⟩) (.malloc 8) := by
    intro i hi _
    obtain rfl := hi.head
    decide
  have r₁ := r₀.next ⟨⟨freeOk_malloc _ _, hok⟩, HeapStep.malloc 8 (by decide) ⟨1, rfl⟩ (by decide)⟩
  exact ⟨_, rfl, window_kept (by decide) (by decide) (by decide) _ r₁⟩

end Runs

/-! ## Calls alone

A free that breaks `FreeOk` leaves a block on the list whose header lies inside
another free block, and so may later lie in somebody's payload. As long as no client
stores there, it still describes a block below the top. -/

section Calls

variable {loc size : ℕ} {K : Set ℕ} {m m' : Mem} {h h' : Heap} {b : Block}
  {p q n i curr prev : ℕ}

/-- The units `K` hold the headers of blocks that end at the top or leave three units
there; they link to each other, and all headers written are among them. -/
structure Headers (lo hi : ℕ) (K : Set ℕ) (m : Mem) : Prop where
  bounds : ∀ u ∈ K, lo ≤ u ∧ u + 3 ≤ hi
  stop : ∀ u ∈ K, u + (m.cell u).size = hi ∨ u + (m.cell u).size + 3 ≤ hi
  links : m.LinksIn K
  wrote : ∀ u ∈ m.wrote, u ∈ K

/-- Moreover `freeList` is one of them. -/
structure Headed (lo hi : ℕ) (K : Set ℕ) (h : Heap) : Prop extends Headers lo hi K h.mem where
  head : h.freeList ≠ 0 → h.freeList ∈ K

/-- A header that fits is one more of them. -/
theorem Headers.store (hK : Headers lo hi K m) (hp : lo ≤ p ∧ p + 3 ≤ hi)
    (hstop : p + b.size = hi ∨ p + b.size + 3 ≤ hi) (hnext : b.next ∈ insert p K) :
    Headers lo hi (insert p K) (m.store p b) := by
  refine ⟨fun u hu => ?_, fun u hu => ?_, fun u hu => ?_, fun u hu => ?_⟩
  · rcases hu with rfl | hu
    · exact hp
    · exact hK.bounds u hu
  · by_cases hup : u = p
    · rw [hup, Mem.cell_store_self]
      exact hstop
    · rw [Mem.cell_store_of_ne hup]
      exact hK.stop u (hu.resolve_left hup)
  · by_cases hup : u = p
    · rw [hup, Mem.cell_store_self]
      exact hnext
    · rw [Mem.cell_store_of_ne hup]
      exact Or.inr (hK.links u (hu.resolve_left hup))
  · rw [Mem.wrote_store, List.mem_cons] at hu
    exact hu.imp_right (hK.wrote u)

theorem Headers.setNext (hK : Headers lo hi K m) (hp : p ∈ K) (hq : q ∈ K) :
    Headers lo hi K (m.setNext p q) := by
  have hst := hK.store (b := { m.cell p with next := q }) (hK.bounds p hp) (hK.stop p hp)
    (Or.inr hq)
  rwa [Set.insert_eq_of_mem hp] at hst

theorem Headers.setSize (hK : Headers lo hi K m) (hp : p ∈ K)
    (hn : p + n = hi ∨ p + n + 3 ≤ hi) : Headers lo hi K (m.setSize p n) := by
  have hst := hK.store (b := { m.cell p with size := n }) (hK.bounds p hp) hn
    (Or.inr (hK.links p hp))
  rwa [Set.insert_eq_of_mem hp] at hst

/-- A header may be written in two steps. -/
theorem Headers.add (hK : Headers lo hi K m) (hp : lo ≤ p ∧ p + 3 ≤ hi) (hnext : b.next ∈ K)
    (hn : p + n = hi ∨ p + n + 3 ≤ hi) :
    Headers lo hi (insert p K) ((m.store p b).setSize p n) := by
  have hst := hK.store (b := { b with size := n }) hp hn (Or.inr hnext)
  have hcell : ((m.store p b).setSize p n).cell = (m.store p { b with size := n }).cell := by
    rw [Mem.setSize, Mem.cell_store_self]
    exact Function.update_idem ..
  refine ⟨hst.bounds, ?_, ?_, fun u hu => ?_⟩
  · rw [hcell]
    exact hst.stop
  · rw [Mem.LinksIn, hcell]
    exact hst.links
  · rw [Mem.wrote_setSize, Mem.wrote_store, List.mem_cons, List.mem_cons, ← or_assoc, or_self]
      at hu
    exact hu.imp_right (hK.wrote u)

/-- The rest of a block that is cut is one more block. -/
theorem Headers.splitBlock (hK : Headers lo hi K m) (hprev : prev ∈ K) (hcurr : curr ∈ K)
    (hlt : n < (m.cell curr).size) (hroom : curr + n + 3 ≤ hi) :
    Headed lo hi (insert (curr + n) K) (splitBlock m n prev curr) := by
  have hsz : curr + n + ((m.cell curr).size - n) = curr + (m.cell curr).size := by omega
  have hK₁ : Headers lo hi (insert (curr + n) K)
      ((m.store (curr + n) (m.cell curr)).setSize (curr + n) ((m.cell curr).size - n)) := by
    refine hK.add ⟨?_, hroom⟩ (hK.links curr hcurr) ?_
    · have := (hK.bounds curr hcurr).1
      omega
    · rw [hsz]
      exact hK.stop curr hcurr
  have hlast : (if prev = curr then curr + n else prev) ∈ insert (curr + n) K := by
    split
    · exact Set.mem_insert _ _
    · exact Or.inr hprev
  refine ⟨?_, fun _ => hlast⟩
  simp only [SccShm.splitBlock, Mem.cell_store_self]
  exact (hK₁.setSize (Or.inr hcurr) (Or.inr hroom)).setNext hlast (Set.mem_insert _ _)

/-- A call of `SCCMallocPtr` adds at most the header of a rest; the block it returns
leaves three units below the top. -/
theorem Headed.malloc (hK : Headed lo hi K h) {req r : ℕ}
    (htop : ∀ i, FirstFit h.mem h.freeList (nunits req) (h.mem.cell h.freeList).next i →
      i + (h.mem.cell i).size = hi → nunits req + 3 ≤ (h.mem.cell i).size)
    (hret : Returns (fun fuel => sccMallocPtr fuel req h) (r, h')) :
    ∃ K', K ⊆ K' ∧ Headed lo hi K' h' ∧
      (r ≠ 0 → r - 1 ∈ K ∧ r - 1 + nunits req + 3 ≤ hi) := by
  obtain ⟨fuel, hret⟩ := hret
  obtain ⟨f, hf, hret⟩ := Exec.bind_eq_ok.mp hret
  have hne : h.freeList ≠ 0 := by
    intro h0
    rw [h0, Mem.load_null] at hf
    cases hf
  obtain rfl := Mem.eq_of_load hf
  set c₀ := (h.mem.cell h.freeList).next with hc₀
  refine loop_partial (I := fun t : ℕ × ℕ => t.1 ∈ K ∧ t.2 ∈ K ∧
      ∀ i, FirstFit h.mem h.freeList (nunits req) t.2 i →
        FirstFit h.mem h.freeList (nunits req) c₀ i)
    (Q := fun out => ∃ K', K ⊆ K' ∧ Headed lo hi K' out.2 ∧
      (out.1 ≠ 0 → out.1 - 1 ∈ K ∧ out.1 - 1 + nunits req + 3 ≤ hi))
    ?_ ?_ ⟨hK.head hne, hK.links _ (hK.head hne), fun i hi => hi⟩ hret
  · rintro ⟨prev, curr⟩ t ⟨-, hcurr, hfirst⟩ hbody
    obtain ⟨rfl, hsmall, hne⟩ := mallocBody_inl hbody
    exact ⟨hcurr, hK.links curr hcurr, fun i hi => hfirst i (FirstFit.next hsmall hne hi)⟩
  · rintro ⟨prev, curr⟩ out ⟨hprev, hcurr, hfirst⟩ hbody
    -- the block is the first that fits, so it leaves its room
    have hroom : nunits req ≤ (h.mem.cell curr).size → curr + nunits req + 3 ≤ hi := by
      intro hfit
      rcases hK.stop curr hcurr with hhi | hle
      · have := htop curr (hfirst curr (FirstFit.here hfit)) hhi
        omega
      · omega
    rcases mallocBody_inr hbody with ⟨hexact, ⟨-, rfl⟩ | ⟨-, rfl⟩⟩ | ⟨hlt, rfl⟩ | ⟨-, rfl⟩
    · exact ⟨K, subset_rfl, ⟨hK.toHeaders, fun h0 => absurd rfl h0⟩,
        fun _ => ⟨hcurr, hroom hexact.ge⟩⟩
    · exact ⟨K, subset_rfl, ⟨hK.toHeaders.setNext hprev (hK.links curr hcurr), fun _ => hprev⟩,
        fun _ => ⟨hcurr, hroom hexact.ge⟩⟩
    · exact ⟨_, Set.subset_insert _ _, hK.toHeaders.splitBlock hprev hcurr hlt (hroom hlt.le),
        fun _ => ⟨hcurr, hroom hlt.le⟩⟩
    · exact ⟨K, subset_rfl, hK, fun h0 => absurd rfl h0⟩

theorem Headers.mergeUpper (hK : Headers lo hi K m) (hb : i ∈ K) (hcurr : curr ∈ K)
    (hret : mergeUpper m i curr = .ok m') : Headers lo hi K m' := by
  obtain ⟨c, hc, hret⟩ := Exec.bind_eq_ok.mp hret
  obtain ⟨d, hd, hret⟩ := Exec.bind_eq_ok.mp hret
  obtain rfl := Mem.eq_of_load hc
  obtain rfl := Mem.eq_of_load hd
  have hnext := hK.links curr hcurr
  split at hret
  · next htouch =>
    obtain ⟨e, he, hret⟩ := Exec.bind_eq_ok.mp hret
    obtain rfl := Mem.eq_of_load he
    have hK₁ := hK.setSize (n := (m.cell i).size + (m.cell (m.cell curr).next).size) hb (by
      rw [← Nat.add_assoc, htouch]
      exact hK.stop _ hnext)
    dsimp only at hret
    split at hret
    · obtain rfl := Except.ok.inj hret
      exact hK₁.setNext hb hb
    · obtain rfl := Except.ok.inj hret
      exact hK₁.setNext hb (hK₁.links _ (hK₁.links curr hcurr))
  · obtain rfl := Except.ok.inj hret
    exact hK.setNext hb hnext

theorem Headers.mergeLower (hK : Headers lo hi K m) (hb : i ∈ K) (hcurr : curr ∈ K) :
    Headers lo hi K (mergeLower m i curr) := by
  rw [SccShm.mergeLower]
  split
  · next htouch =>
    have hK₁ := hK.setSize (n := (m.cell curr).size + (m.cell i).size) hcurr (by
      rw [← Nat.add_assoc, htouch]
      exact hK.stop i hb)
    exact hK₁.setNext hcurr (hK₁.links i hb)
  · exact hK.setNext hcurr hb

/-- A call of `SCCFreePtr` adds no header. -/
theorem Headed.free (hK : Headed lo hi K h) (hb : i ∈ K)
    (hret : Returns (fun fuel => sccFreePtr fuel (i + 1) h) h') : Headed lo hi K h' := by
  obtain ⟨fuel, hret⟩ := hret
  simp only [sccFreePtr, Nat.add_sub_cancel] at hret
  split at hret
  · obtain rfl := Except.ok.inj hret
    exact ⟨hK.toHeaders.setNext hb hb, fun _ => hb⟩
  · next hne =>
    obtain ⟨curr, hcurr, hret⟩ := Exec.bind_eq_ok.mp hret
    obtain ⟨m₂, hm₂, hret⟩ := Exec.bind_eq_ok.mp hret
    obtain rfl := Except.ok.inj hret
    have hcK : curr ∈ K := by
      refine loop_partial (I := fun c => c ∈ K) (Q := fun c => c ∈ K) ?_ ?_ (hK.head hne) hcurr
      · intro c c' hc hbody
        rw [freeBody_inl hbody]
        exact hK.links c hc
      · intro c r hc hbody
        rw [freeBody_inr hbody]
        exact hc
    exact ⟨(hK.toHeaders.mergeUpper hb hcK hm₂).mergeLower hb hcK, fun _ => hcK⟩

/-- The invariant of the runs without stores. -/
structure CallsKept (lo hi : ℕ) (K : Set ℕ) (s : HeapState) : Prop where
  heads : Headed lo hi K s.heap
  live : ∀ b ∈ s.live, b.block ∈ K ∧ b.block + b.units + 3 ≤ hi

theorem CallsKept.step {s s' : HeapState} {op : HeapOp}
    (hI : CallsKept (heapBase loc) (heapTop loc size) K s) (hcall : op.isCall)
    (htop : TopOk loc size s op) (hs : HeapStep s op s') :
    ∃ K', CallsKept (heapBase loc) (heapTop loc size) K' s' := by
  cases hs with
  | malloc req _ hret hp =>
    obtain ⟨K', hsub, hK', hp'⟩ := hI.heads.malloc htop hret
    obtain ⟨hmem, hroom⟩ := hp' hp
    refine ⟨K', hK', fun b hb => ?_⟩
    rcases List.mem_cons.mp hb with rfl | hb
    · exact ⟨hsub hmem, hroom⟩
    · exact ⟨hsub (hI.live b hb).1, (hI.live b hb).2⟩
  | mallocNull req _ hret =>
    obtain ⟨K', hsub, hK', -⟩ := hI.heads.malloc htop hret
    exact ⟨K', hK', fun b hb => ⟨hsub (hI.live b hb).1, (hI.live b hb).2⟩⟩
  | free b hb hret =>
    exact ⟨K, hI.heads.free (hI.live b hb).1 hret,
      fun c hc => hI.live c (List.mem_of_mem_erase hc)⟩
  | write => exact absurd hcall id

theorem callsKept_sccInit (loc : ℕ) (hpos : 0 < size) (hsize : size < 256)
    (cell : ℕ → Block) : CallsKept (heapBase loc) (heapTop loc size) {heapBase loc}
      (sccInitState loc size cell) := by
  have hunits := heapUnits_of_lt hsize
  refine ⟨⟨⟨?_, ?_, ?_, ?_⟩, fun _ => rfl⟩, fun b hb => absurd hb List.not_mem_nil⟩
  · rintro u rfl
    rw [heapTop]
    omega
  · rintro u rfl
    exact Or.inl (by simp [sccInitState, sccInitHeap, heapTop])
  · rintro u rfl
    simp [sccInitState, sccInitHeap]
  · intro u hu
    simpa [sccInitState, sccInitHeap] using hu

/-- **Without stores of clients, frees need no condition**: in every run of calls in
which requests served from the top of the heap leave three units there, every block in
use and every header the allocator has written lies in the window. -/
theorem window_kept_calls (hloc : sizeofBlock ∣ loc) (hpos : 0 < size) (hsize : size < 256)
    (cell : ℕ → Block) {s : HeapState}
    (h : Reach (Guarded HeapStep fun s op => op.isCall ∧ TopOk loc size s op)
      (sccInitState loc size cell) s) :
    WindowKept loc size s := by
  obtain ⟨K, hI⟩ := h.invariant
    (I := fun s => ∃ K, CallsKept (heapBase loc) (heapTop loc size) K s)
    ⟨_, callsKept_sccInit loc hpos hsize cell⟩
    fun s op s' ⟨K, hI⟩ hs => hI.step hs.1.1 hs.1.2 hs.2
  refine ⟨fun b hb => ?_, fun u hu => ?_⟩
  · obtain ⟨hmem, hroom⟩ := hI.live b hb
    have := (hI.heads.bounds _ hmem).1
    rw [inWindow_iff hloc hsize]
    omega
  · have := hI.heads.bounds u (hI.heads.wrote u hu)
    rw [inWindow_iff hloc hsize]
    omega

end Calls

/-- Allocating what `SCCInit(30)` put in the free list: the block ends two units
behind the window. -/
theorem window_left :
    ∃ s, Reach HeapStep (sccInitState 2572472320 30 fun _ => ⟨0, 0⟩) s ∧
      ¬ WindowKept 2572472320 30 s := by
  have r₀ : Reach HeapStep (sccInitState 2572472320 30 fun _ => ⟨0, 0⟩) _ := Reach.init
  have r₁ := r₀.next (HeapStep.malloc (30 * pageSize - 8) (by decide) ⟨1, rfl⟩ (by decide))
  refine ⟨_, r₁, fun hkept => ?_⟩
  have := hkept.live ⟨321559042, 30 * pageSize - 8⟩ List.mem_cons_self
  revert this
  decide

end SccShm
