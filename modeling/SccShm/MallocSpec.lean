import SccShm.CyclicOrder
import SccShm.FreeList
import SccShm.Tiling

/-!
# What `SCCMallocPtr` does to a well-formed heap

`Heap.Reps h a` says that the heap `h` represents the arena `a`: every piece has
its length in its header, the free pieces are linked in the cyclic order of
their addresses, and `freeList` is one of them, or `NULL` when there is none.

`sccMallocPtr_spec`: on a nonempty list a call ends; it either finds no block
that is large enough and changes nothing, or allocates the first one it meets.
-/

namespace SccShm

variable {lo hi : ℕ}

/-! ## The free pieces of a tiling -/

/-- Where the free pieces start. -/
def freeStarts (ps : List Piece) : Finset ℕ :=
  ((ps.filter fun p => p.free).map Piece.start).toFinset

theorem mem_freeStarts {ps : List Piece} {u : ℕ} :
    u ∈ freeStarts ps ↔ ∃ p ∈ ps, p.free = true ∧ p.start = u := by
  simp [freeStarts, and_assoc]

@[simp] theorem freeStarts_nil : freeStarts [] = ∅ := rfl

@[simp] theorem freeStarts_append (l r : List Piece) :
    freeStarts (l ++ r) = freeStarts l ∪ freeStarts r := by
  simp [freeStarts]

theorem freeStarts_cons_free {p : Piece} (hp : p.free = true) (ps : List Piece) :
    freeStarts (p :: ps) = insert p.start (freeStarts ps) := by
  simp [freeStarts, hp]

theorem freeStarts_cons_live {p : Piece} (hp : p.free = false) (ps : List Piece) :
    freeStarts (p :: ps) = freeStarts ps := by
  simp [freeStarts, hp]

theorem freeStarts_of_free {l r : List Piece} {p : Piece} (hp : p.free = true) :
    freeStarts (l ++ p :: r) = insert p.start (freeStarts l ∪ freeStarts r) := by
  rw [freeStarts_append, freeStarts_cons_free hp, Finset.union_insert]

theorem freeStarts_of_live {l r : List Piece} {p : Piece} (hp : p.free = false) :
    freeStarts (l ++ p :: r) = freeStarts l ∪ freeStarts r := by
  rw [freeStarts_append, freeStarts_cons_live hp]

theorem Piece.start_mem {p : Piece} (hpos : 0 < p.len) : p.start ∈ p := by
  rw [Piece.mem_iff, Piece.stop]
  omega

namespace Arena

variable {a : Arena lo hi} {l r m : List Piece} {p q : Piece}

/-- Where the free pieces of the arena start. -/
def starts (a : Arena lo hi) : Finset ℕ := freeStarts a.pieces

theorem mem_starts {u : ℕ} : u ∈ a.starts ↔ ∃ k, a.Free u k := by
  rw [starts, mem_freeStarts]
  refine ⟨?_, ?_⟩
  · rintro ⟨⟨s, k, f⟩, hp, hf, rfl⟩
    obtain rfl : f = true := hf
    exact ⟨k, hp⟩
  · rintro ⟨k, hk⟩
    exact ⟨_, hk, rfl, rfl⟩

theorem start_mem_starts (hp : p ∈ a.pieces) (hf : p.free = true) : p.start ∈ a.starts :=
  mem_freeStarts.mpr ⟨p, hp, hf, rfl⟩

/-- A unit of the list is the start of a piece. -/
theorem exists_start {u : ℕ} (hu : u ∈ a.starts) : ∃ q ∈ a.pieces, q.start = u := by
  obtain ⟨k, hk⟩ := mem_starts.mp hu
  exact ⟨_, hk, rfl⟩

/-- And it lies in a free one. -/
theorem exists_free {u : ℕ} (hu : u ∈ a.starts) : ∃ q ∈ a.pieces, q.free = true ∧ u ∈ q := by
  obtain ⟨k, hk⟩ := mem_starts.mp hu
  exact ⟨_, hk, rfl, Piece.start_mem hk.bounds.2.1⟩

theorem ne_zero_of_mem_starts (hlo : 0 < lo) {u : ℕ} (hu : u ∈ a.starts) : u ≠ 0 := by
  obtain ⟨k, hk⟩ := mem_starts.mp hu
  have := hk.bounds.1
  omega

/-- No piece to the left or to the right of `p` starts where `p` does. -/
theorem start_notMem (h : a.pieces = l ++ p :: r) :
    p.start ∉ freeStarts l ∧ p.start ∉ freeStarts r := by
  rw [mem_freeStarts, mem_freeStarts]
  refine ⟨?_, ?_⟩
  · rintro ⟨q, hq, -, heq⟩
    exact ((mem_sides h).mp (Or.inl hq)).2 heq
  · rintro ⟨q, hq, -, heq⟩
    exact ((mem_sides h).mp (Or.inr hq)).2 heq

theorem starts_of_free (h : a.pieces = l ++ p :: r) (hp : p.free = true) :
    a.starts = insert p.start (freeStarts l ∪ freeStarts r) := by
  rw [starts, h, freeStarts_of_free hp]

theorem starts_of_live (h : a.pieces = l ++ p :: r) (hp : p.free = false) :
    a.starts = freeStarts l ∪ freeStarts r := by
  rw [starts, h, freeStarts_of_live hp]

/-- The starts of the other free pieces. -/
theorem starts_erase (h : a.pieces = l ++ p :: r) (hp : p.free = true) :
    a.starts.erase p.start = freeStarts l ∪ freeStarts r := by
  obtain ⟨hl, hr⟩ := start_notMem h
  rw [starts_of_free h hp, Finset.erase_insert]
  rw [Finset.mem_union, not_or]
  exact ⟨hl, hr⟩

/-- A live piece starts where no free one does. -/
theorem Live.start_notMem {i n : ℕ} (h : a.Live i n) : i ∉ a.starts := by
  intro hi
  obtain ⟨k, hk⟩ := mem_starts.mp hi
  exact h.not_free hk

theorem start_notMem_starts (hp : p ∈ a.pieces) (hf : p.free = false) : p.start ∉ a.starts :=
  Live.start_notMem (n := p.len) (by rwa [Live, ← hf])

theorem starts_carve (h : a.pieces = l ++ p :: r) (hp : p.free = true) {n : ℕ} (hn : 0 < n)
    (hle : n ≤ p.len) :
    (a.carve h hp n hn hle).starts =
      if p.len = n then a.starts.erase p.start
      else insert (p.start + n) (a.starts.erase p.start) := by
  rw [starts_erase h hp]
  change freeStarts (l ++ (cut p n ++ r)) = _
  rw [freeStarts_append, cut]
  split
  · rw [List.singleton_append, freeStarts_cons_live rfl]
  · rw [List.cons_append, freeStarts_cons_live rfl, List.singleton_append,
      freeStarts_cons_free rfl, Finset.union_insert]

end Arena

/-! ## Representation -/

/-- `m` holds the pieces of `a`: their lengths, and the links of the free ones. -/
structure Mem.Reps (m : Mem) (a : Arena lo hi) : Prop where
  size : ∀ p ∈ a.pieces, (m.cell p.start).size = p.len
  links : ∀ b ∈ a.starts, CycSucc a.starts b (m.cell b).next

/-- The variable `freeList` points into the list, or is `NULL` if there is none. -/
def Heads (f : ℕ) (F : Finset ℕ) : Prop := f ∈ F ∨ (F = ∅ ∧ f = 0)

theorem Heads.mem_of_ne {f : ℕ} {F : Finset ℕ} (h : Heads f F) (hne : f ≠ 0) : f ∈ F :=
  h.resolve_right fun h0 => hne h0.2

theorem Heads.mem_of_mem {f x : ℕ} {F : Finset ℕ} (h : Heads f F) (hx : x ∈ F) : f ∈ F :=
  h.resolve_right fun h0 => Finset.notMem_empty x (h0.1 ▸ hx)

/-- The heap `h` represents the arena `a`. -/
structure Heap.Reps (h : Heap) (a : Arena lo hi) : Prop where
  mem : h.mem.Reps a
  head : Heads h.freeList a.starts

/-! ## `SCCMallocPtr` -/

/-- `i` is the first block with at least `n` units that the scan of
`SCCMallocPtr` meets from block `c` on; the scan ends at block `f`. -/
inductive FirstFit (m : Mem) (f n : ℕ) : ℕ → ℕ → Prop where
  | here {c : ℕ} : n ≤ (m.cell c).size → FirstFit m f n c c
  | next {c i : ℕ} : (m.cell c).size < n → c ≠ f → FirstFit m f n (m.cell c).next i →
      FirstFit m f n c i

/-- A scan that starts where it ends looks at one block. -/
theorem FirstFit.head {m : Mem} {f n i : ℕ} (h : FirstFit m f n f i) : i = f := by
  cases h with
  | here _ => rfl
  | next _ hne _ => exact absurd rfl hne

/-- From `h` to `h'`, a block of `n` units at `i` was allocated in the arena `a`. -/
def Took (h : Heap) (a : Arena lo hi) (i n : ℕ) (h' : Heap) : Prop :=
  ∃ (b : Arena lo hi) (ws : List ℕ), a.Allocates i n b ∧ h'.Reps b ∧
    h.mem.Writes ws h'.mem ∧ (∀ u ∈ ws, ∃ p ∈ a.pieces, p.free = true ∧ u ∈ p) ∧
    ∀ u ∈ ws, ∃ p ∈ b.pieces, p.start = u

section Malloc

variable {a : Arena lo hi} {h : Heap} {l r : List Piece} {p : Piece} {prev : ℕ}

/-- The lengths after carving, in a memory that differs at `p` and in its remainder. -/
theorem size_carve (hr : h.mem.Reps a) (hps : a.pieces = l ++ p :: r) (hp : p.free = true)
    {n : ℕ} (hn : 0 < n) (hle : n ≤ p.len) {m : Mem} (hself : (m.cell p.start).size = n)
    (hrest : n < p.len → (m.cell (p.start + n)).size = p.len - n)
    (hother : ∀ q ∈ a.pieces, q.start ≠ p.start →
      (m.cell q.start).size = (h.mem.cell q.start).size) :
    ∀ q ∈ (a.carve hps hp n hn hle).pieces, (m.cell q.start).size = q.len := by
  have keep : ∀ q, q ∈ l ∨ q ∈ r → (m.cell q.start).size = q.len := by
    intro q hq
    obtain ⟨hqa, hne⟩ := (Arena.mem_sides hps).mp hq
    rw [hother q hqa hne, hr.size q hqa]
  intro q hq
  change q ∈ l ++ (Arena.cut p n ++ r) at hq
  simp only [List.mem_append] at hq
  rcases hq with hq | hq | hq
  · exact keep q (Or.inl hq)
  · rcases Nat.lt_or_eq_of_le hle with hlt | rfl
    · rw [Arena.cut_of_lt hlt] at hq
      simp only [List.mem_cons, List.not_mem_nil, or_false] at hq
      rcases hq with rfl | rfl
      · exact hself
      · exact hrest hlt
    · rw [Arena.cut_self, List.mem_singleton] at hq
      rw [hq]
      exact hself
  · exact keep q (Or.inr hq)

/-- Exact fit in a list of one block: the list becomes empty. -/
theorem took_exact_last (hr : h.mem.Reps a) (hps : a.pieces = l ++ p :: r)
    (hp : p.free = true) (hpos : 0 < p.len) (hprev : CycSucc a.starts p.start p.start) :
    Took h a p.start p.len { h with freeList := 0 } := by
  have hempty : (a.carve hps hp p.len hpos (le_refl _)).starts = ∅ := by
    rw [Arena.starts_carve hps hp, if_pos rfl, hprev.eq_singleton]
    simp
  refine ⟨a.carve hps hp p.len hpos (le_refl _), [], a.carve_allocates hps hp hpos (le_refl _),
    ⟨⟨?_, ?_⟩, Or.inr ⟨hempty, rfl⟩⟩, Mem.Writes.refl _, by simp, by simp⟩
  · exact size_carve hr hps hp hpos (le_refl _) (hr.size p (by rw [hps]; simp))
      (fun hlt => absurd hlt (lt_irrefl _)) fun _ _ _ => rfl
  · intro b hb
    rw [hempty] at hb
    simp at hb

/-- Exact fit in a longer list: the predecessor skips the block. -/
theorem took_exact (hr : h.mem.Reps a) (hps : a.pieces = l ++ p :: r) (hp : p.free = true)
    (hpos : 0 < p.len) (hprev : CycSucc a.starts prev p.start) (hne : prev ≠ p.start) :
    Took h a p.start p.len ⟨h.mem.setNext prev (h.mem.cell p.start).next, prev⟩ := by
  have hpa : p ∈ a.pieces := by rw [hps]; simp
  have hnext := hr.links _ (Arena.start_mem_starts hpa hp)
  have hstarts : (a.carve hps hp p.len hpos (le_refl _)).starts = a.starts.erase p.start := by
    rw [Arena.starts_carve hps hp, if_pos rfl]
  refine ⟨a.carve hps hp p.len hpos (le_refl _), [prev],
    a.carve_allocates hps hp hpos (le_refl _), ⟨⟨?_, ?_⟩, Or.inl ?_⟩,
    (Mem.Writes.refl _).setNext _ _, ?_, ?_⟩
  · refine size_carve hr hps hp hpos (le_refl _) ?_ (fun hlt => absurd hlt (lt_irrefl _)) ?_
    · rw [Mem.size_setNext, hr.size p hpa]
    · intro q _ _
      rw [Mem.size_setNext]
  · intro b hb
    rw [hstarts] at hb ⊢
    by_cases hbp : b = prev
    · subst hbp
      rw [Mem.next_setNext_self]
      exact CycSucc.erase_self hprev hnext hne
    · rw [Mem.cell_setNext_of_ne hbp]
      exact CycSucc.erase_of_ne hprev (hr.links b (Finset.mem_of_mem_erase hb)) hbp
        (Finset.ne_of_mem_erase hb)
  · change prev ∈ _
    rw [hstarts]
    exact Finset.mem_erase.mpr ⟨hne, hprev.left⟩
  · intro u hu
    obtain rfl : u = prev := by simpa using hu
    exact Arena.exists_free hprev.left
  · intro u hu
    obtain rfl : u = prev := by simpa using hu
    apply Arena.exists_start
    rw [hstarts]
    exact Finset.mem_erase.mpr ⟨hne, hprev.left⟩

/-! Splitting: what `splitBlock` leaves in memory. -/

section Split

variable {m : Mem} {n curr : ℕ}

theorem splitBlock_writes (m : Mem) (n prev curr : ℕ) :
    m.Writes [if prev = curr then curr + n else prev, curr, curr + n, curr + n]
      (splitBlock m n prev curr).mem :=
  ((((Mem.Writes.refl m).store _ _).setSize _ _).setSize _ _).setNext _ _

theorem splitBlock_size_self (m : Mem) (n prev curr : ℕ) :
    ((splitBlock m n prev curr).mem.cell curr).size = n := by
  simp only [splitBlock, Mem.size_setNext, Mem.size_setSize_self]

theorem splitBlock_size_rest (hn : 0 < n) :
    ((splitBlock m n prev curr).mem.cell (curr + n)).size = (m.cell curr).size - n := by
  simp only [splitBlock, Mem.size_setNext]
  rw [Mem.cell_setSize_of_ne (by omega), Mem.size_setSize_self, Mem.cell_store_self]

theorem splitBlock_size_of_ne {u : ℕ} (h₁ : u ≠ curr) (h₂ : u ≠ curr + n) :
    ((splitBlock m n prev curr).mem.cell u).size = (m.cell u).size := by
  simp only [splitBlock, Mem.size_setNext]
  rw [Mem.cell_setSize_of_ne h₁, Mem.cell_setSize_of_ne h₂, Mem.cell_store_of_ne h₂]

theorem splitBlock_next_prev (m : Mem) (n prev curr : ℕ) :
    ((splitBlock m n prev curr).mem.cell (splitBlock m n prev curr).freeList).next
      = curr + n := by
  simp only [splitBlock, Mem.next_setNext_self]

theorem splitBlock_next_rest (hne : prev ≠ curr) (hne' : curr + n ≠ prev) :
    ((splitBlock m n prev curr).mem.cell (curr + n)).next = (m.cell curr).next := by
  simp only [splitBlock, if_neg hne]
  rw [Mem.cell_setNext_of_ne hne', Mem.next_setSize, Mem.next_setSize, Mem.cell_store_self]

theorem splitBlock_next_of_ne {u : ℕ} (hne : prev ≠ curr) (h₁ : u ≠ prev)
    (h₂ : u ≠ curr + n) : ((splitBlock m n prev curr).mem.cell u).next = (m.cell u).next := by
  simp only [splitBlock, if_neg hne]
  rw [Mem.cell_setNext_of_ne h₁, Mem.next_setSize, Mem.next_setSize, Mem.cell_store_of_ne h₂]

theorem splitBlock_freeList (m : Mem) (n prev curr : ℕ) :
    (splitBlock m n prev curr).freeList = if prev = curr then curr + n else prev := rfl

end Split

/-- A unit strictly inside a free piece is the start of none. -/
theorem inside_ne_start {q : Piece} {n : ℕ} (hpa : p ∈ a.pieces) (hq : q ∈ a.pieces)
    (hn : 0 < n) (hlt : n < p.len) : p.start + n ≠ q.start := by
  intro heq
  have hpos := (a.tiles.bounds hq).2.1
  have hpq : p = q := a.tiles.eq_of_mem hpa hq (u := q.start)
    ⟨by omega, by simp only [Piece.stop]; omega⟩ (Piece.start_mem hpos)
  rw [hpq] at heq
  omega

/-- The remainder of a split block stands in the list where the block stood. -/
theorem between_rest {n : ℕ} (hpa : p ∈ a.pieces) (hn : 0 < n) (hlt : n < p.len) {c : ℕ}
    (hprev : CycSucc a.starts prev p.start) (hnext : CycSucc a.starts p.start c)
    (hne : prev ≠ p.start) : Between prev (p.start + n) c := by
  -- the next free piece above `p` lies beyond its end
  have hc : p.start < c → p.start + n < c := by
    intro hpc
    obtain ⟨q, hq, hqf, rfl⟩ := mem_freeStarts.mp hnext.right
    rcases a.tiles.apart hpa hq with rfl | hle | hle
    · omega
    · simp only [Piece.stop] at hle
      omega
    · have := (a.tiles.bounds hq).2.1
      simp only [Piece.stop] at hle
      omega
  rcases hprev.next with ⟨hlt₁, hall₁⟩ | ⟨hle₁, hall₁⟩
  · rcases hnext.next with ⟨hlt₂, hall₂⟩ | ⟨hle₂, hall₂⟩
    · exact Or.inl ⟨by omega, hc hlt₂⟩
    · exact Or.inr ⟨(hall₂ prev hprev.left).1, Or.inl (by omega)⟩
  · rcases hnext.next with ⟨hlt₂, hall₂⟩ | ⟨hle₂, hall₂⟩
    · exact Or.inr ⟨(hall₁ c hnext.right).2, Or.inr (hc hlt₂)⟩
    · have := hall₁ c hnext.right
      have := hall₂ prev hprev.left
      omega

/-- The links after splitting: the remainder takes the place of the block. -/
theorem split_links (hr : h.mem.Reps a) (hpa : p ∈ a.pieces) (hp : p.free = true) {n : ℕ}
    (hn : 0 < n) (hlt : n < p.len) (hprev : CycSucc a.starts prev p.start)
    (hnew : p.start + n ≠ prev) :
    ∀ b ∈ insert (p.start + n) (a.starts.erase p.start),
      CycSucc (insert (p.start + n) (a.starts.erase p.start)) b
        ((splitBlock h.mem n prev p.start).mem.cell b).next := by
  intro b hb
  have hnext := hr.links _ (Arena.start_mem_starts hpa hp)
  have hlink := splitBlock_next_prev h.mem n prev p.start
  rw [splitBlock_freeList] at hlink
  by_cases hne : prev = p.start
  · -- the block was alone: the remainder is linked to itself
    have hone : insert (p.start + n) (a.starts.erase p.start) = {p.start + n} := by
      rw [hne] at hprev
      rw [hprev.eq_singleton]
      simp
    rw [hone, Finset.mem_singleton] at hb
    rw [if_pos hne] at hlink
    rw [hone, hb, hlink]
    exact CycSucc.singleton _
  · rw [if_neg hne] at hlink
    have hskip := CycSucc.erase_self hprev hnext hne
    have hbtw := between_rest hpa hn hlt hprev hnext hne
    by_cases hbp : b = prev
    · rw [hbp, hlink]
      exact CycSucc.insert_left hskip hbtw
    by_cases hbn : b = p.start + n
    · rw [hbn, splitBlock_next_rest hne hnew]
      exact CycSucc.insert_right hskip hbtw
    have hb' : b ∈ a.starts.erase p.start := (Finset.mem_insert.mp hb).resolve_left hbn
    rw [splitBlock_next_of_ne hne hbp hbn]
    apply CycSucc.insert_of_ne hskip hbtw _ hbp
    exact CycSucc.erase_of_ne hprev (hr.links b (Finset.mem_of_mem_erase hb')) hbp
      (Finset.ne_of_mem_erase hb')

/-- Splitting a block that is larger than needed. -/
theorem took_split (hr : h.mem.Reps a) (hps : a.pieces = l ++ p :: r) (hp : p.free = true)
    {n : ℕ} (hn : 0 < n) (hlt : n < p.len) (hprev : CycSucc a.starts prev p.start) :
    Took h a p.start n (splitBlock h.mem n prev p.start) := by
  have hpa : p ∈ a.pieces := by rw [hps]; simp
  have hstarts : (a.carve hps hp n hn hlt.le).starts
      = insert (p.start + n) (a.starts.erase p.start) := by
    rw [Arena.starts_carve hps hp, if_neg (by omega)]
  have hnew : p.start + n ≠ prev := by
    rintro rfl
    obtain ⟨q, hq, heq⟩ := Arena.exists_start hprev.left
    exact inside_ne_start hpa hq hn hlt heq.symm
  have hhead : (splitBlock h.mem n prev p.start).freeList
      ∈ (a.carve hps hp n hn hlt.le).starts := by
    rw [hstarts, splitBlock_freeList]
    split
    · exact Finset.mem_insert_self _ _
    · next hne => exact Finset.mem_insert_of_mem (Finset.mem_erase.mpr ⟨hne, hprev.left⟩)
  refine ⟨a.carve hps hp n hn hlt.le, _, a.carve_allocates hps hp hn hlt.le,
    ⟨⟨?_, ?_⟩, Or.inl hhead⟩, splitBlock_writes _ _ _ _, ?_, ?_⟩
  · apply size_carve hr hps hp hn hlt.le (splitBlock_size_self _ _ _ _)
    · intro _
      rw [splitBlock_size_rest hn, hr.size p hpa]
    · intro q hq hne
      exact splitBlock_size_of_ne hne (inside_ne_start hpa hq hn hlt).symm
  · rw [hstarts]
    exact split_links hr hpa hp hn hlt hprev hnew
  · intro u hu
    have hmem : p.start + n ∈ p := by
      rw [Piece.mem_iff, Piece.stop]
      omega
    simp only [List.mem_cons, List.not_mem_nil, or_false] at hu
    rcases hu with rfl | rfl | rfl | rfl
    · split
      · exact ⟨p, hpa, hp, hmem⟩
      · exact Arena.exists_free hprev.left
    · exact ⟨p, hpa, hp, Piece.start_mem (by omega)⟩
    · exact ⟨p, hpa, hp, hmem⟩
    · exact ⟨p, hpa, hp, hmem⟩
  · have hrest : ∃ q ∈ (a.carve hps hp n hn hlt.le).pieces, q.start = p.start + n := by
      apply Arena.exists_start
      rw [hstarts]
      exact Finset.mem_insert_self _ _
    intro u hu
    simp only [List.mem_cons, List.not_mem_nil, or_false] at hu
    rcases hu with rfl | rfl | rfl | rfl
    · rw [← splitBlock_freeList h.mem n prev p.start]
      exact Arena.exists_start hhead
    · exact ⟨_, (Arena.live_carve hps hp hn hlt.le _ _).mpr (Or.inr ⟨rfl, rfl⟩), rfl⟩
    · exact hrest
    · exact hrest

/-- Taking the block the scan stands on, if it is large enough. -/
theorem mallocBody_take (hlo : 0 < lo) (hr : h.mem.Reps a) {n curr : ℕ} (hn : 0 < n)
    (hprev : CycSucc a.starts prev curr) (hfit : n ≤ (h.mem.cell curr).size) :
    ∃ h', mallocBody n h (prev, curr) = .ok (.inr (curr + 1, h')) ∧ Took h a curr n h' := by
  obtain ⟨p, hpa, hp, rfl⟩ := mem_freeStarts.mp hprev.right
  obtain ⟨l, r, hps⟩ := List.append_of_mem hpa
  obtain ⟨hge, hpos, -⟩ := a.tiles.bounds hpa
  have hload : h.mem.load p.start = .ok (h.mem.cell p.start) := Mem.load_of_ne (by omega)
  have hsize := hr.size p hpa
  by_cases heq : (h.mem.cell p.start).size = n
  · have hlen : n = p.len := by rw [← heq, hsize]
    by_cases hone : prev = p.start
    · refine ⟨{ h with freeList := 0 }, ?_, ?_⟩
      · simp [mallocBody, hload, heq, hone]
      · rw [hone] at hprev
        rw [hlen]
        exact took_exact_last hr hps hp hpos hprev
    · refine ⟨⟨h.mem.setNext prev (h.mem.cell p.start).next, prev⟩, ?_, ?_⟩
      · simp [mallocBody, hload, heq, hone]
      · rw [hlen]
        exact took_exact hr hps hp hpos hprev hone
  · refine ⟨splitBlock h.mem n prev p.start, ?_, ?_⟩
    · simp [mallocBody, hload, heq, hfit]
    · exact took_split hr hps hp hn (by omega) hprev

/-- What is known at each pass through the scan. -/
structure Scanning (h : Heap) (F : Finset ℕ) (n c₀ : ℕ) (s : ℕ × ℕ) : Prop where
  link : CycSucc F s.1 s.2
  small : ∀ x ∈ F, x ∉ ahead F h.freeList s.1 → (h.mem.cell x).size < n
  first : ∀ i, FirstFit h.mem h.freeList n s.2 i → FirstFit h.mem h.freeList n c₀ i

/-- **`SCCMallocPtr` on a nonempty list.** The call ends. It returns `NULL`,
leaving everything as it was, when no block is large enough; otherwise it
allocates the first block of the scan that is. -/
theorem sccMallocPtr_spec (hlo : 0 < lo) (hr : h.Reps a) (hf : h.freeList ∈ a.starts)
    (size : ℕ) :
    ∃ r h', Returns (fun fuel => sccMallocPtr fuel size h) (r, h') ∧
      ((r = 0 ∧ h' = h ∧ ∀ x ∈ a.starts, (h.mem.cell x).size < nunits size) ∨
        ∃ i, r = i + 1 ∧ Took h a i (nunits size) h' ∧
          FirstFit h.mem h.freeList (nunits size) (h.mem.cell h.freeList).next i) := by
  have hn : 0 < nunits size := Nat.succ_pos _
  have hne := Arena.ne_zero_of_mem_starts hlo hf
  set n := nunits size with hndef
  set c₀ := (h.mem.cell h.freeList).next with hc₀
  have hloop := loop_total (mallocBody n h)
    (I := Scanning h a.starts n c₀)
    (Q := fun out => (out.1 = 0 ∧ out.2 = h ∧ ∀ x ∈ a.starts, (h.mem.cell x).size < n) ∨
      ∃ i, out.1 = i + 1 ∧ Took h a i n out.2 ∧ FirstFit h.mem h.freeList n c₀ i)
    (fun s => (ahead a.starts h.freeList s.1).card) ?_
    ((ahead a.starts h.freeList h.freeList).card + 1) (h.freeList, c₀)
    ⟨hr.mem.links _ hf, fun x hx hxa => absurd (by simpa using hx) hxa, fun i hi => hi⟩
    (Nat.lt_succ_self _)
  · obtain ⟨⟨r, h'⟩, hret, hQ⟩ := hloop
    refine ⟨r, h', ⟨(ahead a.starts h.freeList h.freeList).card + 1, ?_⟩, hQ⟩
    change sccMallocPtr _ size h = _
    rw [sccMallocPtr, Mem.load_of_ne hne, Exec.ok_bind]
    exact hret
  · rintro ⟨prev, curr⟩ ⟨hlink, hsmall, hfirst⟩
    have hload : h.mem.load curr = .ok (h.mem.cell curr) :=
      Mem.load_of_ne (Arena.ne_zero_of_mem_starts hlo hlink.right)
    by_cases hfit : n ≤ (h.mem.cell curr).size
    · obtain ⟨h', hbody, htook⟩ := mallocBody_take hlo hr.mem hn hlink hfit
      exact Or.inl ⟨_, hbody, Or.inr ⟨curr, rfl, htook, hfirst curr (FirstFit.here hfit)⟩⟩
    · by_cases hlast : curr = h.freeList
      · -- back at `freeList`: every block has been seen
        subst hlast
        refine Or.inl ⟨(0, h), by simp [mallocBody, hload, hfit], Or.inl ⟨rfl, rfl, ?_⟩⟩
        intro x hx
        by_cases hxc : x = h.freeList
        · rw [hxc]
          exact not_le.mp hfit
        · apply hsmall x hx
          rw [hlink.ahead_last, Finset.mem_singleton]
          exact hxc
      · have hnext := hr.mem.links curr hlink.right
        have hnz := Arena.ne_zero_of_mem_starts hlo hnext.right
        refine Or.inr ⟨(curr, (h.mem.cell curr).next),
          by simp [mallocBody, hload, hfit, hlast, hnz], ⟨hnext, ?_, ?_⟩,
          hlink.card_ahead_lt hf hlast⟩
        · intro x hx hxa
          by_cases hxc : x = curr
          · rw [hxc]
            exact not_le.mp hfit
          · refine hsmall x hx fun hxp => hxa ?_
            rw [hlink.ahead_erase hf hlast]
            exact Finset.mem_erase.mpr ⟨hxc, hxp⟩
        · exact fun i hi => hfirst i (FirstFit.next (not_le.mp hfit) hlast hi)

end Malloc

end SccShm
