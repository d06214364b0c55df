import Mathlib.Data.Set.Piecewise
import SccShm.Filling
import SccShm.Footprint
import SccShm.HeapRuns

/-!
# Any well-formed free list

The specifications of `SCCMallocPtr` and `SCCFreePtr` are about heaps that represent an
arena, where the blocks in use have headers too. Both functions read the listed headers
only, so the rest can be made up: `WellFormed h F` speaks of the listed blocks `F` alone,
and `WellFormed.fill` gives a heap that represents an arena and agrees with `h` on them.

* `free_search_ends`: the search of `SCCFreePtr` ends where the block belongs.
* `free_restores`: `SCCFreePtr` on a well-formed list puts the block back, in every case
  but one.
* `malloc_complete`: `SCCMallocPtr` fails only if no listed block is large enough, and
  otherwise takes exactly what it needs.
-/

namespace SccShm

variable {lo hi : ℕ} {h h' g : Heap} {F G : Finset ℕ} {S : Set ℕ} {i n m j u x : ℕ}

/-! ## Well-formed lists -/

/-- `F` are the blocks of the free list of `h`: they are linked in the cyclic order of
their addresses, no two overlap or touch, and `freeList` is one of them, or `NULL`. -/
structure WellFormed (h : Heap) (F : Finset ℕ) : Prop where
  pos : ∀ b ∈ F, 0 < b
  size_pos : ∀ b ∈ F, 0 < (h.mem.cell b).size
  apart : ∀ b ∈ F, ∀ c ∈ F, b < c → b + (h.mem.cell b).size < c
  links : ∀ b ∈ F, CycSucc F b (h.mem.cell b).next
  head : Heads h.freeList F

/-- The units that the blocks `F` cover. -/
def units (m : Mem) (F : Finset ℕ) : Set ℕ :=
  {u | ∃ b ∈ F, u ∈ Set.Ico b (b + (m.cell b).size)}

namespace WellFormed

theorem zero_notMem (hwf : WellFormed h F) : (0 : ℕ) ∉ (F : Set ℕ) :=
  fun h0 => absurd (hwf.pos 0 h0) (lt_irrefl 0)

theorem linksIn (hwf : WellFormed h F) : h.mem.LinksIn F := fun c hc => (hwf.links c hc).right

/-- The blocks are those that following the links from `freeList` reaches. -/
theorem onList_iff (hwf : WellFormed h F) : OnList h x ↔ x ∈ F := by
  refine ⟨?_, ?_⟩
  · intro hx
    induction hx with
    | head hne => exact hwf.head.mem_of_ne hne
    | next _ _ ih => exact hwf.linksIn _ ih
  · intro hx
    have hf := hwf.head.mem_of_mem hx
    have hne : ∀ {c}, c ∈ F → c ≠ 0 := fun hc heq => hwf.zero_notMem (heq ▸ hc)
    exact CycSucc.forall_of_next hwf.links hf (OnList.head (hne hf))
      (fun c hc hon => hon.next (hne (hwf.linksIn c hc))) hx

/-- `freeList` is `NULL` exactly when the list covers nothing. -/
theorem freeList_eq_zero_iff (hwf : WellFormed h F) :
    h.freeList = 0 ↔ units h.mem F = ∅ := by
  refine ⟨?_, ?_⟩
  · intro h0
    rcases hwf.head with hf | ⟨rfl, -⟩
    · exact absurd (h0 ▸ hf) hwf.zero_notMem
    · exact Set.eq_empty_of_forall_notMem fun u ⟨b, hb, _⟩ => Finset.notMem_empty b hb
  · intro hempty
    refine (hwf.head.resolve_left fun hf => ?_).2
    have hmem : h.freeList ∈ units h.mem F :=
      ⟨_, hf, le_refl _, Nat.lt_add_of_pos_right (hwf.size_pos _ hf)⟩
    rw [hempty] at hmem
    exact hmem

/-- They are determined by the heap. -/
theorem unique (hwf : WellFormed h F) (hwf' : WellFormed h G) : F = G := by
  ext x
  rw [← hwf.onList_iff, hwf'.onList_iff]

end WellFormed

/-! ## From a list to an arena and back -/

/-- `g` is `h` with headers filled in for what is not listed: it represents `a`, and agrees
with `h` on `S`, in particular on all free positions. -/
structure Filled (h : Heap) (S : Set ℕ) (g : Heap) (a : Arena lo hi) : Prop where
  reps : g.Reps a
  agree : g.AgreeOn S h
  free : a.freeUnits ⊆ S

theorem Arena.starts_subset (a : Arena lo hi) : (a.starts : Set ℕ) ⊆ a.freeUnits := by
  intro u hu
  obtain ⟨k, hk⟩ := Arena.mem_starts.mp hu
  exact ⟨u, k, hk, le_refl u, by have := hk.bounds; omega⟩

theorem Arena.starts_eq {a : Arena lo hi} {size : ℕ → ℕ}
    (hfree : ∀ i k, a.Free i k ↔ i ∈ F ∧ k = size i) : a.starts = F := by
  ext u
  rw [Arena.mem_starts]
  exact ⟨fun ⟨k, hk⟩ => ((hfree u k).mp hk).1, fun hu => ⟨_, (hfree u _).mpr ⟨hu, rfl⟩⟩⟩

theorem Heap.Reps.size_eq {a : Arena lo hi} (hr : g.Reps a) (hf : a.Free i n) :
    (g.mem.cell i).size = n := hr.mem.size _ hf

/-- A heap that represents an arena has a well-formed list, and so has one that agrees with
it on the free pieces. -/
theorem Heap.Reps.wellFormed (hlo : 0 < lo) {a : Arena lo hi} (hr : g.Reps a)
    (hag : g.AgreeOn S h) (hS : (a.starts : Set ℕ) ⊆ S) :
    WellFormed h a.starts ∧ units h.mem a.starts = a.freeUnits := by
  have hcell : ∀ b ∈ a.starts, h.mem.cell b = g.mem.cell b := fun b hb => (hag.cell (hS hb)).symm
  refine ⟨⟨fun b hb => ?_, fun b hb => ?_, fun b hb c hc hlt => ?_, fun b hb => ?_, ?_⟩, ?_⟩
  · exact Nat.pos_of_ne_zero (Arena.ne_zero_of_mem_starts hlo hb)
  · obtain ⟨k, hk⟩ := Arena.mem_starts.mp hb
    rw [hcell b hb, hr.size_eq hk]
    exact hk.bounds.2.1
  · obtain ⟨k, hk⟩ := Arena.mem_starts.mp hb
    obtain ⟨_, hm⟩ := Arena.mem_starts.mp hc
    rw [hcell b hb, hr.size_eq hk]
    exact hk.stop_lt hm hlt
  · rw [hcell b hb]
    exact hr.mem.links b hb
  · rw [hag.freeList]
    exact hr.head
  · ext u
    refine ⟨?_, ?_⟩
    · rintro ⟨b, hb, hu⟩
      obtain ⟨k, hk⟩ := Arena.mem_starts.mp hb
      rw [hcell b hb, hr.size_eq hk] at hu
      exact ⟨b, k, hk, hu⟩
    · rintro ⟨b, k, hk, hu⟩
      have hb := Arena.mem_starts.mpr ⟨k, hk⟩
      refine ⟨b, hb, ?_⟩
      rwa [hcell b hb, hr.size_eq hk]

/-- Where the arena has the blocks of `G`, those of `F` free, headers can be filled in for
the other pieces. -/
theorem WellFormed.exists_filled (hwf : WellFormed h F) (hFG : F ⊆ G) {a : Arena lo hi}
    (hfree : ∀ i k, a.Free i k ↔ i ∈ F ∧ k = (h.mem.cell i).size)
    (hlive : ∀ b ∈ G, b ∉ F → a.Live b (h.mem.cell b).size) :
    ∃ S g, Filled h S g a ∧ ∀ b ∈ G, b ∈ S := by
  classical
  have hstarts := Arena.starts_eq hfree
  obtain ⟨len, hlen⟩ := a.exists_len
  -- what starts a piece without being a block of `G` gets a header of its own
  let S : Set ℕ := {u | u ∈ G ∨ ∀ p ∈ a.pieces, p.start ≠ u}
  let g : Heap := ⟨⟨S.piecewise h.mem.cell fun u => ⟨0, len u⟩, h.mem.wrote⟩, h.freeList⟩
  have hag : S.EqOn g.mem.cell h.mem.cell := Set.piecewise_eqOn _ _ _
  refine ⟨S, g, ⟨⟨⟨fun p hp => ?_, fun b hb => ?_⟩, ?_⟩, ⟨hag, rfl⟩, ?_⟩, fun b hb => Or.inl hb⟩
  · by_cases hpG : p.start ∈ G
    · rw [hag (Or.inl hpG)]
      by_cases hpF : p.start ∈ F
      · rw [a.tiles.eq_of_start hp ((hfree p.start _).mpr ⟨hpF, rfl⟩) rfl]
      · rw [a.tiles.eq_of_start hp (hlive _ hpG hpF) rfl]
    · have hpS : p.start ∉ S := fun hmem => hmem.elim hpG fun hno => hno p hp rfl
      change (S.piecewise h.mem.cell _ p.start).size = p.len
      rw [Set.piecewise_eq_of_notMem _ _ _ hpS]
      exact hlen p hp
  · rw [hstarts] at hb ⊢
    rw [hag (Or.inl (hFG hb))]
    exact hwf.links b hb
  · rw [hstarts]
    exact hwf.head
  · rintro u ⟨i, k, hik, hu⟩
    by_cases hp : ∃ p ∈ a.pieces, p.start = u
    · -- the only piece that starts inside of a free one is that one
      obtain ⟨p, hp, rfl⟩ := hp
      have heq := a.tiles.eq_of_mem hp hik (Piece.start_mem (a.tiles.bounds hp).2.1) hu
      rw [heq]
      exact Or.inl (hFG ((hfree i k).mp hik).1)
    · exact Or.inr fun p hpa hpu => hp ⟨p, hpa, hpu⟩

/-- **Any well-formed list is that of an arena**, in which the further blocks of `G`, if
they overlap nothing, are live. -/
theorem WellFormed.fill (hwf : WellFormed h F) (hFG : F ⊆ G) (hpos : ∀ b ∈ G, 0 < b)
    (hsize : ∀ b ∈ G, 0 < (h.mem.cell b).size)
    (happart : ∀ b ∈ G, ∀ c ∈ G, b < c → b + (h.mem.cell b).size ≤ c) :
    ∃ (hi : ℕ) (a : Arena 1 hi) (S : Set ℕ) (g : Heap), Filled h S g a ∧ a.starts = F ∧
      ∀ b ∈ G, b ∉ F → a.Live b (h.mem.cell b).size ∧ b ∈ S := by
  have hle : ∀ b ∈ G, b + (h.mem.cell b).size ≤ 1 + G.sup fun b => b + (h.mem.cell b).size :=
    fun b hb => (Finset.le_sup (f := fun b => b + (h.mem.cell b).size) hb).trans
      (Nat.le_add_left _ _)
  obtain ⟨a, hfree, hlive⟩ := exists_arena hFG hsize (fun b hb => ⟨hpos b hb, hle b hb⟩)
    (Nat.le_add_right _ _) happart fun b hb c hc => by
      rcases lt_trichotomy b c with hlt | rfl | hlt
      · exact (hwf.apart b hb c hc hlt).ne
      · exact (Nat.lt_add_of_pos_right (hwf.size_pos b hb)).ne'
      · omega
  obtain ⟨S, g, hfill, hG⟩ := hwf.exists_filled hFG hfree hlive
  exact ⟨_, a, S, g, hfill, Arena.starts_eq hfree, fun b hb hbF => ⟨hlive b hb hbF, hG b hb⟩⟩

/-! ## The search of `SCCFreePtr` -/

/-- `F` are the blocks of a circular list in `m`, linked in the cyclic order of their
addresses. No two overlap, but they may touch. -/
structure Mem.Listed (m : Mem) (F : Finset ℕ) : Prop where
  pos : ∀ b ∈ F, 0 < b
  size_pos : ∀ b ∈ F, 0 < (m.cell b).size
  apart : ∀ b ∈ F, ∀ c ∈ F, b < c → b + (m.cell b).size ≤ c
  links : ∀ b ∈ F, CycSucc F b (m.cell b).next

theorem WellFormed.listed (hwf : WellFormed h F) : h.mem.Listed F :=
  ⟨hwf.pos, hwf.size_pos, fun b hb c hc hlt => (hwf.apart b hb c hc hlt).le, hwf.links⟩

/-- A small heap: on the list ten units at 3 and four at 20, in use two units at 1. -/
def smallHeap : Heap :=
  ⟨⟨fun u => if u = 1 then ⟨0, 2⟩ else if u = 3 then ⟨20, 10⟩ else ⟨3, 4⟩, []⟩, 3⟩

theorem wellFormed_smallHeap : WellFormed smallHeap {3, 20} := by
  refine ⟨by decide, by decide, by decide, ?_, Or.inl (by decide)⟩
  rw [Finset.forall_mem_insert]
  refine ⟨⟨by decide, by decide, Or.inl (by decide)⟩, fun b hb => ?_⟩
  rw [Finset.mem_singleton.mp hb]
  exact ⟨by decide, by decide, Or.inr (by decide)⟩

section Search

variable {m : Mem} {f : ℕ}

/-- **The search of `SCCFreePtr` ends at the right place**, after at most as many advances
as there are blocks: between two blocks, or at the wrap-around. -/
theorem free_search_ends (hlist : m.Listed F) (hf : f ∈ F) (hsize : 0 < (m.cell i).size)
    (hapart : ∀ b ∈ F, Apart i (m.cell i).size b (m.cell b).size) :
    ∃ curr ∈ F, loop (freeBody m i) (F.card + 1) f = .ok curr ∧
      (∃ k ≤ F.card, curr = (fun b => (m.cell b).next)^[k] f) ∧
      (curr < i ∧ i < (m.cell curr).next ∨
        (∀ b ∈ F, b ≤ curr) ∧ (curr < i ∨ i < (m.cell curr).next)) := by
  have hnot : i ∉ F := by
    intro hmem
    have := hlist.size_pos i hmem
    exact hapart i hmem i ⟨by omega, by omega⟩
  obtain ⟨curr, hcurr, hbtw, hloop⟩ :=
    search_of_links (fun b hb => (hlist.pos b hb).ne') hlist.links hf hnot
  have hend := hloop _ (Nat.lt_succ_self _)
  obtain ⟨k, hk, hiter⟩ := loop_iterate (fun _ _ => freeBody_inl) (fun _ _ => freeBody_inr) hend
  refine ⟨curr, hcurr, hend, ⟨k, Nat.le_of_lt_succ hk, hiter⟩, ?_⟩
  exact hbtw.imp_right fun ⟨hle, hor⟩ => ⟨(hlist.links curr hcurr).le_of_wrap hle, hor⟩

/-- The place of the two units at 1 in the small heap is behind the highest block. -/
theorem free_search_ends_demo :
    ∃ curr ∈ ({3, 20} : Finset ℕ), loop (freeBody smallHeap.mem 1) 3 3 = .ok curr ∧
      ∀ b ∈ ({3, 20} : Finset ℕ), b ≤ curr := by
  obtain ⟨curr, hcurr, hloop, -, hend⟩ := free_search_ends (f := 3) (i := 1)
    wellFormed_smallHeap.listed (by decide) (by decide) (by
      rw [Finset.forall_mem_insert]
      refine ⟨apart_of_le (by decide), fun b hb => ?_⟩
      rw [Finset.mem_singleton.mp hb]
      exact apart_of_le (by decide))
  refine ⟨curr, hcurr, hloop, ?_⟩
  rcases hend with ⟨hlt, -⟩ | ⟨hmax, -⟩
  · have := wellFormed_smallHeap.pos curr hcurr
    omega
  · exact hmax

end Search

/-! ## `SCCFreePtr` -/

/-- The list of `h'` is well formed and covers, beside what that of `h` did, the block at
`i`. -/
def Restored (h : Heap) (F : Finset ℕ) (i : ℕ) (h' : Heap) : Prop :=
  ∃ F', WellFormed h' F' ∧ h'.freeList ∈ F' ∧
    units h'.mem F' = units h.mem F ∪ Set.Ico i (i + (h.mem.cell i).size)

theorem Apart.symm (hap : Apart i n j m) : Apart j m i n := fun u hu => hap u ⟨hu.2, hu.1⟩

theorem Apart.le (hap : Apart i n j m) (hm : 0 < m) (hlt : i < j) : i + n ≤ j := by
  by_contra hle
  exact hap j (by omega)

/-- The block at `i` has absorbed the only free block, above it, to which `freeList` still
points. -/
structure Absorbed (h : Heap) (i : ℕ) (h' : Heap) : Prop where
  freeList : h'.freeList = h.freeList
  ne : i ≠ h.freeList
  next : (h'.mem.cell h.freeList).next = i
  size : (h'.mem.cell h.freeList).size = (h.mem.cell h.freeList).size
  next_self : (h'.mem.cell i).next = i
  size_self : (h'.mem.cell i).size = (h.mem.cell i).size + (h.mem.cell h.freeList).size

/-- The block ends where the only free block begins. -/
theorem free_absorbed (hi : 0 < i) (hsize : 0 < (h.mem.cell i).size)
    (hstop : i + (h.mem.cell i).size = h.freeList)
    (hone : (h.mem.cell h.freeList).next = h.freeList) :
    ∃ h', Returns (fun fuel => sccFreePtr fuel (i + 1) h) h' ∧ Absorbed h i h' := by
  have hf0 : h.freeList ≠ 0 := by omega
  have hif : i ≠ h.freeList := by omega
  have hsearch : freeBody h.mem i h.freeList = .ok (.inr h.freeList) := by
    rw [freeBody, Mem.load_of_ne hf0, Exec.ok_bind, hone, if_neg (by omega), if_pos (by omega)]
  set m₂ := (h.mem.setSize i ((h.mem.cell i).size + (h.mem.cell h.freeList).size)).setNext i i
    with hm₂
  have hupper : mergeUpper h.mem i h.freeList = .ok m₂ := by
    rw [mergeUpper, Mem.load_of_ne hf0, Exec.ok_bind, Mem.load_of_ne hi.ne', Exec.ok_bind, hone,
      if_pos hstop, Mem.load_of_ne hf0, Exec.ok_bind]
    simp only [Mem.next_setSize, hone, if_true, hm₂]
  have hlower : mergeLower m₂ i h.freeList = m₂.setNext h.freeList i := by
    rw [mergeLower, if_neg (by omega)]
  refine ⟨⟨m₂.setNext h.freeList i, h.freeList⟩, ⟨1, ?_⟩, rfl, hif, Mem.next_setNext_self, ?_, ?_,
    ?_⟩
  · change sccFreePtr 1 (i + 1) h = _
    rw [sccFreePtr, if_neg hf0, Nat.add_sub_cancel, loop_done hsearch, Exec.ok_bind, hupper,
      Exec.ok_bind, hlower]
  · rw [Mem.size_setNext, hm₂, Mem.size_setNext, Mem.cell_setSize_of_ne hif.symm]
  · rw [Mem.cell_setNext_of_ne hif, hm₂, Mem.next_setNext_self]
  · rw [Mem.size_setNext, hm₂, Mem.size_setNext, Mem.size_setSize_self]

/-- The list is no longer well formed: `i` is linked to itself, and not alone. -/
theorem Absorbed.not_restored (hab : Absorbed h i h') : ¬ Restored h F i h' := by
  rintro ⟨F', hwf, hmem, -⟩
  rw [hab.freeList] at hmem
  have hlink := hwf.links _ hmem
  rw [hab.next] at hlink
  have hself := hwf.links i hlink.right
  rw [hab.next_self] at hself
  rw [hself.eq_singleton, Finset.mem_singleton] at hmem
  exact hab.ne hmem.symm

theorem free_not_restored (hi : 0 < i) (hsize : 0 < (h.mem.cell i).size)
    (hstop : i + (h.mem.cell i).size = h.freeList)
    (hone : (h.mem.cell h.freeList).next = h.freeList) :
    ∃ h', Returns (fun fuel => sccFreePtr fuel (i + 1) h) h' ∧ ¬ Restored h F i h' := by
  obtain ⟨h', hret, hab⟩ := free_absorbed hi hsize hstop hone
  exact ⟨h', hret, hab.not_restored⟩

/-- The listed blocks and the one to free do not overlap. -/
theorem WellFormed.insert_apart (hwf : WellFormed h F) (hsize : 0 < (h.mem.cell i).size)
    (hapart : ∀ c ∈ F, Apart i (h.mem.cell i).size c (h.mem.cell c).size) :
    ∀ b ∈ insert i F, ∀ c ∈ insert i F, b < c → b + (h.mem.cell b).size ≤ c := by
  intro b hb c hc hlt
  rcases Finset.mem_insert.mp hb with rfl | hbF <;> rcases Finset.mem_insert.mp hc with rfl | hcF
  · exact absurd hlt (lt_irrefl _)
  · exact (hapart c hcF).le (hwf.size_pos c hcF) hlt
  · exact (hapart b hbF).symm.le hsize hlt
  · exact (hwf.apart b hbF c hcF hlt).le

/-- In every other case the block is back in the list. -/
theorem free_restored (hwf : WellFormed h F) (hi : 0 < i) (hsize : 0 < (h.mem.cell i).size)
    (hapart : ∀ c ∈ F, Apart i (h.mem.cell i).size c (h.mem.cell c).size)
    (hok : ¬ (i + (h.mem.cell i).size = h.freeList ∧
      (h.mem.cell h.freeList).next = h.freeList)) :
    ∃ h', Returns (fun fuel => sccFreePtr fuel (i + 1) h) h' ∧ Restored h F i h' := by
  have hiF : i ∉ F := fun hmem => hapart i hmem i ⟨by omega, by omega⟩
  obtain ⟨_, a, S, g, hfill, hstarts, hlive⟩ := hwf.fill (Finset.subset_insert i F)
    ((Finset.forall_mem_insert ..).mpr ⟨hi, hwf.pos⟩)
    ((Finset.forall_mem_insert ..).mpr ⟨hsize, hwf.size_pos⟩) (hwf.insert_apart hsize hapart)
  obtain ⟨hli, hiS⟩ := hlive i (Finset.mem_insert_self i F) hiF
  have hFS : (F : Set ℕ) ⊆ S := hstarts ▸ a.starts_subset.trans hfill.free
  have hcell : ∀ c ∈ F, g.mem.cell c = h.mem.cell c := fun c hc => hfill.agree.cell (hFS hc)
  have hokg : ¬ (i + (h.mem.cell i).size = g.freeList ∧
      (g.mem.cell g.freeList).next = g.freeList) := by
    rw [← hfill.agree.freeList]
    rintro ⟨hstop, hone⟩
    rcases hwf.head with hf | ⟨-, hf0⟩
    · rw [hcell _ hf] at hone
      exact hok ⟨hstop, hone⟩
    · omega
  obtain ⟨g', ⟨fuel, hg'⟩, b, ws, hrel, hreps, -⟩ :=
    sccFreePtr_spec one_pos hfill.reps hli hokg
  obtain ⟨h', hh', hag'⟩ := sccFreePtr_footprint hfill.agree hFS
    (fun c hc => by rw [hcell c hc]; exact hwf.linksIn c hc)
    (hfill.agree.freeList ▸ hwf.head.imp_right And.right) hiS hg'
  have hbS : (b.starts : Set ℕ) ⊆ S := by
    intro u hu
    obtain ⟨k, hk⟩ := Arena.mem_starts.mp hu
    rcases hrel.free_start hk with hf | rfl
    · exact hFS (hstarts ▸ Arena.mem_starts.mpr hf)
    · exact hiS
  obtain ⟨hwf', hunits⟩ := hreps.wellFormed one_pos hag' hbS
  have hold := (hfill.reps.wellFormed one_pos hfill.agree (hstarts ▸ hFS)).2
  rw [hrel.freeUnits, ← hold, hstarts] at hunits
  obtain ⟨c, hc, -⟩ : i ∈ units h'.mem b.starts := by
    rw [hunits]
    exact Or.inr ⟨le_refl i, by omega⟩
  exact ⟨h', ⟨fuel, hh'⟩, b.starts, hwf', hwf'.head.mem_of_mem hc, hunits⟩

/-- **`SCCFreePtr` on a well-formed list.** The call ends. It puts the block back, losing
nothing and counting nothing twice, exactly when the block does not end where the only
free block begins. -/
theorem free_restores (hwf : WellFormed h F) (hi : 0 < i) (hsize : 1 ≤ (h.mem.cell i).size)
    (hapart : ∀ c ∈ F, Apart i (h.mem.cell i).size c (h.mem.cell c).size) :
    ∃ h', Returns (fun fuel => sccFreePtr fuel (i + 1) h) h' ∧
      (Restored h F i h' ↔ ¬ (i + (h.mem.cell i).size = h.freeList ∧
        (h.mem.cell h.freeList).next = h.freeList)) := by
  by_cases hbad : i + (h.mem.cell i).size = h.freeList ∧
      (h.mem.cell h.freeList).next = h.freeList
  · obtain ⟨h', hret, hno⟩ := free_not_restored (F := F) hi hsize hbad.1 hbad.2
    exact ⟨h', hret, iff_of_false hno (not_not_intro hbad)⟩
  obtain ⟨h', hret, hres⟩ := free_restored hwf hi hsize hapart hbad
  exact ⟨h', hret, iff_of_true hres hbad⟩

/-- The two units at 1 end where the first of two blocks begins. -/
theorem free_restores_demo :
    ∃ h', Returns (fun fuel => sccFreePtr fuel 2 smallHeap) h' ∧
      Restored smallHeap {3, 20} 1 h' := by
  obtain ⟨h', hret, hiff⟩ := free_restores wellFormed_smallHeap (i := 1) (by decide) (by decide)
    (by
      rw [Finset.forall_mem_insert]
      refine ⟨apart_of_le (by decide), fun b hb => ?_⟩
      rw [Finset.mem_singleton.mp hb]
      exact apart_of_le (by decide))
  exact ⟨h', hret, hiff.mpr (by decide)⟩

/-- After `SCCInit(30)`, a block of eight bytes ends where the only free block begins:
giving it back leaves no well-formed list. -/
theorem free_loses :
    ∃ h, Returns (fun fuel => sccMallocPtr fuel 8 (sccInitHeap 2572472320 30
        ⟨fun _ => ⟨0, 0⟩, []⟩)) (321559043, h) ∧
      WellFormed h {321559044} ∧ (h.mem.cell 321559042).size = 2 ∧
      Apart 321559042 2 321559044 (h.mem.cell 321559044).size ∧
      ∃ h', Returns (fun fuel => sccFreePtr fuel 321559043 h) h' ∧
        ¬ Restored h {321559044} 321559042 h' := by
  refine ⟨_, ⟨1, rfl⟩, ⟨by decide, by decide, by decide, fun b hb => ?_, Or.inl (by decide)⟩,
    by decide, apart_of_le (Or.inl (by decide)), ?_⟩
  · rw [Finset.mem_singleton.mp hb]
    exact CycSucc.singleton _
  · exact free_not_restored (by decide) (by decide) (by decide) (by decide)

/-! ## `SCCMallocPtr` -/

/-- From `h`, whose list has the blocks `F`, to `h'`, the `n` low units of the block at `i`
were taken. -/
structure Carved (h : Heap) (F : Finset ℕ) (i n : ℕ) (h' : Heap) (F' : Finset ℕ) : Prop where
  block : i ∈ F
  fits : n ≤ (h.mem.cell i).size
  size : (h'.mem.cell i).size = n
  wellFormed : WellFormed h' F'
  units : units h'.mem F' = units h.mem F \ Set.Ico i (i + n)
  others : ∀ b ∈ F, b ≠ i → b ∈ F' ∧ (h'.mem.cell b).size = (h.mem.cell b).size
  head : h'.freeList ∈ F' ∨ h'.freeList = 0
  empty : h'.freeList = 0 ↔ SccShm.units h'.mem F' = ∅

/-- What was taken in an arena was carved from the list. -/
theorem carved_of_took {a b : Arena lo hi} {g' : Heap} (hlo : 0 < lo) (hfill : Filled h S g a)
    (hag : g'.AgreeOn S h') (hall : a.Allocates i n b) (hreps : g'.Reps b) :
    Carved h a.starts i n h' b.starts := by
  have hFS : (a.starts : Set ℕ) ⊆ S := a.starts_subset.trans hfill.free
  obtain ⟨hwf, hunits⟩ := hfill.reps.wellFormed hlo hfill.agree hFS
  have hsize : ∀ {c k}, a.Free c k → (h.mem.cell c).size = k := fun hk => by
    rw [← hfill.agree.cell (hFS (Arena.mem_starts.mpr ⟨_, hk⟩)), hfill.reps.size_eq hk]
  obtain ⟨m, hm, hle⟩ := id hall.2.1
  have hi := Arena.mem_starts.mpr ⟨m, hm⟩
  have hbS : (b.starts : Set ℕ) ⊆ S := by
    intro u hu
    obtain ⟨k, hk⟩ := Arena.mem_starts.mp hu
    rcases (hall.mem_pieces hm hle).mp hk with ⟨hka, -⟩ | heq | ⟨hlt, heq⟩
    · exact hFS (Arena.mem_starts.mpr ⟨k, hka⟩)
    · cases heq
    · cases heq
      exact hfill.free ⟨i, m, hm, by omega, by omega⟩
  obtain ⟨hwf', hunits'⟩ := hreps.wellFormed hlo hag hbS
  refine ⟨hi, by rw [hsize hm]; exact hle, ?_, hwf', ?_, fun c hc hne => ?_, ?_,
    hwf'.freeList_eq_zero_iff⟩
  · have hlive : b.Live i n := (hall.2.2 i n).mpr (Or.inr ⟨rfl, rfl⟩)
    rw [← hag.cell (hFS hi)]
    exact hreps.mem.size _ hlive
  · rw [hunits', hunits, hall.freeUnits]
  · obtain ⟨k, hk⟩ := Arena.mem_starts.mp hc
    have hkb : b.Free c k := (hall.mem_pieces hm hle).mpr (Or.inl ⟨hk, hne⟩)
    refine ⟨Arena.mem_starts.mpr ⟨k, hkb⟩, ?_⟩
    rw [hsize hk, ← hag.cell (hFS hc), hreps.size_eq hkb]
  · exact hwf'.head.imp_right And.right

/-- The call finds no block that is large enough, or takes what it needs from one. -/
theorem malloc_cases (hwf : WellFormed h F) (hf : h.freeList ∈ F) (size : ℕ) :
    ∃ r h', Returns (fun fuel => sccMallocPtr fuel size h) (r, h') ∧
      ((r = 0 ∧ h' = h ∧ ∀ b ∈ F, (h.mem.cell b).size < nunits size) ∨
        ∃ i F', r = i + 1 ∧ Carved h F i (nunits size) h' F') := by
  obtain ⟨_, a, S, g, hfill, hstarts, -⟩ := hwf.fill (Finset.Subset.refl F) hwf.pos hwf.size_pos
    fun b hb c hc hlt => (hwf.apart b hb c hc hlt).le
  subst hstarts
  have hFS : (a.starts : Set ℕ) ⊆ S := a.starts_subset.trans hfill.free
  have hcell : ∀ c ∈ a.starts, g.mem.cell c = h.mem.cell c :=
    fun c hc => hfill.agree.cell (hFS hc)
  have hfg : g.freeList = h.freeList := hfill.agree.freeList.symm
  have hnew : ∀ c ∈ a.starts, nunits size < (g.mem.cell c).size → c + nunits size ∈ S := by
    intro c hc hlt
    obtain ⟨k, hk⟩ := Arena.mem_starts.mp hc
    rw [hfill.reps.size_eq hk] at hlt
    exact hfill.free ⟨c, k, hk, by omega, by omega⟩
  obtain ⟨r, g', ⟨fuel, hret⟩, hcase⟩ := sccMallocPtr_spec one_pos hfill.reps (hfg ▸ hf) size
  obtain ⟨⟨r', h'⟩, hret', rfl, hag', hnull⟩ := sccMallocPtr_footprint hfill.agree
    hFS hwf.zero_notMem (fun c hc => hcell c hc ▸ hwf.linksIn c hc) (hfg ▸ hf) hnew hret
  refine ⟨r', h', ⟨fuel, hret'⟩, ?_⟩
  rcases hcase with ⟨h0, -, hsmall⟩ | ⟨i, hri, ⟨b, ws, hall, hreps, -⟩, -⟩
  · exact Or.inl ⟨h0, hnull h0, fun b hb => hcell b hb ▸ hsmall b hb⟩
  · exact Or.inr ⟨i, b.starts, hri, carved_of_took one_pos hfill hag' hall hreps⟩

/-- **`SCCMallocPtr` on a well-formed list.** The call ends. It returns `NULL` exactly when
no block is large enough, and then changes nothing; otherwise it takes what it needs from
the low end of one block. -/
theorem malloc_complete (hwf : WellFormed h F) (hf : h.freeList ∈ F) (size : ℕ) :
    ∃ r h', Returns (fun fuel => sccMallocPtr fuel size h) (r, h') ∧
      (r = 0 ↔ ∀ b ∈ F, (h.mem.cell b).size < nunits size) ∧ (r = 0 → h' = h) ∧
      (r ≠ 0 → ∃ i F', r = i + 1 ∧ Carved h F i (nunits size) h' F') := by
  obtain ⟨r, h', hret, ⟨rfl, rfl, hsmall⟩ | ⟨i, F', rfl, hcarved⟩⟩ := malloc_cases hwf hf size
  · exact ⟨0, h', hret, iff_of_true rfl hsmall, fun _ => rfl, fun hne => absurd rfl hne⟩
  · refine ⟨i + 1, h', hret, iff_of_false (Nat.succ_ne_zero i) fun hsmall => ?_,
      fun h0 => absurd h0 (Nat.succ_ne_zero i), fun _ => ⟨i, F', rfl, hcarved⟩⟩
    exact absurd (hsmall i hcarved.block) (not_lt.mpr hcarved.fits)

/-- Eight bytes from the small heap. -/
theorem malloc_complete_demo :
    ∃ i h' F', Returns (fun fuel => sccMallocPtr fuel 8 smallHeap) (i + 1, h') ∧
      Carved smallHeap {3, 20} i 2 h' F' := by
  obtain ⟨r, h', hret, hnull, -, htook⟩ := malloc_complete wellFormed_smallHeap (by decide) 8
  obtain ⟨i, F', rfl, hcarved⟩ := htook fun h0 =>
    absurd (hnull.mp h0 3 (by decide)) (by decide)
  exact ⟨i, h', F', hret, hcarved⟩

end SccShm
