import SccShm.MallocSpec

/-!
# What `SCCFreePtr` does to a well-formed heap

`sccFreePtr_spec`: a call on a live block ends and gives the block back to the
arena, *unless* the block ends where the only free block begins. In that case
the free block is absorbed by the one below it and yet kept as `freeList`.

The proof follows the function: the search ends at the free block after which
the freed one belongs (`free_search`), then come the merge with the block above
(`Upper`) and the one with the block below.
-/

namespace SccShm

variable {lo hi : ℕ} {a b : Arena lo hi} {h : Heap} {m m₂ : Mem} {l r : List Piece}
  {p q : Piece} {curr i f n len : ℕ}

/-! ## The search -/

/-- The search in a list of blocks `F` ends, after at most one pass for each block, at the
block after which `i` belongs. -/
theorem search_of_links {F : Finset ℕ} (hpos : ∀ b ∈ F, b ≠ 0)
    (hlinks : ∀ b ∈ F, CycSucc F b (m.cell b).next) (hf : f ∈ F) (hi : i ∉ F) :
    ∃ curr ∈ F, Between curr i (m.cell curr).next ∧
      ∀ fuel, F.card < fuel → loop (freeBody m i) fuel f = .ok curr := by
  obtain ⟨p, hp, hpred⟩ := exists_pred ⟨f, hf⟩ i
  -- the passes left before the walk stands at `p`
  have hcard : ∀ c, (if c = p then 0 else (ahead F p c).card) ≤ F.card := by
    intro c
    split
    · exact Nat.zero_le _
    · exact Finset.card_le_card ahead_subset
  have hloop := loop_total (freeBody m i) (I := fun c => c ∈ F)
    (Q := fun c => c ∈ F ∧ Between c i (m.cell c).next)
    (fun c => if c = p then 0 else (ahead F p c).card) ?_
  · obtain ⟨c, hc, hcF, hbtw⟩ := hloop (F.card + 1) f hf (Nat.lt_succ_of_le (hcard f))
    exact ⟨c, hcF, hbtw, fun fuel hfuel => loop_fuel_mono _ _ hfuel hc⟩
  · intro c hc
    have hload : m.load c = .ok (m.cell c) := Mem.load_of_ne (hpos c hc)
    have hlink := hlinks c hc
    by_cases h₁ : c < i ∧ i < (m.cell c).next
    · exact Or.inl ⟨c, by simp [freeBody, hload, h₁], hc, Or.inl h₁⟩
    by_cases h₂ : (m.cell c).next ≤ c ∧ (c < i ∨ i < (m.cell c).next)
    · refine Or.inl ⟨c, ?_, hc, Or.inr h₂⟩
      rw [freeBody, hload, Exec.ok_bind, if_neg h₁, if_pos h₂]
    -- `p` would have passed one of the two tests
    have hcp : c ≠ p := by
      rintro rfl
      have hci : c ≠ i := fun heq => hi (heq ▸ hc)
      have hni : (m.cell c).next ≠ i := fun heq => hi (heq ▸ hlink.right)
      rcases hpred with ⟨hlt, hall⟩ | hall
      · have := hall _ hlink.right
        rcases hlink.next with ⟨hlt', -⟩ | ⟨hle, -⟩ <;> omega
      · have h₃ := hall _ hlink.right
        omega
    refine Or.inr ⟨(m.cell c).next, ?_, hlink.right, ?_⟩
    · rw [freeBody, hload, Exec.ok_bind, if_neg h₁, if_neg h₂]
    · rw [if_neg hcp]
      by_cases hnp : (m.cell c).next = p
      · rw [if_pos hnp]
        exact Finset.card_pos.mpr ⟨_, hlink.mem_ahead hp⟩
      · rw [if_neg hnp]
        exact hlink.card_ahead_lt hp hnp

/-- The search in the free list of an arena. -/
theorem free_search (hlo : 0 < lo) (hr : m.Reps a) (hf : f ∈ a.starts) (hi : i ∉ a.starts) :
    ∃ curr ∈ a.starts, Between curr i (m.cell curr).next ∧
      ∀ fuel, a.starts.card < fuel → loop (freeBody m i) fuel f = .ok curr :=
  search_of_links (fun _ => Arena.ne_zero_of_mem_starts hlo) hr.links hf hi

/-! ## Neighbours of the freed block -/

theorem piece_mem (hps : a.pieces = l ++ p :: r) : p ∈ a.pieces := by rw [hps]; simp

/-- If no free block follows, no free block starts at the end. -/
theorem stop_notMem_starts (hps : a.pieces = l ++ p :: r) (hr : StartsLive r) :
    p.stop ∉ a.starts := by
  intro hmem
  obtain ⟨q, hq, hqf, hqs⟩ := mem_freeStarts.mp hmem
  have ht := a.tiles
  rw [hps] at ht
  obtain ⟨_, -, -, -, htr⟩ := tiles_append.mp ht
  have hqhi := a.tiles.bounds hq
  obtain ⟨x, hx, hxs⟩ : ∃ x ∈ r.head?, x.start = p.stop := by
    cases r with
    | nil =>
      rw [tiles_nil] at htr
      simp only [Piece.stop] at htr hqs hqhi
      omega
    | cons x r => exact ⟨x, rfl, htr.1⟩
  have hxa : x ∈ a.pieces := by
    rw [hps]
    exact List.mem_append_right _ (List.mem_cons_of_mem _ (List.mem_of_mem_head? hx))
  have := a.tiles.eq_of_start hq hxa (by rw [hqs, hxs])
  rw [this, hr x hx] at hqf
  cases hqf

/-- If no free block precedes, no free block ends at the start. -/
theorem stop_ne_start (hps : a.pieces = l ++ p :: r) (hl : EndsLive l) (hq : q ∈ a.pieces)
    (hqf : q.free = true) :
    q.stop ≠ p.start := by
  intro hqs
  have hpos := (a.tiles.bounds hq).2.1
  have hlo := (a.tiles.bounds hq).1
  have ht := a.tiles
  rw [hps] at ht
  obtain ⟨s, htl, hs, -, -⟩ := tiles_append.mp ht
  subst hs
  rcases List.eq_nil_or_concat' l with rfl | ⟨l', x, rfl⟩
  · rw [tiles_nil] at htl
    simp only [Piece.stop] at hqs
    omega
  · obtain ⟨t, -, hxt, hxpos, hxe⟩ := tiles_append.mp htl
    rw [tiles_nil] at hxe
    have hxa : x ∈ a.pieces := by rw [hps]; simp
    have : q = x := by
      apply a.tiles.eq_of_mem hq hxa (u := p.start - 1)
      · simp only [Piece.mem_iff, Piece.stop] at hqs ⊢
        omega
      · simp only [Piece.mem_iff, Piece.stop] at hxe ⊢
        omega
    rw [endsLive_append_singleton] at hl
    rw [this, hl] at hqf
    cases hqf

/-- The free block that starts at the end of `p` is the one the search found to
follow. -/
theorem next_eq_stop (hps : a.pieces = l ++ p :: r) (hlive : p.free = false) {c : ℕ}
    (hlink : CycSucc a.starts curr c) (hbtw : Between curr p.start c)
    (hstop : p.stop ∈ a.starts) : c = p.stop := by
  have hpa := piece_mem hps
  have hpos := (a.tiles.bounds hpa).2.1
  have hright := CycSucc.insert_right hlink hbtw
  obtain ⟨q, hq, hqf, rfl⟩ := mem_freeStarts.mp hlink.right
  have hlt : p.start < p.stop := by simp only [Piece.stop]; omega
  rcases hright.next with ⟨hlt', hall⟩ | ⟨hle, hall⟩
  · have h₁ := hall p.stop (Finset.mem_insert_of_mem hstop)
    rcases a.tiles.apart hpa hq with rfl | h₂ | h₂
    · rw [hlive] at hqf
      cases hqf
    · omega
    · have := (a.tiles.bounds hq).2.1
      simp only [Piece.stop] at h₂
      omega
  · have := hall p.stop (Finset.mem_insert_of_mem hstop)
    omega

/-- The piece after `p` starts where `p` stops. -/
theorem next_start {p q : Piece} (hps : a.pieces = l ++ p :: q :: r) : q.start = p.stop := by
  have ht := a.tiles
  rw [hps] at ht
  obtain ⟨_, -, -, -, hq, -⟩ := tiles_append.mp ht
  exact hq

/-- The piece before `p` stops where `p` starts. -/
theorem prev_stop {p q : Piece} (hps : a.pieces = l ++ [q] ++ p :: r) : q.stop = p.start := by
  rw [List.append_assoc] at hps
  exact (next_start hps).symm

/-- The free block that ends where the freed one starts is the one the search
stopped at. -/
theorem curr_eq_start {c : ℕ} (hlink : CycSucc a.starts curr c) (hbtw : Between curr i c)
    (hq : q ∈ a.pieces) (hqf : q.free = true) (hqs : q.stop = i) : curr = q.start := by
  have hpos := (a.tiles.bounds hq).2.1
  have hqF : q.start ∈ a.starts := Arena.start_mem_starts hq hqf
  have hlt : q.start < i := by rw [← hqs]; simp only [Piece.stop]; omega
  refine (CycSucc.insert_left hlink hbtw).unique_left
    ⟨Finset.mem_insert_of_mem hqF, Finset.mem_insert_self _ _, Or.inl ⟨hlt, fun y hy => ?_⟩⟩
  rcases Finset.mem_insert.mp hy with rfl | hy
  · exact Or.inr (le_refl _)
  · obtain ⟨x, hx, -, rfl⟩ := mem_freeStarts.mp hy
    rcases a.tiles.apart hx hq with rfl | h₁ | h₁
    · exact Or.inl (le_refl _)
    · simp only [Piece.stop] at h₁
      exact Or.inl (by omega)
    · exact Or.inr (by omega)

/-! ## The two merges -/

/-- After the merge with the block above: in `m₂` the freed block `i` has `len`
units and stands, in the order, between `curr` and its link; the free blocks
left are those of `l` and `r`, and nothing else has changed. Only `curr` is not
linked to `i` yet. -/
structure Upper (m m₂ : Mem) (l r : List Piece) (curr i len : ℕ) : Prop where
  size : (m₂.cell i).size = len
  frame : ∀ u, u ≠ i → m₂.cell u = m.cell u
  into : CycSucc (insert i (freeStarts l ∪ freeStarts r)) curr i
  out : CycSucc (insert i (freeStarts l ∪ freeStarts r)) i (m₂.cell i).next
  others : ∀ x ∈ freeStarts l ∪ freeStarts r, x ≠ curr →
    CycSucc (insert i (freeStarts l ∪ freeStarts r)) x (m.cell x).next
  lengths : ∀ q, q ∈ l ∨ q ∈ r → (m.cell q.start).size = q.len
  apart : ∀ q, q ∈ l ∨ q ∈ r → q.start ≠ i
  curr_ne : curr ≠ i
  writes : ∃ ws, m.Writes ws m₂ ∧ ∀ u ∈ ws, u = i

/-- The block above does not touch: `i` is linked to it. -/
theorem upper_keep (hlo : 0 < lo) (hr : m.Reps a) (hps : a.pieces = l ++ p :: r)
    (hp : p.free = false) (hcurr : curr ∈ a.starts)
    (hbtw : Between curr p.start (m.cell curr).next) (hne : p.stop ≠ (m.cell curr).next) :
    ∃ m₂, mergeUpper m p.start curr = .ok m₂ ∧ Upper m m₂ l r curr p.start p.len := by
  have hpa := piece_mem hps
  have hlink := hr.links curr hcurr
  have hcurr0 := Arena.ne_zero_of_mem_starts hlo hcurr
  have hi0 : p.start ≠ 0 := by have := (a.tiles.bounds hpa).1; omega
  have hsize := hr.size p hpa
  have hstarts := (Arena.starts_of_live hps hp).symm
  have hi : p.start ∉ a.starts := Arena.start_notMem_starts hpa hp
  refine ⟨m.setNext p.start (m.cell curr).next, ?_, ⟨?_, fun u hu => Mem.cell_setNext_of_ne hu,
    ?_, ?_, ?_, ?_, ?_, fun heq => hi (heq ▸ hcurr),
    [p.start], (Mem.Writes.refl m).setNext _ _, by simp⟩⟩
  · rw [mergeUpper, Mem.load_of_ne hcurr0, Exec.ok_bind, Mem.load_of_ne hi0, Exec.ok_bind,
      hsize, if_neg (show ¬ p.start + p.len = _ from hne)]
  · rw [Mem.size_setNext, hsize]
  · rw [hstarts]
    exact CycSucc.insert_left hlink hbtw
  · rw [hstarts, Mem.next_setNext_self]
    exact CycSucc.insert_right hlink hbtw
  · intro x hx hxc
    rw [hstarts] at hx ⊢
    exact CycSucc.insert_of_ne hlink hbtw (hr.links x hx) hxc
  · exact fun q hq => hr.size q ((Arena.mem_sides hps).mp hq).1
  · exact fun q hq => ((Arena.mem_sides hps).mp hq).2

/-- The block above touches: `i` takes over its units and its link. This needs
another free block, the one `curr` stands for. -/
theorem upper_join (hlo : 0 < lo) (hr : m.Reps a) (hps : a.pieces = l ++ p :: q :: r)
    (hp : p.free = false) (hq : q.free = true) (hcurr : curr ∈ a.starts)
    (hbtw : Between curr p.start (m.cell curr).next) (hc : (m.cell curr).next = q.start)
    (hqs : p.stop = q.start) (hne : curr ≠ q.start) :
    ∃ m₂, mergeUpper m p.start curr = .ok m₂ ∧
      Upper m m₂ l r curr p.start (p.len + q.len) := by
  have hpa := piece_mem hps
  have hqa : q ∈ a.pieces := by rw [hps]; simp
  have hlink := hr.links curr hcurr
  rw [hc] at hlink hbtw
  have hlink' := hr.links q.start hlink.right
  have hcurr0 := Arena.ne_zero_of_mem_starts hlo hcurr
  have hi0 : p.start ≠ 0 := by have := (a.tiles.bounds hpa).1; omega
  have hq0 : q.start ≠ 0 := by have := (a.tiles.bounds hqa).1; omega
  have hsize := hr.size p hpa
  have hsizeq := hr.size q hqa
  have hi : p.start ∉ a.starts := Arena.start_notMem_starts hpa hp
  have hpq : p.start ≠ q.start := fun heq => hi (heq ▸ hlink.right)
  have hstarts : freeStarts l ∪ freeStarts r = a.starts.erase q.start := by
    have hpsq : a.pieces = l ++ [p] ++ q :: r := by rw [hps]; simp
    rw [Arena.starts_erase hpsq hq, freeStarts_of_live hp, freeStarts_nil, Finset.union_empty]
  have hins : insert p.start (freeStarts l ∪ freeStarts r)
      = (insert p.start a.starts).erase q.start := by
    rw [hstarts, Finset.erase_insert_of_ne hpq]
  have hside : ∀ x, x ∈ l ∨ x ∈ r → x ∈ a.pieces ∧ x.start ≠ p.start := fun x hx =>
    (Arena.mem_sides hps).mp (hx.imp_right (List.mem_cons_of_mem q))
  -- the order with both the freed block and the one it absorbs, then without the latter
  have hinto := CycSucc.insert_left hlink hbtw
  have hout := CycSucc.insert_right hlink hbtw
  have hnext := CycSucc.insert_of_ne hlink hbtw hlink' (Ne.symm hne)
  have hcp : curr ≠ p.start := fun heq => hi (heq ▸ hcurr)
  refine ⟨(m.setSize p.start (p.len + q.len)).setNext p.start (m.cell q.start).next, ?_,
    ⟨?_, ?_, ?_, ?_, ?_, ?_, ?_, hcp,
      [p.start, p.start], ((Mem.Writes.refl m).setSize _ _).setNext _ _, by simp⟩⟩
  · rw [mergeUpper, Mem.load_of_ne hcurr0, Exec.ok_bind, Mem.load_of_ne hi0, Exec.ok_bind,
      hsize, hc, if_pos (show p.start + p.len = _ from hqs), Mem.load_of_ne hq0, Exec.ok_bind,
      hsizeq]
    simp only [Mem.next_setSize, hc]
    rw [if_neg hne]
  · rw [Mem.size_setNext, Mem.size_setSize_self]
  · intro u hu
    rw [Mem.cell_setNext_of_ne hu, Mem.cell_setSize_of_ne hu]
  · rw [hins]
    exact CycSucc.erase_of_ne hout hinto hcp hne
  · rw [hins, Mem.next_setNext_self]
    exact CycSucc.erase_self hout hnext hpq
  · intro x hx hxc
    rw [hstarts] at hx
    rw [hins]
    have hxa := Finset.mem_of_mem_erase hx
    exact CycSucc.erase_of_ne hout (CycSucc.insert_of_ne hlink hbtw (hr.links x hxa) hxc)
      (fun heq => hi (heq ▸ hxa)) (Finset.ne_of_mem_erase hx)
  · exact fun x hx => hr.size x (hside x hx).1
  · exact fun x hx => (hside x hx).2

/-- The block below does not touch: `curr` is linked to `i`. -/
theorem Upper.keep (hu : Upper m m₂ l r curr i len) (hb : b.pieces = l ++ ⟨i, len, true⟩ :: r)
    (hne : curr + (m.cell curr).size ≠ i) :
    (⟨mergeLower m₂ i curr, curr⟩ : Heap).Reps b := by
  have hmerge : mergeLower m₂ i curr = m₂.setNext curr i := by
    rw [mergeLower, hu.frame curr hu.curr_ne, if_neg hne]
  have hstarts : b.starts = insert i (freeStarts l ∪ freeStarts r) := Arena.starts_of_free hb rfl
  rw [hmerge]
  refine ⟨⟨?_, ?_⟩, Or.inl ?_⟩
  · intro q hq
    rw [Mem.size_setNext]
    rw [hb, List.mem_append, List.mem_cons] at hq
    rcases hq with hq | rfl | hq
    · rw [hu.frame _ (hu.apart q (Or.inl hq)), hu.lengths q (Or.inl hq)]
    · exact hu.size
    · rw [hu.frame _ (hu.apart q (Or.inr hq)), hu.lengths q (Or.inr hq)]
  · intro x hx
    rw [hstarts] at hx ⊢
    by_cases hxc : x = curr
    · rw [hxc, Mem.next_setNext_self]
      exact hu.into
    · rw [Mem.cell_setNext_of_ne hxc]
      by_cases hxi : x = i
      · rw [hxi]
        exact hu.out
      · rw [hu.frame x hxi]
        exact hu.others x ((Finset.mem_insert.mp hx).resolve_left hxi) hxc
  · rw [hstarts]
    exact hu.into.left

/-- The block below touches: it takes over `i`'s units and link. -/
theorem Upper.join (hu : Upper m m₂ (l ++ [q]) r q.start i len) (hq : q.free = true)
    (hb : b.pieces = l ++ ⟨q.start, q.len + len, true⟩ :: r) (hqs : q.stop = i) :
    (⟨mergeLower m₂ i q.start, q.start⟩ : Heap).Reps b := by
  have hqlen := hu.lengths q (Or.inl (by simp))
  have hmerge : mergeLower m₂ i q.start
      = (m₂.setSize q.start (q.len + len)).setNext q.start (m₂.cell i).next := by
    simp only [mergeLower, hu.frame q.start hu.curr_ne, hqlen, hu.size, Mem.next_setSize]
    rw [if_pos (by simpa [Piece.stop] using hqs)]
  have hstarts : b.starts = insert q.start (freeStarts l ∪ freeStarts r) := by
    rw [Arena.starts_of_free hb rfl]
  have hall : freeStarts (l ++ [q]) ∪ freeStarts r = b.starts := by
    rw [hstarts, freeStarts_of_free hq, freeStarts_nil, Finset.union_empty, Finset.insert_union]
  have hi : i ∉ b.starts := by
    rw [← hall, Finset.mem_union, mem_freeStarts, mem_freeStarts]
    rintro (⟨x, hx, -, hxi⟩ | ⟨x, hx, -, hxi⟩)
    · exact hu.apart x (Or.inl hx) hxi
    · exact hu.apart x (Or.inr hx) hxi
  have herase : b.starts = (insert i (freeStarts (l ++ [q]) ∪ freeStarts r)).erase i := by
    rw [hall, Finset.erase_insert hi]
  -- the pieces to both sides keep their lengths
  have hkeep : ∀ x, x ∈ l ∨ x ∈ r →
      ((m₂.setSize q.start (q.len + len)).cell x.start).size = x.len := by
    intro x hx
    have hne := ((Arena.mem_sides hb).mp hx).2
    have hx' : x ∈ l ++ [q] ∨ x ∈ r := by
      rcases hx with hx | hx <;> simp [hx]
    rw [Mem.cell_setSize_of_ne hne, hu.frame _ (hu.apart x hx'), hu.lengths x hx']
  rw [hmerge]
  refine ⟨⟨?_, ?_⟩, Or.inl ?_⟩
  · intro x hx
    rw [Mem.size_setNext]
    rw [hb, List.mem_append, List.mem_cons] at hx
    rcases hx with hx | rfl | hx
    · exact hkeep x (Or.inl hx)
    · exact Mem.size_setSize_self
    · exact hkeep x (Or.inr hx)
  · intro x hx
    rw [herase] at hx ⊢
    by_cases hxq : x = q.start
    · rw [hxq, Mem.next_setNext_self]
      exact CycSucc.erase_self hu.into hu.out hu.curr_ne
    · rw [Mem.cell_setNext_of_ne hxq, Mem.next_setSize]
      have hxi := Finset.ne_of_mem_erase hx
      rw [hu.frame x hxi]
      have hx' := (Finset.mem_insert.mp (Finset.mem_of_mem_erase hx)).resolve_left hxi
      exact CycSucc.erase_of_ne hu.into (hu.others x hx' hxq) hxq hxi
  · rw [hstarts]
    exact Finset.mem_insert_self _ _

/-! ## The whole call -/

/-- From `h` to `h'`, the live block of `n` units at `i` was given back. -/
def Gave (h : Heap) (a : Arena lo hi) (i n : ℕ) (h' : Heap) : Prop :=
  ∃ (b : Arena lo hi) (ws : List ℕ), a.Releases i n b ∧ h'.Reps b ∧
    h.mem.Writes ws h'.mem ∧ ∀ u ∈ ws, u = i ∨ u ∈ a.starts

theorem mergeLower_writes (m : Mem) (i curr : ℕ) :
    ∃ ws, m.Writes ws (mergeLower m i curr) ∧ ∀ u ∈ ws, u = curr := by
  unfold mergeLower
  split
  · exact ⟨[curr, curr], ((Mem.Writes.refl m).setSize _ _).setNext _ _, by simp⟩
  · exact ⟨[curr], (Mem.Writes.refl m).setNext _ _, by simp⟩

/-- Assembling the effect of both merges. -/
theorem Upper.gave (hu : Upper h.mem m₂ l r curr i len) (hcurr : curr ∈ a.starts)
    (hrel : a.Releases i n b) (hb : (⟨mergeLower m₂ i curr, curr⟩ : Heap).Reps b) :
    Gave h a i n ⟨mergeLower m₂ i curr, curr⟩ := by
  obtain ⟨ws, hws, hall⟩ := hu.writes
  obtain ⟨ws', hws', hall'⟩ := mergeLower_writes m₂ i curr
  refine ⟨b, ws' ++ ws, hrel, hb, hws.trans hws', fun u hmem => ?_⟩
  rcases List.mem_append.mp hmem with hmem | hmem
  · rw [hall' u hmem]
    exact Or.inr hcurr
  · exact Or.inl (hall u hmem)

/-- The call on a nonempty list, once the free pieces `m` behind the block are merged. -/
theorem Upper.gave_lower {m : List Piece} (hr : h.mem.Reps a)
    (hps : a.pieces = l ++ ⟨i, n, false⟩ :: (m ++ r)) (hm : ∀ q ∈ m, q.free = true)
    (hrl : StartsLive r) (hcurr : curr ∈ a.starts)
    (hbtw : Between curr i (h.mem.cell curr).next)
    (hu : Upper h.mem m₂ l r curr i (n + (m.map Piece.len).sum)) :
    Gave h a i n ⟨mergeLower m₂ i curr, curr⟩ := by
  rcases endsLive_or l with hll | ⟨l', q, rfl, hq⟩
  · have hsplit : a.pieces = l ++ (⟨i, n, false⟩ :: m) ++ r := by rw [hps]; simp
    obtain ⟨x, hx, hxf, rfl⟩ := mem_freeStarts.mp hcurr
    have hrel := a.fuse_releases hsplit (by simp) hll hrl (p := ⟨i, n, false⟩) rfl (by simp)
      fun y hy hyf => Arena.eq_of_live (x := []) (by simp) hm hy hyf
    refine hu.gave hcurr hrel (hu.keep (by simp [Arena.fuse, Arena.fused]) ?_)
    rw [hr.size x hx]
    exact stop_ne_start hps hll hx hxf
  · have hqa : q ∈ a.pieces := by rw [hps]; simp
    have hqs := prev_stop hps
    obtain rfl := curr_eq_start (hr.links curr hcurr) hbtw hqa hq hqs
    have hsplit : a.pieces = l' ++ (q :: ⟨i, n, false⟩ :: m) ++ r := by rw [hps]; simp
    have hc := a.coalesced
    rw [hps, List.append_assoc] at hc
    have hrel := a.fuse_releases hsplit (by simp) (hc.endsLive hq) hrl (p := ⟨i, n, false⟩) rfl
      (by simp) fun y hy hyf => Arena.eq_of_live (x := [q]) (by simpa using hq) hm hy hyf
    exact hu.gave hcurr hrel (hu.join hq (by simp [Arena.fuse, Arena.fused]) hqs)

/-- The call on an empty list. -/
theorem gave_empty (hr : h.mem.Reps a) (hempty : a.starts = ∅) (hlive : a.Live i n) :
    Gave h a i n ⟨h.mem.setNext i i, i⟩ := by
  obtain ⟨l, r, hps⟩ := List.append_of_mem hlive
  have hnone : ∀ q ∈ a.pieces, q.free = false := by
    intro q hq
    cases hqf : q.free
    · rfl
    · have := Arena.start_mem_starts hq hqf
      rw [hempty] at this
      simp at this
  have hl : EndsLive l := fun q hq => hnone q (by rw [hps]; simp [List.mem_of_mem_getLast? hq])
  have hrl : StartsLive r := fun q hq => hnone q (by rw [hps]; simp [List.mem_of_mem_head? hq])
  have hsplit : a.pieces = l ++ [⟨i, n, false⟩] ++ r := by rw [hps]; simp
  have hbp : (a.fuse hsplit (by simp) hl hrl).pieces = l ++ ⟨i, n, true⟩ :: r := by
    simp [Arena.fuse, Arena.fused]
  have hstarts : (a.fuse hsplit (by simp) hl hrl).starts = {i} := by
    have hlr : freeStarts l ∪ freeStarts r = ∅ := by
      rw [← hempty, Arena.starts_of_live hps rfl]
    rw [Arena.starts_of_free hbp rfl, hlr]
    rfl
  refine ⟨a.fuse hsplit (by simp) hl hrl, [i],
    a.fuse_releases hsplit (by simp) hl hrl (p := ⟨i, n, false⟩) rfl (by simp) (by simp),
    ⟨⟨?_, ?_⟩, Or.inl ?_⟩, (Mem.Writes.refl _).setNext _ _, by simp⟩
  · intro q hq
    rw [Mem.size_setNext]
    rw [hbp, List.mem_append, List.mem_cons] at hq
    rcases hq with hq | rfl | hq
    · exact hr.size q (by rw [hps]; simp [hq])
    · exact hr.size ⟨i, n, false⟩ hlive
    · exact hr.size q (by rw [hps]; simp [hq])
  · intro x hx
    rw [hstarts, Finset.mem_singleton] at hx
    rw [hstarts, hx, Mem.next_setNext_self]
    exact CycSucc.singleton i
  · rw [hstarts]
    exact Finset.mem_singleton_self i

/-- **`SCCFreePtr` on a live block.** The call ends and gives the block back,
unless the block ends where the only free block begins. -/
theorem sccFreePtr_spec (hlo : 0 < lo) (hr : h.Reps a) (hlive : a.Live i n)
    (hok : ¬ (i + n = h.freeList ∧ (h.mem.cell h.freeList).next = h.freeList)) :
    ∃ h', Returns (fun fuel => sccFreePtr fuel (i + 1) h) h' ∧ Gave h a i n h' := by
  rcases hr.head with hf | ⟨hempty, hf0⟩
  swap
  · refine ⟨_, ⟨0, ?_⟩, gave_empty hr.mem hempty hlive⟩
    change sccFreePtr 0 (i + 1) h = _
    rw [sccFreePtr, if_pos hf0, Nat.add_sub_cancel]
  have hf0 := Arena.ne_zero_of_mem_starts hlo hf
  have hi := hlive.start_notMem
  obtain ⟨curr, hcurr, hbtw, hsearch⟩ := free_search hlo hr.mem hf hi
  -- it is enough to look at the two merges
  suffices hmerge : ∃ m₂, mergeUpper h.mem i curr = .ok m₂ ∧
      Gave h a i n ⟨mergeLower m₂ i curr, curr⟩ by
    obtain ⟨m₂, hm₂, hgave⟩ := hmerge
    refine ⟨_, ⟨a.starts.card + 1, ?_⟩, hgave⟩
    change sccFreePtr _ (i + 1) h = _
    rw [sccFreePtr, if_neg hf0, Nat.add_sub_cancel, hsearch _ (Nat.lt_succ_self _),
      Exec.ok_bind, hm₂, Exec.ok_bind]
  obtain ⟨l, r, hps⟩ := List.append_of_mem hlive
  have hlink := hr.mem.links curr hcurr
  rcases startsLive_or r with hrl | ⟨q', r', rfl, hq'⟩
  · have hne : (⟨i, n, false⟩ : Piece).stop ≠ (h.mem.cell curr).next := fun heq =>
      stop_notMem_starts hps hrl (heq ▸ hlink.right)
    obtain ⟨m₂, hm₂, hu⟩ := upper_keep hlo hr.mem hps rfl hcurr hbtw hne
    exact ⟨m₂, hm₂, hu.gave_lower (m := []) hr.mem hps (by simp) hrl hcurr hbtw⟩
  · have hq'a : q' ∈ a.pieces := by rw [hps]; simp
    have hqs' := next_start hps
    have hc' : (h.mem.cell curr).next = q'.start := by
      rw [next_eq_stop hps rfl hlink hbtw (by rw [← hqs']; exact Arena.start_mem_starts hq'a hq'),
        hqs']
    -- were it the only free block, the call would be the excluded one
    have hne : curr ≠ q'.start := by
      intro heq
      rw [hc', ← heq] at hlink
      have hone : h.freeList = curr := by
        rw [hlink.eq_singleton] at hf
        exact Finset.mem_singleton.mp hf
      refine hok ⟨?_, ?_⟩
      · rw [hone, heq, hqs']
        rfl
      · rw [hone, hc', heq]
    obtain ⟨m₂, hm₂, hu⟩ := upper_join hlo hr.mem hps rfl hq' hcurr hbtw hc' hqs'.symm hne
    have hrl : StartsLive r' := by
      have hc := a.coalesced
      rw [hps, ← List.singleton_append, ← List.append_assoc] at hc
      exact hc.startsLive hq'
    exact ⟨m₂, hm₂, hu.gave_lower (m := [q']) hr.mem hps (by simpa using hq') hrl hcurr hbtw⟩

end SccShm
