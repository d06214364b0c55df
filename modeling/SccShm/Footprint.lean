import Mathlib.Data.Set.Function
import SccShm.FreeList

/-!
# What the two functions read

`SCCMallocPtr` and `SCCFreePtr` read no header but those of the listed blocks and of
the block to free. `Set.EqOn m.cell m'.cell S` says that two memories agree on the
headers in `S`; where `S` has all of these, a call does the same in both
(`sccMallocPtr_footprint`, `sccFreePtr_footprint`).
-/

namespace SccShm

variable {S F : Set ℕ} {m m' m₂ : Mem} {p q n i curr prev : ℕ} {b : Block}

/-! ## Memory -/

theorem Mem.eq_of_load (h : m.load p = .ok b) : b = m.cell p := by
  rw [Mem.load] at h
  split at h
  · cases h
  · exact (Except.ok.inj h).symm

/-- A load from where they agree. -/
theorem Mem.load_eqOn (h : S.EqOn m.cell m'.cell) (hp : p ∈ S) : m'.load p = m.load p := by
  rw [Mem.load, Mem.load, h hp]

/-- The same store on both sides. -/
theorem Mem.eqOn_store (h : S.EqOn m.cell m'.cell) :
    S.EqOn (m.store p b).cell (m'.store p b).cell := by
  intro u hu
  by_cases hup : u = p
  · rw [hup, Mem.cell_store_self, Mem.cell_store_self]
  · rw [Mem.cell_store_of_ne hup, Mem.cell_store_of_ne hup, h hu]

theorem Mem.eqOn_setNext (h : S.EqOn m.cell m'.cell) (hp : p ∈ S) :
    S.EqOn (m.setNext p q).cell (m'.setNext p q).cell := by
  rw [Mem.setNext, Mem.setNext, ← h hp]
  exact Mem.eqOn_store h

theorem Mem.eqOn_setSize (h : S.EqOn m.cell m'.cell) (hp : p ∈ S) :
    S.EqOn (m.setSize p n).cell (m'.setSize p n).cell := by
  rw [Mem.setSize, Mem.setSize, ← h hp]
  exact Mem.eqOn_store h

/-- The headers in `F` link to each other. -/
def Mem.LinksIn (m : Mem) (F : Set ℕ) : Prop := ∀ c ∈ F, (m.cell c).next ∈ F

/-- Two heaps with the same `freeList` that agree on `S`. -/
structure Heap.AgreeOn (S : Set ℕ) (h h' : Heap) : Prop where
  cell : S.EqOn h.mem.cell h'.mem.cell
  freeList : h'.freeList = h.freeList

variable {h h' : Heap}

/-! ## `SCCMallocPtr` -/

theorem splitBlock_footprint (hag : S.EqOn m.cell m'.cell) (hnew : curr + n ∈ S)
    (hprev : prev ∈ S) (hcurr : curr ∈ S) :
    (splitBlock m n prev curr).AgreeOn S (splitBlock m' n prev curr) := by
  refine ⟨?_, rfl⟩
  have hlast : (if prev = curr then curr + n else prev) ∈ S := by
    split
    · exact hnew
    · exact hprev
  simp only [splitBlock, Mem.cell_store_self, ← hag hcurr]
  exact Mem.eqOn_setNext (Mem.eqOn_setSize (Mem.eqOn_setSize (Mem.eqOn_store hag) hnew) hcurr)
    hlast

/-- A pass of the scan that goes on does so from a block that is too small. -/
theorem mallocBody_inl {t : ℕ × ℕ} (hbody : mallocBody n h (prev, curr) = .ok (.inl t)) :
    t = (curr, (h.mem.cell curr).next) ∧ (h.mem.cell curr).size < n ∧ curr ≠ h.freeList := by
  obtain ⟨c, hc, hbody⟩ := Exec.bind_eq_ok.mp hbody
  obtain rfl := Mem.eq_of_load hc
  split at hbody
  · split at hbody
    · split at hbody <;> cases hbody
    · cases hbody
  · next hfit =>
    split at hbody
    · next hgo => exact ⟨(Sum.inl.inj (Except.ok.inj hbody)).symm, not_le.mp hfit, hgo.1⟩
    · cases hbody

/-- One that ends takes the whole block, cuts it, or gives up. -/
theorem mallocBody_inr {out : ℕ × Heap} (hbody : mallocBody n h (prev, curr) = .ok (.inr out)) :
    ((h.mem.cell curr).size = n ∧
      (prev = curr ∧ out = (curr + 1, { h with freeList := 0 }) ∨
        prev ≠ curr ∧ out = (curr + 1, ⟨h.mem.setNext prev (h.mem.cell curr).next, prev⟩))) ∨
    (n < (h.mem.cell curr).size ∧ out = (curr + 1, splitBlock h.mem n prev curr)) ∨
    (h.mem.cell curr).size < n ∧ out = (0, h) := by
  obtain ⟨c, hc, hbody⟩ := Exec.bind_eq_ok.mp hbody
  obtain rfl := Mem.eq_of_load hc
  split at hbody
  · next hfit =>
    split at hbody
    · next hexact =>
      refine Or.inl ⟨hexact, ?_⟩
      split at hbody
      · next hone => exact Or.inl ⟨hone, (Sum.inr.inj (Except.ok.inj hbody)).symm⟩
      · next hone => exact Or.inr ⟨hone, (Sum.inr.inj (Except.ok.inj hbody)).symm⟩
    · next hexact =>
      exact Or.inr (Or.inl ⟨lt_of_le_of_ne hfit (Ne.symm hexact),
        (Sum.inr.inj (Except.ok.inj hbody)).symm⟩)
  · next hfit =>
    split at hbody
    · cases hbody
    · exact Or.inr (Or.inr ⟨not_le.mp hfit, (Sum.inr.inj (Except.ok.inj hbody)).symm⟩)

/-- Two calls of `SCCMallocPtr` end alike: the same pointer, and heaps that agree on `S`;
`NULL` leaves the second heap as it was. -/
structure SameTake (S : Set ℕ) (h' : Heap) (out out' : ℕ × Heap) : Prop where
  ptr : out'.1 = out.1
  agree : out.2.AgreeOn S out'.2
  null : out'.1 = 0 → out'.2 = h'

/-- A pass reads the headers of the two blocks it stands at. -/
theorem mallocBody_footprint (hag : h.AgreeOn S h') (hne : curr ≠ 0) (hprev : prev ∈ S)
    (hcurr : curr ∈ S) (hnew : n < (h.mem.cell curr).size → curr + n ∈ S) :
    (mallocBody n h (prev, curr) = .ok (.inl (curr, (h.mem.cell curr).next)) ∧
      mallocBody n h' (prev, curr) = .ok (.inl (curr, (h.mem.cell curr).next))) ∨
    ∃ out out', mallocBody n h (prev, curr) = .ok (.inr out) ∧
      mallocBody n h' (prev, curr) = .ok (.inr out') ∧ SameTake S h' out out' := by
  have hload : h'.mem.load curr = .ok (h.mem.cell curr) := by
    rw [Mem.load_eqOn hag.cell hcurr, Mem.load_of_ne hne]
  rw [mallocBody, mallocBody, hload, Mem.load_of_ne hne, Exec.ok_bind, Exec.ok_bind, hag.freeList]
  split
  · next hfit =>
    apply Or.inr
    split
    · split
      · exact ⟨_, _, rfl, rfl, rfl, ⟨hag.cell, rfl⟩, fun h0 => absurd h0 (Nat.succ_ne_zero _)⟩
      · exact ⟨_, _, rfl, rfl, rfl, ⟨Mem.eqOn_setNext hag.cell hprev, rfl⟩,
          fun h0 => absurd h0 (Nat.succ_ne_zero _)⟩
    · next hexact =>
      exact ⟨_, _, rfl, rfl, rfl,
        splitBlock_footprint hag.cell (hnew (lt_of_le_of_ne hfit (Ne.symm hexact))) hprev hcurr,
        fun h0 => absurd h0 (Nat.succ_ne_zero _)⟩
  · split
    · exact Or.inl ⟨rfl, rfl⟩
    · exact Or.inr ⟨_, _, rfl, rfl, rfl, hag, fun _ => rfl⟩

/-- **What `SCCMallocPtr` reads** are the headers of the listed blocks `F`. -/
theorem sccMallocPtr_footprint (hag : h.AgreeOn S h') (hFS : F ⊆ S) (h0 : 0 ∉ F)
    (hlinks : h.mem.LinksIn F) (hf : h.freeList ∈ F) {size : ℕ}
    (hnew : ∀ c ∈ F, nunits size < (h.mem.cell c).size → c + nunits size ∈ S) {fuel : ℕ}
    {out : ℕ × Heap} (hret : sccMallocPtr fuel size h = .ok out) :
    ∃ out', sccMallocPtr fuel size h' = .ok out' ∧ SameTake S h' out out' := by
  have hne : ∀ {c}, c ∈ F → c ≠ 0 := fun hc heq => h0 (heq ▸ hc)
  have hload : h'.mem.load h'.freeList = .ok (h.mem.cell h.freeList) := by
    rw [hag.freeList, Mem.load_eqOn hag.cell (hFS hf), Mem.load_of_ne (hne hf)]
  rw [sccMallocPtr, Mem.load_of_ne (hne hf), Exec.ok_bind] at hret
  rw [sccMallocPtr, hload, Exec.ok_bind, hag.freeList]
  have hpass : ∀ s : ℕ × ℕ, s.1 ∈ F ∧ s.2 ∈ F → _ := fun s hs =>
    mallocBody_footprint (n := nunits size) hag (hne hs.2) (hFS hs.1) (hFS hs.2) (hnew s.2 hs.2)
  refine loop_sim (I := fun s : ℕ × ℕ => s.1 ∈ F ∧ s.2 ∈ F) ?_ ?_ ⟨hf, hlinks _ hf⟩ hret
  · intro s s' hs hbody
    rcases hpass s hs with ⟨hb, hb'⟩ | ⟨out, -, hb, -⟩
    · obtain rfl := Sum.inl.inj (Except.ok.inj (hb.symm.trans hbody))
      exact ⟨hb', hs.2, hlinks _ hs.2⟩
    · cases hb.symm.trans hbody
  · intro s r hs hbody
    rcases hpass s hs with ⟨hb, -⟩ | ⟨out, out', hb, hb', hsame⟩
    · cases hb.symm.trans hbody
    · obtain rfl := Sum.inr.inj (Except.ok.inj (hb.symm.trans hbody))
      exact ⟨out', hb', hsame⟩

/-! ## `SCCFreePtr` -/

/-- The search reads the header of the block it stands at. -/
theorem freeBody_footprint (hag : S.EqOn m.cell m'.cell) (hcurr : curr ∈ S) :
    freeBody m' i curr = freeBody m i curr := by
  rw [freeBody, freeBody, Mem.load_eqOn hag hcurr]

/-- A pass of the search that goes on goes to the next block. -/
theorem freeBody_inl {c : ℕ} (h : freeBody m i curr = .ok (.inl c)) : c = (m.cell curr).next := by
  obtain ⟨b, hb, h⟩ := Exec.bind_eq_ok.mp h
  obtain rfl := Mem.eq_of_load hb
  split at h
  · cases h
  · split at h
    · cases h
    · exact (Sum.inl.inj (Except.ok.inj h)).symm

/-- One that ends does so where it stands. -/
theorem freeBody_inr {c : ℕ} (h : freeBody m i curr = .ok (.inr c)) : c = curr := by
  obtain ⟨b, -, h⟩ := Exec.bind_eq_ok.mp h
  split at h
  · exact (Sum.inr.inj (Except.ok.inj h)).symm
  · split at h
    · exact (Sum.inr.inj (Except.ok.inj h)).symm
    · cases h

theorem free_search_footprint (hag : S.EqOn m.cell m'.cell) (hFS : F ⊆ S)
    (hlinks : m.LinksIn F) {f fuel : ℕ} (hf : f ∈ F)
    (hret : loop (freeBody m i) fuel f = .ok curr) :
    loop (freeBody m' i) fuel f = .ok curr ∧ curr ∈ F := by
  suffices hsim : ∃ c, loop (freeBody m' i) fuel f = .ok c ∧ c = curr ∧ curr ∈ F by
    obtain ⟨c, hc, rfl, hcF⟩ := hsim
    exact ⟨hc, hcF⟩
  refine loop_sim (I := fun c => c ∈ F) (R := fun c c' => c' = c ∧ c ∈ F) ?_ ?_ hf hret
  · intro c c' hc hbody
    rw [freeBody_footprint hag (hFS hc)]
    obtain rfl := freeBody_inl hbody
    exact ⟨hbody, hlinks c hc⟩
  · intro c r hc hbody
    rw [freeBody_footprint hag (hFS hc)]
    obtain rfl := freeBody_inr hbody
    exact ⟨r, hbody, rfl, hc⟩

theorem mergeUpper_footprint (hag : S.EqOn m.cell m'.cell) (hi : i ∈ S) (hcurr : curr ∈ S)
    (hnext : (m.cell curr).next ∈ S) (hret : mergeUpper m i curr = .ok m₂) :
    ∃ m₂', mergeUpper m' i curr = .ok m₂' ∧ S.EqOn m₂.cell m₂'.cell := by
  rw [mergeUpper] at hret ⊢
  rw [Mem.load_eqOn hag hcurr, Mem.load_eqOn hag hi]
  obtain ⟨c, hc, hret⟩ := Exec.bind_eq_ok.mp hret
  obtain ⟨b, hb, hret⟩ := Exec.bind_eq_ok.mp hret
  obtain rfl := Mem.eq_of_load hc
  rw [hc, Exec.ok_bind, hb, Exec.ok_bind]
  split at hret
  · next htouch =>
    obtain ⟨n, hn, hret⟩ := Exec.bind_eq_ok.mp hret
    rw [if_pos htouch, Mem.load_eqOn hag hnext, hn, Exec.ok_bind]
    simp only [Mem.next_setSize, ← hag hcurr, ← hag hnext] at hret ⊢
    split at hret
    · next hone =>
      obtain rfl := Except.ok.inj hret
      exact ⟨_, if_pos hone, Mem.eqOn_setNext (Mem.eqOn_setSize hag hi) hi⟩
    · next hone =>
      obtain rfl := Except.ok.inj hret
      exact ⟨_, if_neg hone, Mem.eqOn_setNext (Mem.eqOn_setSize hag hi) hi⟩
  · next htouch =>
    rw [if_neg htouch]
    obtain rfl := Except.ok.inj hret
    exact ⟨_, rfl, Mem.eqOn_setNext hag hi⟩

theorem mergeLower_footprint (hag : S.EqOn m.cell m'.cell) (hi : i ∈ S) (hcurr : curr ∈ S) :
    S.EqOn (mergeLower m i curr).cell (mergeLower m' i curr).cell := by
  simp only [mergeLower, Mem.next_setSize, ← hag hcurr, ← hag hi]
  split
  · exact Mem.eqOn_setNext (Mem.eqOn_setSize hag hcurr) hcurr
  · exact Mem.eqOn_setNext hag hcurr

/-- **What `SCCFreePtr` reads** are the headers of the listed blocks `F` and of the block to
free. -/
theorem sccFreePtr_footprint (hag : h.AgreeOn S h') (hFS : F ⊆ S)
    (hlinks : h.mem.LinksIn F) (hf : h.freeList ∈ F ∨ h.freeList = 0) (hi : i ∈ S) {fuel : ℕ}
    {g : Heap} (hret : sccFreePtr fuel (i + 1) h = .ok g) :
    ∃ g', sccFreePtr fuel (i + 1) h' = .ok g' ∧ g.AgreeOn S g' := by
  rw [sccFreePtr, Nat.add_sub_cancel] at hret ⊢
  rw [hag.freeList]
  split at hret
  · next hnull =>
    rw [if_pos hnull]
    obtain rfl := Except.ok.inj hret
    exact ⟨_, rfl, Mem.eqOn_setNext hag.cell hi, rfl⟩
  · next hnull =>
    rw [if_neg hnull]
    obtain ⟨curr, hcurr, hret⟩ := Exec.bind_eq_ok.mp hret
    obtain ⟨m₂, hm₂, hret⟩ := Exec.bind_eq_ok.mp hret
    obtain rfl := Except.ok.inj hret
    obtain ⟨hcurr', hcF⟩ :=
      free_search_footprint hag.cell hFS hlinks (hf.resolve_right hnull) hcurr
    obtain ⟨m₂', hm₂', hag₂⟩ :=
      mergeUpper_footprint hag.cell hi (hFS hcF) (hFS (hlinks _ hcF)) hm₂
    rw [hcurr', Exec.ok_bind, hm₂', Exec.ok_bind]
    exact ⟨_, rfl, mergeLower_footprint hag₂ hi (hFS hcF), rfl⟩

end SccShm
