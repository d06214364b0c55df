import SccShm.Filling
import SccShm.LpelRuns

/-!
# Any call in any state of the LPEL allocator

* `lpelShmalloc_complete` — `LPEL_shmalloc` fails only if no gap is large enough; the
  room at the top is tried first, then the gaps from the lowest one on.
* `lpelShfree_unknown` — `LPEL_shfree` changes nothing if nothing in use begins at the
  address.
* `lpel_nodes` — the nodes that exist are those on the list, and no call uses another
  one.
-/

namespace SccShm

/-! ## What is in use -/

namespace LpelState

/-- `[i, i + n)` is in use. -/
def InUse (s : LpelState) (i n : ℕ) : Prop := (i, n) ∈ s.live

/-- `[i, i + k)` is a maximal stretch of the memory at `base` where nothing is in use. -/
def Gap (s : LpelState) (base i k : ℕ) : Prop := IsGap s.InUse base (base + lpelSize) i k

end LpelState

/-- Byte `u` lies in a block of the list that is in use. -/
def Lpel.Used (s : Lpel) (u : ℕ) : Prop :=
  ∃ l, s.Blocks l ∧ ∃ d ∈ extents l, d.1.freeSize = 0 ∧ u ∈ Set.Ico d.1.space (d.1.space + d.2)

/-- A request of `n` bytes has taken those at `i`, from the gap at the top if that one is
large enough, and otherwise from the lowest one that is. -/
structure LpelTaken (base : ℕ) (s : LpelState) (n i : ℕ) (t : Lpel) : Prop where
  gap : ∃ k, s.Gap base i k ∧ n ≤ k ∧ (i + k = base + lpelSize ∨
    (∀ j m, s.Gap base j m → j + m = base + lpelSize → m < n) ∧
      ∀ j m, s.Gap base j m → n ≤ m → i ≤ j)
  /-- exactly these bytes are in use from now on -/
  used : ∀ u, t.Used u ↔ Covered s.InUse u ∨ u ∈ Set.Ico i (i + n)

section Holds

variable {base : ℕ} {a : Arena base (base + lpelSize)} {s : LpelState}

theorem LpelHolds.inUse (hI : LpelHolds a s) : s.InUse = a.Live :=
  funext fun i => funext fun n => propext (hI.live i n).symm

theorem LpelHolds.gap_iff (hI : LpelHolds a s) {i k : ℕ} : s.Gap base i k ↔ a.Free i k := by
  rw [LpelState.Gap, hI.inUse, Arena.free_iff_gap]

/-- The list says what is in use. -/
theorem LpelHolds.used_iff (hI : LpelHolds a s) {u : ℕ} :
    s.lpel.Used u ↔ Covered s.InUse u := by
  obtain ⟨l, hl⟩ := hI.reps
  have hlaid := a.laid hI.live hI.distinct
  refine ⟨?_, ?_⟩
  · rintro ⟨l', hl', ⟨⟨i, f⟩, n⟩, hd, rfl, hu⟩
    rw [hl'.unique hl.blocks] at hd
    exact ⟨i, n, (hlaid.used i n).mpr hd, hu⟩
  · rintro ⟨i, n, hlive, hu⟩
    exact ⟨_, hl.blocks, _, (hlaid.used i n).mp hlive, rfl, hu⟩

end Holds

/-! ## `LPEL_shmalloc` -/

/-- The free piece that a request is served from. -/
theorem Picked.free {lo hi n i : ℕ} {a : Arena lo hi} (h : Picked a.table n i) (hn : 0 < n) :
    ∃ k, a.Free i k ∧ n ≤ k ∧ (i + k = hi ∨
      (∀ j m, a.Free j m → j + m = hi → m < n) ∧ ∀ j m, a.Free j m → n ≤ m → i ≤ j) := by
  obtain ⟨u, ⟨i, k, f⟩, v, htable, rfl, rfl, hle, hcase⟩ := h
  have hfree : a.Free i k :=
    Arena.free_iff_table.mpr ⟨by rw [htable]; simp, Nat.lt_of_lt_of_le hn hle⟩
  refine ⟨k, hfree, hle, ?_⟩
  rcases List.eq_nil_or_concat' v with rfl | ⟨v, t, rfl⟩
  · obtain ⟨ps, p, htable', -, -, hstop, -⟩ := a.table_eq
    rw [htable] at htable'
    obtain rfl := List.singleton_inj.mp (List.append_inj' htable' rfl).2
    exact Or.inl hstop
  · obtain ⟨hu, hv⟩ := hcase.resolve_left (by simp)
    refine Or.inr ⟨fun j m hf hjm => ?_, fun j m hf hnm => ?_⟩
    · have htop := hf.eq_top hjm (by rw [htable, ← List.cons_append, ← List.append_assoc])
      have := hv t (by simp)
      rwa [htop] at this
    · have hmem := (Arena.free_iff_table.mp hf).1
      have hlt := a.table_pairwise
      rw [htable, List.pairwise_append, List.pairwise_cons] at hlt
      rw [htable, List.mem_append, List.mem_cons] at hmem
      rcases hmem with hmem | heq | hmem
      · exact absurd (hu _ hmem rfl) (not_lt.mpr hnm)
      · cases heq
        exact le_refl i
      · exact (hlt.2.1.1 _ hmem).le

section Malloc

variable {node base new : ℕ} {s : LpelState}

/-- **`LPEL_shmalloc` finds space whenever there is some.** The call ends. It returns `NULL`
exactly when nothing is asked for or no gap is large enough, and then changes nothing. -/
theorem lpelShmalloc_complete (h : Reach LpelStep (lpelInit node base) s)
    (hnew : s.lpel.store new = none) (size : ℕ) :
    ∃ r t, Returns (fun fuel => lpelShmalloc fuel new size s.lpel) (r, t) ∧
      (r = none ↔ size = 0 ∨ ∀ i k, s.Gap base i k → k < size) ∧ (r = none → t = s.lpel) ∧
      ∀ i, r = some i → LpelTaken base s size i t := by
  obtain ⟨a, hI⟩ := lpelHolds_of_reach h
  obtain ⟨l, hl⟩ := hI.reps
  obtain ⟨⟨r, t⟩, hout, -⟩ := lpelShmalloc_spec hl hnew size
  have hret : Returns (fun fuel => lpelShmalloc fuel new size s.lpel) (r, t) :=
    ⟨_, hout _ (le_refl _)⟩
  refine ⟨r, t, hret, ?_⟩
  rcases hI.malloc hnew hret with ⟨rfl, rfl, hnone⟩ | ⟨i, rfl, hpicked, a', hall, hI'⟩
  · refine ⟨iff_of_true rfl (hnone.imp_right fun hsmall i k hgap => ?_), fun _ => rfl, nofun⟩
    exact hsmall _ (Arena.free_iff_table.mp (hI.gap_iff.mp hgap)).1 rfl
  · obtain ⟨k, hfree, hle, hwhich⟩ := hpicked.free hall.1
    refine ⟨iff_of_false nofun ?_, nofun, fun j hj => ?_⟩
    · rintro (h0 | hsmall)
      · exact absurd h0 hall.1.ne'
      · exact absurd (hsmall i k (hI.gap_iff.mpr hfree)) (not_lt.mpr hle)
    · obtain rfl := Option.some.inj hj
      refine ⟨⟨k, hI.gap_iff.mpr hfree, hle, ?_⟩, fun u => ?_⟩
      · simpa only [hI.gap_iff] using hwhich
      · rw [hI.inUse, ← Arena.covered_or_iff hall.2.2, ← hI'.inUse]
        exact hI'.used_iff

/-- After 10 and 20 bytes were taken and the first ones given back, ten bytes come from the
room at the top. -/
theorem lpelShmalloc_complete_demo :
    ∃ s : LpelState, s.live = [(1010, 20)] ∧ ∃ t, LpelTaken 1000 s 10 1030 t := by
  have r₀ : Reach LpelStep (lpelInit 0 1000) _ := Reach.init
  have r₁ := r₀.next (.malloc 1 10 rfl ⟨1, rfl⟩)
  have r₂ := r₁.next (.malloc 2 20 rfl ⟨1, rfl⟩)
  have r₃ := r₂.next (.free 1000 ⟨3, rfl⟩)
  obtain ⟨r, t, hret, -, -, htaken⟩ := @lpelShmalloc_complete 0 1000 3 _ r₃ rfl 10
  have hr := hret.unique (lpelShmalloc_fuelStable ..).mono ⟨1, rfl⟩
  exact ⟨_, rfl, t, htaken 1030 (Prod.mk.inj hr).1⟩

end Malloc

/-! ## `LPEL_shfree` -/

section Free

variable {node base ptr : ℕ} {s : LpelState}

/-- **A bad free is harmless**: if nothing in use begins at `ptr`, the call ends and changes
nothing. -/
theorem lpelShfree_unknown (h : Reach LpelStep (lpelInit node base) s)
    (hptr : ∀ n, (ptr, n) ∉ s.live) :
    Returns (fun fuel => lpelShfree fuel ptr s.lpel) s.lpel := by
  obtain ⟨a, hI⟩ := lpelHolds_of_reach h
  obtain ⟨l, hl⟩ := hI.reps
  obtain ⟨t, ht, ⟨-, rfl⟩ | ⟨n, l', a', hrel, -⟩⟩ := lpelShfree_spec hl ptr
  · exact ⟨_, ht _ (le_refl _)⟩
  · exact absurd ((hI.live _ _).mp hrel.1) (hptr n)

/-- The first of two blocks is given back twice. -/
theorem lpelShfree_unknown_demo :
    ∃ s : LpelState, s.live = [(1010, 20)] ∧
      Returns (fun fuel => lpelShfree fuel 1000 s.lpel) s.lpel := by
  have r₀ : Reach LpelStep (lpelInit 0 1000) _ := Reach.init
  have r₁ := r₀.next (.malloc 1 10 rfl ⟨1, rfl⟩)
  have r₂ := r₁.next (.malloc 2 20 rfl ⟨1, rfl⟩)
  have r₃ := r₂.next (.free 1000 ⟨3, rfl⟩)
  refine ⟨_, rfl, lpelShfree_unknown r₃ fun n hn => ?_⟩
  simp [lpelInit] at hn

end Free

/-! ## The nodes -/

/-- Node `n` links to `m`. -/
def Lpel.Links (s : Lpel) (n m : ℕ) : Prop := ∃ b, s.store n = some b ∧ b.next = m

/-- From the tail, the links lead through the nodes `ns`, each once, back to the tail. -/
structure Lpel.Round (s : Lpel) (ns : List ℕ) : Prop where
  tail : ns.head? = some s.tail
  links : (ns ++ [s.tail]).IsChain s.Links
  once : ns.Nodup

/-- However long the call has run, it has not used a node that does not exist. -/
def LpelOp.Safe (s : LpelState) : LpelOp → Prop
  | .malloc new size => ∀ fuel, lpelShmalloc fuel new size s.lpel ≠ .error .fault
  | .free ptr => ∀ fuel, lpelShfree fuel ptr s.lpel ≠ .error .fault

section Nodes

variable {lo hi node base : ℕ} {a : Arena lo hi} {s : LpelState} {op : LpelOp}

theorem Lpel.Reps.round {s : Lpel} {l : List (ℕ × Piece)} (h : s.Reps l a) :
    ∃ ns, s.Round ns ∧ ∀ n, n ∈ ns ↔ ∃ b, s.store n = some b := by
  obtain ⟨u, p, rfl, -⟩ := h.last
  have hcycle := h.cycle.rotate
  exact ⟨s.tail :: nodes u, ⟨rfl, hcycle.isChain, hcycle.nodup⟩, fun n => hcycle.mem_iff⟩

/-- A call that returns has used no other nodes. -/
theorem Returns.ne_fault {ρ : Type} {f : ℕ → Exec ρ} {r : ρ} (hf : FuelStable f)
    (h : Returns f r) (fuel : ℕ) : f fuel ≠ .error .fault := by
  rcases h.eq_or hf fuel with heq | heq
  · rw [heq]
    exact nofun
  · rw [heq]
    exact nofun

theorem LpelHolds.safe (hI : LpelHolds a s) (hfresh : op.Fresh s) : op.Safe s := by
  obtain ⟨l, hl⟩ := hI.reps
  cases op with
  | malloc new size =>
    obtain ⟨out, hout, -⟩ := lpelShmalloc_spec hl hfresh size
    exact Returns.ne_fault (lpelShmalloc_fuelStable ..) ⟨_, hout _ (le_refl _)⟩
  | free ptr =>
    obtain ⟨t, ht, -⟩ := lpelShfree_spec hl ptr
    exact Returns.ne_fault (lpelShfree_fuelStable ..) ⟨_, ht _ (le_refl _)⟩

/-- **No node is leaked, and none is used after it was freed.** After any sequence of calls
the nodes that exist are those on the list; and no further call uses another one. -/
theorem lpel_nodes (h : Reach LpelStep (lpelInit node base) s) :
    (∃ ns, s.lpel.Round ns ∧ ∀ n, n ∈ ns ↔ ∃ b, s.lpel.store n = some b) ∧
      ∀ op : LpelOp, op.Fresh s → op.Safe s ∧ ∃ s', LpelStep s op s' := by
  obtain ⟨a, hI⟩ := lpelHolds_of_reach h
  obtain ⟨l, hl⟩ := hI.reps
  exact ⟨hl.round, fun op hfresh => ⟨hI.safe hfresh, hI.progress hfresh⟩⟩

/-- Freeing both of two blocks leaves the node of one of them, which is the tail. -/
theorem lpel_nodes_demo :
    ∃ s : LpelState, s.live = [] ∧
      ∃ ns, s.lpel.Round ns ∧ ∀ n, n ∈ ns ↔ ∃ b, s.lpel.store n = some b := by
  have r₀ : Reach LpelStep (lpelInit 0 1000) _ := Reach.init
  have r₁ := r₀.next (.malloc 1 10 rfl ⟨1, rfl⟩)
  have r₂ := r₁.next (.malloc 2 20 rfl ⟨1, rfl⟩)
  have r₃ := r₂.next (.free 1000 ⟨3, rfl⟩)
  have r₄ := r₃.next (.free 1010 ⟨3, rfl⟩)
  exact ⟨_, rfl, (lpel_nodes r₄).1⟩

end Nodes

end SccShm
