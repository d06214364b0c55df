import Mathlib.Data.Fintype.EquivFin
import Mathlib.Data.List.Forall2
import SccShm.LpelRuns
import SccShm.Moved

/-!
# Collective allocation

Every core has an allocator of its own over the same memory, mapped at an address of
its own. If all cores make the same calls in the same order, they get the same
results, up to where the memory is mapped: that is what makes the allocations of one
core usable on the others.

* `BothStep` — two cores make the same call.
* `collective_consistent` — the results agree after any sequence of calls, also when
  `NULL` or something freed before is freed.
-/

namespace SccShm

/-! ## Picks -/

section Picked

variable {ps : List Piece} {n i j d : ℕ}

/-- The piece that is picked is the last one, or the first one that is large enough. -/
theorem Picked.cases (h : Picked ps n i) :
    ∃ p, p.start = i ∧ ((ps.getLast? = some p ∧ n ≤ p.len) ∨
      (∀ q ∈ ps.getLast?, q.len < n) ∧ ps.find? (fun q => q.free && n ≤ q.len) = some p) := by
  obtain ⟨u, p, v, rfl, rfl, hp, hle, hcase⟩ := h
  cases v with
  | nil => exact ⟨p, rfl, Or.inl ⟨List.getLast?_concat .., hle⟩⟩
  | cons y v =>
    obtain ⟨hu, hlast⟩ := hcase.resolve_left (List.cons_ne_nil _ _)
    refine ⟨p, rfl, Or.inr ⟨?_, ?_⟩⟩
    · rw [List.getLast?_append_cons, List.getLast?_cons_of_ne_nil (List.cons_ne_nil _ _)]
      exact hlast
    · rw [List.find?_append, List.find?_eq_none.mpr, List.find?_cons_of_pos]
      · rfl
      · simpa using ⟨hp, hle⟩
      · intro q hq hfit
        simp only [Bool.and_eq_true, decide_eq_true_eq] at hfit
        have := hu q hq hfit.1
        omega

/-- A request is served from one place. -/
theorem Picked.unique (h : Picked ps n i) (h' : Picked ps n j) : i = j := by
  obtain ⟨p, rfl, hp⟩ := h.cases
  obtain ⟨q, rfl, hq⟩ := h'.cases
  rcases hp with ⟨hp, hle⟩ | ⟨hsmall, hp⟩ <;> rcases hq with ⟨hq, hle'⟩ | ⟨hsmall', hq⟩
  · rw [Option.some.inj (hp.symm.trans hq)]
  · have := hsmall' p hp
    omega
  · have := hsmall q hq
    omega
  · rw [Option.some.inj (hp.symm.trans hq)]

/-- In a table that was moved, the pick is moved. -/
theorem Picked.of_move (h : Picked (ps.map (Piece.move d)) n i) :
    ∃ j, i = d + j ∧ Picked ps n j := by
  obtain ⟨u, p, v, hps, rfl, hp, hle, hcase⟩ := h
  obtain ⟨u, w, rfl, rfl, hw⟩ := List.map_eq_append_iff.mp hps
  obtain ⟨p, v, rfl, rfl, rfl⟩ := List.map_eq_cons_iff.mp hw
  refine ⟨p.start, rfl, u, p, v, rfl, rfl, hp, hle, ?_⟩
  rcases hcase with hnil | ⟨hu, hlast⟩
  · exact Or.inl (List.map_eq_nil_iff.mp hnil)
  · refine Or.inr ⟨fun q hq => hu (q.move d) (List.mem_map_of_mem hq),
      fun q hq => hlast (q.move d) ?_⟩
    rw [List.getLast?_map, Option.mem_def.mp hq]
    rfl

/-- There is room for what was picked, wherever the table is moved to. -/
theorem Picked.not_small {e : ℕ} (h : Picked (ps.map (Piece.move d)) n i) :
    ¬ ∀ p ∈ ps.map (Piece.move e), p.free = true → p.len < n := by
  obtain ⟨j, -, u, p, v, rfl, -, hp, hle, -⟩ := h.of_move
  intro hsmall
  have := hsmall (p.move e) (by simp) hp
  rw [Piece.len_move] at this
  omega

end Picked

/-! ## Two cores -/

/-- An allocator and the results of the calls of `LPEL_shmalloc` so far, in order. -/
structure Collective : Type where
  lpel : Lpel
  results : List (Option ℕ)

/-- The calls that all cores make. -/
inductive CollectiveOp : Type where
  /-- `LPEL_shmalloc(size)` -/
  | malloc (size : ℕ)
  /-- `LPEL_shfree` on the result of the `k`-th call of `LPEL_shmalloc` -/
  | free (k : ℕ)

/-- A call on one core; `malloc` yields some node that does not exist. -/
inductive CollectiveStep : Collective → CollectiveOp → Collective → Prop where
  | malloc {s : Collective} {r : Option ℕ} {s' : Lpel} (new size : ℕ) :
      s.lpel.store new = none →
      Returns (fun fuel => lpelShmalloc fuel new size s.lpel) (r, s') →
      CollectiveStep s (.malloc size) ⟨s', s.results ++ [r]⟩
  | free {s : Collective} {r : Option ℕ} {s' : Lpel} (k : ℕ) : s.results[k]? = some r →
      Returns (fun fuel => lpelShfree fuel (r.getD 0) s.lpel) s' →
      CollectiveStep s (.free k) ⟨s', s.results⟩

/-- The same call on two cores. -/
def BothStep (s : Collective × Collective) (op : CollectiveOp) (s' : Collective × Collective) :
    Prop :=
  CollectiveStep s.1 op s'.1 ∧ CollectiveStep s.2 op s'.2

/-- After `LPEL_shmalloc_init`. -/
def collectiveInit (node base : ℕ) : Collective := ⟨lpelShmallocInit node base, []⟩

/-- Both are `NULL`, or both are at the same offset from the base. -/
def SameOffset (base₁ base₂ : ℕ) (r₁ r₂ : Option ℕ) : Prop :=
  (r₁ = none ∧ r₂ = none) ∨ ∃ i, r₁ = some (base₁ + i) ∧ r₂ = some (base₂ + i)

/-- The call refers to an earlier one. -/
def CollectiveOp.Valid (s : Collective × Collective) : CollectiveOp → Prop
  | .malloc _ => True
  | .free k => k < s.1.results.length

/-- The invariant: the arenas are alike, the results agree. -/
def CollectiveHolds (base₁ base₂ : ℕ) (s : Collective × Collective) : Prop :=
  List.Forall₂ (SameOffset base₁ base₂) s.1.results s.2.results ∧
    ∃ (a₁ : Arena base₁ (base₁ + lpelSize)) (a₂ : Arena base₂ (base₂ + lpelSize))
      (l₁ l₂ : List (ℕ × Piece)), s.1.lpel.Reps l₁ a₁ ∧ s.2.lpel.Reps l₂ a₂ ∧ a₁.Alike a₂

section Steps

variable {base₁ base₂ : ℕ} {a₁ : Arena base₁ (base₁ + lpelSize)}
  {a₂ : Arena base₂ (base₂ + lpelSize)} {s₁ s₂ s₁' s₂' : Lpel} {l₁ l₂ : List (ℕ × Piece)}
  {s s' : Collective × Collective} {op : CollectiveOp}

/-- There is a node that `malloc` can yield. -/
theorem Lpel.Reps.exists_fresh {base : ℕ} {a : Arena base (base + lpelSize)} {s : Lpel}
    {l : List (ℕ × Piece)} (h : s.Reps l a) : ∃ new, s.store new = none := by
  obtain ⟨new, hnew⟩ := Infinite.exists_notMem_finset (nodes l).toFinset
  refine ⟨new, ?_⟩
  cases hb : s.store new with
  | none => rfl
  | some b => exact absurd (List.mem_toFinset.mpr (h.cycle.mem_iff.mpr ⟨b, hb⟩)) hnew

/-- `LPEL_shmalloc` on both cores. -/
theorem alike_malloc (h₁ : s₁.Reps l₁ a₁) (h₂ : s₂.Reps l₂ a₂) (h : a₁.Alike a₂)
    {new₁ new₂ size : ℕ} (hnew₁ : s₁.store new₁ = none) (hnew₂ : s₂.store new₂ = none)
    {r₁ r₂ : Option ℕ} (hret₁ : Returns (fun fuel => lpelShmalloc fuel new₁ size s₁) (r₁, s₁'))
    (hret₂ : Returns (fun fuel => lpelShmalloc fuel new₂ size s₂) (r₂, s₂')) :
    SameOffset base₁ base₂ r₁ r₂ ∧
      ∃ (a₁' : Arena base₁ (base₁ + lpelSize)) (a₂' : Arena base₂ (base₂ + lpelSize))
        (l₁' l₂' : List (ℕ × Piece)), s₁'.Reps l₁' a₁' ∧ s₂'.Reps l₂' a₂' ∧ a₁'.Alike a₂' := by
  obtain ⟨ps, ht₁, ht₂⟩ := h.table
  obtain ⟨out₁, hout₁, hcase₁⟩ := lpelShmalloc_spec h₁ hnew₁ size
  obtain ⟨out₂, hout₂, hcase₂⟩ := lpelShmalloc_spec h₂ hnew₂ size
  obtain rfl := hret₁.unique (lpelShmalloc_fuelStable ..).mono ⟨_, hout₁ _ (le_refl _)⟩
  obtain rfl := hret₂.unique (lpelShmalloc_fuelStable ..).mono ⟨_, hout₂ _ (le_refl _)⟩
  rw [ht₁] at hcase₁
  rw [ht₂] at hcase₂
  rcases hcase₁ with ⟨heq₁, hnone₁⟩ | ⟨i₁, t₁, m₁, a₁', heq₁, hsize, hpick₁, hall₁, hreps₁⟩ <;>
    rcases hcase₂ with ⟨heq₂, hnone₂⟩ | ⟨i₂, t₂, m₂, a₂', heq₂, hsize', hpick₂, hall₂, hreps₂⟩
  · obtain ⟨rfl, rfl⟩ := Prod.mk.inj heq₁
    obtain ⟨rfl, rfl⟩ := Prod.mk.inj heq₂
    exact ⟨Or.inl ⟨rfl, rfl⟩, a₁, a₂, l₁, l₂, h₁, h₂, h⟩
  · exact absurd (hnone₁.resolve_left hsize'.ne') hpick₂.not_small
  · exact absurd (hnone₂.resolve_left hsize.ne') hpick₁.not_small
  · obtain ⟨rfl, rfl⟩ := Prod.mk.inj heq₁
    obtain ⟨rfl, rfl⟩ := Prod.mk.inj heq₂
    -- the same piece is picked
    obtain ⟨j, rfl, hj⟩ := hpick₁.of_move
    obtain ⟨j', rfl, hj'⟩ := hpick₂.of_move
    obtain rfl := hj.unique hj'
    exact ⟨Or.inr ⟨j, rfl, rfl⟩, a₁', a₂', m₁, m₂, hreps₁, hreps₂, h.allocates hall₁ hall₂⟩

/-- No block begins at `NULL`. -/
theorem not_live_zero (hbase : base₁ ≠ 0) (k : ℕ) : ¬ a₁.Live 0 k := by
  intro hk
  have := hk.bounds
  omega

/-- `LPEL_shfree` on both cores. -/
theorem alike_free (hbase₁ : base₁ ≠ 0) (hbase₂ : base₂ ≠ 0) (h₁ : s₁.Reps l₁ a₁)
    (h₂ : s₂.Reps l₂ a₂) (h : a₁.Alike a₂) {r₁ r₂ : Option ℕ} (hr : SameOffset base₁ base₂ r₁ r₂)
    (hret₁ : Returns (fun fuel => lpelShfree fuel (r₁.getD 0) s₁) s₁')
    (hret₂ : Returns (fun fuel => lpelShfree fuel (r₂.getD 0) s₂) s₂') :
    ∃ (a₁' : Arena base₁ (base₁ + lpelSize)) (a₂' : Arena base₂ (base₂ + lpelSize))
      (l₁' l₂' : List (ℕ × Piece)), s₁'.Reps l₁' a₁' ∧ s₂'.Reps l₂' a₂' ∧ a₁'.Alike a₂' := by
  obtain ⟨t₁, hout₁, hcase₁⟩ := lpelShfree_spec h₁ (r₁.getD 0)
  obtain ⟨t₂, hout₂, hcase₂⟩ := lpelShfree_spec h₂ (r₂.getD 0)
  obtain rfl := hret₁.unique (lpelShfree_fuelStable ..).mono ⟨_, hout₁ _ (le_refl _)⟩
  obtain rfl := hret₂.unique (lpelShfree_fuelStable ..).mono ⟨_, hout₂ _ (le_refl _)⟩
  have hlive : ∀ k, a₁.Live (r₁.getD 0) k ↔ a₂.Live (r₂.getD 0) k := by
    intro k
    rcases hr with ⟨rfl, rfl⟩ | ⟨i, rfl, rfl⟩
    · exact iff_of_false (not_live_zero hbase₁ k) (not_live_zero hbase₂ k)
    · exact h i k
  rcases hcase₁ with ⟨hnone₁, rfl⟩ | ⟨k₁, m₁, a₁', hrel₁, hreps₁⟩ <;>
    rcases hcase₂ with ⟨hnone₂, rfl⟩ | ⟨k₂, m₂, a₂', hrel₂, hreps₂⟩
  · exact ⟨a₁, a₂, l₁, l₂, h₁, h₂, h⟩
  · exact absurd ((hlive k₂).mpr hrel₂.1) (hnone₁ k₂)
  · exact absurd ((hlive k₁).mp hrel₁.1) (hnone₂ k₁)
  · refine ⟨a₁', a₂', m₁, m₂, hreps₁, hreps₂, ?_⟩
    rcases hr with ⟨rfl, rfl⟩ | ⟨i, rfl, rfl⟩
    · exact absurd hrel₁.1 (not_live_zero hbase₁ k₁)
    · exact h.releases hrel₁ hrel₂

theorem CollectiveHolds.step (hbase₁ : base₁ ≠ 0) (hbase₂ : base₂ ≠ 0)
    (hI : CollectiveHolds base₁ base₂ s) (hs : BothStep s op s') :
    CollectiveHolds base₁ base₂ s' := by
  obtain ⟨hres, a₁, a₂, l₁, l₂, h₁, h₂, h⟩ := hI
  obtain ⟨⟨s₁, res₁⟩, ⟨s₂, res₂⟩⟩ := s
  obtain ⟨t₁, t₂⟩ := s'
  obtain ⟨hs₁, hs₂⟩ := hs
  cases op with
  | malloc size =>
    cases hs₁ with | malloc new₁ _ hnew₁ hret₁ =>
    cases hs₂ with | malloc new₂ _ hnew₂ hret₂ =>
    obtain ⟨hr, h'⟩ := alike_malloc h₁ h₂ h hnew₁ hnew₂ hret₁ hret₂
    exact ⟨List.rel_append hres (.cons hr .nil), h'⟩
  | free k =>
    cases hs₁ with | free _ hk₁ hret₁ =>
    cases hs₂ with | free _ hk₂ hret₂ =>
    refine ⟨hres, alike_free hbase₁ hbase₂ h₁ h₂ h ?_ hret₁ hret₂⟩
    obtain ⟨hlt₁, rfl⟩ := List.getElem?_eq_some_iff.mp hk₁
    obtain ⟨hlt₂, rfl⟩ := List.getElem?_eq_some_iff.mp hk₂
    exact hres.get hlt₁ hlt₂

/-- Every valid call returns on both cores. -/
theorem CollectiveHolds.progress (hI : CollectiveHolds base₁ base₂ s) (hv : op.Valid s) :
    ∃ s', BothStep s op s' := by
  obtain ⟨hres, a₁, a₂, l₁, l₂, h₁, h₂, -⟩ := hI
  cases op with
  | malloc size =>
    obtain ⟨new₁, hnew₁⟩ := h₁.exists_fresh
    obtain ⟨new₂, hnew₂⟩ := h₂.exists_fresh
    obtain ⟨out₁, hout₁, -⟩ := lpelShmalloc_spec h₁ hnew₁ size
    obtain ⟨out₂, hout₂, -⟩ := lpelShmalloc_spec h₂ hnew₂ size
    exact ⟨(_, _), .malloc new₁ size hnew₁ ⟨_, hout₁ _ (le_refl _)⟩,
      .malloc new₂ size hnew₂ ⟨_, hout₂ _ (le_refl _)⟩⟩
  | free k =>
    have hk₁ : k < s.1.results.length := hv
    have hk₂ : k < s.2.results.length := by rwa [← hres.length_eq]
    obtain ⟨t₁, hout₁, -⟩ := lpelShfree_spec h₁ (s.1.results[k].getD 0)
    obtain ⟨t₂, hout₂, -⟩ := lpelShfree_spec h₂ (s.2.results[k].getD 0)
    exact ⟨(_, _), .free k (List.getElem?_eq_getElem hk₁) ⟨_, hout₁ _ (le_refl _)⟩,
      .free k (List.getElem?_eq_getElem hk₂) ⟨_, hout₂ _ (le_refl _)⟩⟩

theorem collectiveHolds_init (node₁ node₂ : ℕ) :
    CollectiveHolds base₁ base₂ (collectiveInit node₁ base₁, collectiveInit node₂ base₂) := by
  obtain ⟨l₁, h₁⟩ := (lpelHolds_init node₁ base₁).reps
  obtain ⟨l₂, h₂⟩ := (lpelHolds_init node₂ base₂).reps
  exact ⟨.nil, _, _, l₁, l₂, h₁, h₂, Arena.alike_whole (by decide)⟩

/-- **Collective allocation is consistent.** After any common sequence of calls on two
cores, with their memory at any addresses other than `NULL`, corresponding results are
both `NULL` or have the same offset; and every further common call returns on both. -/
theorem collective_consistent (hbase₁ : base₁ ≠ 0) (hbase₂ : base₂ ≠ 0) {node₁ node₂ : ℕ}
    (h : Reach BothStep (collectiveInit node₁ base₁, collectiveInit node₂ base₂) s) :
    List.Forall₂ (SameOffset base₁ base₂) s.1.results s.2.results ∧
      ∀ op : CollectiveOp, op.Valid s → ∃ s', BothStep s op s' := by
  have hI := h.invariant (I := CollectiveHolds base₁ base₂) (collectiveHolds_init node₁ node₂)
    fun s op s' hI hs => hI.step hbase₁ hbase₂ hs
  exact ⟨hI.1, fun op hv => hI.progress hv⟩

end Steps

/-- A block is freed, and freed again, and what comes next is taken from the top. -/
theorem collective_consistent_demo :
    ∃ s : Collective × Collective,
      s.1.results = [some 1000, some 1010, none, some 1030] ∧
      List.Forall₂ (SameOffset 1000 5000) s.1.results s.2.results := by
  have r₀ : Reach BothStep (collectiveInit 0 1000, collectiveInit 7 5000) _ := Reach.init
  have r₁ : Reach BothStep _ (_, _) :=
    r₀.next ⟨.malloc 1 10 rfl ⟨1, rfl⟩, .malloc 1 10 rfl ⟨1, rfl⟩⟩
  have r₂ : Reach BothStep _ (_, _) :=
    r₁.next ⟨.malloc 2 20 rfl ⟨1, rfl⟩, .malloc 2 20 rfl ⟨1, rfl⟩⟩
  have r₃ : Reach BothStep _ (_, _) :=
    r₂.next ⟨.malloc 3 0 rfl ⟨1, rfl⟩, .malloc 3 0 rfl ⟨1, rfl⟩⟩
  have r₄ : Reach BothStep _ (_, _) :=
    r₃.next ⟨.free 0 rfl ⟨4, rfl⟩, .free 0 rfl ⟨4, rfl⟩⟩
  have r₅ : Reach BothStep _ (_, _) :=
    r₄.next ⟨.free 0 rfl ⟨4, rfl⟩, .free 0 rfl ⟨4, rfl⟩⟩
  have r₆ : Reach BothStep _ (_, _) :=
    r₅.next ⟨.malloc 3 5 rfl ⟨4, rfl⟩, .malloc 3 5 rfl ⟨4, rfl⟩⟩
  exact ⟨_, rfl, (collective_consistent (by decide) (by decide) r₆).1⟩

end SccShm
