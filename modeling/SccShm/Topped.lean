import SccShm.Tiling

/-!
# Arenas with the room at the top apart

Some allocators keep the free piece at the top of an arena apart, and keep it even
when it is empty: it marks where the piece before it ends. `Arena.table` is the list
of pieces of such an allocator.

* `Arena.table_eq` — what it looks like; `Arena.free_iff_table` — the free pieces in it.
* `Arena.exists_carve`, `Arena.exists_cut_last` — allocating from a piece.
* `Arena.exists_release` — freeing a piece.
-/

namespace SccShm

variable {lo hi : ℕ}

/-- `ps`, closed by an empty free piece at `hi` unless it ends with a free piece. -/
def topped (hi : ℕ) (ps : List Piece) : List Piece :=
  if ps.getLast?.any Piece.free then ps else ps ++ [⟨hi, 0, true⟩]

theorem topped_of_endsLive {ps : List Piece} (h : EndsLive ps) :
    topped hi ps = ps ++ [⟨hi, 0, true⟩] := by
  apply if_neg
  intro hany
  obtain ⟨p, hp, hfree⟩ := (Option.any_eq_true _ _).mp hany
  rw [h p hp] at hfree
  cases hfree

theorem topped_of_free {ps : List Piece} {p : Piece} (h : p.free = true) :
    topped hi (ps ++ [p]) = ps ++ [p] := by
  apply if_pos
  simp [h]

namespace Arena

variable {a : Arena lo hi} {l m r : List Piece} {p : Piece} {n : ℕ}

/-- The pieces, the room at the top apart. -/
def table (a : Arena lo hi) : List Piece := topped hi a.pieces

/-- Either the last piece is free, and stands for the room at the top; or there is none. -/
theorem table_cases (a : Arena lo hi) :
    (EndsLive a.pieces ∧ a.table = a.pieces ++ [⟨hi, 0, true⟩]) ∨
      ∃ ps p, a.pieces = ps ++ [p] ∧ p.free = true ∧ a.table = ps ++ [p] := by
  rcases endsLive_or a.pieces with hlive | ⟨ps, p, hps, hp⟩
  · exact Or.inl ⟨hlive, topped_of_endsLive hlive⟩
  · exact Or.inr ⟨ps, p, hps, hp, by rw [table, hps, topped_of_free hp]⟩

/-- All but the last are proper pieces, and the last one is the room at the top. -/
theorem table_eq (a : Arena lo hi) : ∃ ps p, a.table = ps ++ [p] ∧ p.free = true ∧
    Tiles lo ps p.start ∧ p.stop = hi ∧ Coalesced ps ∧ EndsLive ps ∧
    ∀ i k, a.Live i k ↔ ⟨i, k, false⟩ ∈ ps := by
  rcases a.table_cases with ⟨hlive, htable⟩ | ⟨ps, p, hps, hp, htable⟩
  · exact ⟨a.pieces, _, htable, rfl, a.tiles, rfl, a.coalesced, hlive, fun _ _ => Iff.rfl⟩
  · have ht := a.tiles
    have hc := a.coalesced
    rw [hps] at ht hc
    obtain ⟨x, htl, hx, -, hstop⟩ := tiles_append.mp ht
    refine ⟨ps, p, htable, hp, by rw [hx]; exact htl, hstop, hc.left, hc.endsLive hp, ?_⟩
    intro i k
    have hne : ¬ (⟨i, k, false⟩ : Piece) = p := fun heq => by rw [← heq] at hp; cases hp
    rw [Live, hps, List.mem_append, List.mem_singleton, or_iff_left hne]

/-- The table of an arena with one free piece. -/
theorem table_whole (h : lo < hi) : (whole h).table = [⟨lo, hi - lo, true⟩] := by
  simp [table, topped, whole]

/-- The pieces of the table stand in address order. -/
theorem table_pairwise (a : Arena lo hi) : a.table.Pairwise fun p q => p.start < q.start := by
  obtain ⟨ps, p, htable, -, htiles, -⟩ := a.table_eq
  rw [htable]
  refine List.pairwise_append.mpr ⟨htiles.pairwise_start_lt, List.pairwise_singleton .., ?_⟩
  intro q hq x hx
  obtain ⟨-, hpos, hle⟩ := htiles.bounds hq
  rw [List.mem_singleton.mp hx]
  rw [Piece.stop] at hle
  omega

/-- The free pieces are those of the table that are not empty. -/
theorem free_iff_table {i k : ℕ} : a.Free i k ↔ ⟨i, k, true⟩ ∈ a.table ∧ 0 < k := by
  rcases a.table_cases with ⟨-, htable⟩ | ⟨ps, p, hps, -, htable⟩
  · rw [htable, List.mem_append, List.mem_singleton]
    refine ⟨fun h => ⟨Or.inl h, h.bounds.2.1⟩, ?_⟩
    rintro ⟨h | heq, hk⟩
    · exact h
    · cases heq
      exact absurd hk (lt_irrefl 0)
  · rw [htable, ← hps]
    exact ⟨fun h => ⟨h, h.bounds.2.1⟩, And.left⟩

/-- A free piece that reaches up to `hi` is the room at the top. -/
theorem Free.eq_top {i k : ℕ} (hf : a.Free i k) (hik : i + k = hi) (h : a.table = l ++ [p]) :
    p = ⟨i, k, true⟩ := by
  obtain ⟨ps, qs, hps⟩ := List.append_of_mem hf
  have ht := a.tiles
  rw [hps] at ht
  obtain ⟨x, -, rfl, -, hqs⟩ := tiles_append.mp ht
  -- nothing fits behind it
  have hnil : qs = [] := by
    cases qs with
    | nil => rfl
    | cons q qs =>
      obtain ⟨hlo, hpos, hstop⟩ := hqs.bounds List.mem_cons_self
      simp only [Piece.stop] at hlo hstop
      omega
  rw [table, hps, hnil, topped_of_free rfl] at h
  exact (List.singleton_inj.mp (List.append_inj' h rfl).2).symm

/-- A piece below the room at the top is a proper one. -/
theorem table_split (h : a.table = l ++ p :: r) (hr : r ≠ []) :
    ∃ r' t, r = r' ++ [t] ∧ t.free = true ∧ Tiles lo (l ++ p :: r') t.start ∧
      Coalesced (l ++ p :: r') ∧ EndsLive (l ++ p :: r') ∧
      ∀ i k, a.Live i k ↔ ⟨i, k, false⟩ ∈ l ++ p :: r' := by
  obtain ⟨ps, t, htable, ht, htiles, -, hc, hlive, hiff⟩ := a.table_eq
  obtain ⟨r', x, rfl⟩ := (List.eq_nil_or_concat' r).resolve_left hr
  rw [h, ← List.cons_append, ← List.append_assoc] at htable
  obtain ⟨rfl, hx⟩ := List.append_inj' htable rfl
  obtain rfl := List.singleton_inj.mp hx
  exact ⟨r', x, rfl, ht, htiles, hc, hlive, hiff⟩

/-- The next piece begins where it ends. -/
theorem table_next {q : Piece} (h : a.table = l ++ p :: q :: r) :
    0 < p.len ∧ q.start = p.stop := by
  obtain ⟨r', t, hr, -, ht, -⟩ := table_split h (List.cons_ne_nil _ _)
  obtain ⟨x, -, -, hlen, ht⟩ := tiles_append.mp ht
  cases r' with
  | nil =>
    obtain ⟨rfl, -⟩ := List.cons_eq_cons.mp hr
    exact ⟨hlen, ht.symm⟩
  | cons y r' =>
    obtain ⟨rfl, -⟩ := List.cons_eq_cons.mp hr
    exact ⟨hlen, ht.1⟩

/-- A free piece below the room at the top has live neighbours. -/
theorem neighbours_of_free (h : a.table = l ++ p :: r) (hr : r ≠ []) (hp : p.free = true) :
    EndsLive l ∧ StartsLive r := by
  obtain ⟨r', t, rfl, -, -, hc, hlive, -⟩ := table_split h hr
  refine ⟨hc.endsLive hp, ?_⟩
  have hstarts := hc.startsLive hp
  cases r' with
  | nil =>
    rw [endsLive_append_singleton, hp] at hlive
    cases hlive
  | cons z r' => exact startsLive_cons.mpr (startsLive_cons.mp hstarts)

/-- So none of them is free, and nothing in use begins there. -/
theorem alone_of_free {x y z w : List Piece} (h : a.table = x ++ (y ++ p :: z) ++ w)
    (hp : p.free = true) (hy : y = [] ∧ EndsLive x ∨ ∃ q, y = [q] ∧ q.free = true)
    (hz : z = [] ∧ w ≠ [] ∧ StartsLive w ∨ ∃ q, z = [q] ∧ q.free = true) :
    y = [] ∧ z = [] ∧ ∀ k, ¬ a.Live p.start k := by
  have h' : a.table = (x ++ y) ++ p :: (z ++ w) := by rw [h]; simp
  have hne : z ++ w ≠ [] := by
    rcases hz with ⟨-, hw, -⟩ | ⟨q, rfl, -⟩
    · exact List.append_ne_nil_of_right_ne_nil z hw
    · exact List.cons_ne_nil _ _
  obtain ⟨hends, hstarts⟩ := neighbours_of_free h' hne hp
  refine ⟨?_, ?_, fun k hk => ?_⟩
  · rcases hy with ⟨hy, -⟩ | ⟨q, rfl, hq⟩
    · exact hy
    · rw [endsLive_append_singleton, hq] at hends
      cases hends
  · rcases hz with ⟨hz, -⟩ | ⟨q, rfl, hq⟩
    · exact hz
    · rw [List.singleton_append, startsLive_cons, hq] at hstarts
      cases hstarts
  · obtain ⟨r', t, -, -, ht, -, -, hlive⟩ := table_split h' hne
    have heq := ht.eq_of_start ((hlive _ _).mp hk) (q := p) (by simp) rfl
    rw [← heq] at hp
    cases hp

/-- A piece below the room at the top is one of the arena's. -/
theorem pieces_of_table (h : a.table = l ++ m ++ r) (hr : r ≠ []) :
    (∃ r', r = r' ++ [⟨hi, 0, true⟩] ∧ a.pieces = l ++ m ++ r' ∧ EndsLive a.pieces) ∨
      (∃ r' p, r = r' ++ [p] ∧ p.free = true ∧ a.pieces = l ++ m ++ r) := by
  obtain ⟨r', x, rfl⟩ := (List.eq_nil_or_concat' r).resolve_left hr
  rw [← List.append_assoc] at h
  rcases a.table_cases with ⟨hlive, htable⟩ | ⟨ps, p, hps, hp, htable⟩
  · rw [htable] at h
    obtain ⟨hps, hx⟩ := List.append_inj' h rfl
    rw [← List.singleton_inj.mp hx]
    exact Or.inl ⟨r', rfl, hps, hlive⟩
  · rw [htable] at h
    obtain ⟨hps', hx⟩ := List.append_inj' h rfl
    obtain rfl := List.singleton_inj.mp hx
    exact Or.inr ⟨r', p, rfl, hp, by rw [hps, h, List.append_assoc]⟩

/-! ### Allocating -/

/-- Allocate from a free piece below the room at the top. -/
theorem exists_carve (h : a.table = l ++ p :: r) (hr : r ≠ []) (hp : p.free = true)
    (hn : 0 < n) (hle : n ≤ p.len) :
    ∃ a' : Arena lo hi, a.Allocates p.start n a' ∧ a'.table = l ++ (cut p n ++ r) := by
  obtain ⟨-, hstarts⟩ := neighbours_of_free h hr hp
  have h' : a.table = l ++ [p] ++ r := by rw [h, List.append_assoc]; rfl
  rcases pieces_of_table h' hr with ⟨r', rfl, hps, hlive⟩ | ⟨r', q, rfl, hq, hps⟩
  · rw [List.append_assoc] at hps
    refine ⟨a.carve hps hp n hn hle, carve_allocates hps hp hn hle, ?_⟩
    have hr' : EndsLive (l ++ (cut p n ++ r')) := by
      rcases List.eq_nil_or_concat' r' with rfl | ⟨r', x, rfl⟩
      · cases startsLive_cons.mp hstarts
      · rw [← List.append_assoc, ← List.append_assoc, endsLive_append_singleton]
        rw [hps, ← List.append_assoc, ← List.append_assoc, endsLive_append_singleton] at hlive
        exact hlive
    change topped hi (l ++ (cut p n ++ r')) = _
    rw [topped_of_endsLive hr', List.append_assoc, List.append_assoc]
  · rw [List.append_assoc] at hps
    refine ⟨a.carve hps hp n hn hle, carve_allocates hps hp hn hle, ?_⟩
    change topped hi (l ++ (cut p n ++ (r' ++ [q]))) = _
    have hassoc : l ++ (cut p n ++ (r' ++ [q])) = (l ++ cut p n ++ r') ++ [q] := by
      simp only [List.append_assoc]
    rw [hassoc, topped_of_free hq]

/-- Allocate from the room at the top. -/
theorem exists_cut_last (h : a.table = l ++ [p]) (hn : 0 < n) (hle : n ≤ p.len) :
    ∃ a' : Arena lo hi, a.Allocates p.start n a' ∧
      a'.table = l ++ [⟨p.start, n, false⟩, ⟨p.start + n, p.len - n, true⟩] := by
  rcases a.table_cases with ⟨-, htable⟩ | ⟨ps, q, hps, hq, htable⟩
  · rw [htable] at h
    obtain ⟨-, hx⟩ := List.append_inj' h rfl
    rw [← List.singleton_inj.mp hx] at hle
    exact absurd hle (by simp only; omega)
  · rw [htable] at h
    obtain ⟨rfl, hx⟩ := List.append_inj' h rfl
    obtain rfl := List.singleton_inj.mp hx
    have hstop : q.stop = hi := by
      have ht := a.tiles
      rw [hps] at ht
      obtain ⟨x, -, -, -, hstop⟩ := tiles_append.mp ht
      exact hstop
    refine ⟨a.carve hps hq n hn hle, carve_allocates hps hq hn hle, ?_⟩
    change topped hi (ps ++ (cut q n ++ [])) = _
    rw [List.append_nil]
    rcases Nat.lt_or_eq_of_le hle with hlt | rfl
    · rw [cut_of_lt hlt, List.append_cons, topped_of_free rfl, ← List.append_cons]
    · rw [cut_self, topped_of_endsLive (endsLive_append_singleton.mpr rfl), Nat.sub_self,
        ← hstop, List.append_assoc]
      rfl

/-! ### Freeing -/

/-- Empty pieces do not count when neighbours are fused. -/
theorem fused_concat_empty (hm : m ≠ []) (s : ℕ) (b : Bool) :
    fused (m ++ [⟨s, 0, b⟩]) = fused m := by
  cases m with
  | nil => exact absurd rfl hm
  | cons p m => simp [fused]

/-- Free the piece `p`, the only live one of the neighbours `m`. -/
theorem exists_fuse (h : a.table = l ++ m ++ r) (hp : p.free = false) (hpm : p ∈ m)
    (honly : ∀ q ∈ m, q.free = false → q = p) (hl : EndsLive l) (hr : StartsLive r)
    (hlast : r = [] → ∃ m' q, m = m' ++ [q] ∧ q.free = true) :
    ∃ a' : Arena lo hi, a.Releases p.start p.len a' ∧ a'.table = l ++ fused m :: r := by
  have hm : m ≠ [] := List.ne_nil_of_mem hpm
  by_cases hr0 : r = []
  · subst hr0
    obtain ⟨m', q, rfl, hq⟩ := hlast rfl
    have hne : p ≠ q := fun heq => by rw [heq, hq] at hp; cases hp
    have hpm' : p ∈ m' := by
      rcases List.mem_append.mp hpm with hpm | hpq
      · exact hpm
      · exact absurd (List.mem_singleton.mp hpq) hne
    have honly' : ∀ x ∈ m', x.free = false → x = p :=
      fun x hx => honly x (List.mem_append_left _ hx)
    have hm' : m' ≠ [] := List.ne_nil_of_mem hpm'
    rw [List.append_nil, ← List.append_assoc] at h
    rcases a.table_cases with ⟨-, htable⟩ | ⟨ps, x, hps, hx, htable⟩
    · rw [htable] at h
      obtain ⟨hps, hx⟩ := List.append_inj' h rfl
      obtain rfl := List.singleton_inj.mp hx
      have hps' : a.pieces = l ++ m' ++ [] := by rw [hps, List.append_nil]
      refine ⟨a.fuse hps' hm' hl startsLive_nil,
        fuse_releases hps' hm' hl startsLive_nil hp hpm' honly', ?_⟩
      rw [fused_concat_empty hm']
      exact topped_of_free rfl
    · rw [htable] at h
      obtain ⟨rfl, hxq⟩ := List.append_inj' h rfl
      obtain rfl := List.singleton_inj.mp hxq
      have hps' : a.pieces = l ++ (m' ++ [x]) ++ [] := by
        rw [hps, List.append_nil, List.append_assoc]
      exact ⟨a.fuse hps' hm hl startsLive_nil,
        fuse_releases hps' hm hl startsLive_nil hp hpm honly, topped_of_free rfl⟩
  · rcases pieces_of_table h hr0 with ⟨r', rfl, hps, hlive⟩ | ⟨r', q, rfl, hq, hps⟩
    · have hr' : StartsLive r' ∧ EndsLive (l ++ fused m :: r') := by
        rcases List.eq_nil_or_concat' r' with rfl | ⟨r', x, rfl⟩
        · cases startsLive_cons.mp hr
        · rw [← List.cons_append, ← List.append_assoc, endsLive_append_singleton]
          rw [hps, ← List.append_assoc, endsLive_append_singleton] at hlive
          refine ⟨?_, hlive⟩
          cases r' with
          | nil => exact startsLive_cons.mpr (startsLive_cons.mp hr)
          | cons y r' => exact startsLive_cons.mpr (startsLive_cons.mp hr)
      refine ⟨a.fuse hps hm hl hr'.1, fuse_releases hps hm hl hr'.1 hp hpm honly, ?_⟩
      change topped hi (l ++ fused m :: r') = _
      rw [topped_of_endsLive hr'.2, List.append_assoc, List.cons_append]
    · refine ⟨a.fuse hps hm hl hr, fuse_releases hps hm hl hr hp hpm honly, ?_⟩
      change topped hi (l ++ fused m :: (r' ++ [q])) = _
      rw [← List.cons_append, ← List.append_assoc, topped_of_free hq]

/-- Free the piece `p` together with those neighbours `y` and `z` that are free. -/
theorem exists_release {y z : List Piece} (h : a.table = l ++ (y ++ p :: z) ++ r)
    (hp : p.free = false) (hy : y = [] ∧ EndsLive l ∨ ∃ q, y = [q] ∧ q.free = true)
    (hz : z = [] ∧ r ≠ [] ∧ StartsLive r ∨ ∃ q, z = [q] ∧ q.free = true) :
    ∃ a' : Arena lo hi, a.Releases p.start p.len a' ∧
      a'.table = l ++ fused (y ++ p :: z) :: r := by
  have hends : EndsLive l := by
    rcases hy with ⟨-, hl⟩ | ⟨q, rfl, hq⟩
    · exact hl
    · have h' : a.table = l ++ q :: (p :: z ++ r) := by rw [h]; simp
      exact (neighbours_of_free h' (List.cons_ne_nil _ _) hq).1
  have hstarts : StartsLive r := by
    rcases hz with ⟨-, -, hr⟩ | ⟨q, rfl, hq⟩
    · exact hr
    · cases r with
      | nil => exact startsLive_nil
      | cons e r =>
        have h' : a.table = (l ++ y ++ [p]) ++ q :: (e :: r) := by rw [h]; simp
        exact (neighbours_of_free h' (List.cons_ne_nil _ _) hq).2
  have hyf : ∀ q ∈ y, q.free = true := by
    rcases hy with ⟨rfl, -⟩ | ⟨p₁, rfl, hp₁⟩
    · simp
    · simpa using hp₁
  have hzf : ∀ q ∈ z, q.free = true := by
    rcases hz with ⟨rfl, -⟩ | ⟨q₃, rfl, hq₃⟩
    · simp
    · simpa using hq₃
  refine exists_fuse h hp (by simp) (fun q hq hqf => eq_of_live hyf hzf hq hqf) hends hstarts
    fun hr => ?_
  · rcases hz with ⟨-, hne, -⟩ | ⟨q, rfl, hq⟩
    · exact absurd hr hne
    · exact ⟨y ++ [p], q, by simp, hq⟩

end Arena

end SccShm
