import Mathlib.Algebra.Ring.Nat
import Mathlib.Data.List.Chain
import Mathlib.Data.List.Sort
import Mathlib.Tactic.Common

/-!
# Tilings of an interval into live and free pieces

What a coalescing allocator is about, independent of any data structure. An
`Arena lo hi` cuts `[lo, hi)` into consecutive nonempty pieces, each live or
free, with no two free neighbours.

* The free pieces are exactly the gaps between live ones (`Arena.free_iff_gap`),
  so an arena is determined by its live pieces (`Arena.ext_live`): what an
  allocator's table looks like cannot depend on its history.
* `Arena.carve` allocates from a free piece, `Arena.fuse` frees a live piece and
  joins it with its free neighbours; both are described by what they do to the
  live pieces.

A concrete allocator is shown to represent an arena before and after each of
its operations.
-/

namespace SccShm

/-! ## Pieces -/

/-- A stretch `[start, start + len)`, free or live. -/
structure Piece : Type where
  /-- first position -/
  start : ℕ
  /-- number of positions -/
  len : ℕ
  /-- available for allocation -/
  free : Bool
  deriving DecidableEq

namespace Piece

/-- One past the last position. -/
def stop (p : Piece) : ℕ := p.start + p.len

instance : Membership ℕ Piece := ⟨fun p u => p.start ≤ u ∧ u < p.stop⟩

theorem mem_iff {p : Piece} {u : ℕ} : u ∈ p ↔ p.start ≤ u ∧ u < p.stop := Iff.rfl

@[simp] theorem stop_mk (s k : ℕ) (b : Bool) : (Piece.mk s k b).stop = s + k := rfl

end Piece

/-! ## Tilings -/

/-- `ps` are nonempty and follow one another without a gap from `lo` to `hi`. -/
def Tiles : ℕ → List Piece → ℕ → Prop
  | lo, [], hi => lo = hi
  | lo, p :: ps, hi => p.start = lo ∧ 0 < p.len ∧ Tiles p.stop ps hi

@[simp] theorem tiles_nil {lo hi : ℕ} : Tiles lo [] hi ↔ lo = hi := Iff.rfl

@[simp] theorem tiles_cons {lo hi : ℕ} {p : Piece} {ps : List Piece} :
    Tiles lo (p :: ps) hi ↔ p.start = lo ∧ 0 < p.len ∧ Tiles p.stop ps hi := Iff.rfl

theorem tiles_append {lo hi : ℕ} {ps qs : List Piece} :
    Tiles lo (ps ++ qs) hi ↔ ∃ m, Tiles lo ps m ∧ Tiles m qs hi := by
  induction ps generalizing lo with
  | nil => simp
  | cons p ps ih =>
    simp only [List.cons_append, tiles_cons, ih]
    refine ⟨?_, ?_⟩
    · rintro ⟨h₁, h₂, m, h₃, h₄⟩
      exact ⟨m, ⟨h₁, h₂, h₃⟩, h₄⟩
    · rintro ⟨m, ⟨h₁, h₂, h₃⟩, h₄⟩
      exact ⟨h₁, h₂, m, h₃, h₄⟩

namespace Tiles

variable {lo hi : ℕ} {ps : List Piece}

theorem le (h : Tiles lo ps hi) : lo ≤ hi := by
  induction ps generalizing lo with
  | nil => exact le_of_eq h
  | cons p ps ih =>
    obtain ⟨hs, hp, ht⟩ := h
    have := ih ht
    simp only [Piece.stop] at this
    omega

/-- Every piece lies inside. -/
theorem bounds (h : Tiles lo ps hi) {p : Piece} (hp : p ∈ ps) :
    lo ≤ p.start ∧ 0 < p.len ∧ p.stop ≤ hi := by
  induction ps generalizing lo with
  | nil => cases hp
  | cons q qs ih =>
    obtain ⟨hs, hq, ht⟩ := h
    rcases List.mem_cons.mp hp with rfl | hp
    · exact ⟨by omega, hq, ht.le⟩
    · obtain ⟨h₁, h₂, h₃⟩ := ih ht hp
      simp only [Piece.stop] at h₁
      exact ⟨by omega, h₂, h₃⟩

theorem pairwise (h : Tiles lo ps hi) : ps.Pairwise fun p q => p.stop ≤ q.start := by
  induction ps generalizing lo with
  | nil => exact List.Pairwise.nil
  | cons q qs ih =>
    exact List.pairwise_cons.mpr ⟨fun p hp => (h.2.2.bounds hp).1, ih h.2.2⟩

theorem pairwise_start_lt (h : Tiles lo ps hi) :
    ps.Pairwise fun p q => p.start < q.start := by
  refine h.pairwise.imp_of_mem fun {p q} hp _ hpq => ?_
  have := (h.bounds hp).2.1
  simp only [Piece.stop] at hpq
  omega

/-- Two pieces are the same or lie apart. -/
theorem apart (h : Tiles lo ps hi) {p q : Piece} (hp : p ∈ ps) (hq : q ∈ ps) :
    p = q ∨ p.stop ≤ q.start ∨ q.stop ≤ p.start := by
  induction ps generalizing lo with
  | nil => cases hp
  | cons x xs ih =>
    rcases List.mem_cons.mp hp with rfl | hp' <;> rcases List.mem_cons.mp hq with rfl | hq'
    · exact Or.inl rfl
    · exact Or.inr (Or.inl (h.2.2.bounds hq').1)
    · exact Or.inr (Or.inr (h.2.2.bounds hp').1)
    · exact ih h.2.2 hp' hq'

/-- Pieces sharing a position are the same. -/
theorem eq_of_mem (h : Tiles lo ps hi) {p q : Piece} (hp : p ∈ ps) (hq : q ∈ ps) {u : ℕ}
    (hup : u ∈ p) (huq : u ∈ q) : p = q := by
  rw [Piece.mem_iff] at hup huq
  rcases h.apart hp hq with heq | hlt | hlt
  · exact heq
  · omega
  · omega

/-- A piece is determined by where it starts. -/
theorem eq_of_start (h : Tiles lo ps hi) {p q : Piece} (hp : p ∈ ps) (hq : q ∈ ps)
    (hs : p.start = q.start) : p = q := by
  have hp' := (h.bounds hp).2.1
  have hq' := (h.bounds hq).2.1
  refine h.eq_of_mem hp hq (u := p.start) ⟨le_refl _, ?_⟩ ⟨le_of_eq hs.symm, ?_⟩
  · simp only [Piece.stop]; omega
  · simp only [Piece.stop]; omega

/-- The pieces on both sides of `p` are those that start elsewhere. -/
theorem mem_sides {l r : List Piece} {p q : Piece} (h : Tiles lo (l ++ p :: r) hi) :
    q ∈ l ∨ q ∈ r ↔ q ∈ l ++ p :: r ∧ q.start ≠ p.start := by
  have hlt := h.pairwise_start_lt
  rw [List.pairwise_append, List.pairwise_cons] at hlt
  obtain ⟨-, ⟨hr, -⟩, hlr⟩ := hlt
  rw [List.mem_append, List.mem_cons]
  refine ⟨?_, ?_⟩
  · rintro (hq | hq)
    · exact ⟨Or.inl hq, (hlr q hq p List.mem_cons_self).ne⟩
    · exact ⟨Or.inr (Or.inr hq), (hr q hq).ne'⟩
  · rintro ⟨hq | rfl | hq, hne⟩
    · exact Or.inl hq
    · exact absurd rfl hne
    · exact Or.inr hq

/-- The pieces cover the interval. -/
theorem cover (h : Tiles lo ps hi) {u : ℕ} (hlo : lo ≤ u) (hhi : u < hi) :
    ∃ p ∈ ps, u ∈ p := by
  induction ps generalizing lo with
  | nil => rw [tiles_nil] at h; omega
  | cons q qs ih =>
    obtain ⟨hs, hq, ht⟩ := h
    by_cases hu : u < q.stop
    · exact ⟨q, List.mem_cons_self, by omega, hu⟩
    · obtain ⟨p, hp, hup⟩ := ih ht (by omega)
      exact ⟨p, List.mem_cons_of_mem _ hp, hup⟩

end Tiles

/-- No two free pieces are neighbours. -/
def Coalesced (ps : List Piece) : Prop :=
  ps.IsChain fun p q => ¬ (p.free = true ∧ q.free = true)

/-- The last piece, if any, is live. -/
def EndsLive (ps : List Piece) : Prop := ∀ p ∈ ps.getLast?, p.free = false

/-- The first piece, if any, is live. -/
def StartsLive (ps : List Piece) : Prop := ∀ p ∈ ps.head?, p.free = false

@[simp] theorem endsLive_nil : EndsLive [] := by simp [EndsLive]

@[simp] theorem endsLive_append_singleton {ps : List Piece} {p : Piece} :
    EndsLive (ps ++ [p]) ↔ p.free = false := by simp [EndsLive]

@[simp] theorem startsLive_nil : StartsLive [] := by simp [StartsLive]

@[simp] theorem startsLive_cons {ps : List Piece} {p : Piece} :
    StartsLive (p :: ps) ↔ p.free = false := by simp [StartsLive]

theorem endsLive_or (ps : List Piece) :
    EndsLive ps ∨ ∃ qs q, ps = qs ++ [q] ∧ q.free = true := by
  rcases List.eq_nil_or_concat' ps with rfl | ⟨qs, q, rfl⟩
  · exact Or.inl endsLive_nil
  · cases hq : q.free
    · exact Or.inl (endsLive_append_singleton.mpr hq)
    · exact Or.inr ⟨qs, q, rfl, hq⟩

theorem startsLive_or (ps : List Piece) :
    StartsLive ps ∨ ∃ q qs, ps = q :: qs ∧ q.free = true := by
  cases ps with
  | nil => exact Or.inl startsLive_nil
  | cons q qs =>
    cases hq : q.free
    · exact Or.inl (startsLive_cons.mpr hq)
    · exact Or.inr ⟨q, qs, rfl, hq⟩

namespace Coalesced

variable {l r ps : List Piece} {p q : Piece}

theorem left (h : Coalesced (l ++ r)) : Coalesced l := List.IsChain.left_of_append h

theorem right (h : Coalesced (l ++ r)) : Coalesced r := List.IsChain.right_of_append h

/-- Before a free piece stands a live one. -/
theorem endsLive (h : Coalesced (l ++ p :: r)) (hp : p.free = true) : EndsLive l := by
  intro q hq
  have := (List.isChain_append.mp h).2.2 q hq p rfl
  simpa [hp] using this

/-- After a free piece stands a live one. -/
theorem startsLive (h : Coalesced (l ++ p :: r)) (hp : p.free = true) : StartsLive r := by
  intro q hq
  have := (List.isChain_cons.mp h.right).1 q hq
  simpa [hp] using this

theorem append_cons (hl : Coalesced l) (hr : Coalesced r)
    (hpl : p.free = true → EndsLive l) (hpr : p.free = true → StartsLive r) :
    Coalesced (l ++ p :: r) := by
  refine List.isChain_append.mpr ⟨hl, List.isChain_cons.mpr ⟨?_, hr⟩, ?_⟩
  · rintro q hq ⟨hp, hq'⟩
    rw [hpr hp q hq] at hq'
    cases hq'
  · rintro q hq x hx ⟨hq', hp⟩
    obtain rfl : p = x := by simpa using hx
    rw [hpl hp q hq] at hq'
    cases hq'

end Coalesced

/-! ## Gaps -/

/-- `[i, i + n)` and `[j, j + m)` have no position in common. -/
def Apart (i n j m : ℕ) : Prop := ∀ u, ¬ ((i ≤ u ∧ u < i + n) ∧ j ≤ u ∧ u < j + m)

theorem apart_of_le {i n j m : ℕ} (h : i + n ≤ j ∨ j + m ≤ i) : Apart i n j m := by
  intro u hu
  omega

/-- Some range of `L` covers position `u`. -/
def Covered (L : ℕ → ℕ → Prop) (u : ℕ) : Prop := ∃ i k, L i k ∧ i ≤ u ∧ u < i + k

/-- `[i, i + k)` is a maximal stretch of `[lo, hi)` that no range of `L` touches. -/
structure IsGap (L : ℕ → ℕ → Prop) (lo hi i k : ℕ) : Prop where
  pos : 0 < k
  lo_le : lo ≤ i
  le_hi : i + k ≤ hi
  empty : ∀ u, i ≤ u → u < i + k → ¬ Covered L u
  left : i = lo ∨ Covered L (i - 1)
  right : i + k = hi ∨ Covered L (i + k)

/-- Gaps that share a position are the same. -/
theorem IsGap.eq_of_mem {L : ℕ → ℕ → Prop} {lo hi i k j m u : ℕ} (h : IsGap L lo hi i k)
    (h' : IsGap L lo hi j m) (hu : i ≤ u ∧ u < i + k) (hu' : j ≤ u ∧ u < j + m) :
    i = j ∧ k = m := by
  -- a gap beginning (ending) strictly inside the other would have a covered neighbour there
  have starts : ∀ {i k j m : ℕ}, IsGap L lo hi i k → IsGap L lo hi j m →
      i ≤ u ∧ u < i + k → j ≤ u ∧ u < j + m → i ≤ j := by
    intro i k j m h h' hu hu'
    by_contra hlt
    have := h'.lo_le
    rcases h.left with hl | hl
    · omega
    · exact h'.empty (i - 1) (by omega) (by omega) hl
  have stops : ∀ {i k j m : ℕ}, IsGap L lo hi i k → IsGap L lo hi j m →
      i ≤ u ∧ u < i + k → j ≤ u ∧ u < j + m → i + k ≤ j + m := by
    intro i k j m h h' hu hu'
    by_contra hlt
    have := h.le_hi
    rcases h'.right with hr | hr
    · omega
    · exact h.empty (j + m) (by omega) (by omega) hr
  have h₁ := starts h h' hu hu'
  have h₂ := starts h' h hu' hu
  have h₃ := stops h h' hu hu'
  have h₄ := stops h' h hu' hu
  omega

/-! ## Arenas -/

/-- A coalesced tiling of `[lo, hi)`. -/
structure Arena (lo hi : ℕ) : Type where
  /-- the pieces, in address order -/
  pieces : List Piece
  tiles : Tiles lo pieces hi
  coalesced : Coalesced pieces

namespace Arena

variable {lo hi : ℕ} (a b : Arena lo hi)

/-- `[i, i + k)` is allocated. -/
def Live (i k : ℕ) : Prop := ⟨i, k, false⟩ ∈ a.pieces

/-- `[i, i + k)` is a free piece. -/
def Free (i k : ℕ) : Prop := ⟨i, k, true⟩ ∈ a.pieces

/-- The arena with nothing allocated. -/
def whole (h : lo < hi) : Arena lo hi where
  pieces := [⟨lo, hi - lo, true⟩]
  tiles := by simp only [tiles_cons, tiles_nil, Piece.stop_mk, true_and]; omega
  coalesced := List.IsChain.singleton _

@[simp] theorem not_live_whole (h : lo < hi) (i k : ℕ) : ¬ (whole h).Live i k := by
  simp [Live, whole]

variable {a b}

theorem Live.bounds {i k : ℕ} (h : a.Live i k) : lo ≤ i ∧ 0 < k ∧ i + k ≤ hi :=
  a.tiles.bounds h

theorem Free.bounds {i k : ℕ} (h : a.Free i k) : lo ≤ i ∧ 0 < k ∧ i + k ≤ hi :=
  a.tiles.bounds h

/-- Live ranges are the same or disjoint. -/
theorem Live.apart {i k j m : ℕ} (h : a.Live i k) (h' : a.Live j m) :
    (i = j ∧ k = m) ∨ i + k ≤ j ∨ j + m ≤ i := by
  rcases a.tiles.apart h h' with heq | hlt
  · simp only [Piece.mk.injEq, and_true] at heq
    exact Or.inl heq
  · exact Or.inr hlt

/-- A live range and a free piece are disjoint. -/
theorem Live.apart_free {i k j m : ℕ} (h : a.Live i k) (h' : a.Free j m) :
    i + k ≤ j ∨ j + m ≤ i := by
  rcases a.tiles.apart h h' with heq | hlt
  · simp at heq
  · exact hlt

/-- No free piece begins where a live range does. -/
theorem Live.not_free {i k m : ℕ} (h : a.Live i k) : ¬ a.Free i m := by
  intro h'
  cases a.tiles.eq_of_start h h' rfl

theorem mem_sides {l r : List Piece} {p q : Piece} (h : a.pieces = l ++ p :: r) :
    q ∈ l ∨ q ∈ r ↔ q ∈ a.pieces ∧ q.start ≠ p.start := by
  rw [h]
  exact Tiles.mem_sides (h ▸ a.tiles)

theorem covered_iff {u : ℕ} : Covered a.Live u ↔ ∃ p ∈ a.pieces, p.free = false ∧ u ∈ p := by
  refine ⟨?_, ?_⟩
  · rintro ⟨i, k, h, hu⟩
    exact ⟨_, h, rfl, hu⟩
  · rintro ⟨⟨i, k, f⟩, hp, hf, hu⟩
    obtain rfl : f = false := hf
    exact ⟨i, k, hp, hu⟩

theorem Free.isGap {i k : ℕ} (h : a.Free i k) : IsGap a.Live lo hi i k := by
  obtain ⟨hlo, hpos, hhi⟩ := h.bounds
  obtain ⟨l, r, hlr⟩ := List.append_of_mem h
  have ht := a.tiles
  have hc := a.coalesced
  rw [hlr] at ht hc
  obtain ⟨m, htl, hm, -, htr⟩ := tiles_append.mp ht
  obtain rfl : i = m := hm
  refine ⟨hpos, hlo, hhi, ?_, ?_, ?_⟩
  · rintro u hiu huk ⟨j, n, hL, hj, hn⟩
    rcases hL.apart_free h with hlt | hlt <;> omega
  · -- the piece before a free one is live
    rcases List.eq_nil_or_concat' l with rfl | ⟨l', q, rfl⟩
    · exact Or.inl htl.symm
    · have hq : q.free = false := endsLive_append_singleton.mp (hc.endsLive rfl)
      obtain ⟨s, -, hqs, hql, hqt⟩ := tiles_append.mp htl
      rw [tiles_nil] at hqt
      refine Or.inr (covered_iff.mpr ⟨q, by rw [hlr]; simp, hq, ?_⟩)
      simp only [Piece.mem_iff, Piece.stop] at hqt ⊢
      omega
  · -- and so is the piece after it
    cases r with
    | nil => exact Or.inl htr
    | cons q r =>
      have hq : q.free = false := startsLive_cons.mp (hc.startsLive rfl)
      obtain ⟨hqs, hql, -⟩ := htr
      refine Or.inr (covered_iff.mpr ⟨q, by rw [hlr]; simp, hq, ?_⟩)
      simp only [Piece.mem_iff, Piece.stop] at hqs ⊢
      omega

/-- **The free pieces are the gaps between the live ones.** -/
theorem free_iff_gap {i k : ℕ} : a.Free i k ↔ IsGap a.Live lo hi i k := by
  refine ⟨Free.isGap, fun h => ?_⟩
  obtain ⟨⟨j, m, f⟩, hp, hu⟩ := a.tiles.cover (u := i) h.lo_le
    (by have := h.pos; have := h.le_hi; omega)
  rw [Piece.mem_iff, Piece.stop_mk] at hu
  cases f with
  | false => exact absurd ⟨j, m, hp, hu⟩ (h.empty i (le_refl _) (by have := h.pos; omega))
  | true =>
    have hgap : IsGap a.Live lo hi j m := Free.isGap hp
    obtain ⟨rfl, rfl⟩ := h.eq_of_mem hgap (u := i) ⟨le_refl _, by have := h.pos; omega⟩ hu
    exact hp

/-- **An arena is determined by what is live in it.** -/
theorem ext_live (h : ∀ i k, a.Live i k ↔ b.Live i k) : a = b := by
  have hlive : a.Live = b.Live := funext fun i => funext fun k => propext (h i k)
  have hmem : ∀ p, p ∈ a.pieces ↔ p ∈ b.pieces := by
    rintro ⟨i, k, f⟩
    cases f with
    | false => exact h i k
    | true =>
      change a.Free i k ↔ b.Free i k
      rw [free_iff_gap, free_iff_gap, hlive]
  have : Std.Irrefl fun p q : Piece => p.start < q.start := ⟨fun p => lt_irrefl p.start⟩
  have : Std.Antisymm fun p q : Piece => p.start < q.start :=
    ⟨fun p q h₁ h₂ => absurd (lt_trans h₁ h₂) (lt_irrefl _)⟩
  have heq : a.pieces = b.pieces :=
    a.tiles.pairwise_start_lt.eq_of_mem_iff b.tiles.pairwise_start_lt hmem
  cases a
  cases b
  subst heq
  rfl

/-! ### Allocating -/

/-- Cut `n` positions off the low end of `p`. -/
def cut (p : Piece) (n : ℕ) : List Piece :=
  ⟨p.start, n, false⟩ :: if p.len = n then [] else [⟨p.start + n, p.len - n, true⟩]

theorem cut_self (p : Piece) : cut p p.len = [⟨p.start, p.len, false⟩] := by simp [cut]

theorem cut_of_lt {p : Piece} {n : ℕ} (h : n < p.len) :
    cut p n = [⟨p.start, n, false⟩, ⟨p.start + n, p.len - n, true⟩] := by
  rw [cut, if_neg (by omega)]

theorem tiles_cut {p : Piece} {n : ℕ} (hn : 0 < n) (hle : n ≤ p.len) :
    Tiles p.start (cut p n) p.stop := by
  rcases Nat.lt_or_eq_of_le hle with hlt | rfl
  · rw [cut_of_lt hlt]
    simp only [tiles_cons, tiles_nil, Piece.stop, true_and]
    omega
  · rw [cut_self]
    exact ⟨rfl, hn, rfl⟩

/-- Allocate the low end of the free piece `p`. -/
def carve (a : Arena lo hi) {l r : List Piece} {p : Piece} (h : a.pieces = l ++ p :: r)
    (hp : p.free = true) (n : ℕ) (hn : 0 < n) (hle : n ≤ p.len) : Arena lo hi where
  pieces := l ++ (cut p n ++ r)
  tiles := by
    have ht := a.tiles
    rw [h] at ht
    obtain ⟨m, htl, hm, -, htr⟩ := tiles_append.mp ht
    subst hm
    exact tiles_append.mpr ⟨_, htl, tiles_append.mpr ⟨_, tiles_cut hn hle, htr⟩⟩
  coalesced := by
    have hc := a.coalesced
    rw [h] at hc
    have hr : Coalesced r := List.IsChain.tail hc.right
    rcases Nat.lt_or_eq_of_le hle with hlt | rfl
    · rw [cut_of_lt hlt]
      have hrest : Coalesced ([] ++ (⟨p.start + n, p.len - n, true⟩ : Piece) :: r) :=
        Coalesced.append_cons List.IsChain.nil hr (fun _ => endsLive_nil)
          (fun _ => hc.startsLive hp)
      exact Coalesced.append_cons hc.left hrest (fun h => by cases h) (fun h => by cases h)
    · rw [cut_self]
      exact Coalesced.append_cons hc.left hr (fun h => by cases h) (fun h => by cases h)

theorem live_carve {l r : List Piece} {p : Piece} (h : a.pieces = l ++ p :: r)
    (hp : p.free = true) {n : ℕ} (hn : 0 < n) (hle : n ≤ p.len) (i k : ℕ) :
    (a.carve h hp n hn hle).Live i k ↔ a.Live i k ∨ (i = p.start ∧ k = n) := by
  have hne : ¬ (⟨i, k, false⟩ : Piece) = p := fun heq => by rw [← heq] at hp; cases hp
  have hcut : (⟨i, k, false⟩ : Piece) ∈ cut p n ↔ i = p.start ∧ k = n := by
    unfold cut
    split <;> simp
  simp only [Live, carve, h, List.mem_append, List.mem_cons, hcut, hne, false_or]
  rw [or_comm (a := i = p.start ∧ k = n), or_assoc]

/-! ### Freeing -/

/-- The free piece that takes the place of the neighbours `m`. -/
def fused (m : List Piece) : Piece :=
  ⟨(m.head?.map Piece.start).getD 0, (m.map Piece.len).sum, true⟩

theorem sum_len_of_tiles {s e : ℕ} {m : List Piece} (h : Tiles s m e) :
    s + (m.map Piece.len).sum = e := by
  induction m generalizing s with
  | nil => simpa using h
  | cons p m ih =>
    obtain ⟨hs, -, ht⟩ := h
    have := ih ht
    simp only [Piece.stop] at this
    rw [List.map_cons, List.sum_cons]
    omega

theorem fused_eq {s e : ℕ} {m : List Piece} (h : Tiles s m e) (hm : m ≠ []) :
    fused m = ⟨s, (m.map Piece.len).sum, true⟩ := by
  cases m with
  | nil => exact absurd rfl hm
  | cons p m =>
    obtain ⟨rfl, -⟩ := h
    rfl

theorem tiles_fused {s e : ℕ} {m : List Piece} (h : Tiles s m e) (hm : m ≠ []) :
    Tiles s [fused m] e := by
  rw [fused_eq h hm]
  refine ⟨rfl, ?_, sum_len_of_tiles h⟩
  obtain ⟨p, m, rfl⟩ := List.exists_cons_of_ne_nil hm
  exact Nat.lt_of_lt_of_le h.2.1 (Nat.le_add_right _ _)

/-- Replace the neighbours `m`, which stand between live pieces, by one free piece. -/
def fuse (a : Arena lo hi) {l m r : List Piece} (h : a.pieces = l ++ m ++ r) (hm : m ≠ [])
    (hl : EndsLive l) (hr : StartsLive r) : Arena lo hi where
  pieces := l ++ fused m :: r
  tiles := by
    have ht := a.tiles
    rw [h] at ht
    obtain ⟨e, ht, htr⟩ := tiles_append.mp ht
    obtain ⟨s, htl, htm⟩ := tiles_append.mp ht
    obtain ⟨hs, hpos, he⟩ := tiles_fused htm hm
    rw [tiles_nil] at he
    exact tiles_append.mpr ⟨s, htl, hs, hpos, by rw [he]; exact htr⟩
  coalesced := by
    have hc := a.coalesced
    rw [h] at hc
    exact Coalesced.append_cons hc.left.left hc.right (fun _ => hl) (fun _ => hr)

theorem live_fuse {l m r : List Piece} (h : a.pieces = l ++ m ++ r) (hm : m ≠ [])
    (hl : EndsLive l) (hr : StartsLive r) (i k : ℕ) :
    (a.fuse h hm hl hr).Live i k ↔ a.Live i k ∧ (⟨i, k, false⟩ : Piece) ∉ m := by
  have hnd : (l ++ m ++ r).Nodup := by
    rw [← h]
    exact a.tiles.pairwise_start_lt.imp fun hlt heq => by rw [heq] at hlt; omega
  have hne : ¬ (⟨i, k, false⟩ : Piece) = fused m := fun heq => by
    have := congrArg Piece.free heq
    cases this
  obtain ⟨hlm, -, hlmr⟩ := List.nodup_append.mp hnd
  obtain ⟨-, -, hlm⟩ := List.nodup_append.mp hlm
  simp only [Live, fuse, h, List.mem_append, List.mem_cons, hne, false_or]
  refine ⟨?_, ?_⟩
  · rintro (hil | hir)
    · exact ⟨Or.inl (Or.inl hil), fun him => hlm _ hil _ him rfl⟩
    · exact ⟨Or.inr hir, fun him => hlmr _ (List.mem_append_right _ him) _ hir rfl⟩
  · rintro ⟨(hil | him) | hir, hnm⟩
    · exact Or.inl hil
    · exact absurd him hnm
    · exact Or.inr hir

/-! ### The abstract allocator -/

/-- From `a` to `b`, the range `[i, i + n)` is taken from the low end of a free piece. -/
def Allocates (a : Arena lo hi) (i n : ℕ) (b : Arena lo hi) : Prop :=
  0 < n ∧ (∃ m, a.Free i m ∧ n ≤ m) ∧
    ∀ j k, b.Live j k ↔ a.Live j k ∨ (j = i ∧ k = n)

/-- From `a` to `b`, the live range `[i, i + n)` is given back. -/
def Releases (a : Arena lo hi) (i n : ℕ) (b : Arena lo hi) : Prop :=
  a.Live i n ∧ ∀ j k, b.Live j k ↔ a.Live j k ∧ ¬ (j = i ∧ k = n)

/-- Nothing live began where a range is taken. -/
theorem Allocates.fresh {i n k : ℕ} (h : a.Allocates i n b) : ¬ a.Live i k := by
  obtain ⟨m, hm, -⟩ := h.2.1
  exact fun hl => hl.not_free hm

theorem carve_allocates {l r : List Piece} {p : Piece} (h : a.pieces = l ++ p :: r)
    (hp : p.free = true) {n : ℕ} (hn : 0 < n) (hle : n ≤ p.len) :
    a.Allocates p.start n (a.carve h hp n hn hle) := by
  refine ⟨hn, ⟨p.len, ?_, hle⟩, live_carve h hp hn hle⟩
  have : p = ⟨p.start, p.len, true⟩ := by rw [← hp]
  rw [Free, ← this, h]
  exact List.mem_append_right _ List.mem_cons_self

/-- An allocation is determined by the range it takes: it carves it from the free
piece that begins there. -/
theorem Allocates.pieces {i n m : ℕ} (h : a.Allocates i n b) (hm : a.Free i m) (hle : n ≤ m) :
    ∃ l r, a.pieces = l ++ ⟨i, m, true⟩ :: r ∧ b.pieces = l ++ (cut ⟨i, m, true⟩ n ++ r) := by
  obtain ⟨l, r, hl⟩ := List.append_of_mem hm
  have hb : b = a.carve hl rfl n h.1 hle := ext_live fun j k => by rw [h.2.2, live_carve]
  exact ⟨l, r, hl, congrArg Arena.pieces hb⟩

/-- What an allocation from the free piece at `i` does to the pieces. -/
theorem Allocates.mem_pieces {i n m : ℕ} (h : a.Allocates i n b) (hm : a.Free i m) (hle : n ≤ m)
    {p : Piece} :
    p ∈ b.pieces ↔ (p ∈ a.pieces ∧ p.start ≠ i) ∨ p = ⟨i, n, false⟩ ∨
      (n < m ∧ p = ⟨i + n, m - n, true⟩) := by
  obtain ⟨l, r, hl, hb⟩ := h.pieces hm hle
  have hside : p ∈ l ∨ p ∈ r ↔ p ∈ a.pieces ∧ p.start ≠ i := mem_sides hl
  have hcut : p ∈ cut ⟨i, m, true⟩ n ↔ p = ⟨i, n, false⟩ ∨
      (n < m ∧ p = ⟨i + n, m - n, true⟩) := by
    rcases Nat.lt_or_eq_of_le hle with hlt | rfl
    · rw [cut_of_lt hlt]
      simp [hlt]
    · simp [cut]
  rw [← hside, ← hcut, hb, List.mem_append, List.mem_append,
    or_comm (a := p ∈ cut ⟨i, m, true⟩ n), or_assoc]

/-- A stretch that no live range touches lies in one free piece. -/
theorem exists_free_of_uncovered {i n : ℕ} (hn : 0 < n) (hlo : lo ≤ i) (hhi : i + n ≤ hi)
    (h : ∀ u, i ≤ u → u < i + n → ¬ Covered a.Live u) :
    ∃ j m, a.Free j m ∧ j ≤ i ∧ i + n ≤ j + m := by
  obtain ⟨⟨j, m, f⟩, hp, hu⟩ := a.tiles.cover (u := i) hlo (by omega)
  rw [Piece.mem_iff, Piece.stop_mk] at hu
  cases f with
  | false => exact absurd ⟨j, m, hp, hu⟩ (h i (le_refl _) (by omega))
  | true =>
    have hgap : IsGap a.Live lo hi j m := Free.isGap hp
    refine ⟨j, m, hp, hu.1, ?_⟩
    by_contra hlt
    -- otherwise the position behind the piece is in the stretch, and covered
    rcases hgap.right with heq | hcov
    · omega
    · exact h (j + m) (by omega) (by omega) hcov

/-- Between free pieces, only `p` can be live. -/
theorem eq_of_live {x y : List Piece} {p q : Piece} (hx : ∀ z ∈ x, z.free = true)
    (hy : ∀ z ∈ y, z.free = true) (hq : q ∈ x ++ p :: y) (hqf : q.free = false) : q = p := by
  rw [List.mem_append, List.mem_cons] at hq
  rcases hq with hq | rfl | hq
  · rw [hx q hq] at hqf
    cases hqf
  · rfl
  · rw [hy q hq] at hqf
    cases hqf

/-- Fusing neighbours of which exactly `p` is live gives `p` back. -/
theorem fuse_releases {l m r : List Piece} (h : a.pieces = l ++ m ++ r) (hm : m ≠ [])
    (hl : EndsLive l) (hr : StartsLive r) {p : Piece} (hp : p.free = false) (hpm : p ∈ m)
    (honly : ∀ q ∈ m, q.free = false → q = p) :
    a.Releases p.start p.len (a.fuse h hm hl hr) := by
  have heta : (⟨p.start, p.len, false⟩ : Piece) = p := by rw [← hp]
  refine ⟨?_, fun i k => ?_⟩
  · rw [Live, heta, h]
    exact List.mem_append_left _ (List.mem_append_right _ hpm)
  · rw [live_fuse]
    refine and_congr_right fun _ => not_congr ⟨fun him => ?_, ?_⟩
    · have := honly _ him rfl
      rw [← this]
      exact ⟨rfl, rfl⟩
    · rintro ⟨rfl, rfl⟩
      rw [heta]
      exact hpm

end Arena

end SccShm
