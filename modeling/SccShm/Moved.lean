import SccShm.Topped

/-!
# Arenas at different places

An allocator whose decisions depend on lengths and on the order of its pieces only
works the same way wherever its memory lies. Two arenas are `Alike` if the same ranges
are live in them, counted from where each begins; then all pieces of the one are
those of the other, moved (`Arena.Alike.pieces`).
-/

namespace SccShm

/-- The same piece, `d` positions higher. -/
def Piece.move (d : ℕ) (p : Piece) : Piece := ⟨d + p.start, p.len, p.free⟩

namespace Piece

@[simp] theorem start_move (d : ℕ) (p : Piece) : (p.move d).start = d + p.start := rfl

@[simp] theorem len_move (d : ℕ) (p : Piece) : (p.move d).len = p.len := rfl

@[simp] theorem free_move (d : ℕ) (p : Piece) : (p.move d).free = p.free := rfl

@[simp] theorem stop_move (d : ℕ) (p : Piece) : (p.move d).stop = d + p.stop :=
  Nat.add_assoc ..

theorem move_injective (d : ℕ) : Function.Injective (Piece.move d) := by
  intro p q h
  obtain ⟨hs, hl, hf⟩ := Piece.mk.inj h
  cases p
  cases q
  rw [Piece.mk.injEq]
  exact ⟨Nat.add_left_cancel hs, hl, hf⟩

end Piece

theorem tiles_move {lo hi d : ℕ} {ps : List Piece} :
    Tiles (d + lo) (ps.map (Piece.move d)) (d + hi) ↔ Tiles lo ps hi := by
  induction ps generalizing lo with
  | nil => simp
  | cons p ps ih =>
    rw [List.map_cons, tiles_cons, tiles_cons, Piece.stop_move, ih, Piece.start_move,
      Piece.len_move, Nat.add_left_cancel_iff]

theorem coalesced_move {d : ℕ} {ps : List Piece} :
    Coalesced (ps.map (Piece.move d)) ↔ Coalesced ps := by
  rw [Coalesced, List.isChain_map]
  rfl

theorem topped_move {hi d : ℕ} {ps : List Piece} :
    topped (d + hi) (ps.map (Piece.move d)) = (topped hi ps).map (Piece.move d) := by
  have hlast : (ps.map (Piece.move d)).getLast?.any Piece.free = ps.getLast?.any Piece.free := by
    rw [List.getLast?_map]
    cases ps.getLast? <;> rfl
  rw [topped, topped, hlast]
  split
  · rfl
  · rw [List.map_append]
    rfl

namespace Arena

variable {n d b₁ b₂ : ℕ} {c c' : Arena 0 n} {a₁ a₁' : Arena b₁ (b₁ + n)}
  {a₂ a₂' : Arena b₂ (b₂ + n)}

/-- An arena is its copy at `0`, moved. -/
theorem exists_move (a : Arena d (d + n)) :
    ∃ c : Arena 0 n, a.pieces = c.pieces.map (Piece.move d) := by
  have hpieces : a.pieces
      = (a.pieces.map fun p => ⟨p.start - d, p.len, p.free⟩).map (Piece.move d) := by
    rw [List.map_map]
    refine (List.map_id _).symm.trans (List.map_congr_left fun p hp => ?_)
    have hlo := (a.tiles.bounds hp).1
    cases p
    simp only [Function.comp, Piece.move, id, Piece.mk.injEq, and_true] at *
    omega
  have ht := a.tiles
  have hc := a.coalesced
  rw [hpieces] at ht hc
  exact ⟨⟨_, tiles_move.mp ht, coalesced_move.mp hc⟩, hpieces⟩

theorem live_move (h : a₁.pieces = c.pieces.map (Piece.move b₁)) {i k : ℕ} :
    a₁.Live (b₁ + i) k ↔ c.Live i k := by
  rw [Live, Live, h]
  exact List.mem_map_of_injective (Piece.move_injective b₁) (a := ⟨i, k, false⟩)

/-- The same ranges are live in both, counted from where each begins. -/
def Alike (a₁ : Arena b₁ (b₁ + n)) (a₂ : Arena b₂ (b₂ + n)) : Prop :=
  ∀ i k, a₁.Live (b₁ + i) k ↔ a₂.Live (b₂ + i) k

/-- **Arenas that are alike are copies of one arena.** -/
theorem Alike.pieces (h : a₁.Alike a₂) : ∃ c : Arena 0 n,
    a₁.pieces = c.pieces.map (Piece.move b₁) ∧ a₂.pieces = c.pieces.map (Piece.move b₂) := by
  obtain ⟨c, hc⟩ := a₁.exists_move
  obtain ⟨c', hc'⟩ := a₂.exists_move
  obtain rfl : c = c' := ext_live fun i k => by rw [← live_move hc, ← live_move hc', h]
  exact ⟨c, hc, hc'⟩

theorem Alike.table (h : a₁.Alike a₂) : ∃ ps : List Piece,
    a₁.table = ps.map (Piece.move b₁) ∧ a₂.table = ps.map (Piece.move b₂) := by
  obtain ⟨c, hc, hc'⟩ := h.pieces
  refine ⟨topped n c.pieces, ?_, ?_⟩
  · rw [Arena.table, hc, topped_move]
  · rw [Arena.table, hc', topped_move]

theorem alike_whole (hn : 0 < n) :
    (whole (Nat.lt_add_of_pos_right hn : b₁ < b₁ + n)).Alike
      (whole (Nat.lt_add_of_pos_right hn : b₂ < b₂ + n)) := by
  intro i k
  simp

/-- Taking the same range in both keeps them alike. -/
theorem Alike.allocates (h : a₁.Alike a₂) {i m : ℕ} (h₁ : a₁.Allocates (b₁ + i) m a₁')
    (h₂ : a₂.Allocates (b₂ + i) m a₂') : a₁'.Alike a₂' := by
  intro j k
  rw [h₁.2.2, h₂.2.2, h, Nat.add_left_cancel_iff, Nat.add_left_cancel_iff]

/-- Giving back the ranges at the same place keeps them alike. -/
theorem Alike.releases (h : a₁.Alike a₂) {i m m' : ℕ} (h₁ : a₁.Releases (b₁ + i) m a₁')
    (h₂ : a₂.Releases (b₂ + i) m' a₂') : a₁'.Alike a₂' := by
  -- the range given back is the one that begins there
  obtain rfl : m = m' := by
    rcases ((h _ _).mp h₁.1).apart h₂.1 with heq | hle
    · exact heq.2
    · have := h₁.1.bounds
      have := h₂.1.bounds
      omega
  intro j k
  rw [h₁.2, h₂.2, h, Nat.add_left_cancel_iff, Nat.add_left_cancel_iff]

end Arena

end SccShm
