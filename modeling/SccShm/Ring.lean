import Mathlib.Data.List.Basic
import Mathlib.Data.List.Range
import Mathlib.Tactic.Common

/-!
# Circular buffers

A queue kept in `N` slots between a first position `s` and a last one `e`, both
taken modulo `N`, one slot always staying empty: `RingAt buf N s e xs` says that
the slots from `s` to `e` hold `xs`. Elements are written and read in stretches
that do not wrap around.

* `RingAt.push` — writing a stretch at `e` appends it.
* `RingAt.pop` — moving `s` on drops elements at the front.
* `RingAt.front` — a stretch read from inside the queue.
-/

namespace SccShm

variable {α : Type} {buf : ℕ → α} {N s e i j k : ℕ} {xs ys : List α}

/-! ## Slots -/

/-- The `k` slots from `s` on, wrapping around. -/
def slots (buf : ℕ → α) (N s k : ℕ) : List α :=
  (List.range k).map fun j => buf ((s + j) % N)

/-- The `k` slots from `s` on, in a straight line: what `memcpy` reads. -/
def stretch (buf : ℕ → α) (s k : ℕ) : List α := (List.range k).map fun j => buf (s + j)

/-- The buffer with `xs` written in a straight line from `e` on. -/
def putAt (buf : ℕ → α) (e : ℕ) (xs : List α) (i : ℕ) : α :=
  if e ≤ i then (xs[i - e]?).getD (buf i) else buf i

@[simp] theorem length_slots : (slots buf N s k).length = k := by simp [slots]

@[simp] theorem length_stretch : (stretch buf s k).length = k := by simp [stretch]

theorem slots_add : slots buf N s (j + k) = slots buf N s j ++ slots buf N ((s + j) % N) k := by
  rw [slots, List.range_add, List.map_append, List.map_map]
  refine congrArg₂ _ rfl (List.map_congr_left fun i _ => ?_)
  rw [Function.comp_apply, Nat.mod_add_mod, Nat.add_assoc]

/-- In a line, nothing wraps around. -/
theorem slots_eq_stretch (h : s + k ≤ N) : slots buf N s k = stretch buf s k := by
  apply List.map_congr_left
  intro i hi
  rw [List.mem_range] at hi
  rw [Nat.mod_eq_of_lt (by omega)]

theorem putAt_of_lt (h : i < e) : putAt buf e xs i = buf i := if_neg (by omega)

theorem putAt_of_le (h : e + xs.length ≤ i) : putAt buf e xs i = buf i := by
  rw [putAt, if_pos (by omega), List.getElem?_eq_none (by omega)]
  rfl

theorem stretch_putAt : stretch (putAt buf e xs) e xs.length = xs := by
  apply List.ext_getElem (by simp)
  intro i hi hi'
  simp [stretch, putAt, hi']

theorem slots_putAt (h : ∀ j < k, ¬ (e ≤ (s + j) % N ∧ (s + j) % N < e + xs.length)) :
    slots (putAt buf e xs) N s k = slots buf N s k := by
  apply List.map_congr_left
  intro j hj
  have hj := h j (List.mem_range.mp hj)
  rcases Nat.lt_or_ge ((s + j) % N) e with hlt | hge
  · exact putAt_of_lt hlt
  · exact putAt_of_le (by omega)

/-- Positions less than a turn apart are different. -/
theorem mod_ne_mod (hij : i < j) (hj : j < i + N) : i % N ≠ j % N := by
  intro heq
  have hdvd : N ∣ j - i := Nat.dvd_of_mod_eq_zero (Nat.sub_mod_eq_zero_of_mod_eq heq.symm)
  have := Nat.eq_zero_of_dvd_of_lt hdvd (by omega)
  omega

/-- Within two turns, taking the remainder is at most one subtraction. -/
theorem mod_eq_ite (h : i < 2 * N) : i % N = if i < N then i else i - N := by
  split
  · next hlt => exact Nat.mod_eq_of_lt hlt
  · next hge => rw [Nat.mod_eq_sub_mod (by omega), Nat.mod_eq_of_lt (by omega)]

/-! ## Queues -/

/-- The slots from `s` to `e` hold `xs`. -/
structure RingAt (buf : ℕ → α) (N s e : ℕ) (xs : List α) : Prop where
  first : s < N
  /-- one slot stays empty -/
  room : xs.length < N
  last : e = (s + xs.length) % N
  elems : slots buf N s xs.length = xs

namespace RingAt

theorem last_lt (h : RingAt buf N s e xs) : e < N := by
  rw [h.last]
  exact Nat.mod_lt _ (by have := h.first; omega)

theorem empty (hs : s < N) : RingAt buf N s s [] :=
  ⟨hs, by simp only [List.length_nil]; omega, by simp [Nat.mod_eq_of_lt hs], rfl⟩

/-- Any two positions are the ends of a queue. -/
theorem of_ends (hs : s < N) (he : e < N) :
    RingAt buf N s e (slots buf N s (if s ≤ e then e - s else e + N - s)) := by
  refine ⟨hs, ?_, ?_, by rw [length_slots]⟩
  · rw [length_slots]
    split <;> omega
  · rw [length_slots, mod_eq_ite (by split <;> omega)]
    split <;> split <;> omega

/-- The slots of the queue are not those behind it. -/
theorem not_mem_room (h : RingAt buf N s e xs) (hroom : xs.length + k < N) (hline : e + k ≤ N)
    (hj : j < xs.length) : ¬ (e ≤ (s + j) % N ∧ (s + j) % N < e + k) := by
  rintro ⟨hle, hlt⟩
  obtain ⟨i, hi⟩ := Nat.exists_eq_add_of_le hle
  -- position `e + i` is `xs.length + i` steps from `s`
  have hei : e + i < N := by omega
  have hpos : (s + (xs.length + i)) % N = e + i := by
    rw [← Nat.add_assoc, ← Nat.mod_add_mod, ← h.last, Nat.mod_eq_of_lt hei]
  exact mod_ne_mod (N := N) (i := s + j) (j := s + (xs.length + i)) (by omega) (by omega)
    (by rw [hpos, hi])

theorem push (h : RingAt buf N s e xs) (hroom : xs.length + ys.length < N)
    (hline : e + ys.length ≤ N) :
    RingAt (putAt buf e ys) N s ((e + ys.length) % N) (xs ++ ys) := by
  refine ⟨h.first, by rwa [List.length_append], ?_, ?_⟩
  · rw [h.last, Nat.mod_add_mod, List.length_append, Nat.add_assoc]
  · rw [List.length_append, slots_add, ← h.last, slots_eq_stretch hline, stretch_putAt,
      slots_putAt fun j hj => h.not_mem_room hroom hline hj, h.elems]

theorem split (h : RingAt buf N s e (xs ++ ys)) :
    slots buf N s xs.length = xs ∧ slots buf N ((s + xs.length) % N) ys.length = ys := by
  have helems := h.elems
  rw [List.length_append, slots_add] at helems
  exact List.append_inj helems (by simp)

theorem pop (h : RingAt buf N s e (xs ++ ys)) :
    RingAt buf N ((s + xs.length) % N) e ys := by
  have hroom := h.room
  rw [List.length_append] at hroom
  refine ⟨Nat.mod_lt _ (by omega), by omega, ?_, h.split.2⟩
  rw [Nat.mod_add_mod, Nat.add_assoc, ← List.length_append]
  exact h.last

/-- What is read in a line from inside the queue comes next in it. -/
theorem front (h : RingAt buf N s e xs) (hk : j + k ≤ xs.length)
    (hline : (s + j) % N + k ≤ N) :
    stretch buf ((s + j) % N) k = (xs.drop j).take k := by
  have hsplit : xs = xs.take j ++ ((xs.drop j).take k ++ (xs.drop j).drop k) := by
    rw [List.take_append_drop, List.take_append_drop]
  have hj : (xs.take j).length = j := by rw [List.length_take]; omega
  have hk' : ((xs.drop j).take k).length = k := by
    rw [List.length_take, List.length_drop]
    omega
  have h' := h
  rw [hsplit] at h'
  have h'' := h'.pop.split.1
  rw [hj, hk'] at h''
  rw [← slots_eq_stretch hline, h'']

/-- The queue is determined by its ends. -/
theorem length_eq (h : RingAt buf N s e xs) :
    xs.length = if s ≤ e then e - s else e + N - s := by
  have hs := h.first
  have hroom := h.room
  have hlast := h.last
  rw [mod_eq_ite (by omega)] at hlast
  split at hlast
  · rw [if_pos (by omega)]
    omega
  · rw [if_neg (by omega)]
    omega

end RingAt

end SccShm
