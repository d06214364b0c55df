import Mathlib.Algebra.Order.BigOperators.Group.List
import Mathlib.Algebra.Order.Ring.Nat
import Mathlib.Data.Finset.Card
import Mathlib.Data.List.Nodup
import Mathlib.Tactic.Common

/-!
# Page maps

What the pages of an address space lead to, and how that changes when somebody maps and unmaps
pages and keeps a list of the mappings.

* `Mapped t₀ t l` — `t` is `t₀` with the mappings in `l`, each on pages of its own.
* `Mapped.map`, `Mapped.unmap`, `Mapped.perm` — the list follows what is mapped and unmapped.
* `Mapped.lead` — every mapping leads where it should.
* `Mapped.exists_pages` — how many pages are not as they were.
-/

namespace SccShm

universe u

/-- What each page leads to: a device, and a page of it. -/
abbrev PageMap (δ : Type u) : Type u := ℕ → Option (δ × ℕ)

/-- Pages that lead to pages of a device, one after the other. -/
structure Mapping (δ : Type u) : Type u where
  page : ℕ
  count : ℕ
  dev : δ
  frame : ℕ

variable {δ : Type u}

/-- The pages of a mapping. -/
def Mapping.pages (a : Mapping δ) : List ℕ := List.range' a.page a.count

namespace PageMap

/-- The pages of `a` are mapped. -/
def map (t : PageMap δ) (a : Mapping δ) : PageMap δ := fun p =>
  if a.page ≤ p ∧ p < a.page + a.count then some (a.dev, a.frame + (p - a.page)) else t p

/-- The `n` pages from `v` on are unmapped. -/
def unmap (t : PageMap δ) (v n : ℕ) : PageMap δ := fun p =>
  if v ≤ p ∧ p < v + n then none else t p

/-- None of the `n` pages from `v` on is mapped. -/
def Vacant (t : PageMap δ) (v n : ℕ) : Prop := ∀ p, v ≤ p → p < v + n → t p = none

/-- Where an access to the address `x` goes, with pages of `b` bytes. -/
def lead (t : PageMap δ) (b x : ℕ) : Option (δ × ℕ) :=
  (t (x / b)).map fun (d, f) => (d, f * b + x % b)

end PageMap

/-- The pages of the mappings in a list. -/
def pagesOf (l : List (Mapping δ)) : List ℕ := l.flatMap Mapping.pages

section Pages

variable {a : Mapping δ} {l l' : List (Mapping δ)} {t t₀ : PageMap δ} {p b x j : ℕ}

theorem Mapping.mem_pages : p ∈ a.pages ↔ a.page ≤ p ∧ p < a.page + a.count := List.mem_range'_1

theorem pagesOf_cons : pagesOf (a :: l) = a.pages ++ pagesOf l := List.flatMap_cons

theorem length_pagesOf : (pagesOf l).length = (l.map Mapping.count).sum := by
  induction l with
  | nil => rfl
  | cons a l ih =>
    rw [pagesOf_cons, List.length_append, ih, List.map_cons, List.sum_cons, Mapping.pages,
      List.length_range']

theorem PageMap.map_of_mem (h : p ∈ a.pages) :
    t.map a p = some (a.dev, a.frame + (p - a.page)) :=
  if_pos (Mapping.mem_pages.mp h)

theorem PageMap.map_of_notMem (h : p ∉ a.pages) : t.map a p = t p :=
  if_neg fun h' => h (Mapping.mem_pages.mpr h')

theorem PageMap.unmap_of_mem (h : p ∈ a.pages) : t.unmap a.page a.count p = none :=
  if_pos (Mapping.mem_pages.mp h)

theorem PageMap.unmap_of_notMem (h : p ∉ a.pages) : t.unmap a.page a.count p = t p :=
  if_neg fun h' => h (Mapping.mem_pages.mpr h')

/-- What is mapped and unmapped again leaves no trace. -/
theorem PageMap.unmap_map (h : t.Vacant a.page a.count) :
    (t.map a).unmap a.page a.count = t := by
  funext p
  by_cases hp : p ∈ a.pages
  · obtain ⟨hle, hlt⟩ := Mapping.mem_pages.mp hp
    rw [PageMap.unmap_of_mem hp, h p hle hlt]
  · rw [PageMap.unmap_of_notMem hp, PageMap.map_of_notMem hp]

/-- `t` is `t₀` with the mappings in `l`, each on pages of its own. -/
structure Mapped (t₀ t : PageMap δ) (l : List (Mapping δ)) : Prop where
  nodup : (pagesOf l).Nodup
  fresh : ∀ p ∈ pagesOf l, t₀ p = none
  maps : ∀ a ∈ l, ∀ p ∈ a.pages, t p = some (a.dev, a.frame + (p - a.page))
  other : ∀ p, p ∉ pagesOf l → t p = t₀ p

theorem mapped_nil : Mapped t t [] :=
  ⟨List.nodup_nil, fun _ h => absurd h List.not_mem_nil, fun _ h => absurd h List.not_mem_nil,
    fun _ _ => rfl⟩

theorem Mapped.ne_none (h : Mapped t₀ t l) (hp : p ∈ pagesOf l) : t p ≠ none := by
  obtain ⟨a, ha, hpa⟩ := List.mem_flatMap.mp hp
  rw [h.maps a ha p hpa]
  exact Option.some_ne_none _

theorem Mapped.map (h : Mapped t₀ t l) (hvacant : t.Vacant a.page a.count) :
    Mapped t₀ (t.map a) (a :: l) := by
  have hapart : ∀ p ∈ a.pages, p ∉ pagesOf l := fun p hp hpl =>
    h.ne_none hpl (hvacant p (Mapping.mem_pages.mp hp).1 (Mapping.mem_pages.mp hp).2)
  refine ⟨?_, fun p hp => ?_, fun b hb p hp => ?_, fun p hp => ?_⟩
  · rw [pagesOf_cons]
    exact List.nodup_append.mpr ⟨List.nodup_range', h.nodup, fun p hp q hq heq =>
      hapart p hp (heq ▸ hq)⟩
  · rw [pagesOf_cons, List.mem_append] at hp
    rcases hp with hp | hp
    · obtain ⟨hle, hlt⟩ := Mapping.mem_pages.mp hp
      rw [← h.other p (hapart p hp), hvacant p hle hlt]
    · exact h.fresh p hp
  · rcases List.mem_cons.mp hb with rfl | hb
    · exact PageMap.map_of_mem hp
    · have hpl : p ∈ pagesOf l := List.mem_flatMap.mpr ⟨b, hb, hp⟩
      rw [PageMap.map_of_notMem fun hpa => hapart p hpa hpl, h.maps b hb p hp]
  · rw [pagesOf_cons, List.mem_append, not_or] at hp
    rw [PageMap.map_of_notMem hp.1, h.other p hp.2]

theorem Mapped.unmap (h : Mapped t₀ t (a :: l)) : Mapped t₀ (t.unmap a.page a.count) l := by
  have hnodup := h.nodup
  rw [pagesOf_cons, List.nodup_append] at hnodup
  obtain ⟨-, hl, hapart⟩ := hnodup
  refine ⟨hl, fun p hp => h.fresh p ?_, fun b hb p hp => ?_, fun p hp => ?_⟩
  · rw [pagesOf_cons]
    exact List.mem_append_right _ hp
  · have hpl : p ∈ pagesOf l := List.mem_flatMap.mpr ⟨b, hb, hp⟩
    rw [PageMap.unmap_of_notMem fun hpa => hapart p hpa p hpl rfl,
      h.maps b (List.mem_cons_of_mem _ hb) p hp]
  · by_cases hpa : p ∈ a.pages
    · rw [PageMap.unmap_of_mem hpa, h.fresh p]
      rw [pagesOf_cons]
      exact List.mem_append_left _ hpa
    · rw [PageMap.unmap_of_notMem hpa, h.other p]
      rw [pagesOf_cons, List.mem_append, not_or]
      exact ⟨hpa, hp⟩

theorem Mapped.perm (h : Mapped t₀ t l) (hl : l.Perm l') : Mapped t₀ t l' := by
  have hpages : (pagesOf l).Perm (pagesOf l') := hl.flatMap_right _
  exact ⟨hpages.nodup_iff.mp h.nodup, fun p hp => h.fresh p (hpages.mem_iff.mpr hp),
    fun a ha => h.maps a (hl.mem_iff.mpr ha),
    fun p hp => h.other p fun hp' => hp (hpages.mem_iff.mp hp')⟩

/-- A mapping leads to its part of the device. -/
theorem Mapped.lead (h : Mapped t₀ t l) (ha : a ∈ l) (hj : j < a.count * b) :
    t.lead b (a.page * b + j) = some (a.dev, a.frame * b + j) := by
  have hb : 0 < b := Nat.pos_of_ne_zero fun h0 => by simp [h0] at hj
  have hpage : (a.page * b + j) / b = a.page + j / b := by
    rw [Nat.add_comm, Nat.add_mul_div_right _ _ hb, Nat.add_comm]
  have hmod : (a.page * b + j) % b = j % b := Nat.mul_add_mod' ..
  have hlt : j / b < a.count := Nat.div_lt_of_lt_mul (by rwa [Nat.mul_comm])
  have hmem : a.page + j / b ∈ a.pages :=
    Mapping.mem_pages.mpr ⟨Nat.le_add_right .., Nat.add_lt_add_left hlt _⟩
  rw [PageMap.lead, hpage, h.maps a ha _ hmem, Option.map_some, Nat.add_sub_cancel_left, hmod]
  change some (a.dev, (a.frame + j / b) * b + j % b) = _
  rw [Nat.add_mul, Nat.add_assoc, Nat.div_add_mod']

/-- How many pages the mappings have. -/
theorem Mapped.exists_pages (h : Mapped t₀ t l) :
    ∃ S : Finset ℕ, S.card = (l.map Mapping.count).sum ∧ ∀ p, p ∈ S ↔ ∃ a ∈ l, p ∈ a.pages :=
  ⟨⟨pagesOf l, h.nodup⟩, length_pagesOf, fun _ => List.mem_flatMap⟩

end Pages

end SccShm
