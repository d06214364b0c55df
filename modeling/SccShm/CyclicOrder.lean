import Mathlib.Data.Finset.Card
import Mathlib.Data.Finset.Max
import Mathlib.Tactic.Common

/-!
# The cyclic order of a finite set

A circular list kept in address order with one wrap-around is the successor
function of the cyclic order on its members. `CycSucc F b c` says that `c`
follows `b` in `F`; the library says how this relation changes when a member is
inserted or erased, and that walking along it from any member meets every
member (`ahead`, the members still to come, shrinks by one at each step).
-/

namespace SccShm

universe u

variable {α : Type u} [LinearOrder α] {F : Finset α} {b c d f p x : α}

/-- `c` follows `b` in the cyclic order of `F`: the next larger member, or the
least one if `b` is the greatest. -/
structure CycSucc (F : Finset α) (b c : α) : Prop where
  left : b ∈ F
  right : c ∈ F
  next : (b < c ∧ ∀ x ∈ F, x ≤ b ∨ c ≤ x) ∨ (c ≤ b ∧ ∀ x ∈ F, c ≤ x ∧ x ≤ b)

/-- `x` belongs into the gap between a member `p` and its successor `c`. -/
def Between (p x c : α) : Prop := (p < x ∧ x < c) ∨ (c ≤ p ∧ (p < x ∨ x < c))

namespace CycSucc

/-- Only one member precedes `c`. -/
theorem unique_left (h : CycSucc F b c) (h' : CycSucc F d c) : b = d := by
  obtain ⟨hb, -, h₁⟩ := h
  obtain ⟨hd, -, h₂⟩ := h'
  rcases h₁ with ⟨hbc, h₁⟩ | ⟨-, h₁⟩ <;> rcases h₂ with ⟨hdc, h₂⟩ | ⟨-, h₂⟩
  · have hdb : d ≤ b := (h₁ d hd).resolve_right (not_le.mpr hdc)
    have hbd : b ≤ d := (h₂ b hb).resolve_right (not_le.mpr hbc)
    exact le_antisymm hbd hdb
  · exact absurd (h₂ b hb).1 (not_le.mpr hbc)
  · exact absurd (h₁ d hd).1 (not_le.mpr hdc)
  · exact le_antisymm (h₂ b hb).2 (h₁ d hd).2

/-- And only one follows `b`. -/
theorem unique_right (h : CycSucc F b c) (h' : CycSucc F b d) : c = d := by
  obtain ⟨-, hc, h₁⟩ := h
  obtain ⟨-, hd, h₂⟩ := h'
  rcases h₁ with ⟨hbc, h₁⟩ | ⟨hcb, h₁⟩ <;> rcases h₂ with ⟨hbd, h₂⟩ | ⟨hdb, h₂⟩
  · have hcd : c ≤ d := (h₁ d hd).resolve_left (not_le.mpr hbd)
    have hdc : d ≤ c := (h₂ c hc).resolve_left (not_le.mpr hbc)
    exact le_antisymm hcd hdc
  · exact absurd (h₂ c hc).2 (not_le.mpr hbc)
  · exact absurd (h₁ d hd).2 (not_le.mpr hbd)
  · exact le_antisymm (h₁ d hd).1 (h₂ c hc).1

theorem singleton (a : α) : CycSucc {a} a a :=
  ⟨by simp, by simp, Or.inr ⟨le_refl a, by simp⟩⟩

/-- A member that follows itself is alone. -/
theorem eq_singleton (h : CycSucc F b b) : F = {b} := by
  refine Finset.eq_singleton_iff_unique_mem.mpr ⟨h.left, fun x hx => ?_⟩
  rcases h.next with ⟨hlt, -⟩ | ⟨-, hall⟩
  · exact absurd hlt (lt_irrefl b)
  · exact le_antisymm (hall x hx).2 (hall x hx).1

/-- Before the wrap-around stands the greatest member. -/
theorem le_of_wrap (h : CycSucc F b c) (hcb : c ≤ b) : ∀ x ∈ F, x ≤ b := by
  rcases h.next with ⟨hlt, -⟩ | ⟨-, hall⟩
  · exact absurd hlt (not_lt.mpr hcb)
  · exact fun x hx => (hall x hx).2

/-! ### Inserting -/

theorem insert_left (h : CycSucc F p c) (hx : Between p x c) : CycSucc (insert x F) p x := by
  refine ⟨Finset.mem_insert_of_mem h.left, Finset.mem_insert_self x F, ?_⟩
  simp only [Finset.forall_mem_insert]
  rcases h.next with ⟨hpc, hall⟩ | ⟨hcp, hall⟩ <;> rcases hx with ⟨hpx, hxc⟩ | ⟨hcp', hx⟩
  · exact Or.inl ⟨hpx, Or.inr le_rfl, fun y hy => (hall y hy).imp_right hxc.le.trans⟩
  · exact absurd hpc (not_lt.mpr hcp')
  · exact absurd (lt_trans hpx hxc) (not_lt.mpr hcp)
  · rcases hx with hpx | hxc
    · exact Or.inl ⟨hpx, Or.inr le_rfl, fun y hy => Or.inl (hall y hy).2⟩
    · have hxp : x ≤ p := hxc.le.trans hcp
      exact Or.inr ⟨hxp, ⟨le_rfl, hxp⟩, fun y hy => ⟨hxc.le.trans (hall y hy).1, (hall y hy).2⟩⟩

theorem insert_right (h : CycSucc F p c) (hx : Between p x c) : CycSucc (insert x F) x c := by
  refine ⟨Finset.mem_insert_self x F, Finset.mem_insert_of_mem h.right, ?_⟩
  simp only [Finset.forall_mem_insert]
  rcases h.next with ⟨hpc, hall⟩ | ⟨hcp, hall⟩ <;> rcases hx with ⟨hpx, hxc⟩ | ⟨hcp', hx⟩
  · exact Or.inl ⟨hxc, Or.inl le_rfl, fun y hy => (hall y hy).imp_left fun hyp => hyp.trans hpx.le⟩
  · exact absurd hpc (not_lt.mpr hcp')
  · exact absurd (lt_trans hpx hxc) (not_lt.mpr hcp)
  · rcases hx with hpx | hxc
    · have hcx : c ≤ x := hcp.trans hpx.le
      exact Or.inr ⟨hcx, ⟨hcx, le_rfl⟩, fun y hy => ⟨(hall y hy).1, (hall y hy).2.trans hpx.le⟩⟩
    · exact Or.inl ⟨hxc, Or.inl le_rfl, fun y hy => Or.inr (hall y hy).1⟩

/-- The other links stay. -/
theorem insert_of_ne (h : CycSucc F p c) (hx : Between p x c) (h' : CycSucc F b d)
    (hne : b ≠ p) : CycSucc (insert x F) b d := by
  refine ⟨Finset.mem_insert_of_mem h'.left, Finset.mem_insert_of_mem h'.right, ?_⟩
  simp only [Finset.forall_mem_insert]
  have hb := h'.left
  have hp := h.left
  -- `x` cannot fall between `b` and `d`: only `p` and `c` enclose it
  rcases h'.next with ⟨hbd, hall'⟩ | ⟨hdb, hall'⟩
  · refine Or.inl ⟨hbd, ?_, hall'⟩
    rcases h.next with ⟨hpc, hall⟩ | ⟨hcp, hall⟩ <;>
      rcases hx with ⟨hpx, hxc⟩ | ⟨hcp', hpx | hxc⟩
    · rcases hall b hb with hbp | hcb
      · have hdp : d ≤ p := (hall' p hp).resolve_left (not_le.mpr (lt_of_le_of_ne hbp hne))
        exact Or.inr (hdp.trans hpx.le)
      · exact Or.inl (hxc.le.trans hcb)
    · exact absurd hpc (not_lt.mpr hcp')
    · exact absurd hpc (not_lt.mpr hcp')
    · exact absurd (lt_trans hpx hxc) (not_lt.mpr hcp)
    · exact Or.inr ((hall d h'.right).2.trans hpx.le)
    · exact Or.inl (hxc.le.trans (hall b hb).1)
  · refine Or.inr ⟨hdb, ?_, hall'⟩
    rcases h.next with ⟨hpc, hall⟩ | ⟨hcp, hall⟩
    · rcases hx with ⟨hpx, hxc⟩ | ⟨hcp', -⟩
      · exact ⟨(hall' p hp).1.trans hpx.le, hxc.le.trans (hall' c h.right).2⟩
      · exact absurd hpc (not_lt.mpr hcp')
    · exact absurd (le_antisymm (hall b hb).2 (hall' p hp).2) hne

/-! ### Erasing -/

theorem erase_self (h₁ : CycSucc F p x) (h₂ : CycSucc F x c) (hne : p ≠ x) :
    CycSucc (F.erase x) p c := by
  have hc : c ≠ x := by
    rintro rfl
    exact hne (h₁.unique_left h₂)
  refine ⟨Finset.mem_erase.mpr ⟨hne, h₁.left⟩, Finset.mem_erase.mpr ⟨hc, h₂.right⟩, ?_⟩
  have h₃ := h₁.left
  have h₄ := h₂.right
  rcases h₁.next with ⟨hpx, hall₁⟩ | ⟨hxp, hall₁⟩ <;>
    rcases h₂.next with ⟨hxc, hall₂⟩ | ⟨hcx, hall₂⟩
  · refine Or.inl ⟨lt_trans hpx hxc, fun y hy => ?_⟩
    have hne' := Finset.ne_of_mem_erase hy
    have hy := Finset.mem_of_mem_erase hy
    apply (hall₁ y hy).imp_right
    intro hxy
    exact (hall₂ y hy).resolve_left fun hyx => hne' (le_antisymm hyx hxy)
  · refine Or.inr ⟨(hall₂ p h₃).1, fun y hy => ?_⟩
    have hne' := Finset.ne_of_mem_erase hy
    have hy := Finset.mem_of_mem_erase hy
    refine ⟨(hall₂ y hy).1, (hall₁ y hy).resolve_right fun hxy => ?_⟩
    exact hne' (le_antisymm (hall₂ y hy).2 hxy)
  · refine Or.inr ⟨(hall₁ c h₄).2, fun y hy => ?_⟩
    have hne' := Finset.ne_of_mem_erase hy
    have hy := Finset.mem_of_mem_erase hy
    refine ⟨(hall₂ y hy).resolve_left fun hyx => ?_, (hall₁ y hy).2⟩
    exact hne' (le_antisymm hyx (hall₁ y hy).1)
  · exact absurd (le_antisymm (hall₂ p h₃).2 hxp) hne

/-- The other links stay. -/
theorem erase_of_ne (h₁ : CycSucc F p x) (h' : CycSucc F b d) (hbp : b ≠ p) (hbx : b ≠ x) :
    CycSucc (F.erase x) b d := by
  have hd : d ≠ x := by
    rintro rfl
    exact hbp (h'.unique_left h₁)
  refine ⟨Finset.mem_erase.mpr ⟨hbx, h'.left⟩, Finset.mem_erase.mpr ⟨hd, h'.right⟩, ?_⟩
  rcases h'.next with ⟨hbd, hall⟩ | ⟨hdb, hall⟩
  · exact Or.inl ⟨hbd, fun y hy => hall y (Finset.mem_of_mem_erase hy)⟩
  · exact Or.inr ⟨hdb, fun y hy => hall y (Finset.mem_of_mem_erase hy)⟩

end CycSucc

/-! ## Walking along the order -/

/-- The members a walk standing at `b` meets up to and including `f`; all of
them if it stands at `f`. -/
def ahead (F : Finset α) (f b : α) : Finset α :=
  F.filter fun x => if b < f then b < x ∧ x ≤ f else b < x ∨ x ≤ f

theorem ahead_subset : ahead F f b ⊆ F := Finset.filter_subset _ _

@[simp] theorem ahead_self : ahead F f f = F := by
  refine Finset.filter_true_of_mem fun x _ => ?_
  rw [if_neg (lt_irrefl f)]
  exact lt_or_ge f x

theorem CycSucc.mem_ahead (h : CycSucc F b c) (hf : f ∈ F) : c ∈ ahead F f b := by
  refine Finset.mem_filter.mpr ⟨h.right, ?_⟩
  rcases h.next with ⟨hbc, hall⟩ | ⟨hcb, hall⟩ <;> split
  · rename_i hbf
    exact ⟨hbc, (hall f hf).resolve_left (not_le.mpr hbf)⟩
  · exact Or.inl hbc
  · rename_i hbf
    exact absurd (hall f hf).2 (not_le.mpr hbf)
  · exact Or.inr (hall f hf).1

/-- Above `c` are the members above `b` other than `c`. -/
theorem lt_iff_of_next (hbc : b < c) (hx : x ≤ b ∨ c ≤ x) : c < x ↔ x ≠ c ∧ b < x := by
  refine ⟨?_, ?_⟩
  · intro hcx
    exact ⟨hcx.ne', hbc.trans hcx⟩
  · rintro ⟨hne, hbx⟩
    exact lt_of_le_of_ne (hx.resolve_left (not_le.mpr hbx)) hne.symm

/-- One step of the walk uses up one member. -/
theorem CycSucc.ahead_erase (h : CycSucc F b c) (hf : f ∈ F) (hne : c ≠ f) :
    ahead F f c = (ahead F f b).erase c := by
  ext x
  simp only [ahead, Finset.mem_filter, Finset.mem_erase]
  rw [and_left_comm]
  apply and_congr_right
  intro hx
  rcases h.next with ⟨hbc, hall⟩ | ⟨hcb, hall⟩
  · have hcf : c < f ↔ b < f := by simp [lt_iff_of_next hbc (hall f hf), hne.symm]
    have hcx := lt_iff_of_next hbc (hall x hx)
    by_cases hbf : b < f
    · rw [if_pos hbf, if_pos (hcf.mpr hbf), hcx, and_assoc]
    · rw [if_neg hbf, if_neg (hcf.not.mpr hbf), hcx, and_or_left]
      have hle : x ≤ f → x ≠ c := fun hxf => ((hxf.trans (not_lt.mp hbf)).trans_lt hbc).ne
      rw [and_iff_right_of_imp hle]
  · have hcf : c < f := lt_of_le_of_ne (hall f hf).1 hne
    have hcx : c < x ↔ x ≠ c := (hall x hx).1.lt_iff_ne'
    rw [if_pos hcf, if_neg (not_lt.mpr (hall f hf).2), hcx,
      or_iff_right (not_lt.mpr (hall x hx).2)]

/-- The walk's last step ends at `f`. -/
theorem CycSucc.ahead_last (h : CycSucc F b f) : ahead F f b = {f} := by
  ext x
  simp only [ahead, Finset.mem_filter, Finset.mem_singleton]
  rcases h.next with ⟨hbf, hall⟩ | ⟨hfb, hall⟩
  · rw [if_pos hbf]
    refine ⟨?_, ?_⟩
    · rintro ⟨hx, hbx, hxf⟩
      exact le_antisymm hxf ((hall x hx).resolve_left (not_le.mpr hbx))
    · rintro rfl
      exact ⟨h.right, hbf, le_rfl⟩
  · rw [if_neg (not_lt.mpr hfb)]
    refine ⟨?_, ?_⟩
    · rintro ⟨hx, hxb⟩
      exact le_antisymm (hxb.resolve_left (not_lt.mpr (hall x hx).2)) (hall x hx).1
    · rintro rfl
      exact ⟨h.right, Or.inr le_rfl⟩

theorem CycSucc.card_ahead_lt (h : CycSucc F b c) (hf : f ∈ F) (hne : c ≠ f) :
    (ahead F f c).card < (ahead F f b).card := by
  rw [h.ahead_erase hf hne]
  exact Finset.card_erase_lt_of_mem (h.mem_ahead hf)

/-- Going up from `f`, around and up to `f` again, `x` is met no later than `y`. -/
def NoLater (f x y : α) : Prop := x = y ∨ (f < x ∧ x < y) ∨ (y ≤ f ∧ (f < x ∨ x < y))

/-- The next member is met before the others that are still ahead. -/
theorem CycSucc.noLater (h : CycSucc F b c) (hx : x ∈ ahead F f b) : NoLater f c x := by
  obtain ⟨hxF, hx⟩ := Finset.mem_filter.mp hx
  rcases h.next with ⟨hbc, hall⟩ | ⟨hcb, hall⟩
  · by_cases hbx : b < x
    · have hcx : c ≤ x := (hall x hxF).resolve_left (not_le.mpr hbx)
      rcases hcx.eq_or_lt with heq | hlt
      · exact Or.inl heq
      · rcases lt_or_ge f c with hfc | hcf
        · exact Or.inr (Or.inl ⟨hfc, hlt⟩)
        · rw [if_pos (hbc.trans_le hcf)] at hx
          exact Or.inr (Or.inr ⟨hx.2, Or.inr hlt⟩)
    · -- `x` comes after the wrap-around, which is past `f`
      have hbf : ¬ b < f := fun hbf => by
        rw [if_pos hbf] at hx
        exact hbx hx.1
      rw [if_neg hbf] at hx
      exact Or.inr (Or.inr ⟨hx.resolve_left hbx, Or.inl ((not_lt.mp hbf).trans_lt hbc)⟩)
  · have hxb := not_lt.mpr (hall x hxF).2
    rcases (hall x hxF).1.eq_or_lt with heq | hlt
    · exact Or.inl heq
    · split at hx
      · exact absurd hx.1 hxb
      · exact Or.inr (Or.inr ⟨hx.resolve_left hxb, Or.inr hlt⟩)

/-- What holds of one member, and of the next whenever of one, holds of all: the walk meets
every member. -/
theorem CycSucc.forall_of_next {next : α → α} (hlinks : ∀ b ∈ F, CycSucc F b (next b))
    {P : α → Prop} (hf : f ∈ F) (h : P f) (hnext : ∀ b ∈ F, P b → P (next b)) (hx : x ∈ F) :
    P x := by
  have hwalk : ∀ k b, (ahead F x b).card ≤ k → b ∈ F → P b → P x := by
    intro k
    induction k with
    | zero =>
      intro b hk hb _
      have := Finset.card_pos.mpr ⟨_, (hlinks b hb).mem_ahead hx⟩
      omega
    | succ k ih =>
      intro b hk hb hP
      have hlink := hlinks b hb
      by_cases heq : next b = x
      · exact heq ▸ hnext b hb hP
      · have := hlink.card_ahead_lt hx heq
        exact ih _ (by omega) hlink.right (hnext b hb hP)
  exact hwalk _ f (le_refl _) hf h

/-- The member after which `x` belongs: the greatest one below `x`, or else the
greatest of all. -/
theorem exists_pred (hF : F.Nonempty) (x : α) :
    ∃ p ∈ F, (p < x ∧ ∀ y ∈ F, y ≤ p ∨ x ≤ y) ∨ ∀ y ∈ F, x ≤ y ∧ y ≤ p := by
  by_cases h : (F.filter (· < x)).Nonempty
  · refine ⟨(F.filter (· < x)).max' h, ?_, Or.inl ⟨?_, fun y hy => ?_⟩⟩
    · exact Finset.mem_of_mem_filter _ (Finset.max'_mem _ h)
    · exact (Finset.mem_filter.mp (Finset.max'_mem _ h)).2
    · rcases lt_or_ge y x with hlt | hge
      · exact Or.inl (Finset.le_max' _ y (Finset.mem_filter.mpr ⟨hy, hlt⟩))
      · exact Or.inr hge
  · refine ⟨F.max' hF, Finset.max'_mem F hF, Or.inr fun y hy => ⟨?_, Finset.le_max' F y hy⟩⟩
    by_contra hlt
    exact h ⟨y, Finset.mem_filter.mpr ⟨hy, not_le.mp hlt⟩⟩

end SccShm
