import Mathlib.Logic.Function.Iterate
import Mathlib.Logic.Relation
import Mathlib.Tactic.Common

/-!
# Calls, loops and runs

What the translation of a C function needs, whatever the function does:

* `Exec` — the result of a call: a value, a fault (an access outside of what
  exists), or "not finished yet".
* `loop` — a `while` loop, unrolled at most `fuel` times. `loop_total` is the
  rule most proofs use: an invariant and a variant give termination and the
  postcondition at once; `loop_partial` needs no variant; `loop_sim` runs two
  loops side by side; `loop_iterate` counts passes. `loop_fuelStable` makes the
  result independent of the fuel, so `Returns` is a partial function.
* `Reach` — the states a labelled step relation reaches, with the invariant
  rule `Reach.invariant`.
-/

namespace SccShm

universe u v

variable {α β σ ρ : Type u}

/-! ## Results of calls -/

/-- Why a call has not come back. -/
inductive Stuck : Type where
  /-- it accessed something that is not there -/
  | fault
  /-- it ended the program -/
  | exit
  /-- it was cut off by the fuel bound -/
  | outOfFuel
  deriving DecidableEq

/-- The result of running a call. -/
abbrev Exec (α : Type u) : Type u := Except Stuck α

namespace Exec

@[simp] theorem ok_bind (a : α) (f : α → Exec β) :
    ((Except.ok a : Exec α) >>= f) = f a := rfl

@[simp] theorem error_bind (e : Stuck) (f : α → Exec β) :
    ((Except.error e : Exec α) >>= f) = .error e := rfl

theorem ok_ne (a : α) (e : Stuck) : (Except.ok a : Exec α) ≠ .error e := nofun

/-- Inversion for sequencing. -/
theorem bind_eq_ok {x : Exec α} {f : α → Exec β} {b : β} :
    (x >>= f) = .ok b ↔ ∃ a, x = .ok a ∧ f a = .ok b := by
  cases x with
  | error e => simp
  | ok a => simp

end Exec

/-- `f` returns `r`: some amount of fuel lets it finish with `r`. -/
def Returns (f : ℕ → Exec α) (r : α) : Prop := ∃ fuel, f fuel = .ok r

/-- More fuel never changes a result. -/
def FuelMono (f : ℕ → Exec α) : Prop :=
  ∀ ⦃n m : ℕ⦄ ⦃r : α⦄, n ≤ m → f n = .ok r → f m = .ok r

/-- A call has at most one result. -/
theorem Returns.unique {f : ℕ → Exec α} (hf : FuelMono f) {r r' : α}
    (h : Returns f r) (h' : Returns f r') : r = r' := by
  obtain ⟨n, hn⟩ := h
  obtain ⟨m, hm⟩ := h'
  have hn' := hf (Nat.le_max_left n m) hn
  have hm' := hf (Nat.le_max_right n m) hm
  rw [hn'] at hm'
  exact Except.ok.inj hm'

/-- A call that has come back, with a value or stuck, does the same with more fuel. -/
def FuelStable (f : ℕ → Exec α) : Prop :=
  ∀ ⦃n m : ℕ⦄, n ≤ m → f n ≠ .error .outOfFuel → f m = f n

theorem FuelStable.mono {f : ℕ → Exec α} (hf : FuelStable f) : FuelMono f := by
  intro n m r hle h
  rw [hf hle (by rw [h]; exact Exec.ok_ne r _), h]

theorem FuelStable.const (x : Exec α) : FuelStable fun _ => x :=
  fun _ _ _ _ => rfl

theorem FuelStable.bind {f : ℕ → Exec α} {g : ℕ → α → Exec β} (hf : FuelStable f)
    (hg : ∀ a, FuelStable fun n => g n a) : FuelStable fun n => f n >>= g n := by
  intro n m hle h
  change f n >>= g n ≠ _ at h
  change f m >>= g m = f n >>= g n
  rcases hn : f n with e | a
  · rw [hn, Exec.error_bind] at h
    rw [hf hle (by rw [hn]; exact fun he => h (congrArg _ (Except.error.inj he))), hn,
      Exec.error_bind, Exec.error_bind]
  · rw [hn, Exec.ok_bind] at h
    rw [hf hle (by rw [hn]; exact Exec.ok_ne a _), hn, Exec.ok_bind, Exec.ok_bind]
    exact hg a hle h

/-- A call that returns is never stuck otherwise. -/
theorem Returns.eq_or {f : ℕ → Exec α} (hf : FuelStable f) {r : α} (h : Returns f r) (n : ℕ) :
    f n = .ok r ∨ f n = .error .outOfFuel := by
  obtain ⟨m, hm⟩ := h
  by_cases hn : f n = .error .outOfFuel
  · exact Or.inr hn
  · refine Or.inl ?_
    rw [← hf (Nat.le_max_left n m) hn, hf.mono (Nat.le_max_right n m) hm]

/-! ## Loops -/

/-- Run `body` until it leaves the loop with a result (`inr`), at most `fuel`
times; `inl` is the state of the next iteration. -/
def loop (body : σ → Exec (σ ⊕ ρ)) : ℕ → σ → Exec ρ
  | 0, _ => .error .outOfFuel
  | n + 1, s =>
    match body s with
    | .error e => .error e
    | .ok (.inl s') => loop body n s'
    | .ok (.inr r) => .ok r

@[simp] theorem loop_zero (body : σ → Exec (σ ⊕ ρ)) (s : σ) :
    loop body 0 s = .error .outOfFuel := rfl

theorem loop_next {body : σ → Exec (σ ⊕ ρ)} {s s' : σ} (h : body s = .ok (.inl s'))
    (n : ℕ) : loop body (n + 1) s = loop body n s' := by
  simp [loop, h]

theorem loop_done {body : σ → Exec (σ ⊕ ρ)} {s : σ} {r : ρ} (h : body s = .ok (.inr r))
    (n : ℕ) : loop body (n + 1) s = .ok r := by
  simp [loop, h]

theorem loop_fuelStable (body : σ → Exec (σ ⊕ ρ)) (s : σ) :
    FuelStable fun n => loop body n s := by
  intro n
  induction n generalizing s with
  | zero => intro m _ h; exact absurd rfl h
  | succ n ih =>
    intro m hle h
    obtain ⟨m, rfl⟩ : ∃ k, m = k + 1 := ⟨m - 1, by omega⟩
    change loop body (n + 1) s ≠ _ at h
    change loop body (m + 1) s = loop body (n + 1) s
    rcases hb : body s with e | s' | r
    · simp [loop, hb]
    · rw [loop_next hb] at h ⊢
      rw [loop_next hb]
      exact ih s' (by omega) h
    · rw [loop_done hb, loop_done hb]

theorem loop_fuel_mono (body : σ → Exec (σ ⊕ ρ)) (s : σ) :
    FuelMono fun n => loop body n s :=
  (loop_fuelStable body s).mono

/-- **Total correctness of a loop.** From a state where the invariant `I` holds
the loop ends within `v s + 1` iterations, in a result satisfying `Q`, if every
iteration either leaves with such a result or keeps `I` and lowers `v`. -/
theorem loop_total (body : σ → Exec (σ ⊕ ρ)) {I : σ → Prop} {Q : ρ → Prop} (v : σ → ℕ)
    (hbody : ∀ s, I s → (∃ r, body s = .ok (.inr r) ∧ Q r) ∨
      ∃ s', body s = .ok (.inl s') ∧ I s' ∧ v s' < v s) :
    ∀ (fuel : ℕ) (s : σ), I s → v s < fuel → ∃ r, loop body fuel s = .ok r ∧ Q r := by
  intro fuel
  induction fuel with
  | zero => intro s _ hv; omega
  | succ n ih =>
    intro s hI hv
    rcases hbody s hI with ⟨r, hr, hQ⟩ | ⟨s', hs', hI', hlt⟩
    · exact ⟨r, loop_done hr n, hQ⟩
    · obtain ⟨r, hr, hQ⟩ := ih s' hI' (by omega)
      exact ⟨r, by rw [loop_next hs', hr], hQ⟩

/-- **Partial correctness of a loop**: an invariant of the iterations holds when it
is left. -/
theorem loop_partial {body : σ → Exec (σ ⊕ ρ)} {I : σ → Prop} {Q : ρ → Prop}
    (hnext : ∀ s s', I s → body s = .ok (.inl s') → I s')
    (hdone : ∀ s r, I s → body s = .ok (.inr r) → Q r) {fuel : ℕ} {s : σ} {r : ρ} (hI : I s)
    (h : loop body fuel s = .ok r) : Q r := by
  induction fuel generalizing s with
  | zero => simp at h
  | succ n ih =>
    rcases hb : body s with e | s' | r'
    · simp [loop, hb] at h
    · rw [loop_next hb] at h
      exact ih (hnext s s' hI hb) h
    · rw [loop_done hb] at h
      obtain rfl := Except.ok.inj h
      exact hdone s r' hI hb

/-- **Two loops side by side.** While the invariant holds, `body'` does what `body`
does, up to `R` for the result. -/
theorem loop_sim {ρ' : Type u} {body : σ → Exec (σ ⊕ ρ)} {body' : σ → Exec (σ ⊕ ρ')}
    {I : σ → Prop} {R : ρ → ρ' → Prop}
    (hnext : ∀ s s', I s → body s = .ok (.inl s') → body' s = .ok (.inl s') ∧ I s')
    (hdone : ∀ s r, I s → body s = .ok (.inr r) → ∃ r', body' s = .ok (.inr r') ∧ R r r')
    {fuel : ℕ} {s : σ} {r : ρ} (hI : I s) (h : loop body fuel s = .ok r) :
    ∃ r', loop body' fuel s = .ok r' ∧ R r r' := by
  induction fuel generalizing s with
  | zero => simp at h
  | succ n ih =>
    rcases hb : body s with e | s' | r'
    · simp [loop, hb] at h
    · obtain ⟨hb', hI'⟩ := hnext s s' hI hb
      rw [loop_next hb] at h
      rw [loop_next hb']
      exact ih hI' h
    · obtain ⟨r'', hb', hR⟩ := hdone s r' hI hb
      rw [loop_done hb] at h
      obtain rfl := Except.ok.inj h
      exact ⟨r'', loop_done hb' n, hR⟩

/-- A loop that follows `next` until it stops has gone on fewer times than it made tests. -/
theorem loop_iterate {body : σ → Exec (σ ⊕ σ)} {next : σ → σ}
    (hnext : ∀ s s', body s = .ok (.inl s') → s' = next s)
    (hdone : ∀ s r, body s = .ok (.inr r) → r = s) {fuel : ℕ} {s r : σ}
    (h : loop body fuel s = .ok r) : ∃ k < fuel, r = next^[k] s := by
  induction fuel generalizing s with
  | zero => simp at h
  | succ n ih =>
    rcases hb : body s with e | s' | r'
    · simp [loop, hb] at h
    · rw [loop_next hb] at h
      obtain ⟨k, hk, hr⟩ := ih h
      rw [hnext s s' hb] at hr
      exact ⟨k + 1, Nat.succ_lt_succ hk, by rw [Function.iterate_succ_apply, hr]⟩
    · rw [loop_done hb] at h
      refine ⟨0, Nat.succ_pos n, ?_⟩
      rw [Function.iterate_zero_apply, ← Except.ok.inj h, hdone s r' hb]

/-! ## Runs -/

/-- The states a labelled step relation reaches from `s₀`. -/
inductive Reach {σ : Type u} {α : Type v} (step : σ → α → σ → Prop) (s₀ : σ) : σ → Prop where
  | init : Reach step s₀ s₀
  | next {s s' : σ} {a : α} : Reach step s₀ s → step s a s' → Reach step s₀ s'

/-- One run after another. -/
theorem Reach.trans {σ : Type u} {α : Type v} {step : σ → α → σ → Prop} {s₀ s s' : σ}
    (h : Reach step s₀ s) (h' : Reach step s s') : Reach step s₀ s' := by
  induction h' with
  | init => exact h
  | next _ hs ih => exact ih.next hs

/-- Steps with the labels in a list, one after the other. -/
inductive Trace {σ : Type u} {α : Type v} (step : σ → α → σ → Prop) : σ → List α → σ → Prop where
  | nil {s : σ} : Trace step s [] s
  | cons {s s' s'' : σ} {a : α} {l : List α} : step s a s' → Trace step s' l s'' →
      Trace step s (a :: l) s''

theorem Trace.append {σ : Type u} {α : Type v} {step : σ → α → σ → Prop} {l l' : List α}
    {s s' s'' : σ} (h : Trace step s l s') (h' : Trace step s' l' s'') :
    Trace step s (l ++ l') s'' := by
  induction h with
  | nil => exact h'
  | cons hs _ ih => exact .cons hs (ih h')

/-- A list of steps falls into a first part and the rest. -/
theorem Trace.split {σ : Type u} {α : Type v} {step : σ → α → σ → Prop} {l l' : List α}
    {s s'' : σ} (h : Trace step s (l ++ l') s'') :
    ∃ s', Trace step s l s' ∧ Trace step s' l' s'' := by
  induction l generalizing s with
  | nil => exact ⟨s, .nil, h⟩
  | cons a l ih =>
    cases h with
    | cons hs hl =>
      obtain ⟨s', h₁, h₂⟩ := ih hl
      exact ⟨s', .cons hs h₁, h₂⟩

/-- The steps of `step` taken only where `ok` allows them. -/
def Guarded {σ : Type u} {α : Type v} (step : σ → α → σ → Prop) (ok : σ → α → Prop) :
    σ → α → σ → Prop :=
  fun s a s' => ok s a ∧ step s a s'

/-- A guarded run is a run. -/
theorem Reach.of_guarded {σ : Type u} {α : Type v} {step : σ → α → σ → Prop} {ok : σ → α → Prop}
    {s₀ s : σ} (h : Reach (Guarded step ok) s₀ s) : Reach step s₀ s := by
  induction h with
  | init => exact .init
  | next _ hs ih => exact ih.next hs.2

/-- What holds at first and is kept by every step holds in every state reached. -/
theorem Reach.invariant {σ : Type u} {α : Type v} {step : σ → α → σ → Prop} {s₀ s : σ}
    {I : σ → Prop} (h : Reach step s₀ s) (h₀ : I s₀)
    (hstep : ∀ s a s', I s → step s a s' → I s') : I s := by
  induction h with
  | init => exact h₀
  | next _ hs ih => exact hstep _ _ _ ih hs

end SccShm
