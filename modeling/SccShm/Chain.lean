import Mathlib.Data.List.Chain
import Mathlib.Data.List.Nodup
import SccShm.Loop

/-!
# Circular lists in a store of nodes

Nodes are allocated and freed one by one; an access to a node that is not there
faults. What the contents of a node mean is left open: a `Layout` says which field
is the link and when a node shows a given entry.

* `Layout.Seg` — a segment of a linked list. `seg_append` cuts it, `Seg.congr` is its
  frame rule.
* `Layout.Cycle` — the nodes of the store form one circular list. `Cycle.splice` puts
  other nodes in the place of some neighbours, `Cycle.before` finds the node in front
  of another one, `Cycle.isChain` follows the links around.
* `Cycle.scan` — a loop that looks one node ahead and stops at the last node at the
  latest ends.
-/

namespace SccShm

/-! ## Stores -/

/-- The nodes that exist, with their contents. -/
abbrev Store (ν β : Type) : Type := ν → Option β

namespace Store

variable {ν β : Type} [DecidableEq ν] {st : Store ν β} {n m : ν} {b b' : β}

/-- Read `*n`. -/
def get (st : Store ν β) (n : ν) : Exec β :=
  match st n with
  | some b => .ok b
  | none => .error .fault

/-- The store with `b` in the node `n`. -/
def put (st : Store ν β) (n : ν) (b : β) : Store ν β := Function.update st n (some b)

/-- The store without the node `n`. -/
def drop (st : Store ν β) (n : ν) : Store ν β := Function.update st n none

/-- Change `*n`. -/
def modify (st : Store ν β) (n : ν) (f : β → β) : Exec (Store ν β) := do
  let b ← st.get n
  .ok (st.put n (f b))

/-- `free(n)`. -/
def free (st : Store ν β) (n : ν) : Exec (Store ν β) := do
  let _ ← st.get n
  .ok (st.drop n)

omit [DecidableEq ν] in
theorem get_eq (h : st n = some b) : st.get n = .ok b := by rw [get, h]

theorem modify_eq (h : st n = some b) (f : β → β) : st.modify n f = .ok (st.put n (f b)) := by
  rw [modify, get_eq h, Exec.ok_bind]

theorem free_eq (h : st n ≠ none) : st.free n = .ok (st.drop n) := by
  obtain ⟨b, hb⟩ := Option.ne_none_iff_exists'.mp h
  rw [free, get_eq hb, Exec.ok_bind]

@[simp] theorem put_self : st.put n b n = some b := Function.update_self ..

@[simp] theorem drop_self : st.drop n n = none := Function.update_self ..

theorem put_of_ne (h : m ≠ n) : st.put n b m = st m := Function.update_of_ne h ..

theorem drop_of_ne (h : m ≠ n) : st.drop n m = st m := Function.update_of_ne h ..

theorem put_eq_self (h : st n = some b) : st.put n b = st := by
  rw [put, ← h]
  exact Function.update_eq_self n st

theorem put_ne_none (h : st m ≠ none) : st.put n b m ≠ none := by
  by_cases hmn : m = n
  · rw [hmn, put_self]
    exact Option.some_ne_none b
  · rwa [put_of_ne hmn]

@[simp] theorem put_put : (st.put n b).put n b' = st.put n b' := Function.update_idem ..

theorem drop_put_comm (h : n ≠ m) : (st.put n b).drop m = (st.drop m).put n b :=
  Function.update_comm h ..

theorem drop_comm (h : n ≠ m) : (st.drop n).drop m = (st.drop m).drop n :=
  Function.update_comm h ..

end Store

/-! ## Segments -/

/-- How nodes with contents in `β` are linked, and which entries in `α` they show. -/
structure Layout (ν β α : Type) : Type where
  link : β → ν
  shows : α → β → Prop

/-- The nodes of a list of entries. -/
def nodes {ν α : Type} (l : List (ν × α)) : List ν := l.map Prod.fst

/-- The last node, or `t` if there is none. -/
def lastNode {ν α : Type} (t : ν) (l : List (ν × α)) : ν := (nodes l).getLast?.getD t

section Nodes

variable {ν α : Type} {l r : List (ν × α)} {e : ν × α} {t : ν}

@[simp] theorem nodes_nil : nodes ([] : List (ν × α)) = [] := rfl

@[simp] theorem nodes_cons : nodes (e :: l) = e.1 :: nodes l := rfl

@[simp] theorem nodes_append : nodes (l ++ r) = nodes l ++ nodes r := List.map_append

@[simp] theorem lastNode_nil : lastNode t ([] : List (ν × α)) = t := rfl

@[simp] theorem lastNode_concat : lastNode t (l ++ [e]) = e.1 := by simp [lastNode]

end Nodes

namespace Layout

variable {ν β α : Type} (L : Layout ν β α)

/-- From `x`, the links lead through the nodes of `l`, which show its entries, to `y`. -/
def Seg (st : Store ν β) : ν → List (ν × α) → ν → Prop
  | x, [], y => x = y
  | x, (n, a) :: l, y => x = n ∧ ∃ b, st n = some b ∧ L.shows a b ∧ Seg st (L.link b) l y

variable {L} {st st' : Store ν β} {l m m' r : List (ν × α)} {x y n t : ν} {a d : α}

@[simp] theorem seg_nil : L.Seg st x [] y ↔ x = y := Iff.rfl

@[simp] theorem seg_cons : L.Seg st x ((n, a) :: l) y ↔
    x = n ∧ ∃ b, st n = some b ∧ L.shows a b ∧ L.Seg st (L.link b) l y := Iff.rfl

theorem seg_append : L.Seg st x (l ++ r) y ↔ ∃ z, L.Seg st x l z ∧ L.Seg st z r y := by
  induction l generalizing x with
  | nil => simp
  | cons e l ih =>
    obtain ⟨n, a⟩ := e
    simp only [List.cons_append, seg_cons, ih]
    refine ⟨?_, ?_⟩
    · rintro ⟨hx, b, hb, hab, z, hl, hr⟩
      exact ⟨z, ⟨hx, b, hb, hab, hl⟩, hr⟩
    · rintro ⟨z, ⟨hx, b, hb, hab, hl⟩, hr⟩
      exact ⟨hx, b, hb, hab, z, hl, hr⟩

/-- A segment depends on its own nodes only. -/
theorem Seg.congr (h : L.Seg st x l y) (heq : ∀ n ∈ nodes l, st' n = st n) :
    L.Seg st' x l y := by
  induction l generalizing x with
  | nil => exact h
  | cons e l ih =>
    obtain ⟨n, a⟩ := e
    obtain ⟨hx, b, hb, hab, hl⟩ := h
    refine ⟨hx, b, ?_, hab, ih hl fun n hn => heq n (List.mem_cons_of_mem _ hn)⟩
    rw [heq n List.mem_cons_self, hb]

/-- The nodes are linked one to the next. -/
theorem Seg.isChain (h : L.Seg st x l y) :
    (nodes l ++ [y]).IsChain fun n m => ∃ b, st n = some b ∧ L.link b = m := by
  induction l generalizing x with
  | nil => exact List.IsChain.singleton y
  | cons e l ih =>
    obtain ⟨n, a⟩ := e
    obtain ⟨-, b, hb, -, hl⟩ := h
    refine List.isChain_cons.mpr ⟨fun m hm => ⟨b, hb, ?_⟩, ih hl⟩
    -- the first node behind `n` is the one it links to
    cases l with
    | nil => exact hl.trans (by simpa using hm)
    | cons e l => exact hl.1.trans (by simpa using hm)

theorem Seg.exists_of_mem (h : L.Seg st x l y) (hn : n ∈ nodes l) : ∃ b, st n = some b := by
  induction l generalizing x with
  | nil => cases hn
  | cons e l ih =>
    obtain ⟨-, b, hb, -, hl⟩ := h
    rcases List.mem_cons.mp hn with rfl | hn
    · exact ⟨b, hb⟩
    · exact ih hl hn

/-! ## Circular lists -/

variable (L) in
/-- The nodes of `st` form one circular list, which shows the entries of `l`. -/
structure Cycle (st : Store ν β) (l : List (ν × α)) : Prop where
  closed : ∃ x, L.Seg st x l x
  nodup : (nodes l).Nodup
  /-- there are no other nodes -/
  dom : ∀ n b, st n = some b → n ∈ nodes l

namespace Cycle

theorem mem_iff (h : L.Cycle st l) : n ∈ nodes l ↔ ∃ b, st n = some b := by
  obtain ⟨x, hx⟩ := h.closed
  exact ⟨hx.exists_of_mem, fun ⟨b, hb⟩ => h.dom n b hb⟩

/-- The list may begin anywhere. -/
theorem rotate (h : L.Cycle st (l ++ r)) : L.Cycle st (r ++ l) := by
  obtain ⟨x, hx⟩ := h.closed
  obtain ⟨z, hl, hr⟩ := seg_append.mp hx
  refine ⟨⟨z, seg_append.mpr ⟨x, hr, hl⟩⟩, ?_, fun n b hb => ?_⟩
  · have hnd := h.nodup
    rw [nodes_append] at hnd ⊢
    exact List.nodup_append_comm.mp hnd
  · have hmem := h.dom n b hb
    rw [nodes_append] at hmem ⊢
    exact List.perm_append_comm.mem_iff.mp hmem

/-- Following the links from the first node leads back to it. -/
theorem isChain (h : L.Cycle st ((n, a) :: r)) :
    (n :: nodes r ++ [n]).IsChain fun n m => ∃ b, st n = some b ∧ L.link b = m := by
  obtain ⟨x, hx⟩ := h.closed
  obtain ⟨rfl, -⟩ := id hx
  exact hx.isChain

/-- An entry stands in the store. -/
theorem entry (h : L.Cycle st (l ++ (n, a) :: r)) : ∃ b, st n = some b ∧ L.shows a b := by
  obtain ⟨x, hx⟩ := h.closed
  obtain ⟨z, -, -, b, hb, hab, -⟩ := seg_append.mp hx
  exact ⟨b, hb, hab⟩

/-- Neighbours are two nodes, and the first one links to the second. -/
theorem next (h : L.Cycle st (l ++ (n, a) :: (y, d) :: r)) :
    n ≠ y ∧ ∃ b, st n = some b ∧ L.shows a b ∧ L.link b = y := by
  refine ⟨?_, ?_⟩
  · have hnd := h.nodup
    simp only [nodes_append, nodes_cons] at hnd
    rintro rfl
    exact (List.nodup_cons.mp (List.nodup_append.mp hnd).2.1).1 List.mem_cons_self
  · obtain ⟨x, hx⟩ := h.closed
    obtain ⟨z, -, -, b, hb, hab, hlink, -⟩ := seg_append.mp hx
    exact ⟨b, hb, hab, hlink⟩

/-- The last node links to the first one, and every other node to the next one. -/
theorem before (h : L.Cycle st (l ++ (n, a) :: r))
    (ht : (nodes (l ++ (n, a) :: r)).getLast? = some t) :
    ∃ b, st (lastNode t l) = some b ∧ L.link b = n := by
  obtain ⟨x, hx⟩ := h.closed
  rcases List.eq_nil_or_concat' l with rfl | ⟨l, e, rfl⟩
  · obtain ⟨rfl, -⟩ := id hx
    rcases List.eq_nil_or_concat' ((x, a) :: r) with hnil | ⟨c, e, hc⟩
    · cases hnil
    · rw [List.nil_append, hc] at hx ht
      obtain ⟨z, -, -, b, hb, -, hlink⟩ := seg_append.mp hx
      have hte : e.1 = t := by simpa using ht
      exact ⟨b, by rw [lastNode_nil, ← hte]; exact hb, hlink⟩
  · obtain ⟨z, hl, hn, -⟩ := seg_append.mp hx
    obtain ⟨z', -, -, b, hb, -, hlink⟩ := seg_append.mp hl
    rw [seg_nil] at hlink
    exact ⟨b, by rw [lastNode_concat]; exact hb, hlink.trans hn⟩

/-- The nodes beside `m` are not those of `m`. -/
theorem ne_of_mem (h : L.Cycle st (l ++ m ++ r)) (hx : x ∈ nodes l ++ nodes r)
    (hy : y ∈ nodes m) : x ≠ y := by
  have hnd := h.nodup
  simp only [nodes_append] at hnd
  obtain ⟨hlm, -, hr⟩ := List.nodup_append.mp hnd
  obtain ⟨-, -, hl⟩ := List.nodup_append.mp hlm
  rcases List.mem_append.mp hx with hx | hx
  · exact hl x hx y hy
  · exact (hr y (List.mem_append_right _ hy) x hx).symm

/-- And they are in the store. -/
theorem ne_none_of_mem (h : L.Cycle st (l ++ m ++ r)) (hx : x ∈ nodes l ++ nodes r) :
    st x ≠ none := by
  obtain ⟨b, hb⟩ := (h.mem_iff (n := x)).mp (by
    simp only [nodes_append, List.mem_append] at hx ⊢
    tauto)
  rw [hb]
  exact Option.some_ne_none b

/-- A node that exists and is not beside `m` is one of `m`. -/
theorem mem_middle (h : L.Cycle st (l ++ m ++ r)) (hn : n ∉ nodes l ++ nodes r)
    (hb : st n = some b) : n ∈ nodes m := by
  have hmem := h.dom n b hb
  rw [nodes_append, nodes_append, List.mem_append, List.mem_append] at hmem
  rw [List.mem_append, not_or] at hn
  exact (hmem.resolve_right hn.2).resolve_left hn.1

/-- Other nodes `m'` take the place of the neighbours `m`. -/
theorem splice (h : L.Cycle st (l ++ m ++ r)) (hframe : ∀ n ∈ nodes l ++ nodes r, st' n = st n)
    (hseg : ∀ x y, L.Seg st x m y → L.Seg st' x m' y) (hnodup : (nodes m').Nodup)
    (hnew : ∀ n ∈ nodes m', n ∈ nodes m ∨ st n = none)
    (hdom : ∀ n b, n ∉ nodes l ++ nodes r → st' n = some b → n ∈ nodes m') :
    L.Cycle st' (l ++ m' ++ r) := by
  obtain ⟨x, hx⟩ := h.closed
  obtain ⟨z, hlm, hr⟩ := seg_append.mp hx
  obtain ⟨w, hl, hm⟩ := seg_append.mp hlm
  have hnd := h.nodup
  simp only [nodes_append] at hnd
  obtain ⟨hndlm, hndr, hdisj⟩ := List.nodup_append.mp hnd
  obtain ⟨hndl, -, -⟩ := List.nodup_append.mp hndlm
  -- the nodes of `m'` are none of `l` or `r`
  have hfresh : ∀ n ∈ nodes m', n ∉ nodes l ++ nodes r := by
    intro n hn hlr
    rcases hnew n hn with hm | hnone
    · exact h.ne_of_mem hlr hm rfl
    · exact h.ne_none_of_mem hlr hnone
  refine ⟨⟨x, seg_append.mpr ⟨z, seg_append.mpr ⟨w, ?_, hseg _ _ hm⟩, ?_⟩⟩, ?_, fun n b hb => ?_⟩
  · exact hl.congr fun n hn => hframe n (List.mem_append_left _ hn)
  · exact hr.congr fun n hn => hframe n (List.mem_append_right _ hn)
  · rw [nodes_append, nodes_append]
    refine List.nodup_append.mpr ⟨List.nodup_append.mpr ⟨hndl, hnodup, ?_⟩, hndr, ?_⟩
    · rintro n hn _ hm rfl
      exact hfresh n hm (List.mem_append_left _ hn)
    · rintro n hn _ hr rfl
      rcases List.mem_append.mp hn with hl | hm
      · exact hdisj n (List.mem_append_left _ hl) n hr rfl
      · exact hfresh n hm (List.mem_append_right _ hr)
  · rw [nodes_append, nodes_append]
    by_cases hn : n ∈ nodes l ++ nodes r
    · rcases List.mem_append.mp hn with hl | hr
      · exact List.mem_append_left _ (List.mem_append_left _ hl)
      · exact List.mem_append_right _ hr
    · exact List.mem_append_left _ (List.mem_append_right _ (hdom n b hn hb))

/-- **A search loop ends.** Its body, standing at `m`, looks at the next node: it stops
there with a result, or goes on to it. The last node stops it. -/
theorem scan {ρ : Type} (h : L.Cycle st l) (ht : (nodes l).getLast? = some t)
    (body : ν → Exec (ν ⊕ ρ)) (stop : ν × α → Prop) (res : ν → ν × α → ρ)
    (hnext : ∀ m n a b c, st m = some b → L.link b = n → st n = some c → L.shows a c →
      ¬ stop (n, a) → body m = .ok (.inl n))
    (hdone : ∀ m n a b c, st m = some b → L.link b = n → st n = some c → L.shows a c →
      stop (n, a) → body m = .ok (.inr (res m (n, a))))
    (hlast : ∀ e ∈ l, e.1 = t → stop e) :
    ∃ u e v, l = u ++ e :: v ∧ (∀ x ∈ u, ¬ stop x) ∧ stop e ∧
      ∀ fuel, l.length ≤ fuel → loop body fuel t = .ok (res (lastNode t u) e) := by
  -- from anywhere in the list, by induction on what is ahead
  have main : ∀ v u e, l = u ++ e :: v → (∀ x ∈ u, ¬ stop x) → ∃ u' e' v', l = u' ++ e' :: v' ∧
      (∀ x ∈ u', ¬ stop x) ∧ stop e' ∧ ∀ fuel, v.length < fuel →
        loop body fuel (lastNode t u) = .ok (res (lastNode t u') e') := by
    intro v
    induction v with
    | nil =>
      intro u e hl hu
      have hstop : stop e := by
        apply hlast e (by rw [hl]; simp)
        rw [hl] at ht
        simpa using ht
      refine ⟨u, e, [], hl, hu, hstop, fun fuel hfuel => ?_⟩
      obtain ⟨fuel, rfl⟩ : ∃ k, fuel = k + 1 := ⟨fuel - 1, by simp at hfuel; omega⟩
      subst hl
      obtain ⟨b, hb, hlink⟩ := h.before ht
      obtain ⟨c, hc, hshows⟩ := h.entry
      exact loop_done (hdone _ _ _ b c hb hlink hc hshows hstop) fuel
    | cons e' v ih =>
      intro u e hl hu
      have h' := h
      have ht' := ht
      rw [hl] at h' ht'
      obtain ⟨b, hb, hlink⟩ := h'.before ht'
      obtain ⟨c, hc, hshows⟩ := h'.entry
      by_cases hstop : stop e
      · refine ⟨u, e, e' :: v, hl, hu, hstop, fun fuel hfuel => ?_⟩
        obtain ⟨fuel, rfl⟩ : ∃ k, fuel = k + 1 := ⟨fuel - 1, by omega⟩
        exact loop_done (hdone _ _ _ b c hb hlink hc hshows hstop) fuel
      · obtain ⟨u', e'', v', hl', hu', hstop', hloop⟩ := ih (u ++ [e]) e'
          (by rw [hl, List.append_assoc]; rfl) fun x hx => by
            rcases List.mem_append.mp hx with hx | hx
            · exact hu x hx
            · rwa [List.mem_singleton.mp hx]
        refine ⟨u', e'', v', hl', hu', hstop', fun fuel hfuel => ?_⟩
        obtain ⟨fuel, rfl⟩ : ∃ k, fuel = k + 1 := ⟨fuel - 1, by omega⟩
        rw [loop_next (hnext _ _ _ b c hb hlink hc hshows hstop)]
        have := hloop fuel (by rw [List.length_cons] at hfuel; omega)
        rwa [lastNode_concat] at this
  cases l with
  | nil => cases ht
  | cons e v =>
    obtain ⟨u', e', v', hl', hu', hstop', hloop⟩ := main v [] e rfl fun x hx => by cases hx
    exact ⟨u', e', v', hl', hu', hstop', fun fuel hfuel => hloop fuel hfuel⟩

end Cycle

end Layout

end SccShm
