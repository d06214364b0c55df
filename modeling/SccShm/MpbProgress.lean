import SccShm.MpbSections
import Mathlib.Data.Finset.Insert

/-!
# No deadlock

The lock of a node is given up in a full ring and nowhere else in a section, so whoever has
it gets to the end of its section once the reader makes room; then the next one can.

* `sections_drain` — as long as every message has at least one byte and is not too big, from
  every state that any number of cores reach in any interleaving, all sections under way can
  come to their end and the buffer be emptied, without another section or message begun; and
  then the next writer gets through.
-/

namespace SccShm

section Progress

variable {κ : Type} [DecidableEq κ] {s s' : Sections κ} {c : κ} {p : Stage} {op : SectionOp κ}

/-- Messages have at least one byte and are not too big. -/
def Fits (_ : Sections κ) : SectionOp κ → Prop
  | .call _ src => 0 < src.length ∧ src.length < bSize
  | _ => True

/-- No section and no message is begun, and the reader asks for no more than is stored. -/
def Finishing (s : Sections κ) : SectionOp κ → Prop
  | .lock _ | .call _ _ => False
  | .read size => size ≤ s.mpb.stored
  | _ => True

omit [DecidableEq κ] in
theorem Finishing.fits (h : Finishing s op) : Fits s op := by
  cases op with
  | call => exact h.elim
  | lock | enter | back | write | sleep | wake | done | stop | read => trivial

/-- Part of a message is still to be copied. -/
def Stage.Pending : Stage → Prop
  | copying src | waiting src => src ≠ []
  | outside | testing | started | exited => False

/-! ## The invariant -/

/-- The invariant of the sections; moreover no core has ended, `WRITING` stands for a message
that is still to be copied, the indices are in range and only some cores are not outside. -/
structure SectionsLive (s : Sections κ) : Prop extends SectionsHold s where
  running : ∀ c, s.pc c ≠ .exited
  pending : s.mpb.writing = true → ∃ c, (s.pc c).Pending
  ring : ∃ q, s.mpb.Holds q
  few : ∃ F : Finset κ, ∀ c ∉ F, s.pc c = .outside

/-- Whatever holds of some core still does if it passes from the old stage of the core that
moves to the new one. -/
theorem exists_update {Q : Stage → Prop} {pc : κ → Stage} (h : ∃ d, Q (pc d))
    (hc : Q (pc c) → Q p) : ∃ d, Q (Function.update pc c p d) := by
  obtain ⟨d, hd⟩ := h
  refine ⟨d, ?_⟩
  by_cases hdc : d = c
  · rw [hdc, Function.update_self]
    exact hc (hdc ▸ hd)
  · rwa [Function.update_of_ne hdc]

/-- Reading keeps the indices in range. -/
theorem cpyMpbToMem_ring {m : Mpb} (h : ∃ q, m.Holds q) {size : ℕ} {out : List Byte × Mpb}
    (hret : Returns (fun fuel => cpyMpbToMem fuel size m) out) : ∃ q, out.2.Holds q := by
  obtain ⟨q, hq⟩ := h
  obtain ⟨fuel, hfuel⟩ := hret
  have hends : out.2.start < bSize ∧ out.2.stop = m.stop := by
    refine loop_partial (I := fun r : Reading => r.start < bSize)
      (Q := fun out : List Byte × Mpb => out.2.start < bSize ∧ out.2.stop = m.stop) ?_ ?_
      hq.first hfuel
    · intro r r' _ hbody
      split at hbody
      · cases hbody
      · obtain rfl := Sum.inl.inj (Except.ok.inj hbody)
        exact Nat.mod_lt _ Mpb.bSize_pos
    · intro r out hI hbody
      split at hbody
      · obtain rfl := Sum.inr.inj (Except.ok.inj hbody)
        exact ⟨hI, rfl⟩
      · cases hbody
  exact Mpb.exists_holds hends.1 (hends.2 ▸ hq.last_lt)

/-- With messages that fit, no section ends with a message of no bytes unless another core
waits, nor by the exit. -/
theorem SectionsLive.sectionOk (hI : SectionsLive s) (hfits : Fits s op)
    (hs : SectionStep s op s') : SectionOk s op := by
  cases hs with
  | @stop c hc =>
    intro hlast
    have hlocked : (s.pc c).Locked := by rw [hc]; trivial
    obtain ⟨d, hd⟩ := hI.pending ((hI.writing_iff hc).mpr hlast)
    have hdc : d ≠ c := by
      rintro rfl
      rw [hc] at hd
      exact hd
    refine ⟨d, hdc, ?_⟩
    have hfree := hI.alone hlocked hdc
    cases hpc : s.pc d with
    | waiting src => exact ⟨src, rfl⟩
    | copying src =>
      rw [hpc] at hfree
      exact absurd trivial hfree
    | outside | testing | started | exited =>
      rw [hpc] at hd
      exact hd.elim
  | call src _ hlt | exit src _ hlt => exact fun hle => absurd hfits.2 (by omega)
  | lock | enter | back | write | sleep | wake | done | read => trivial

/-- A step of core `c` to a stage other than the exit. -/
theorem SectionsLive.of_go (hI : SectionsLive s) (hold : SectionsHold s')
    (hpc : s'.pc = Function.update s.pc c p) (hp : p ≠ .exited)
    (hpending : s'.mpb.writing = true → ∃ d, (s'.pc d).Pending) (hring : ∃ q, s'.mpb.Holds q) :
    SectionsLive s' := by
  obtain ⟨F, hF⟩ := hI.few
  refine ⟨hold, fun d => ?_, hpending, hring, insert c F, fun d hd => ?_⟩
  · rw [hpc]
    by_cases hdc : d = c
    · rwa [hdc, Function.update_self]
    · rw [Function.update_of_ne hdc]
      exact hI.running d
  · rw [Finset.mem_insert, not_or] at hd
    rw [hpc, Function.update_of_ne hd.1]
    exact hF d hd.2

theorem SectionsLive.step (hI : SectionsLive s) (hfits : Fits s op) (hs : SectionStep s op s') :
    SectionsLive s' := by
  have hold := hI.toSectionsHold.step (hI.sectionOk hfits hs) hs
  have hkeep : ∀ {c : κ} {p : Stage}, ((s.pc c).Pending → p.Pending) → s.mpb.writing = true →
      ∃ d, (Function.update s.pc c p d).Pending :=
    fun hp hw => exists_update (hI.pending hw) hp
  cases hs with
  | @lock c hc _ | @enter c hc _ | @back c hc _ | @stop c hc =>
    exact hI.of_go hold rfl (by simp) (hkeep (by rw [hc]; exact False.elim)) hI.ring
  | @done c hc =>
    exact hI.of_go hold rfl (by simp) (hkeep (by rw [hc]; exact fun h => absurd rfl h)) hI.ring
  | @sleep c src hc _ _ | @wake c src hc _ =>
    exact hI.of_go hold rfl (by simp) (hkeep (by rw [hc]; exact id)) hI.ring
  | @call c src hc _ =>
    refine hI.of_go hold rfl (by simp) (fun _ => ⟨c, ?_⟩) hI.ring
    change (Function.update s.pc c (.copying src) c).Pending
    rw [Function.update_self]
    exact List.length_pos_iff.mp hfits.1
  | @write c src hc _ hfree =>
    obtain ⟨q, hq⟩ := hI.ring
    refine hI.of_go hold rfl (by simp) (fun hw => ?_) ⟨_, hq.writeIter src⟩
    -- a chunk clears the flag
    rw [Mpb.writeIter_eq rfl hfree] at hw
    cases hw
  | exit src _ hbig => exact absurd hfits.2 (by omega)
  | read size hret =>
    have hwriting := cpyMpbToMem_writing hret
    exact ⟨hold, hI.running, fun hw => hI.pending (hwriting ▸ hw), cpyMpbToMem_ring hI.ring hret,
      hI.few⟩

omit [DecidableEq κ] in
theorem sectionsLive_initial (buf : ℕ → Byte) :
    SectionsLive (Sections.initial buf : Sections κ) :=
  ⟨sectionsHold_initial buf, fun _ h => (nomatch h), fun hw => (nomatch hw),
    ⟨[], Mpb.holds_init buf⟩, ∅, fun _ _ => rfl⟩

theorem SectionsLive.reach (hI : SectionsLive s) (h : Reach (Guarded SectionStep Finishing) s s') :
    SectionsLive s' :=
  h.invariant hI fun _ _ _ hI hs => hI.step hs.1.fits hs.2

/-! ## Coming to the end -/

/-- The reader takes everything that is stored. -/
theorem SectionsLive.drain (hI : SectionsLive s) : ∃ m' : Mpb, m'.Holds [] ∧
    m'.writing = s.mpb.writing ∧ Reach (Guarded SectionStep Finishing) s { s with mpb := m' } := by
  obtain ⟨q, hq⟩ := hI.ring
  obtain ⟨m', hret, hm'⟩ := cpyMpbToMem_spec hq (le_refl q.length)
  rw [List.drop_length] at hm'
  have hsize : Finishing s (.read q.length) := hq.length_eq.le
  exact ⟨m', hm', cpyMpbToMem_writing hret, Reach.init.next ⟨hsize, .read _ hret⟩⟩

/-- From `started`, a core leaves. -/
theorem reach_stop (hc : s.pc c = .started) : ∃ s', Reach (Guarded SectionStep Finishing) s s' ∧
    s'.lock = none ∧ s'.pc = Function.update s.pc c .outside :=
  ⟨_, Reach.init.next (a := SectionOp.stop c) ⟨trivial, .stop hc⟩, rfl, rfl⟩

/-- A core in the loop of `cpy_mem_to_mpb` copies the rest of its message, as the reader
empties the buffer before each chunk, and leaves. -/
theorem SectionsLive.finish_copying {src : List Byte} (hI : SectionsLive s)
    (hc : s.pc c = .copying src) : ∃ s', Reach (Guarded SectionStep Finishing) s s' ∧
      s'.lock = none ∧ s'.pc = Function.update s.pc c .outside := by
  induction hn : src.length using Nat.strong_induction_on generalizing s src with
  | _ n ih =>
    subst hn
    rcases List.eq_nil_or_concat' src with rfl | ⟨_, _, hcons⟩
    · have r₁ : Reach (Guarded SectionStep Finishing) s _ :=
        Reach.init.next (a := SectionOp.done c) ⟨trivial, .done hc⟩
      obtain ⟨s', r₂, hlock, hpc⟩ :=
        reach_stop (s := { s with pc := Function.update s.pc c .started })
          (Function.update_self ..)
      refine ⟨s', r₁.trans r₂, hlock, ?_⟩
      rw [hpc, Function.update_idem]
    · have hsrc : src ≠ [] := by rw [hcons]; simp
      have hpos := List.length_pos_iff.mpr hsrc
      obtain ⟨m', hm', -, r₁⟩ := hI.drain
      have hfree : m'.free src.length ≠ 0 := (hm'.free_pos (by decide) hpos).ne'
      have r₂ := r₁.next (a := SectionOp.write c) ⟨trivial, .write hc hsrc hfree⟩
      have hshort : (m'.writeIter src).2.length < src.length := by
        rw [Mpb.writeIter_eq rfl hfree, List.length_drop]
        omega
      obtain ⟨s', r₃, hlock, hpc⟩ := ih _ hshort (hI.reach r₂) (Function.update_self ..) rfl
      refine ⟨s', r₂.trans r₃, hlock, ?_⟩
      rw [hpc, Function.update_idem]

/-- Whoever has the lock leaves. -/
theorem SectionsLive.finish (hI : SectionsLive s) (hc : (s.pc c).Locked) :
    ∃ s', Reach (Guarded SectionStep Finishing) s s' ∧ s'.lock = none ∧
      s'.pc = Function.update s.pc c .outside := by
  cases hpc : s.pc c with
  | testing =>
    cases hw : s.mpb.writing with
    | true =>
      exact ⟨_, Reach.init.next (a := SectionOp.back c) ⟨trivial, .back hpc hw⟩, rfl, rfl⟩
    | false =>
      have r₁ : Reach (Guarded SectionStep Finishing) s _ :=
        Reach.init.next (a := SectionOp.enter c) ⟨trivial, .enter hpc hw⟩
      obtain ⟨s', r₂, hlock, hpc'⟩ :=
        reach_stop (s := { s with
          pc := Function.update s.pc c .started, last := Function.update s.last c none })
          (Function.update_self ..)
      refine ⟨s', r₁.trans r₂, hlock, ?_⟩
      rw [hpc', Function.update_idem]
  | started => exact reach_stop hpc
  | copying src => exact hI.finish_copying hpc
  | outside | waiting src | exited =>
    rw [hpc] at hc
    exact hc.elim

/-- With the lock free, all cores in `F` leave. -/
theorem SectionsLive.finish_all {F : Finset κ} (hI : SectionsLive s) (hfree : s.lock = none)
    (hF : ∀ c ∉ F, s.pc c = .outside) : ∃ s', Reach (Guarded SectionStep Finishing) s s' ∧
      s'.lock = none ∧ ∀ c, s'.pc c = .outside := by
  induction F using Finset.induction_on generalizing s with
  | empty => exact ⟨s, Reach.init, hfree, fun c => hF c (Finset.notMem_empty c)⟩
  | insert c F _ ih =>
    have hF' : ∀ d, d ∉ F → d ≠ c → s.pc d = .outside := fun d hd hdc =>
      hF d fun hmem => (Finset.mem_insert.mp hmem).elim hdc hd
    cases hpc : s.pc c with
    | outside =>
      refine ih hI hfree fun d hd => ?_
      by_cases hdc : d = c
      · rw [hdc, hpc]
      · exact hF' d hd hdc
    | waiting src =>
      -- it takes the lock again
      have r₁ : Reach (Guarded SectionStep Finishing) s _ :=
        Reach.init.next (a := SectionOp.wake c) ⟨trivial, .wake hpc hfree⟩
      obtain ⟨s₂, r₂, hfree₂, hpc₂⟩ := (hI.reach r₁).finish_copying (Function.update_self ..)
      have r₁₂ := r₁.trans r₂
      rw [Function.update_idem] at hpc₂
      obtain ⟨s', r₃, hfree', hout⟩ := ih (hI.reach r₁₂) hfree₂ fun d hd => by
        rw [hpc₂]
        by_cases hdc : d = c
        · rw [hdc, Function.update_self]
        · rw [Function.update_of_ne hdc]
          exact hF' d hd hdc
      exact ⟨s', r₁₂.trans r₃, hfree', hout⟩
    | exited => exact absurd hpc (hI.running c)
    | testing | started | copying src =>
      exact absurd (by rw [hpc]; trivial) (hI.not_locked hfree c)

/-- **No deadlock.** From every state that any number of cores reach in any interleaving,
as long as messages have at least one byte and are not too big, all sections under way can
come to their end and the reader empty the buffer, without a section or a message being
begun. Then, as whenever no core is in a section, the next writer gets through. -/
theorem sections_drain (buf : ℕ → Byte)
    (h : Reach (Guarded SectionStep Fits) (Sections.initial buf) s) :
    (s.Idle → s.Open) ∧ ∃ s', Reach (Guarded SectionStep Finishing) s s' ∧
      (∀ c, s'.pc c = .outside) ∧ s'.Open ∧ s'.mpb.stored = 0 := by
  have hI : SectionsLive s := h.invariant (sectionsLive_initial buf)
    fun _ _ _ hI hs => hI.step hs.1 hs.2
  refine ⟨hI.idle, ?_⟩
  -- first whoever has the lock
  obtain ⟨s₁, r₁, hfree₁⟩ : ∃ s₁, Reach (Guarded SectionStep Finishing) s s₁ ∧ s₁.lock = none := by
    cases hlock : s.lock with
    | none => exact ⟨s, Reach.init, hlock⟩
    | some c =>
      rcases hI.owner c hlock with hc | ⟨hexit, -⟩
      · obtain ⟨s₁, r₁, hfree, -⟩ := hI.finish hc
        exact ⟨s₁, r₁, hfree⟩
      · exact absurd hexit (hI.running c)
  -- then the others, one by one
  have hI₁ := hI.reach r₁
  obtain ⟨F, hF⟩ := hI₁.few
  obtain ⟨s₂, r₂, -, hout₂⟩ := hI₁.finish_all hfree₁ hF
  obtain ⟨m', hm', -, r₃⟩ := (hI₁.reach r₂).drain
  have r := (r₁.trans r₂).trans r₃
  exact ⟨_, r, hout₂, (hI.reach r).idle fun c => Or.inl (hout₂ c), hm'.length_eq.symm⟩

/-- A core that has just called `cpy_mem_to_mpb`. -/
theorem sections_drain_demo :
    ∃ s s' : Sections (Fin 2), s.pc 0 = .copying [7, 8] ∧
      Reach (Guarded SectionStep Finishing) s s' ∧ s'.Open ∧ s'.mpb.stored = 0 := by
  have r₀ : Reach (Guarded SectionStep Fits)
    (Sections.initial fun _ => 0 : Sections (Fin 2)) _ := Reach.init
  have r₁ := r₀.next (a := SectionOp.lock 0) ⟨trivial, .lock rfl rfl⟩
  have r₂ := r₁.next (a := SectionOp.enter 0) ⟨trivial, .enter rfl rfl⟩
  have r₃ := r₂.next (a := SectionOp.call 0 [7, 8])
    ⟨⟨by decide, by decide⟩, .call _ rfl (by decide)⟩
  obtain ⟨-, s', hs', -, hopen, hempty⟩ := sections_drain _ r₃
  exact ⟨_, s', rfl, hs', hopen, hempty⟩

end Progress

end SccShm
