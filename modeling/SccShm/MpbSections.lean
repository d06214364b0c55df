import SccShm.MpbCalls
import SccShm.MpbWriters

/-!
# Write sections

A writer's section is `start_write_node`, any number of calls of `cpy_mem_to_mpb`
and `stop_write_node`. The section takes the node's lock and raises `WRITING`;
afterwards both should be as before, or no other writer gets through
`start_write_node` again.

* `node_open` — with nobody in a section the lock is free and `WRITING` is clear, as
  long as no section ends with a message of no bytes, and none with one that is too
  big, unless another core sleeps in the full-ring wait.
* `node_closed` — a section with one call for no bytes leaves `WRITING` set.
* `closed_forever` — then no writer gets through any more.
* `sleep_iff_full` — in a section the lock is given up exactly in a full ring.
-/

namespace SccShm

/-- Where a core is. -/
inductive Stage : Type where
  /-- not in a section, or in the loop of `start_write_node` without the lock -/
  | outside
  /-- in `start_write_node`, with the lock -/
  | testing
  /-- `start_write_node` has returned, and so has every call of `cpy_mem_to_mpb` -/
  | started
  /-- in the loop of `cpy_mem_to_mpb`, with `src` still to be copied -/
  | copying (src : List Byte)
  /-- in its full-ring wait, the lock given up -/
  | waiting (src : List Byte)
  /-- ended in the exit of `cpy_mem_to_mpb` -/
  | exited

namespace Stage

/-- The core has taken the lock and is still running. -/
def Locked : Stage → Prop
  | testing | started | copying _ => True
  | outside | waiting _ | exited => False

/-- `start_write_node` has returned, `stop_write_node` has not. -/
def Inside : Stage → Prop
  | started | copying _ | waiting _ => True
  | outside | testing | exited => False

/-- In the full-ring wait. -/
def Waiting (p : Stage) : Prop := ∃ src, p = waiting src

/-- Not in a section. -/
def Gone (p : Stage) : Prop := p = outside ∨ p = exited

theorem gone_of_not_locked {p : Stage} (h : ¬ p.Locked) (hw : ¬ p.Waiting) : p.Gone := by
  cases p with
  | outside => exact Or.inl rfl
  | exited => exact Or.inr rfl
  | testing | started | copying => exact absurd trivial h
  | waiting src => exact absurd ⟨src, rfl⟩ hw

theorem Waiting.inside {p : Stage} (h : p.Waiting) : p.Inside := by
  obtain ⟨src, rfl⟩ := h
  trivial

theorem Waiting.not_gone {p : Stage} (h : p.Waiting) : ¬ p.Gone := by
  obtain ⟨src, rfl⟩ := h
  rintro (h | h) <;> cases h

theorem Inside.not_gone {p : Stage} (h : p.Inside) : ¬ p.Gone := by
  rintro (rfl | rfl) <;> exact h

end Stage

/-- The buffer of a node and the cores that write to it. -/
structure Sections (κ : Type) : Type where
  mpb : Mpb
  /-- who has taken `locks[node]` -/
  lock : Option κ
  pc : κ → Stage
  /-- the message that a core last passed to `cpy_mem_to_mpb` in its section -/
  last : κ → Option (List Byte)

/-- The steps of the cores and of the reader. -/
inductive SectionOp (κ : Type) : Type where
  /-- `lock` in `start_write_node` succeeds -/
  | lock (c : κ)
  /-- `start_write_node` finds `WRITING` clear and returns -/
  | enter (c : κ)
  /-- `start_write_node` finds `WRITING` set and gives up the lock -/
  | back (c : κ)
  /-- `cpy_mem_to_mpb` is called -/
  | call (c : κ) (src : List Byte)
  /-- an iteration of its loop that finds room -/
  | write (c : κ)
  /-- an iteration that finds none: the lock is given up -/
  | sleep (c : κ)
  /-- and taken again -/
  | wake (c : κ)
  /-- `cpy_mem_to_mpb` returns -/
  | done (c : κ)
  /-- `stop_write_node` -/
  | stop (c : κ)
  /-- the reader calls `cpy_mpb_to_mem` -/
  | read (size : ℕ)

section Step

variable {κ : Type} [DecidableEq κ]

/-- One step. -/
inductive SectionStep : Sections κ → SectionOp κ → Sections κ → Prop where
  | lock {s : Sections κ} {c : κ} : s.pc c = .outside → s.lock = none →
      SectionStep s (.lock c)
        { s with lock := some c, pc := Function.update s.pc c .testing }
  | enter {s : Sections κ} {c : κ} : s.pc c = .testing → s.mpb.writing = false →
      SectionStep s (.enter c) { s with
        pc := Function.update s.pc c .started
        last := Function.update s.last c none }
  | back {s : Sections κ} {c : κ} : s.pc c = .testing → s.mpb.writing = true →
      SectionStep s (.back c) { s with lock := none, pc := Function.update s.pc c .outside }
  | call {s : Sections κ} {c : κ} (src : List Byte) : s.pc c = .started → src.length < bSize →
      SectionStep s (.call c src) { s with
        mpb := { s.mpb with writing := true }
        pc := Function.update s.pc c (.copying src)
        last := Function.update s.last c (some src) }
  | exit {s : Sections κ} {c : κ} (src : List Byte) : s.pc c = .started → bSize ≤ src.length →
      SectionStep s (.call c src) { s with
        pc := Function.update s.pc c .exited
        last := Function.update s.last c (some src) }
  | write {s : Sections κ} {c : κ} {src : List Byte} : s.pc c = .copying src → src ≠ [] →
      s.mpb.free src.length ≠ 0 →
      SectionStep s (.write c) { s with
        mpb := (s.mpb.writeIter src).1
        pc := Function.update s.pc c (.copying (s.mpb.writeIter src).2) }
  | sleep {s : Sections κ} {c : κ} {src : List Byte} : s.pc c = .copying src → src ≠ [] →
      s.mpb.free src.length = 0 →
      SectionStep s (.sleep c)
        { s with lock := none, pc := Function.update s.pc c (.waiting src) }
  | wake {s : Sections κ} {c : κ} {src : List Byte} : s.pc c = .waiting src → s.lock = none →
      SectionStep s (.wake c)
        { s with lock := some c, pc := Function.update s.pc c (.copying src) }
  | done {s : Sections κ} {c : κ} : s.pc c = .copying [] →
      SectionStep s (.done c) { s with pc := Function.update s.pc c .started }
  | stop {s : Sections κ} {c : κ} : s.pc c = .started →
      SectionStep s (.stop c) { s with lock := none, pc := Function.update s.pc c .outside }
  | read {s : Sections κ} {dst : List Byte} {m' : Mpb} (size : ℕ) :
      Returns (fun fuel => cpyMpbToMem fuel size s.mpb) (dst, m') →
      SectionStep s (.read size) { s with mpb := m' }

/-- What `SccInit` leaves. -/
def Sections.initial (buf : ℕ → Byte) : Sections κ :=
  ⟨Mpb.init buf, none, fun _ => .outside, fun _ => none⟩

/-- No core is in a section. -/
def Sections.Idle (s : Sections κ) : Prop := ∀ c, (s.pc c).Gone

/-- The next writer gets through. -/
def Sections.Open (s : Sections κ) : Prop := s.mpb.writing = false ∧ s.lock = none

/-- A section whose last message has no bytes is ended, and a message that is too big is
passed to `cpy_mem_to_mpb`, only while another core is in the full-ring wait. -/
def SectionOk (s : Sections κ) : SectionOp κ → Prop
  | .stop c => s.last c = some [] → ∃ d, d ≠ c ∧ (s.pc d).Waiting
  | .call c src => bSize ≤ src.length → ∃ d, d ≠ c ∧ (s.pc d).Waiting
  | _ => True

/-- What holds of a core: between calls `WRITING` is set exactly if the last message of the
section had no bytes. -/
def StageOk (s : Sections κ) (c : κ) : Stage → Prop
  | .started | .copying [] => s.mpb.writing = true ↔ s.last c = some []
  | .copying (_ :: _) => s.last c ≠ some []
  | .waiting src => src ≠ [] ∧ s.last c ≠ some []
  | .outside | .testing | .exited => True

/-- The invariant. -/
structure SectionsHold (s : Sections κ) : Prop where
  locked : ∀ c, (s.pc c).Locked → s.lock = some c
  /-- a core that ended with the lock keeps another one waiting -/
  owner : ∀ c, s.lock = some c →
    (s.pc c).Locked ∨ s.pc c = .exited ∧ ∃ d, (s.pc d).Waiting
  flag : s.mpb.writing = true → ∃ c, (s.pc c).Inside
  stage : ∀ c, StageOk s c (s.pc c)

variable {s s' : Sections κ} {c : κ} {p : Stage} {op : SectionOp κ}

/-- The lock is given up in the middle of a message exactly in a full ring. -/
theorem sleep_iff_full {src : List Byte} (hstart : s.mpb.start < bSize)
    (hstop : s.mpb.stop < bSize) (hc : s.pc c = .copying src) (hsrc : src ≠ []) :
    (∃ s', SectionStep s (.sleep c) s') ↔ s.mpb.stored = bSize - 1 := by
  obtain ⟨q, hq⟩ := Mpb.exists_holds hstart hstop
  rw [← hq.free_eq_zero_iff (List.length_pos_iff.mpr hsrc)]
  refine ⟨?_, fun hfree => ⟨_, .sleep hc hsrc hfree⟩⟩
  rintro ⟨s', hs⟩
  cases hs with
  | sleep hc' _ hfree =>
    obtain rfl := Stage.copying.inj (hc.symm.trans hc')
    exact hfree

omit [DecidableEq κ] in
theorem SectionsHold.idle (hI : SectionsHold s) (hidle : s.Idle) : s.Open := by
  refine ⟨?_, ?_⟩
  · by_contra hw
    obtain ⟨c, hc⟩ := hI.flag (by simpa using hw)
    exact hc.not_gone (hidle c)
  · cases hlock : s.lock with
    | none => rfl
    | some c =>
      rcases hI.owner c hlock with hc | ⟨-, d, hd⟩
      · rcases hidle c with hgone | hgone <;> rw [hgone] at hc <;> exact hc.elim
      · exact absurd (hidle d) hd.not_gone

omit [DecidableEq κ] in
/-- While one core has the lock, no other one has. -/
theorem SectionsHold.alone (hI : SectionsHold s) (hc : (s.pc c).Locked) {d : κ} (hd : d ≠ c) :
    ¬ (s.pc d).Locked :=
  fun h => hd (Option.some.inj ((hI.locked d h).symm.trans (hI.locked c hc)))

omit [DecidableEq κ] in
theorem SectionsHold.not_locked (hI : SectionsHold s) (hfree : s.lock = none) (d : κ) :
    ¬ (s.pc d).Locked :=
  fun h => nomatch (hI.locked d h).symm.trans hfree

omit [DecidableEq κ] in
/-- A core without the lock leaves `WRITING` to the others. -/
theorem StageOk.congr (h : StageOk s c p)
    (hwriting : p.Locked → s'.mpb.writing = s.mpb.writing) (hlast : s'.last c = s.last c) :
    StageOk s' c p := by
  cases p with
  | started =>
    rw [StageOk, hwriting trivial, hlast]
    exact h
  | copying src =>
    cases src with
    | nil =>
      rw [StageOk, hwriting trivial, hlast]
      exact h
    | cons => exact hlast.trans_ne h
  | waiting src => exact ⟨h.1, hlast.trans_ne h.2⟩
  | outside | testing | exited => trivial

/-- A step of core `c`, no other one having the lock: afterwards it has the lock, or
nobody has. -/
theorem SectionsHold.of_update (hI : SectionsHold s) (hpc : s'.pc = Function.update s.pc c p)
    (hothers : ∀ d, d ≠ c → ¬ (s.pc d).Locked)
    (hlock : s'.lock = some c ∧ p.Locked ∨ s'.lock = none ∧ ¬ p.Locked)
    (hlast : ∀ d, d ≠ c → s'.last d = s.last d) (hp : StageOk s' c p)
    (hflag : s'.mpb.writing = true → ∃ d, (s'.pc d).Inside) : SectionsHold s' := by
  have hself : s'.pc c = p := by rw [hpc, Function.update_self]
  refine ⟨fun d hd => ?_, fun d hd => ?_, hflag, fun d => ?_⟩
  · by_cases hdc : d = c
    · rw [hdc, hself] at hd
      rw [hdc]
      exact (hlock.resolve_right fun h => h.2 hd).1
    · rw [hpc, Function.update_of_ne hdc] at hd
      exact absurd hd (hothers d hdc)
  · rcases hlock with ⟨hsome, hp⟩ | ⟨hnone, -⟩
    · obtain rfl : c = d := Option.some.inj (hsome.symm.trans hd)
      exact Or.inl (hself ▸ hp)
    · cases hnone.symm.trans hd
  · by_cases hdc : d = c
    · rwa [hdc, hself]
    · rw [hpc, Function.update_of_ne hdc]
      exact (hI.stage d).congr (fun hd => absurd hd (hothers d hdc)) (hlast d hdc)

/-- A step of the core that has the lock: it keeps it or gives it up. -/
theorem SectionsHold.of_locked (hI : SectionsHold s) (hc : (s.pc c).Locked)
    (hpc : s'.pc = Function.update s.pc c p)
    (hlock : s'.lock = s.lock ∧ p.Locked ∨ s'.lock = none ∧ ¬ p.Locked)
    (hlast : ∀ d, d ≠ c → s'.last d = s.last d) (hp : StageOk s' c p)
    (hflag : s'.mpb.writing = true → ∃ d, (s'.pc d).Inside) : SectionsHold s' :=
  hI.of_update hpc (fun _ hd => hI.alone hc hd)
    (hlock.imp_left fun ⟨heq, hp⟩ => ⟨heq.trans (hI.locked c hc), hp⟩) hlast hp hflag

omit [DecidableEq κ] in
/-- Between the calls of a section, `WRITING` shows whether the last message had bytes. -/
theorem SectionsHold.writing_iff (hI : SectionsHold s) (hc : s.pc c = .started) :
    s.mpb.writing = true ↔ s.last c = some [] := by
  have hstage := hI.stage c
  rw [hc] at hstage
  exact hstage

omit [DecidableEq κ] in
/-- A chunk clears `WRITING`. -/
theorem stageOk_write {src : List Byte} (hclear : s.mpb.writing = false)
    (hlast : s.last c ≠ some []) : StageOk s c (.copying src) := by
  cases src with
  | nil => exact ⟨fun hw => (nomatch hw.symm.trans hclear), fun h => absurd h hlast⟩
  | cons => exact hlast

/-- Whoever is inside stays so if the core that moves was not, or still is. -/
theorem exists_inside {pc : κ → Stage} (h : ∃ d, (pc d).Inside) (hc : (pc c).Inside → p.Inside) :
    ∃ d, (Function.update pc c p d).Inside := by
  obtain ⟨d, hd⟩ := h
  refine ⟨d, ?_⟩
  by_cases hdc : d = c
  · rw [hdc, Function.update_self]
    exact hc (hdc ▸ hd)
  · rwa [Function.update_of_ne hdc]

theorem SectionsHold.step (hI : SectionsHold s) (hok : SectionOk s op)
    (hs : SectionStep s op s') : SectionsHold s' := by
  have hself : ∀ {c : κ} {p : Stage}, p.Inside → ∃ d, (Function.update s.pc c p d).Inside :=
    fun {c p} hp => ⟨c, by rwa [Function.update_self]⟩
  have hstage : ∀ {c : κ} {p : Stage}, s.pc c = p → StageOk s c p := fun hc => hc ▸ hI.stage _
  have hothers : ∀ {c : κ} {l : Option (List Byte)} (d : κ), d ≠ c →
      Function.update s.last c l d = s.last d := fun _ hd => Function.update_of_ne hd ..
  cases hs with
  | @lock c hc hfree =>
    refine hI.of_update rfl (fun d _ => hI.not_locked hfree d) (Or.inl ⟨rfl, trivial⟩)
      (fun _ _ => rfl) trivial fun hw => ?_
    exact exists_inside (hI.flag hw) (by rw [hc]; exact id)
  | @enter c hc hclear =>
    refine hI.of_locked (by rw [hc]; trivial) rfl (Or.inl ⟨rfl, trivial⟩) hothers ?_
      fun _ => hself trivial
    change s.mpb.writing = true ↔ Function.update s.last c none c = some []
    simp [hclear]
  | @back c hc _ =>
    refine hI.of_locked (by rw [hc]; trivial) rfl (Or.inr ⟨rfl, id⟩) (fun _ _ => rfl) trivial
      fun hw => ?_
    exact exists_inside (hI.flag hw) (by rw [hc]; exact id)
  | @call c src hc _ =>
    refine hI.of_locked (by rw [hc]; trivial) rfl (Or.inl ⟨rfl, trivial⟩) hothers ?_
      fun _ => hself trivial
    cases src with
    | nil => exact ⟨fun _ => Function.update_self .., fun _ => rfl⟩
    | cons => simp [StageOk]
  | @exit c src hc hbig =>
    have hlocked : (s.pc c).Locked := by rw [hc]; trivial
    obtain ⟨d, hdc, hd⟩ := hok hbig
    have hd' : (Function.update s.pc c .exited d).Waiting := by rwa [Function.update_of_ne hdc]
    refine ⟨fun e he => ?_, fun e he => ?_, fun _ => ⟨d, hd'.inside⟩, fun e => ?_⟩
    · by_cases hec : e = c
      · subst hec
        simp [Stage.Locked] at he
      · simp only [Function.update_of_ne hec] at he
        exact absurd he (hI.alone hlocked hec)
    · obtain rfl : c = e := Option.some.inj ((hI.locked c hlocked).symm.trans he)
      exact Or.inr ⟨Function.update_self .., d, hd'⟩
    · by_cases hec : e = c
      · subst hec
        simp [StageOk]
      · simp only [Function.update_of_ne hec]
        exact (hI.stage e).congr (fun _ => rfl) (hothers e hec)
  | @write c src hc hsrc hfree =>
    refine hI.of_locked (by rw [hc]; trivial) rfl (Or.inl ⟨rfl, trivial⟩) (fun _ _ => rfl) ?_
      fun _ => hself trivial
    have hlast := hstage hc
    cases src with
    | nil => exact absurd rfl hsrc
    | cons b l =>
      exact stageOk_write (congrArg (fun x => x.1.writing) (Mpb.writeIter_eq rfl hfree)) hlast
  | @sleep c src hc hsrc _ =>
    refine hI.of_locked (by rw [hc]; trivial) rfl (Or.inr ⟨rfl, id⟩) (fun _ _ => rfl) ?_
      fun _ => hself trivial
    have hlast := hstage hc
    cases src with
    | nil => exact absurd rfl hsrc
    | cons b l => exact ⟨hsrc, hlast⟩
  | @wake c src hc hfree =>
    refine hI.of_update rfl (fun d _ => hI.not_locked hfree d) (Or.inl ⟨rfl, trivial⟩)
      (fun _ _ => rfl) ?_ fun _ => hself trivial
    obtain ⟨hsrc, hlast⟩ := hstage hc
    cases src with
    | nil => exact absurd rfl hsrc
    | cons b l => exact hlast
  | @done c hc =>
    exact hI.of_locked (by rw [hc]; trivial) rfl (Or.inl ⟨rfl, trivial⟩) (fun _ _ => rfl)
      (hstage hc) fun _ => hself trivial
  | @stop c hc =>
    refine hI.of_locked (by rw [hc]; trivial) rfl (Or.inr ⟨rfl, id⟩) (fun _ _ => rfl) trivial
      fun hw => ?_
    obtain ⟨d, hdc, hd⟩ := hok ((hI.writing_iff hc).mp hw)
    exact ⟨d, by simpa [Function.update_of_ne hdc] using hd.inside⟩
  | read size hret =>
    have hwriting := cpyMpbToMem_writing hret
    exact ⟨hI.locked, hI.owner, fun hw => hI.flag (hwriting ▸ hw),
      fun c => (hI.stage c).congr (fun _ => hwriting) rfl⟩

omit [DecidableEq κ] in
theorem sectionsHold_initial (buf : ℕ → Byte) :
    SectionsHold (Sections.initial buf : Sections κ) :=
  ⟨fun _ hc => hc.elim, fun _ hc => (nomatch hc), fun hw => (nomatch hw), fun _ => trivial⟩

/-- When a core that has the lock goes, and nobody waits, nobody is left in a section. -/
theorem SectionsHold.idle_of_go (hI : SectionsHold s) (hc : (s.pc c).Locked) (hp : p.Gone)
    (hpc : s'.pc = Function.update s.pc c p) (hwait : ¬ ∃ d, d ≠ c ∧ (s.pc d).Waiting) :
    s'.Idle := by
  intro d
  rw [hpc]
  by_cases hdc : d = c
  · rwa [hdc, Function.update_self]
  · rw [Function.update_of_ne hdc]
    exact Stage.gone_of_not_locked (hI.alone hc hdc) fun hd => hwait ⟨d, hdc, hd⟩

/-- A step that `SectionOk` does not allow closes the node. -/
theorem SectionsHold.closed (hI : SectionsHold s) (hok : ¬ SectionOk s op)
    (hs : SectionStep s op s') : s'.Idle ∧ ¬ s'.Open := by
  cases hs with
  | stop hc =>
    obtain ⟨hlast, hwait⟩ := Classical.not_imp.mp hok
    refine ⟨hI.idle_of_go (by rw [hc]; trivial) (Or.inl rfl) rfl hwait, fun hopen => ?_⟩
    cases ((hI.writing_iff hc).mpr hlast).symm.trans hopen.1
  | @exit c src hc _ =>
    have hlocked : (s.pc c).Locked := by rw [hc]; trivial
    obtain ⟨-, hwait⟩ := Classical.not_imp.mp hok
    refine ⟨hI.idle_of_go hlocked (Or.inr rfl) rfl hwait, fun hopen => ?_⟩
    cases (hI.locked c hlocked).symm.trans hopen.2
  | call src _ hlt => exact absurd (fun hle => absurd hlt (by omega)) hok
  | lock | enter | back | write | sleep | wake | done | read => exact absurd trivial hok

/-- **A node is open to writers whenever nobody is in a section**, for any number of
cores and in any interleaving, if a section ends with a message of no bytes, or with one that
is too big, only while another core is in the full-ring wait. A step that does not meet this
closes the node. -/
theorem node_open (buf : ℕ → Byte)
    (h : Reach (Guarded SectionStep SectionOk) (Sections.initial buf) s) :
    (s.Idle → s.Open) ∧
      ∀ op s', SectionStep s op s' → ((s'.Idle → s'.Open) ↔ SectionOk s op) := by
  have hI := h.invariant (I := SectionsHold) (sectionsHold_initial buf)
    fun s op s' hI hs => hI.step hs.1 hs.2
  refine ⟨hI.idle, fun op s' hs => ⟨fun hopen => ?_, fun hok => (hI.step hok hs).idle⟩⟩
  by_contra hok
  obtain ⟨hidle, hclosed⟩ := hI.closed hok hs
  exact hclosed (hopen hidle)

/-- A section with a message of no bytes and then one of one byte. -/
theorem node_open_demo :
    ∃ s : Sections (Fin 2), s.mpb.stop = 1 ∧ s.Idle ∧ (s.Idle → s.Open) := by
  have r₀ : Reach (Guarded SectionStep SectionOk)
    (Sections.initial fun _ => 0 : Sections (Fin 2)) _ := Reach.init
  have r₁ := r₀.next (a := SectionOp.lock 0) ⟨trivial, .lock rfl rfl⟩
  have r₂ := r₁.next (a := SectionOp.enter 0) ⟨trivial, .enter rfl rfl⟩
  have r₃ := r₂.next (a := SectionOp.call 0 [])
    ⟨fun hle => absurd hle (by decide), .call [] rfl (by decide)⟩
  have r₄ := r₃.next (a := SectionOp.done 0) ⟨trivial, .done rfl⟩
  have r₅ := r₄.next (a := SectionOp.call 0 [7])
    ⟨fun hle => absurd hle (by decide), .call [7] rfl (by decide)⟩
  have r₆ := r₅.next (a := SectionOp.write 0) ⟨trivial, .write rfl (by decide) (by decide)⟩
  have r₇ := r₆.next (a := SectionOp.done 0) ⟨trivial, .done rfl⟩
  have r₈ := r₇.next (a := SectionOp.stop 0) ⟨fun hlast => (nomatch hlast), .stop rfl⟩
  exact ⟨_, rfl, Fin.forall_fin_two.mpr ⟨Or.inl rfl, Or.inl rfl⟩, (node_open _ r₈).1⟩

/-- A section with one call for no bytes leaves `WRITING` set, one with a message that
is too big leaves the lock taken. -/
theorem node_closed :
    (∃ s : Sections (Fin 2), Reach SectionStep (Sections.initial fun _ => 0) s ∧ s.Idle ∧
      s.mpb.writing = true) ∧
    ∃ s : Sections (Fin 2), Reach SectionStep (Sections.initial fun _ => 0) s ∧ s.Idle ∧
      s.lock ≠ none := by
  have r₀ : Reach SectionStep (Sections.initial fun _ => 0 : Sections (Fin 2)) _ := Reach.init
  have r₁ := r₀.next (.lock (c := 0) rfl rfl)
  have r₂ := r₁.next (.enter (c := 0) rfl rfl)
  refine ⟨?_, ?_⟩
  · have r₃ := r₂.next (.call (c := 0) [] rfl (by decide))
    have r₄ := r₃.next (.done (c := 0) rfl)
    have r₅ := r₄.next (.stop (c := 0) rfl)
    exact ⟨_, r₅, Fin.forall_fin_two.mpr ⟨Or.inl rfl, Or.inl rfl⟩, rfl⟩
  · have r₃ := r₂.next (.exit (c := 0) (List.replicate bSize 0) rfl
      (by rw [List.length_replicate]))
    exact ⟨_, r₃, Fin.forall_fin_two.mpr ⟨Or.inr rfl, Or.inl rfl⟩, fun h => (nomatch h)⟩

/-- With `WRITING` set and nobody in a section, no writer ever gets through again. -/
theorem closed_forever (hidle : s.Idle) (hw : s.mpb.writing = true)
    (h : Reach SectionStep s s') : s'.mpb.writing = true ∧ ∀ c, ¬ (s'.pc c).Inside := by
  refine h.invariant (I := fun s => s.mpb.writing = true ∧ ∀ c, ¬ (s.pc c).Inside)
    ⟨hw, fun c hc => hc.not_gone (hidle c)⟩ ?_
  rintro s op s' ⟨hw, hnone⟩ hs
  have hother : ∀ {c : κ} {p : Stage}, ¬ p.Inside → ∀ d, ¬ (Function.update s.pc c p d).Inside := by
    intro c p hp d
    by_cases hdc : d = c
    · rwa [hdc, Function.update_self]
    · rw [Function.update_of_ne hdc]
      exact hnone d
  cases hs with
  | lock | back => exact ⟨hw, hother id⟩
  | enter _ hclear => cases hw.symm.trans hclear
  | @call c src hc _ | @exit c src hc _ | @write c src hc _ _ | @sleep c src hc _ _
  | @wake c src hc _ | @done c hc | @stop c hc => exact absurd (by rw [hc]; trivial) (hnone c)
  | read size hret => exact ⟨(cpyMpbToMem_writing hret).trans hw, hnone⟩

end Step

end SccShm
