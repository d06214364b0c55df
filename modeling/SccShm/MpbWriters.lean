import Mathlib.Data.List.Pairwise
import SccShm.MpbCalls

/-!
# Several writers

Any number of cores write to the buffer of one node: `start_write_node`, one call
of `cpy_mem_to_mpb`, `stop_write_node`, over and over. The node's lock is held all
the way, except in a full ring: there `cpy_mem_to_mpb` gives it up and sleeps, and
only the flag `WRITING` keeps other writers from starting. But the flag is cleared
as soon as the first chunk is in.

* `Streamed` — what goes through the buffer are the bytes appended, and those of a call are
  its message, in any run.
* `messages_apart` — the bytes of a message stay together if no writer starts while
  another one sleeps in the middle of its message.
* `messages_mixed` — a run in which one does.
-/

namespace SccShm

/-! ## Writers -/

/-- A call of `cpy_mem_to_mpb`. -/
structure Call : Type where
  /-- its number, counted over all cores -/
  id : ℕ
  /-- the message it was called with -/
  msg : List Byte
  /-- what is still to be copied -/
  src : List Byte

/-- Part of the message has been copied. -/
def Call.Begun (k : Call) : Prop := k.src.length < k.msg.length

/-- Where a writer is. -/
inductive Pc : Type where
  /-- before `start_write_node`, or in its loop, the lock not taken -/
  | outside
  /-- `start_write_node` has returned -/
  | started
  /-- in the loop of `cpy_mem_to_mpb` -/
  | copying (k : Call)
  /-- in the loop of `cpy_mem_to_mpb`, the lock given up -/
  | waiting (k : Call)

/-- The call that a writer is in. -/
def Pc.call : Pc → Option Call
  | copying k | waiting k => some k
  | outside | started => none

/-- Some writers and the buffer of a node. -/
structure Writers (κ : Type) : Type where
  mpb : Mpb
  /-- who has taken `locks[node]` -/
  lock : Option κ
  pc : κ → Pc
  /-- the messages of the calls of `cpy_mem_to_mpb` so far, by number -/
  msgs : List (List Byte)
  /-- the bytes appended so far, each with the number of its call -/
  log : List (ℕ × Byte)
  /-- the bytes the reader has got so far -/
  delivered : List Byte

/-- The steps of the writers and the reader. -/
inductive WriterOp (κ : Type) : Type where
  /-- `start_write_node` takes the lock, finds `WRITING` clear and returns -/
  | start (c : κ)
  /-- `start_write_node` takes the lock, finds `WRITING` set and gives it up again -/
  | retry (c : κ)
  /-- `cpy_mem_to_mpb` is called -/
  | call (c : κ) (msg : List Byte)
  /-- an iteration of its loop that finds room -/
  | write (c : κ)
  /-- an iteration that finds none: the lock is given up -/
  | sleep (c : κ)
  /-- and taken again -/
  | wake (c : κ)
  /-- `cpy_mem_to_mpb` returns, `stop_write_node` gives up the lock -/
  | stop (c : κ)
  /-- the reader calls `cpy_mpb_to_mem` for bytes already stored -/
  | read (size : ℕ)

section Step

variable {κ : Type} [DecidableEq κ]

/-- Writer `c` goes on to `p`. -/
def Writers.go (s : Writers κ) (c : κ) (p : Pc) : κ → Pc := Function.update s.pc c p

@[simp] theorem Writers.go_self (s : Writers κ) (c : κ) (p : Pc) : s.go c p c = p :=
  Function.update_self ..

theorem Writers.go_of_ne (s : Writers κ) {c d : κ} (h : d ≠ c) (p : Pc) : s.go c p d = s.pc d :=
  Function.update_of_ne h ..

/-- One step. -/
inductive WriterStep : Writers κ → WriterOp κ → Writers κ → Prop where
  | start {s : Writers κ} {c : κ} : s.pc c = .outside → s.lock = none →
      s.mpb.writing = false →
      WriterStep s (.start c) { s with lock := some c, pc := s.go c .started }
  | retry {s : Writers κ} {c : κ} : s.pc c = .outside → s.lock = none →
      s.mpb.writing = true → WriterStep s (.retry c) s
  | call {s : Writers κ} {c : κ} (msg : List Byte) : s.pc c = .started → 0 < msg.length →
      msg.length < bSize →
      WriterStep s (.call c msg) { s with
        mpb := { s.mpb with writing := true }
        pc := s.go c (.copying ⟨s.msgs.length, msg, msg⟩)
        msgs := s.msgs ++ [msg] }
  | write {s : Writers κ} {c : κ} {k : Call} : s.pc c = .copying k → k.src ≠ [] →
      s.mpb.free k.src.length ≠ 0 →
      WriterStep s (.write c) { s with
        mpb := (s.mpb.writeIter k.src).1
        pc := s.go c (.copying { k with src := (s.mpb.writeIter k.src).2 })
        log := s.log ++ (k.src.take (s.mpb.free k.src.length)).map (Prod.mk k.id) }
  | sleep {s : Writers κ} {c : κ} {k : Call} : s.pc c = .copying k → k.src ≠ [] →
      s.mpb.free k.src.length = 0 →
      WriterStep s (.sleep c) { s with lock := none, pc := s.go c (.waiting k) }
  | wake {s : Writers κ} {c : κ} {k : Call} : s.pc c = .waiting k → s.lock = none →
      WriterStep s (.wake c) { s with lock := some c, pc := s.go c (.copying k) }
  | stop {s : Writers κ} {c : κ} {k : Call} : s.pc c = .copying k → k.src = [] →
      WriterStep s (.stop c) { s with lock := none, pc := s.go c .outside }
  | read {s : Writers κ} {dst : List Byte} {m' : Mpb} (size : ℕ) : size ≤ s.mpb.stored →
      Returns (fun fuel => cpyMpbToMem fuel size s.mpb) (dst, m') →
      WriterStep s (.read size) { s with mpb := m', delivered := s.delivered ++ dst }

/-- Before the first step. -/
def Writers.initial (buf : ℕ → Byte) : Writers κ :=
  ⟨Mpb.init buf, none, fun _ => .outside, [], [], []⟩

/-- No writer gets through `start_write_node` while another one, in the wait of
`cpy_mem_to_mpb`, has copied part of its message. -/
def StartsAlone (s : Writers κ) : WriterOp κ → Prop
  | .start _ => ∀ d k, s.pc d = .waiting k → ¬ k.Begun
  | _ => True

/-! ## Messages -/

/-- The calls that the bytes appended belong to. -/
def Writers.labels (s : Writers κ) : List ℕ := s.log.map Prod.fst

/-- Between two equal entries there is no other one. -/
def Contiguous (l : List ℕ) : Prop := ∀ x y, [x, y, x].Sublist l → y = x

theorem contiguous_of_sorted {l : List ℕ} (h : l.Pairwise (· ≤ ·)) : Contiguous l := by
  intro x y hsub
  have hpair := h.sublist hsub
  simp only [List.pairwise_cons, List.mem_cons] at hpair
  exact le_antisymm (hpair.2.1 x (Or.inl rfl)) (hpair.1 y (Or.inl rfl))

/-- A call in progress. -/
structure CallOk (s : Writers κ) (k : Call) : Prop where
  /-- no call is younger -/
  last : k.id + 1 = s.msgs.length
  left : k.src.length ≤ k.msg.length
  /-- until the first chunk is in, the flag is up -/
  flag : ¬ k.Begun → s.mpb.writing = true

/-- What holds of a writer. -/
def PcOk (s : Writers κ) (c : κ) : Pc → Prop
  | .outside => True
  | .started => s.lock = some c
  | .copying k => s.lock = some c ∧ CallOk s k
  | .waiting k => CallOk s k

/-- The invariant: one writer at a time. -/
structure WritersHold (s : Writers κ) : Prop where
  alone : ∀ c d, s.pc c ≠ .outside → d ≠ c → s.pc d = .outside
  pc : ∀ c, PcOk s c (s.pc c)
  labels_lt : ∀ x ∈ s.labels, x < s.msgs.length
  sorted : s.labels.Pairwise (· ≤ ·)

variable {s s' : Writers κ} {c : κ} {p : Pc} {k : Call} {op : WriterOp κ}

omit [DecidableEq κ] in
theorem Writers.labels_append (s : Writers κ) (i : ℕ) (l : List Byte) :
    (s.log ++ l.map (Prod.mk i)).map Prod.fst = s.labels ++ List.replicate l.length i := by
  rw [List.map_append, List.map_map]
  exact congrArg _ (List.map_const' ..)

omit [DecidableEq κ] in
theorem WritersHold.copying (hI : WritersHold s) (hc : s.pc c = .copying k) :
    s.lock = some c ∧ CallOk s k := by
  have := hI.pc c
  rwa [hc] at this

omit [DecidableEq κ] in
theorem WritersHold.waiting (hI : WritersHold s) (hc : s.pc c = .waiting k) : CallOk s k := by
  have := hI.pc c
  rwa [hc] at this

omit [DecidableEq κ] in
/-- With the lock and the flag free, nobody is in a call, except for one that sleeps in
the middle of its message. -/
theorem WritersHold.outside (hI : WritersHold s) (hlock : s.lock = none)
    (hwriting : s.mpb.writing = false) (hsleep : ∀ d k, s.pc d = .waiting k → ¬ k.Begun) (d : κ) :
    s.pc d = .outside := by
  have hd := hI.pc d
  cases hpc : s.pc d with
  | outside => rfl
  | started =>
    rw [hpc, PcOk, hlock] at hd
    cases hd
  | copying k =>
    rw [hpc, PcOk, hlock] at hd
    cases hd.1
  | waiting k =>
    have hflag := (hI.waiting hpc).flag (hsleep d k hpc)
    rw [hwriting] at hflag
    cases hflag

/-- A step of `c`, the others being outside. -/
theorem WritersHold.of_go {pc : κ → Pc} (hpc : s'.pc = Function.update pc c p)
    (hothers : ∀ d, d ≠ c → pc d = .outside) (hp : PcOk s' c p)
    (hlt : ∀ x ∈ s'.labels, x < s'.msgs.length) (hsorted : s'.labels.Pairwise (· ≤ ·)) :
    WritersHold s' := by
  have hd : ∀ d, d ≠ c → s'.pc d = .outside := fun d hd => by
    rw [hpc, Function.update_of_ne hd]
    exact hothers d hd
  refine ⟨fun d e hde hed => ?_, fun d => ?_, hlt, hsorted⟩
  · -- whoever is not outside is `c`
    by_cases hdc : d = c
    · exact hd e (by rw [← hdc]; exact hed)
    · exact absurd (hd d hdc) hde
  · by_cases hdc : d = c
    · rw [hdc, hpc, Function.update_self]
      exact hp
    · rw [hd d hdc]
      trivial

/-- Reading leaves the flag alone. -/
theorem cpyMpbToMem_writing {m : Mpb} {size : ℕ} {out : List Byte × Mpb}
    (hret : Returns (fun fuel => cpyMpbToMem fuel size m) out) : out.2.writing = m.writing := by
  obtain ⟨fuel, hfuel⟩ := hret
  apply loop_partial (I := fun _ : Reading => True)
    (Q := fun out : List Byte × Mpb => out.2.writing = m.writing) _ _ trivial hfuel
  · exact fun _ _ _ _ => trivial
  · intro r out _ hbody
    split at hbody
    · obtain rfl := Sum.inr.inj (Except.ok.inj hbody)
      rfl
    · cases hbody

omit [DecidableEq κ] in
/-- What holds of a writer does not depend on the bytes stored. -/
theorem PcOk.congr (h : PcOk s c p) (hlock : s'.lock = s.lock) (hmsgs : s'.msgs = s.msgs)
    (hwriting : s'.mpb.writing = s.mpb.writing) : PcOk s' c p := by
  have hcall : ∀ {k}, CallOk s k → CallOk s' k := fun hk =>
    ⟨by rw [hk.last, hmsgs], hk.left, fun hb => hwriting.trans (hk.flag hb)⟩
  cases p with
  | outside => trivial
  | started => exact hlock.trans h
  | copying k => exact ⟨hlock.trans h.1, hcall h.2⟩
  | waiting k => exact hcall h

omit [DecidableEq κ] in
/-- An iteration that finds room copies something. -/
theorem CallOk.write {m : Mpb} (hk : CallOk s k) (hsrc : k.src ≠ [])
    (hfree : m.free k.src.length ≠ 0) :
    (m.writeIter k.src).2.length < k.src.length ∧
      Call.Begun { k with src := (m.writeIter k.src).2 } := by
  have hpos := List.length_pos_iff.mpr hsrc
  have hleft := hk.left
  have hlt : (m.writeIter k.src).2.length < k.src.length := by
    rw [Mpb.writeIter]
    simp only [if_neg hfree, List.length_drop]
    omega
  exact ⟨hlt, lt_of_lt_of_le hlt hleft⟩

/-- The youngest call appends. -/
theorem pairwise_append_replicate {l : List ℕ} {i n : ℕ} (h : l.Pairwise (· ≤ ·))
    (hle : ∀ x ∈ l, x ≤ i) : (l ++ List.replicate n i).Pairwise (· ≤ ·) := by
  refine List.pairwise_append.mpr ⟨h, List.pairwise_replicate_of_refl, fun x hx y hy => ?_⟩
  rw [List.eq_of_mem_replicate hy]
  exact hle x hx

theorem WritersHold.step (hI : WritersHold s) (hok : StartsAlone s op)
    (hs : WriterStep s op s') : WritersHold s' := by
  have hothers : ∀ {c p}, s.pc c = p → p ≠ .outside → ∀ d, d ≠ c → s.pc d = .outside :=
    fun hc hp d hd => hI.alone _ d (by rw [hc]; exact hp) hd
  cases hs with
  | start _ hlock hwriting =>
    exact .of_go rfl (fun d _ => hI.outside hlock hwriting hok d) rfl hI.labels_lt hI.sorted
  | retry => exact hI
  | @call c msg hc _ _ =>
    have hlock : s.lock = some c := by
      have := hI.pc c
      rwa [hc] at this
    have hlen : (s.msgs ++ [msg]).length = s.msgs.length + 1 := List.length_append
    refine .of_go rfl (hothers hc (by simp)) ⟨hlock, hlen.symm, le_refl _, fun _ => rfl⟩ ?_
      hI.sorted
    exact fun x hx => (Nat.lt_succ_of_lt (hI.labels_lt x hx)).trans_eq hlen.symm
  | @write c k hc hsrc hfree =>
    obtain ⟨hlock, hk⟩ := hI.copying hc
    have hlast := hk.last
    obtain ⟨hlt, hbegun⟩ := hk.write hsrc hfree
    refine .of_go rfl (hothers hc (by simp))
      ⟨hlock, hlast, hlt.le.trans hk.left, absurd hbegun⟩ ?_ ?_
    · intro x hx
      rw [Writers.labels, s.labels_append, List.mem_append, List.mem_replicate] at hx
      rcases hx with hx | ⟨-, rfl⟩
      · exact hI.labels_lt x hx
      · change k.id < s.msgs.length
        omega
    · rw [Writers.labels, s.labels_append]
      refine pairwise_append_replicate hI.sorted fun x hx => ?_
      have := hI.labels_lt x hx
      omega
  | @sleep c k hc _ _ =>
    have hk := (hI.copying hc).2
    exact .of_go rfl (hothers hc (by simp)) ⟨hk.last, hk.left, hk.flag⟩ hI.labels_lt hI.sorted
  | @wake c k hc _ =>
    have hk := hI.waiting hc
    exact .of_go rfl (hothers hc (by simp)) ⟨rfl, hk.last, hk.left, hk.flag⟩ hI.labels_lt
      hI.sorted
  | @stop c k hc _ =>
    exact .of_go rfl (hothers hc (by simp)) trivial hI.labels_lt hI.sorted
  | read size _ hret =>
    have hwriting := cpyMpbToMem_writing hret
    exact ⟨hI.alone, fun c => (hI.pc c).congr rfl rfl hwriting, hI.labels_lt, hI.sorted⟩

omit [DecidableEq κ] in
theorem writersHold_initial (buf : ℕ → Byte) :
    WritersHold (Writers.initial buf : Writers κ) :=
  ⟨fun _ _ _ _ => rfl, fun _ => trivial, fun _ hx => absurd hx List.not_mem_nil,
    List.Pairwise.nil⟩

/-! ## The bytes of a call -/

/-- What call `i` has appended. -/
def sent (log : List (ℕ × Byte)) (i : ℕ) : List Byte :=
  (log.filter fun e => e.1 = i).map Prod.snd

theorem sent_append_self (log : List (ℕ × Byte)) (i : ℕ) (l : List Byte) :
    sent (log ++ l.map (Prod.mk i)) i = sent log i ++ l := by
  simp [sent, List.filter_map, Function.comp_def]

theorem sent_append_of_ne {i j : ℕ} (h : j ≠ i) (log : List (ℕ × Byte)) (l : List Byte) :
    sent (log ++ l.map (Prod.mk j)) i = sent log i := by
  simp [sent, List.filter_map, Function.comp_def, h]

theorem sent_eq_nil {log : List (ℕ × Byte)} {i : ℕ} (h : i ∉ log.map Prod.fst) :
    sent log i = [] := by
  rw [sent, List.map_eq_nil_iff, List.filter_eq_nil_iff]
  intro e he
  simpa using fun heq : e.1 = i => h (heq ▸ List.mem_map_of_mem he)

/-- The log is what goes through the buffer, and the bytes of a call in it are its message. -/
structure Streamed (s : Writers κ) : Prop where
  /-- delivered, followed by stored, is what the log says -/
  queue : s.delivered ++ slots s.mpb.buf bSize s.mpb.start s.mpb.stored = s.log.map Prod.snd
  /-- a call has appended its message, less what it still has to copy -/
  message : ∀ i msg, s.msgs[i]? = some msg → sent s.log i = msg ∨
    ∃ c k, (s.pc c).call = some k ∧ k.id = i ∧ sent s.log i ++ k.src = msg

/-- The invariant, of any run. -/
structure StreamHolds (s : Writers κ) : Prop where
  ring : ∃ q, s.mpb.Holds q ∧ s.delivered ++ q = s.log.map Prod.snd
  labels_lt : ∀ x ∈ s.labels, x < s.msgs.length
  call : ∀ c k, (s.pc c).call = some k →
    s.msgs[k.id]? = some k.msg ∧ sent s.log k.id ++ k.src = k.msg
  one : ∀ c d k k', (s.pc c).call = some k → (s.pc d).call = some k' → k.id = k'.id → c = d
  whole : ∀ i msg, s.msgs[i]? = some msg → sent s.log i = msg ∨
    ∃ c k, (s.pc c).call = some k ∧ k.id = i

omit [DecidableEq κ] in
theorem StreamHolds.streamed (hI : StreamHolds s) : Streamed s := by
  obtain ⟨q, hq, hqueue⟩ := hI.ring
  refine ⟨?_, fun i msg hmsg => (hI.whole i msg hmsg).imp_right ?_⟩
  · rw [← hq.length_eq, hq.elems]
    exact hqueue
  · rintro ⟨c, k, hc, rfl⟩
    obtain ⟨hk, hsent⟩ := hI.call c k hc
    obtain rfl := Option.some.inj (hk.symm.trans hmsg)
    exact ⟨c, k, hc, rfl, hsent⟩

omit [DecidableEq κ] in
/-- Nothing is called, appended or delivered. -/
theorem StreamHolds.congr (hI : StreamHolds s) (hcall : ∀ d, (s'.pc d).call = (s.pc d).call)
    (hmsgs : s'.msgs = s.msgs) (hlog : s'.log = s.log)
    (hring : ∃ q, s'.mpb.Holds q ∧ s'.delivered ++ q = s.log.map Prod.snd) : StreamHolds s' := by
  refine ⟨by rwa [hlog], ?_, ?_, ?_, ?_⟩
  · rw [Writers.labels, hlog, hmsgs]
    exact hI.labels_lt
  · simp only [hcall, hmsgs, hlog]
    exact hI.call
  · simp only [hcall]
    exact hI.one
  · simp only [hcall, hmsgs, hlog]
    exact hI.whole

theorem Writers.call_go (hp : p.call = (s.pc c).call) (d : κ) :
    (s.go c p d).call = (s.pc d).call := by
  by_cases hd : d = c
  · rw [hd, s.go_self, hp]
  · rw [s.go_of_ne hd]

/-- A call of `c` begins. -/
theorem StreamHolds.begin (hI : StreamHolds s) (hc : s.pc c = .started) (msg : List Byte) :
    StreamHolds { s with
      mpb := { s.mpb with writing := true }
      pc := s.go c (.copying ⟨s.msgs.length, msg, msg⟩)
      msgs := s.msgs ++ [msg] } := by
  obtain ⟨k₀, h₀⟩ : ∃ k₀ : Call, k₀ = ⟨s.msgs.length, msg, msg⟩ := ⟨_, rfl⟩
  have hlast : (s.msgs ++ [msg])[s.msgs.length]? = some msg := List.getElem?_concat_length
  have hcall : ∀ d k, (s.go c (.copying k₀) d).call = some k →
      d = c ∧ k = k₀ ∨ d ≠ c ∧ (s.pc d).call = some k := by
    intro d k hd
    by_cases hdc : d = c
    · rw [hdc, s.go_self] at hd
      exact Or.inl ⟨hdc, (Option.some.inj hd).symm⟩
    · rw [s.go_of_ne hdc] at hd
      exact Or.inr ⟨hdc, hd⟩
  have hold : ∀ {i : ℕ} {m : List Byte}, s.msgs[i]? = some m → i < s.msgs.length := fun h =>
    (List.getElem?_eq_some_iff.mp h).1
  have hnew : s.msgs.length ∉ s.labels := fun h => lt_irrefl _ (hI.labels_lt _ h)
  rw [← h₀]
  refine ⟨hI.ring, fun x hx => ?_, fun d k hd => ?_, fun d e k k' hd he hid => ?_,
    fun i m hm => ?_⟩
  · change x < (s.msgs ++ [msg]).length
    rw [List.length_append]
    exact Nat.lt_add_right _ (hI.labels_lt x hx)
  · change (s.msgs ++ [msg])[k.id]? = _ ∧ _
    rcases hcall d k hd with ⟨-, rfl⟩ | ⟨-, hd⟩
    · rw [h₀]
      exact ⟨hlast, by rw [sent_eq_nil hnew, List.nil_append]⟩
    · obtain ⟨hmsg, hsent⟩ := hI.call d k hd
      exact ⟨(List.getElem?_append_left (hold hmsg)).trans hmsg, hsent⟩
  · have hid₀ : k₀.id = s.msgs.length := by rw [h₀]
    rcases hcall d k hd with ⟨rfl, rfl⟩ | ⟨-, hd'⟩ <;>
      rcases hcall e k' he with ⟨rfl, rfl⟩ | ⟨-, he'⟩
    · rfl
    · have := hold (hI.call e k' he').1
      omega
    · have := hold (hI.call d k hd').1
      omega
    · exact hI.one d e k k' hd' he' hid
  · change (s.msgs ++ [msg])[i]? = _ at hm
    rcases Nat.lt_or_ge i s.msgs.length with hi | hi
    · rw [List.getElem?_append_left hi] at hm
      refine (hI.whole i m hm).imp_right fun ⟨d, k, hd, hid⟩ => ⟨d, k, ?_, hid⟩
      have hdc : d ≠ c := by
        rintro rfl
        rw [hc] at hd
        cases hd
      exact (congrArg Pc.call (s.go_of_ne hdc _)).trans hd
    · have hlt := (List.getElem?_eq_some_iff.mp hm).1
      rw [List.length_append, List.length_singleton] at hlt
      have hid₀ : k₀.id = s.msgs.length := by rw [h₀]
      exact Or.inr ⟨c, k₀, congrArg Pc.call (s.go_self ..), by omega⟩

/-- An iteration of the call `k` of `c`. -/
theorem StreamHolds.write (hI : StreamHolds s) (hc : s.pc c = .copying k) :
    StreamHolds { s with
      mpb := (s.mpb.writeIter k.src).1
      pc := s.go c (.copying { k with src := (s.mpb.writeIter k.src).2 })
      log := s.log ++ (k.src.take (s.mpb.free k.src.length)).map (Prod.mk k.id) } := by
  obtain ⟨k₁, h₁⟩ : ∃ k₁ : Call, k₁ = { k with src := (s.mpb.writeIter k.src).2 } := ⟨_, rfl⟩
  have hk : (s.pc c).call = some k := by rw [hc]; rfl
  have hid₁ : k₁.id = k.id := by rw [h₁]
  have hcall : ∀ d j, (s.go c (.copying k₁) d).call = some j →
      d = c ∧ j = k₁ ∨ (s.pc d).call = some j ∧ j.id ≠ k.id := by
    intro d j hd
    by_cases hdc : d = c
    · rw [hdc, s.go_self] at hd
      exact Or.inl ⟨hdc, (Option.some.inj hd).symm⟩
    · rw [s.go_of_ne hdc] at hd
      exact Or.inr ⟨hd, fun hid => hdc (hI.one d c j k hd hk hid)⟩
  obtain ⟨q, hq, hqueue⟩ := hI.ring
  rw [← h₁]
  refine ⟨⟨_, hq.writeIter k.src, ?_⟩, fun x hx => ?_, fun d j hd => ?_,
    fun d e j j' hd he hid => ?_, fun i m hm => ?_⟩
  · change s.delivered ++ (q ++ _) = List.map _ (s.log ++ _)
    rw [← List.append_assoc, hqueue, List.map_append, List.map_map]
    exact congrArg _ (List.map_id _).symm
  · rw [Writers.labels, s.labels_append, List.mem_append, List.mem_replicate] at hx
    rcases hx with hx | ⟨-, rfl⟩
    · exact hI.labels_lt x hx
    · exact (List.getElem?_eq_some_iff.mp (hI.call c k hk).1).1
  · rcases hcall d j hd with ⟨-, rfl⟩ | ⟨hd, hne⟩
    · obtain ⟨hmsg, hsent⟩ := hI.call c k hk
      rw [hid₁, sent_append_self, h₁]
      refine ⟨hmsg, ?_⟩
      rw [List.append_assoc, Mpb.take_writeIter]
      exact hsent
    · rw [sent_append_of_ne hne.symm]
      exact hI.call d j hd
  · rcases hcall d j hd with ⟨rfl, rfl⟩ | ⟨hd, hne⟩ <;>
      rcases hcall e j' he with ⟨rfl, rfl⟩ | ⟨he, hne'⟩
    · rfl
    · exact absurd (hid.symm.trans hid₁) hne'
    · exact absurd (hid.trans hid₁) hne
    · exact hI.one d e j j' hd he hid
  · by_cases hi : k.id = i
    · exact Or.inr ⟨c, k₁, congrArg Pc.call (s.go_self ..), hid₁.trans hi⟩
    · rw [sent_append_of_ne hi]
      refine (hI.whole i m hm).imp_right fun ⟨d, j, hd, hid⟩ => ⟨d, j, ?_, hid⟩
      have hdc : d ≠ c := by
        rintro rfl
        obtain rfl := Option.some.inj (hk.symm.trans hd)
        exact hi hid
      exact (congrArg Pc.call (s.go_of_ne hdc _)).trans hd

/-- The call `k` of `c` returns. -/
theorem StreamHolds.stop (hI : StreamHolds s) (hc : s.pc c = .copying k) (hsrc : k.src = []) :
    StreamHolds { s with lock := none, pc := s.go c .outside } := by
  have hk : (s.pc c).call = some k := by rw [hc]; rfl
  have hcall : ∀ d j, (s.go c .outside d).call = some j → (s.pc d).call = some j := by
    intro d j hd
    by_cases hdc : d = c
    · rw [hdc, s.go_self] at hd
      cases hd
    · rwa [s.go_of_ne hdc] at hd
  refine ⟨hI.ring, hI.labels_lt, fun d j hd => hI.call d j (hcall d j hd),
    fun d e j j' hd he => hI.one d e j j' (hcall d j hd) (hcall e j' he), fun i m hm => ?_⟩
  rcases hI.whole i m hm with hsent | ⟨d, j, hd, rfl⟩
  · exact Or.inl hsent
  · by_cases hdc : d = c
    · subst hdc
      obtain rfl := Option.some.inj (hk.symm.trans hd)
      obtain ⟨hmsg, hsent⟩ := hI.call d k hk
      rw [hsrc, List.append_nil] at hsent
      exact Or.inl (hsent.trans (Option.some.inj (hmsg.symm.trans hm)))
    · exact Or.inr ⟨d, j, (congrArg Pc.call (s.go_of_ne hdc _)).trans hd, rfl⟩

theorem StreamHolds.step (hI : StreamHolds s) (hs : WriterStep s op s') : StreamHolds s' := by
  cases hs with
  | start hc _ _ => exact hI.congr (Writers.call_go (by rw [hc]; rfl)) rfl rfl hI.ring
  | retry => exact hI
  | call msg hc _ _ => exact hI.begin hc msg
  | write hc _ _ => exact hI.write hc
  | sleep hc _ _ => exact hI.congr (Writers.call_go (by rw [hc]; rfl)) rfl rfl hI.ring
  | wake hc _ => exact hI.congr (Writers.call_go (by rw [hc]; rfl)) rfl rfl hI.ring
  | stop hc hsrc => exact hI.stop hc hsrc
  | read size hsize hret =>
    obtain ⟨q, hq, hqueue⟩ := hI.ring
    rw [← hq.length_eq] at hsize
    obtain ⟨m₁, hret₁, hm₁⟩ := cpyMpbToMem_spec hq hsize
    obtain ⟨rfl, rfl⟩ := Prod.mk.inj (hret.unique (loop_fuel_mono _ _) hret₁)
    refine hI.congr (fun _ => rfl) rfl rfl ⟨_, hm₁, ?_⟩
    rw [List.append_assoc, List.take_append_drop, hqueue]

omit [DecidableEq κ] in
theorem streamHolds_initial (buf : ℕ → Byte) :
    StreamHolds (Writers.initial buf : Writers κ) :=
  ⟨⟨[], Mpb.holds_init buf, rfl⟩, fun _ hx => absurd hx List.not_mem_nil,
    fun _ _ h => (nomatch h), fun _ _ _ _ h => (nomatch h), fun _ _ h => (nomatch h)⟩

/-! ## Whole messages -/

/-- `start_write_node` returns. -/
def WriterOp.IsStart : WriterOp κ → Prop
  | start _ => True
  | _ => False

/-- A guard that holds back starts only. -/
def OnlyStarts (ok : Writers κ → WriterOp κ → Prop) : Prop := ∀ s op, ¬ op.IsStart → ok s op

/-- A message that fits goes through at once. -/
theorem reach_message {ok : Writers κ → WriterOp κ → Prop} (hok : OnlyStarts ok) {s₀ : Writers κ}
    (h : Reach (Guarded WriterStep ok) s₀ s) (c : κ) (hstart : ok s (.start c)) (msg : List Byte)
    (hpos : 0 < msg.length) (hlt : msg.length < bSize) (hc : s.pc c = .outside)
    (hlock : s.lock = none) (hwriting : s.mpb.writing = false)
    (hfits : s.mpb.free msg.length = msg.length) :
    Reach (Guarded WriterStep ok) s₀ ⟨s.mpb.put msg, none, s.pc, s.msgs ++ [msg],
      s.log ++ msg.map (Prod.mk s.msgs.length), s.delivered⟩ := by
  have hfree : ({ s.mpb with writing := true } : Mpb).free msg.length = msg.length := hfits
  have hiter : ({ s.mpb with writing := true } : Mpb).writeIter msg = (s.mpb.put msg, []) := by
    rw [Mpb.writeIter, hfree, if_neg (by omega), List.take_length, List.drop_length]
    rfl
  have r₁ := h.next ⟨hstart, .start hc hlock hwriting⟩
  have r₂ := r₁.next ⟨hok _ (.call c msg) id, .call msg (Writers.go_self ..) hpos hlt⟩
  have r₃ := r₂.next ⟨hok _ (.write c) id, .write (Writers.go_self ..)
    (List.length_pos_iff.mp hpos) (fun h0 => hpos.ne' (hfree.symm.trans h0))⟩
  have r₄ := r₃.next ⟨hok _ (.stop c) id,
    .stop (Writers.go_self ..) (congrArg Prod.snd hiter)⟩
  convert r₄ using 1
  rw [Writers.mk.injEq]
  refine ⟨(congrArg Prod.fst hiter).symm, rfl, funext fun d => ?_, rfl, ?_, rfl⟩
  · by_cases hd : d = c
    · rw [hd, Writers.go_self, hc]
    · simp only [Writers.go_of_ne _ hd]
  · change _ = s.log ++ (msg.take (({ s.mpb with writing := true } : Mpb).free msg.length)).map _
    rw [hfree, List.take_length]

/-- A call that sleeps goes on to its end when there is room. -/
theorem reach_wake {ok : Writers κ → WriterOp κ → Prop} (hok : OnlyStarts ok) {s₀ : Writers κ}
    (h : Reach (Guarded WriterStep ok) s₀ s) (hc : s.pc c = .waiting k) (hlock : s.lock = none)
    (hsrc : k.src ≠ []) (hfits : s.mpb.free k.src.length = k.src.length) :
    Reach (Guarded WriterStep ok) s₀ ⟨s.mpb.put k.src, none, s.go c .outside, s.msgs,
      s.log ++ k.src.map (Prod.mk k.id), s.delivered⟩ := by
  have hne : k.src.length ≠ 0 := (List.length_pos_iff.mpr hsrc).ne'
  have hiter : s.mpb.writeIter k.src = (s.mpb.put k.src, []) := by
    rw [Mpb.writeIter_eq hfits hne, List.take_length, List.drop_length]
  have r₁ := h.next ⟨hok _ (.wake c) id, .wake hc hlock⟩
  have r₂ := r₁.next ⟨hok _ (.write c) id,
    .write (Writers.go_self ..) hsrc (hfits.trans_ne hne)⟩
  have r₃ := r₂.next ⟨hok _ (.stop c) id,
    .stop (Writers.go_self ..) (congrArg Prod.snd hiter)⟩
  convert r₃ using 1
  rw [Writers.mk.injEq]
  refine ⟨(congrArg Prod.fst hiter).symm, rfl, ?_, rfl, ?_, rfl⟩
  · simp only [Writers.go, Function.update_idem]
  · change _ = s.log ++ (k.src.take (s.mpb.free k.src.length)).map _
    rw [hfits, List.take_length]

/-- A first message leaves room for one byte. -/
theorem reach_filled {ok : Writers κ → WriterOp κ → Prop} (hok : OnlyStarts ok) (c : κ)
    (hstart : ok (Writers.initial fun _ => 0) (.start c)) :
    ∃ buf, Reach (Guarded WriterStep ok) (Writers.initial fun _ => 0)
      (⟨⟨buf, 0, 8094, false⟩, none, fun _ => .outside, [List.replicate 8094 0],
        List.replicate 8094 (0, 0), []⟩ : Writers κ) := by
  obtain ⟨msg, hmsg⟩ : ∃ msg : List Byte, msg = List.replicate 8094 0 := ⟨_, rfl⟩
  have hlen : msg.length = 8094 := by rw [hmsg, List.length_replicate]
  have hlog : List.replicate 8094 ((0, 0) : ℕ × Byte) = [] ++ msg.map (Prod.mk 0) := by
    rw [hmsg, List.map_replicate, List.nil_append]
  have hput : (Mpb.init fun _ => 0).put msg = ⟨putAt (fun _ => 0) 0 msg, 0, 8094, false⟩ := by
    rw [Mpb.put, Mpb.init, Nat.zero_add, hlen, Nat.mod_eq_of_lt (by decide)]
  have r₀ : Reach (Guarded WriterStep ok) (Writers.initial fun _ => 0 : Writers κ) _ := Reach.init
  have r := reach_message hok r₀ c hstart msg (by rw [hlen]; decide) (by rw [hlen]; decide) rfl rfl rfl
    (by rw [hlen]; rfl)
  rw [hlog, ← hmsg]
  exact ⟨_, hput ▸ r⟩

/-- Then the message `[1, 2]` is split: its first byte is in, the ring is full, and the writer
sleeps while the reader makes room. -/
theorem reach_split {ok : Writers κ → WriterOp κ → Prop} (hok : OnlyStarts ok) (c : κ)
    (hstart : ∀ s : Writers κ, (∀ d, s.pc d = .outside) → ok s (.start c)) :
    ∃ buf dst pc, dst.length = 2 ∧ pc c = .waiting ⟨1, [1, 2], [2]⟩ ∧
      (∀ d, d ≠ c → pc d = .outside) ∧
      Reach (Guarded WriterStep ok) (Writers.initial fun _ => 0)
        (⟨⟨buf, 2, 8095, false⟩, none, pc, [List.replicate 8094 0, [1, 2]],
          List.replicate 8094 (0, 0) ++ [(1, 1)], dst⟩ : Writers κ) := by
  obtain ⟨buf, r₀⟩ := reach_filled hok c (hstart _ fun _ => rfl)
  have r₁ := r₀.next ⟨hstart _ fun _ => rfl, .start (c := c) rfl rfl rfl⟩
  have r₂ := r₁.next ⟨hok _ (.call c [1, 2]) id,
    .call (c := c) [1, 2] (Writers.go_self ..) (by decide) (by decide)⟩
  have r₃ := r₂.next ⟨hok _ (.write c) id,
    .write (c := c) (Writers.go_self ..) (List.cons_ne_nil _ _) Nat.one_ne_zero⟩
  have r₄ := r₃.next ⟨hok _ (.sleep c) id,
    .sleep (c := c) (Writers.go_self ..) (List.cons_ne_nil _ _) rfl⟩
  have r₅ := r₄.next ⟨hok _ (.read 2) id, .read 2 (Nat.le_of_ble_eq_true rfl) ⟨2, rfl⟩⟩
  refine ⟨_, _, _, rfl, Writers.go_self .., fun d hd => ?_, r₅⟩
  simp only [Writers.go_of_ne _ hd]

/-- With two bytes taken from the full ring, a byte goes into the last slot. -/
theorem put_last (buf : ℕ → Byte) (b : Byte) : (Mpb.mk buf 2 8095 false).free 1 = 1 ∧
    (Mpb.mk buf 2 8095 false).put [b] = ⟨putAt buf 8095 [b], 2, 0, false⟩ := by
  refine ⟨Nat.min_eq_right (Nat.le_of_ble_eq_true rfl), ?_⟩
  have hstop : (8095 + [b].length) % bSize = 0 := by
    rw [List.length_singleton]
    decide
  change Mpb.mk _ _ ((8095 + [b].length) % bSize) _ = _
  rw [hstop]

/-- **Messages do not mix**, for any number of writers and in any interleaving, if no
writer starts while another one sleeps in the middle of its message. The bytes are those that
go through the buffer. -/
theorem messages_apart (buf : ℕ → Byte)
    (h : Reach (Guarded WriterStep StartsAlone) (Writers.initial buf) s) :
    Contiguous s.labels ∧ Streamed s := by
  have hI := h.invariant (I := fun s => WritersHold s ∧ StreamHolds s)
    ⟨writersHold_initial buf, streamHolds_initial buf⟩
    fun s op s' hI hs => ⟨hI.1.step hs.1 hs.2, hI.2.step hs.2⟩
  exact ⟨contiguous_of_sorted hI.1.sorted, hI.2.streamed⟩

/-- The ring fills up in the middle of the message `[1, 2]` of the first writer; when the reader
has made room, the second byte follows, and then the message `[3]` of the second one. -/
theorem messages_apart_demo :
    ∃ s : Writers (Fin 2), s.delivered.length = 2 ∧
      s.log = List.replicate 8094 (0, 0) ++ [(1, 1)] ++ [(1, 2)] ++ [(2, 3)] ∧
      Contiguous s.labels ∧ Streamed s := by
  have hok : OnlyStarts (StartsAlone : Writers (Fin 2) → _ → Prop) := by
    intro s op hop
    cases op with
    | start c => exact absurd trivial hop
    | _ => trivial
  have hstart : ∀ (s : Writers (Fin 2)) (c : Fin 2), (∀ d, s.pc d = .outside) →
      StartsAlone s (.start c) := by
    intro s c hout d k hd
    cases (hout d).symm.trans hd
  obtain ⟨buf, dst, pc, hdst, h0, h1, r⟩ := reach_split hok 0 fun s => hstart s 0
  obtain ⟨hfree, hput⟩ := put_last buf 2
  have r₁ := reach_wake hok r h0 rfl (List.cons_ne_nil _ _) hfree
  simp only [hput] at r₁
  have hout : ∀ d, Function.update pc 0 .outside d = Pc.outside := by
    intro d
    by_cases hd : d = 0
    · rw [hd, Function.update_self]
    · rw [Function.update_of_ne hd, h1 d hd]
  have r₂ := reach_message hok r₁ 1 (hstart _ 1 hout) [3] (by decide) (by decide) (hout 1) rfl rfl
    (Nat.min_eq_right (Nat.le_of_ble_eq_true rfl))
  exact ⟨_, hdst, rfl, messages_apart _ r₂⟩

/-! ## A mixed message -/

/-- A run in which messages mix: the ring fills up in the middle of the message `[1, 2]`
of the first writer, and when the reader has made room, the message `[3]` of the second
one comes between. -/
theorem messages_mixed :
    ∃ s : Writers (Fin 2), Reach WriterStep (Writers.initial fun _ => 0) s ∧
      ¬ Contiguous s.labels := by
  have hok : OnlyStarts fun (_ : Writers (Fin 2)) _ => True := fun _ _ _ => trivial
  obtain ⟨buf, dst, pc, -, h0, h1, r⟩ := reach_split hok 0 fun _ _ => trivial
  generalize List.replicate 8094 (0 : Byte) = msg, List.replicate 8094 ((0, 0) : ℕ × Byte) = log at r
  obtain ⟨hfree, hput⟩ := put_last buf 3
  have r₁ := reach_message hok r 1 trivial [3] (by decide) (by decide) (h1 1 Fin.zero_ne_one.symm)
    rfl rfl hfree
  rw [hput] at r₁
  have r₂ := reach_wake hok r₁ h0 rfl (List.cons_ne_nil _ _)
    (Nat.min_eq_right (Nat.le_of_ble_eq_true rfl))
  refine ⟨_, r₂.of_guarded, fun hcont => absurd (hcont 1 2 ?_) (by decide)⟩
  change [1, 2, 1].Sublist ((log ++ [(1, 1)] ++ [(2, 3)] ++ [(1, 2)]).map Prod.fst)
  rw [List.append_assoc, List.append_assoc, List.map_append]
  exact List.sublist_append_right ..

end Step

end SccShm
