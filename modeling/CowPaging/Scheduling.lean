import CowPaging.ProcTable

/-!
# One CPU for every running process

The hand-over of `ptable.lock` through `swtch`. While the lock is free a process is
`RUNNING` exactly if it is the current process of one CPU, and no CPU works on the kernel
stack of a process in another state; in between, only the CPU that holds the lock may be
on its way from one to the other.
-/

namespace CowPaging

open Bytes SlotTable
open Function (update_of_ne update_self update_apply update_eq_self update)

variable {s s' : PTable} {c c' p q np : Nat} {pc : ThreadPc} {st : ForkStage}

/-! ### Forks in progress -/

/-- What holds of the `fork` of a process that stands at `pc`. -/
def PTable.Needs (s : PTable) (p : Nat) : ThreadPc → Prop
  | .allocproc | .wait | .kill _ | .sched .wait | .resumed .wait => s.fork p = none
  | .exit => s.fork p = none ∧ p ≠ initproc
  | .ready np => s.fork p = some (.ready np)
  | .sleep (.proc _) => False
  | _ => True

/-- Every fork in progress has an entry of its own. -/
structure ForkInv (s : PTable) : Prop where
  embryo : ∀ p st, s.fork p = some st → (s.proc st.np).state = .embryo
  inj : ∀ p q st st', s.fork p = some st → s.fork q = some st' → st.np = st'.np → p = q
  needs : ∀ p, s.Needs p (s.thread p)

theorem PTable.MayEnter.needs (h : s.MayEnter p pc) : s.Needs p pc := by
  cases pc with
  | sleep ch => cases ch <;> exact h
  | _ => first | exact h | trivial

theorem PTable.Needs.congr (h : s.Needs p pc) (hfork : s'.fork p = s.fork p) :
    s'.Needs p pc := by
  unfold PTable.Needs at h ⊢
  rw [hfork]
  exact h

theorem ForkInv.init : ForkInv PTable.init where
  embryo p st h := by simp [PTable.init] at h
  inj p q st st' h := by simp [PTable.init] at h
  needs p := by simp [PTable.init, PTable.Needs]

theorem ForkInv.of_eq (h : ForkInv s) (hfork : s'.fork = s.fork)
    (hembryo : ∀ q, (s.proc q).state = .embryo → (s'.proc q).state = .embryo)
    (hthread : ∀ q, s'.thread q = s.thread q ∨ s.Needs q (s'.thread q)) : ForkInv s' := by
  refine ⟨fun p st hp => ?_, fun p q st st' hp hq => ?_, fun q => ?_⟩
  · rw [hfork] at hp
    exact hembryo _ (h.embryo p st hp)
  · rw [hfork] at hp hq
    exact h.inj p q st st' hp hq
  · have hneeds : s.Needs q (s'.thread q) := by grind [h.needs]
    exact hneeds.congr (by rw [hfork])

theorem thread_goto (s : PTable) (p : Nat) (pc : ThreadPc) (q : Nat) :
    (s.goto p pc).thread q = if q = p then pc else s.thread q :=
  update_apply _ _ _ _

/-- As `ForkInv.of_eq`, when one thread moves. -/
theorem ForkInv.goto (h : ForkInv s) (hfork : s'.fork = s.fork)
    (hembryo : ∀ q, (s.proc q).state = .embryo → (s'.proc q).state = .embryo)
    (hthread : s'.thread = update s.thread p pc) (hneeds : s.Needs p pc) :
    ForkInv s' := by
  refine h.of_eq hfork hembryo fun q => ?_
  rw [hthread, update_apply]
  split
  · next heq => exact .inr (heq ▸ hneeds)
  · exact .inl rfl

theorem Entry.Woken.embryo {e e' : Entry} (h : e.Woken e') (he : e.state = .embryo) :
    e'.state = .embryo := by
  obtain rfl | ⟨hsleep, rfl⟩ := h
  · exact he
  · grind

theorem Entry.Woken.running_iff {e e' : Entry} (h : e.Woken e') :
    e'.state = .running ↔ e.state = .running := by
  obtain rfl | ⟨hsleep, rfl⟩ := h
  · rfl
  · simp [hsleep]

/-! ### CPUs -/

/-- The process has given up its CPU. -/
def ProcState.Parked (st : ProcState) : Prop := st = .runnable ∨ st = .sleeping ∨ st = .zombie

/-- Where a CPU stands, and what that says about its current process. -/
inductive CpuOk (s : PTable) (c : Nat) : Prop
  | idle : s.cpu c = ⟨none, none, .idle⟩ → s.lock ≠ some c → CpuOk s c
  | looks {pc : SchedPc} : s.cpu c = ⟨none, none, pc⟩ →
      (∃ ch, pc = .wakeup ch) ∨ (∃ i, pc = .scan i) → s.lock = some c → CpuOk s c
  | swtch {p : Nat} : s.cpu c = ⟨some p, none, .swtch p⟩ → s.lock = some c →
      (s.proc p).state = .running → (∃ k, s.thread p = .resumed k) → CpuOk s c
  | back {p : Nat} : s.cpu c = ⟨some p, none, .back p⟩ → s.lock = some c →
      (s.proc p).state.Parked → (∃ k, s.thread p = .resumed k) → CpuOk s c
  | runs {p : Nat} : s.cpu c = ⟨some p, some p, .back p⟩ → s.lock ≠ some c →
      (s.proc p).state = .running → s.thread p = .run → CpuOk s c
  | inside {p : Nat} : s.cpu c = ⟨some p, some p, .back p⟩ → s.lock = some c →
      s.thread p ≠ .run → (∀ k, s.thread p = .sched k → (s.proc p).state.Parked) →
      ((∀ k, s.thread p ≠ .sched k) → (s.proc p).state = .running) → CpuOk s c

/-- A process that can be given a CPU. -/
def ProcState.Waits (st : ProcState) : Prop := st = .embryo ∨ st = .runnable ∨ st = .sleeping

structure SchedInv (s : PTable) : Prop where
  cpu : ∀ c, CpuOk s c
  inj : ∀ c c' p, (s.cpu c).proc = some p → (s.cpu c').proc = some p → c = c'
  running : ∀ p, (s.proc p).state = .running → ∃ c, (s.cpu c).proc = some p
  /-- Who has no CPU goes on behind `swtch`. -/
  parked : ∀ p, (s.proc p).state.Waits → (∀ c, (s.cpu c).proc ≠ some p) →
    ∃ k, s.thread p = .resumed k

theorem SchedInv.init : SchedInv PTable.init where
  cpu c := .idle rfl (by simp [PTable.init])
  inj c c' p h := by simp [PTable.init] at h
  running p h := by
    simp only [PTable.init] at h
    split at h <;> simp at h
  parked p _ _ := ⟨.yield, rfl⟩

theorem CpuOk.frame (h : CpuOk s c) (hcpu : s'.cpu c = s.cpu c)
    (hlock : s'.lock = some c ↔ s.lock = some c)
    (hproc : ∀ p, (s.cpu c).proc = some p →
      (s'.proc p).state = (s.proc p).state ∧ s'.thread p = s.thread p) : CpuOk s' c := by
  cases h with
  | idle h hfree => exact .idle (hcpu.trans h) (fun hc => hfree (hlock.mp hc))
  | looks h hpc hheld => exact .looks (hcpu.trans h) hpc (hlock.mpr hheld)
  | @swtch p h hheld hrun hthread =>
    obtain ⟨hst, hth⟩ := hproc p (by rw [h])
    exact .swtch (hcpu.trans h) (hlock.mpr hheld) (by rw [hst, hrun]) (by rw [hth]; exact hthread)
  | @back p h hheld hparked hthread =>
    obtain ⟨hst, hth⟩ := hproc p (by rw [h])
    exact .back (hcpu.trans h) (hlock.mpr hheld) (by rw [hst]; exact hparked)
      (by rw [hth]; exact hthread)
  | @runs p h hfree hrun hthread =>
    obtain ⟨hst, hth⟩ := hproc p (by rw [h])
    exact .runs (hcpu.trans h) (fun hc => hfree (hlock.mp hc)) (by rw [hst, hrun])
      (by rw [hth, hthread])
  | @inside p h hheld hthread hsched hrun =>
    obtain ⟨hst, hth⟩ := hproc p (by rw [h])
    refine .inside (hcpu.trans h) (hlock.mpr hheld) (by rw [hth]; exact hthread) ?_ ?_
    · rw [hth, hst]
      exact hsched
    · rw [hth, hst]
      exact hrun

theorem SchedInv.unlocked (h : SchedInv s) (hfree : s.lock ≠ some c)
    (hp : (s.cpu c).proc = some p) :
    (s.cpu c).on = some p ∧ (s.proc p).state = .running ∧ s.thread p = .run := by
  cases h.cpu c with
  | idle hcpu => grind
  | looks _ _ hheld => exact absurd hheld hfree
  | swtch _ hheld => exact absurd hheld hfree
  | back _ hheld => exact absurd hheld hfree
  | runs hcpu _ hrun hthread => grind
  | inside _ hheld => exact absurd hheld hfree

theorem SchedInv.current (h : SchedInv s) (hp : (s.cpu c).proc = some p) :
    (s.proc p).state = .running ∨ (s.proc p).state.Parked := by
  cases h.cpu c with
  | idle hcpu => grind
  | looks hcpu => grind
  | swtch hcpu _ hrun => grind
  | back hcpu _ hparked => grind
  | runs hcpu _ hrun => grind
  | @inside p' hcpu _ _ hsched hrun => grind

/-- The thread on a CPU is that of its current process; it holds the lock unless it is at
    `run`, and is `RUNNING` unless it is about to switch. -/
theorem SchedInv.on (h : SchedInv s) (hon : (s.cpu c).on = some p) :
    s.cpu c = ⟨some p, some p, .back p⟩ ∧ (s.thread p = .run ∨ s.lock = some c) ∧
      ((∀ k, s.thread p ≠ .sched k) → (s.proc p).state = .running) ∧
      ∀ k, s.thread p = .sched k → (s.proc p).state.Parked := by
  cases h.cpu c with
  | idle hcpu => grind
  | looks hcpu => grind
  | swtch hcpu => grind
  | back hcpu => grind
  | runs hcpu hfree hrun hthread => grind
  | inside hcpu hheld _ hsched hrun => grind

/-! ### Steps -/

/-- The `exit` of a running process changes no other running process. -/
theorem Exits.running_iff (h : Exits s s' p) (hq : q ≠ p) :
    (s'.proc q).state = .running ↔ (s.proc q).state = .running := by
  obtain ⟨e, hw, heq⟩ := h.entry q
  rw [heq, ← hw.running_iff]
  simp [hq]

theorem Exits.embryo (h : Exits s s' p) (hp : (s.proc p).state = .running)
    (hq : (s.proc q).state = .embryo) : (s'.proc q).state = .embryo := by
  have hne : q ≠ p := by grind
  obtain ⟨e, hw, heq⟩ := h.entry q
  rw [heq]
  simpa [hne] using hw.embryo hq

theorem update_embryo {e : Entry} (hp : (s.proc p).state ≠ .embryo) (q : Nat)
    (hq : (s.proc q).state = .embryo) : (update s.proc p e q).state = .embryo := by grind

theorem ForkInv.take (h : ForkInv s) (hfree : (s.proc np).state = .unused) (pc : ThreadPc)
    (hneeds : ∀ s' : PTable, s'.Needs p pc) : ForkInv ((s.take p np).goto p pc) := by
  have hfork : ∀ q, ((s.take p np).goto p pc).fork q =
      if q = p then some (.kstack np) else s.fork q := fun q => update_apply _ _ _ _
  have hproc : ∀ q, (((s.take p np).goto p pc).proc q).state =
      if q = np then .embryo else (s.proc q).state := by
    intro q
    change ((update s.proc np _) q).state = _
    rw [update_apply]
    split <;> rfl
  have hother : ∀ q st, s.fork q = some st → st.np ≠ np := by grind [h.embryo]
  refine ⟨fun q st hq => ?_, fun q r st st' hq hr heq => ?_, fun q => ?_⟩
  · rw [hfork] at hq
    rw [hproc]
    split at hq
    · rw [← Option.some.inj hq]
      simp [ForkStage.np]
    · rw [if_neg (hother q st hq)]
      exact h.embryo q st hq
  · rw [hfork] at hq hr
    split at hq <;> split at hr
    · next h1 h2 => rw [h1, h2]
    · rw [← Option.some.inj hq] at heq
      exact absurd heq.symm (hother r st' hr)
    · rw [← Option.some.inj hr] at heq
      exact absurd heq (hother q st hq)
    · exact h.inj q r st st' hq hr heq
  · have hthread : ((s.take p np).goto p pc).thread q =
        if q = p then pc else if q = np then .resumed .yield else s.thread q := by
      rw [thread_goto]
      congr 1
      exact update_apply _ _ _ _
    rw [hthread]
    split
    · grind
    · next hne =>
      split
      · trivial
      · exact (h.needs q).congr (by rw [hfork, if_neg hne])

/-- The fork of `p` ends, and its entry changes. -/
theorem ForkInv.finish (h : ForkInv s) (hst : s.fork p = some st)
    (hfork : s'.fork = update s.fork p none)
    (hproc : ∀ q, q ≠ st.np → (s'.proc q).state = (s.proc q).state)
    (hthread : s'.thread = update s.thread p pc)
    (hneeds : s'.fork p = none → s'.Needs p pc) : ForkInv s' := by
  have hfork' : ∀ q, s'.fork q = if q = p then none else s.fork q := by
    intro q
    rw [hfork, update_apply]
  refine ⟨fun q st' hq => ?_, fun q r st1 st2 hq hr => ?_, fun q => ?_⟩
  · rw [hfork'] at hq
    split at hq
    · simp at hq
    · next hne =>
      rw [hproc _ fun heq => hne (h.inj q p st' st hq hst heq)]
      exact h.embryo q st' hq
  · rw [hfork'] at hq hr
    split at hq
    · simp at hq
    · split at hr
      · simp at hr
      · exact h.inj q r st1 st2 hq hr
  · rw [hthread, update_apply]
    split
    · grind
    · next hne => exact (h.needs q).congr (by rw [hfork', if_neg hne])

/-- The fork of `p` goes on with its entry. -/
theorem ForkInv.advance {st' : ForkStage} (h : ForkInv s) (hst : s.fork p = some st)
    (hrun : s.thread p = .run) (hfork : s'.fork = update s.fork p (some st'))
    (hnp : st'.np = st.np)
    (hproc : ∀ q, (s'.proc q).state = (s.proc q).state) (hthread : s'.thread = s.thread) :
    ForkInv s' := by
  have hfork' : ∀ q st1, s'.fork q = some st1 → ∃ st0, s.fork q = some st0 ∧ st0.np = st1.np := by
    intro q st1 hq
    rw [hfork, update_apply] at hq
    split at hq
    · next heq => exact ⟨st, heq ▸ hst, by rw [← Option.some.inj hq, hnp]⟩
    · exact ⟨st1, hq, rfl⟩
  refine ⟨fun q st1 hq => ?_, fun q r st1 st2 hq hr heq => ?_, fun q => ?_⟩
  · grind [h.embryo]
  · obtain ⟨st1', hst1, hnp1⟩ := hfork' q st1 hq
    obtain ⟨st2', hst2, hnp2⟩ := hfork' r st2 hr
    exact h.inj q r st1' st2' hst1 hst2 (by rw [hnp1, hnp2, heq])
  · rw [hthread]
    by_cases hq : q = p
    · subst hq
      rw [hrun]
      trivial
    · exact (h.needs q).congr (by rw [hfork, update_of_ne hq])

theorem ForkInv.thread (h : ForkInv s) (hi : SchedInv s) (hon : (s.cpu c).on = some p)
    (hs : ThreadStep s c p s') : ForkInv s' := by
  obtain ⟨-, -, hrun, -⟩ := hi.on hon
  have hneeds := h.needs p
  -- the thread is running, unless it is at `swtch`
  have hrunning : ∀ {pc}, s.thread p = pc → (∀ k, pc ≠ .sched k) →
      (s.proc p).state = .running := fun hpc hne => hrun fun k hk => hne k (hpc.symm.trans hk)
  have hself : ∀ {pc}, s.thread p = pc → (∀ k, pc ≠ .sched k) →
      (s.proc p).state ≠ .embryo := by grind
  cases hs with
  | stay => exact h
  | noEntry => exact h.goto rfl (fun _ hq => hq) rfl trivial
  | take _ _ hfree => exact h.take hfree _ fun _ => trivial
  | @ready np hpc =>
    rw [hpc] at hneeds
    refine h.finish hneeds rfl (fun q hq => ?_) rfl fun _ => trivial
    exact congrArg Entry.state (update_of_ne hq _ _)
  | exit hpc =>
    have hexit := s.exit_spec p
    generalize s.exit p = s1 at hexit ⊢
    have hfork : s1.fork = s.fork := (congrArg PTable.fork hexit.frame :)
    have hthread : s1.thread = s.thread := (congrArg PTable.thread hexit.frame :)
    have hembryo : ∀ q, (s.proc q).state = .embryo → (s1.proc q).state = .embryo :=
      fun q hq => hexit.embryo (hrunning hpc (by simp)) hq
    exact (h.of_eq hfork hembryo fun q => .inl (by rw [hthread])).goto rfl (fun _ hq => hq) rfl
      trivial
  | reap hpc _ _ hzombie =>
    exact h.goto rfl (fun q hq => update_embryo (by rw [hzombie]; simp) q hq) rfl trivial
  | waitFail => exact h.goto rfl (fun _ hq => hq) rfl trivial
  | waitSleep hpc =>
    rw [hpc] at hneeds
    exact h.goto rfl (fun q hq => update_embryo (hself hpc (by simp)) q hq) rfl hneeds
  | yield hpc =>
    exact h.goto rfl (fun q hq => update_embryo (hself hpc (by simp)) q hq) rfl trivial
  | sleep hpc =>
    exact h.goto rfl (fun q hq => update_embryo (hself hpc (by simp)) q hq) rfl trivial
  | wakeup =>
    exact h.goto rfl (fun q hq => (s.wakeup1_woken _ q).embryo hq) rfl trivial
  | @strike n r =>
    refine h.goto rfl (fun q hq => ?_) rfl trivial
    change (update s.proc r _ q).state = _
    rw [update_apply]
    split
    · grind
    · exact hq
  | killFail => exact h.goto rfl (fun _ hq => hq) rfl trivial
  | @sched k hpc =>
    rw [hpc] at hneeds
    refine h.goto rfl (fun _ hq => hq) rfl ?_
    cases k <;> trivial
  | resumeYield => exact h.goto rfl (fun _ hq => hq) rfl trivial
  | resumeSleep hpc =>
    exact h.goto rfl (fun q hq => update_embryo (hself hpc (by simp)) q hq) rfl trivial
  | resumeWait hpc =>
    rw [hpc] at hneeds
    exact h.goto rfl (fun q hq => update_embryo (hself hpc (by simp)) q hq) rfl hneeds
  | release => exact h.goto rfl (fun _ hq => hq) rfl trivial

theorem ForkInv.step (h : ForkInv s) (hi : SchedInv s) {e : PEvent} (hs : PStep s e s') :
    ForkInv s' := by
  have hsame : ∀ q, s.thread q = s.thread q ∨ s.Needs q (s.thread q) := fun _ => .inl rfl
  -- an entry of the table becomes another that is not new
  have hentry : ∀ {r : Nat} {e : Entry}, (s.proc r).state ≠ .embryo → ∀ q,
      (s.proc q).state = .embryo → (update s.proc r e q).state = .embryo :=
    fun hr => update_embryo hr
  cases hs with
  | stay => exact h
  | schedAcquire => exact h.of_eq rfl (fun _ hq => hq) hsame
  | schedWake => exact h.of_eq rfl (fun q hq => (s.wakeup1_woken _ q).embryo hq) hsame
  | dispatch _ _ _ hrunnable =>
    exact h.of_eq rfl (fun q hq => hentry (by rw [hrunnable]; simp) q hq) hsame
  | skip => exact h.of_eq rfl (fun _ hq => hq) hsame
  | schedRelease => exact h.of_eq rfl (fun _ hq => hq) hsame
  | swtch => exact h.of_eq rfl (fun _ hq => hq) hsame
  | back => exact h.of_eq rfl (fun _ hq => hq) hsame
  | intr => exact h.of_eq rfl (fun _ hq => hq) hsame
  | acquire _ _ _ hmay => exact h.goto rfl (fun _ hq => hq) rfl hmay.needs
  | @fault c p hon hrun =>
    have hstate : (s.proc p).state = .running := (hi.on hon).2.2.1 (by simp [hrun])
    exact h.of_eq rfl (fun q hq => hentry (by rw [hstate]; simp) q hq) hsame
  | @kstack c p np hon hrun hfork => exact h.advance hfork hrun rfl rfl (fun _ => rfl) rfl
  | @copied c p np hon hrun hfork =>
    refine h.advance hfork hrun rfl rfl (fun q => ?_) rfl
    change (update s.proc np _ q).state = _
    rw [update_apply]
    split
    · next heq => rw [heq]
    · rfl
  | @forkFails c p np call hon hrun hfork =>
    have hst : ∃ st, s.fork p = some st ∧ st.np = np := by
      rcases hfork with ⟨hfork, -⟩ | ⟨hfork, -⟩
      · exact ⟨_, hfork, rfl⟩
      · exact ⟨_, hfork, rfl⟩
    obtain ⟨st, hst, rfl⟩ := hst
    refine h.finish hst rfl (fun q hq => ?_) (update_eq_self p s.thread).symm ?_
    · exact congrArg Entry.state (update_of_ne hq _ _)
    · intro _
      rw [hrun]
      trivial
  | thread hon ht => exact h.thread hi hon ht

/-- CPU `c` takes a step that does not touch the processes of the others. -/
theorem SchedInv.local (h : SchedInv s) (hcpu : ∀ c', c' ≠ c → s'.cpu c' = s.cpu c')
    (hlock : ∀ c', c' ≠ c → (s'.lock = some c' ↔ s.lock = some c'))
    (hother : ∀ c', c' ≠ c → ∀ p, (s.cpu c').proc = some p →
      (s'.proc p).state = (s.proc p).state ∧ s'.thread p = s.thread p)
    (hself : CpuOk s' c)
    (hinj : ∀ p, (s'.cpu c).proc = some p → ∀ c', c' ≠ c → (s.cpu c').proc ≠ some p)
    (hrunning : ∀ p, (s'.proc p).state = .running →
      (s'.cpu c).proc = some p ∨ ∃ c', c' ≠ c ∧ (s.cpu c').proc = some p)
    (hparked : ∀ p, (s'.proc p).state.Waits → (s'.cpu c).proc ≠ some p →
      (∀ c', c' ≠ c → (s.cpu c').proc ≠ some p) → ∃ k, s'.thread p = .resumed k) :
    SchedInv s' := by
  refine ⟨fun c' => ?_, fun c1 c2 p h1 h2 => ?_, fun p hp => ?_, fun p hp hoff => ?_⟩
  · by_cases hc : c' = c
    · exact hc ▸ hself
    · exact (h.cpu c').frame (hcpu c' hc) (hlock c' hc) (hother c' hc)
  · by_cases hc1 : c1 = c <;> by_cases hc2 : c2 = c
    · rw [hc1, hc2]
    · grind
    · grind
    · rw [hcpu c1 hc1] at h1
      rw [hcpu c2 hc2] at h2
      exact h.inj c1 c2 p h1 h2
  · grind
  · exact hparked p hp (hoff c) fun c' hc' => by rw [← hcpu c' hc']; exact hoff c'

/-- As `SchedInv.local`, for the CPU that holds the lock and keeps its process `p`. -/
theorem SchedInv.act (h : SchedInv s) (hcur : (s.cpu c).proc = some p) (hheld : s.lock = some c)
    (hcpu : ∀ c', c' ≠ c → s'.cpu c' = s.cpu c') (hcur' : (s'.cpu c).proc = some p)
    (hlock : ∀ c', c' ≠ c → s'.lock ≠ some c')
    (hstate : ∀ q, q ≠ p → ((s'.proc q).state = .running ↔ (s.proc q).state = .running))
    (hthread : ∀ q, q ≠ p → (s.proc q).state = .running → s'.thread q = s.thread q)
    (hwaits : ∀ q, q ≠ p → (s'.proc q).state.Waits →
      (∃ k, s'.thread q = .resumed k) ∨ (s.proc q).state.Waits ∧ s'.thread q = s.thread q)
    (hself : CpuOk s' c) : SchedInv s' := by
  have hfree : ∀ c', c' ≠ c → s.lock ≠ some c' := by grind
  have hne : ∀ c' q, c' ≠ c → (s.cpu c').proc = some q → q ≠ p := by
    rintro c' q hc hq rfl
    exact hc (h.inj c' c q hq hcur)
  refine h.local hcpu (fun c' hc => iff_of_false (hlock c' hc) (hfree c' hc))
    (fun c' hc q hq => ?_) hself (fun q hq c' hc hq' => ?_) (fun q hq => ?_)
    fun q hq hoff hother => ?_
  · obtain ⟨-, hrun, -⟩ := h.unlocked (hfree c' hc) hq
    refine ⟨?_, hthread q (hne c' q hc hq) hrun⟩
    rw [hrun, hstate q (hne c' q hc hq), hrun]
  · grind
  · by_cases hqp : q = p
    · exact .inl (hqp ▸ hcur')
    · grind [h.running]
  · have hqp : q ≠ p := by
      rintro rfl
      exact hoff hcur'
    rcases hwaits q hqp hq with hk | ⟨hq', heq⟩
    · exact hk
    · grind [h.parked]

/-- As `SchedInv.act`, for a statement of the thread of `p` under the lock. -/
theorem SchedInv.move (h : SchedInv s) (hon : (s.cpu c).on = some p) (hheld : s.lock = some c)
    (hcpu : s'.cpu = s.cpu) (hlock : s'.lock = s.lock)
    (hthread : s'.thread = update s.thread p pc) (hpc : pc ≠ .run)
    (hstate : ∀ q, q ≠ p → ((s'.proc q).state = .running ↔ (s.proc q).state = .running))
    (hwaits : ∀ q, q ≠ p → (s'.proc q).state.Waits → (s.proc q).state.Waits)
    (hsched : ∀ k, pc = .sched k → (s'.proc p).state.Parked)
    (hrun : (∀ k, pc ≠ .sched k) → (s'.proc p).state = .running) : SchedInv s' := by
  obtain ⟨hc, -, -, -⟩ := h.on hon
  have hself : s'.thread p = pc := by rw [hthread, update_self]
  have hother : ∀ q, q ≠ p → s'.thread q = s.thread q := by
    intro q hq
    rw [hthread, update_of_ne hq]
  refine h.act (by rw [hc]) hheld (fun c' _ => by rw [hcpu]) (by rw [hcpu, hc]) ?_ hstate
    (fun q hq _ => hother q hq) (fun q hq hq' => .inr ⟨hwaits q hq hq', hother q hq⟩) ?_
  · grind
  · refine .inside (by rw [hcpu, hc]) (by rw [hlock, hheld]) (by rw [hself]; exact hpc) ?_ ?_
    · rw [hself]
      exact hsched
    · rw [hself]
      exact hrun

theorem Entry.Woken.waits {e e' : Entry} (h : e.Woken e') (hw : e'.state.Waits) :
    e.state.Waits := by
  obtain rfl | ⟨hsleep, rfl⟩ := h
  · exact hw
  · exact .inr (.inr hsleep)

theorem SchedInv.thread (h : SchedInv s) (hf : ForkInv s) (hon : (s.cpu c).on = some p)
    (hs : ThreadStep s c p s') : SchedInv s' := by
  obtain ⟨hcpu, hlock, hrun, hparked⟩ := h.on hon
  have hheld : ∀ {pc}, s.thread p = pc → pc ≠ .run → s.lock = some c :=
    fun hpc hne => hlock.resolve_left fun hrun => hne (hpc.symm.trans hrun)
  have hrunning : ∀ {pc}, s.thread p = pc → (∀ k, pc ≠ .sched k) →
      (s.proc p).state = .running := fun hpc hne => hrun fun k hk => hne k (hpc.symm.trans hk)
  -- the entries of other processes stay as they are
  have hupdate : ∀ {e : Entry} (q : Nat), q ≠ p →
      (update s.proc p e q).state = (s.proc q).state :=
    fun q hq => congrArg Entry.state (update_of_ne hq _ _)
  have hownstate : ∀ {e : Entry} (q : Nat), q ≠ p →
      ((update s.proc p e q).state = .running ↔ (s.proc q).state = .running) :=
    fun q hq => by rw [hupdate q hq]
  have hownwaits : ∀ {e : Entry} (q : Nat), q ≠ p →
      (update s.proc p e q).state.Waits → (s.proc q).state.Waits :=
    fun q hq => by rw [hupdate q hq]; exact id
  have hownself : ∀ {e : Entry}, (update s.proc p e p).state = e.state :=
    fun {e} => congrArg Entry.state (update_self p e s.proc)
  cases hs with
  | stay => exact h
  | noEntry hpc =>
    exact h.move hon (hheld hpc (by simp)) rfl rfl rfl (by simp) (fun _ _ => Iff.rfl)
      (fun _ _ => id) (by simp) fun _ => hrunning hpc (by simp)
  | @take np hpc hlt hfree =>
    have hprun := hrunning hpc (by simp)
    have hne : p ≠ np := by grind
    have hproc : ∀ q, (((s.take p np).goto p (.release none)).proc q).state =
        if q = np then .embryo else (s.proc q).state := by
      intro q
      change (update s.proc np _ q).state = _
      rw [update_apply]
      split <;> rfl
    have hthread : ∀ q, ((s.take p np).goto p (.release none)).thread q =
        if q = p then .release none else if q = np then .resumed .yield else s.thread q := by
      intro q
      rw [thread_goto]
      congr 1
      exact update_apply _ _ _ _
    generalize hs1 : (s.take p np).goto p (.release none) = s1 at hproc hthread ⊢
    have hcpu1 : s1.cpu = s.cpu := by rw [← hs1]; rfl
    have hlock1 : s1.lock = some c := by rw [← hheld hpc (by simp), ← hs1]; rfl
    refine h.act (by rw [hcpu]) (hheld hpc (by simp)) (fun c' _ => by rw [hcpu1])
      (by rw [hcpu1, hcpu]) (fun c' hc' heq => ?_) (fun q hq => ?_) (fun q hq hq' => ?_)
      (fun q hq hq' => ?_) ?_
    · grind
    · rw [hproc]
      split
      · next heq => simp [heq, hfree]
      · rfl
    · grind
    · grind
    · refine .inside (by rw [hcpu1, hcpu]) hlock1 ?_ ?_ fun _ => ?_
      · rw [hthread, if_pos rfl]
        simp
      · rw [hthread, if_pos rfl]
        simp
      · rw [hproc, if_neg hne, hprun]
  | @ready np hpc =>
    have hneeds := hf.needs p
    rw [hpc] at hneeds
    have hembryo : (s.proc np).state = .embryo := hf.embryo p _ hneeds
    have hprun := hrunning hpc (by simp)
    have hne : p ≠ np := by grind
    refine h.move hon (hheld hpc (by simp)) rfl rfl rfl (by simp) (fun q hq => ?_)
      (fun q hq => ?_) (by simp) fun _ => ?_
    · change (update s.proc np _ q).state = _ ↔ _
      rw [update_apply]
      split
      · next heq => simp [heq, hembryo]
      · rfl
    · change (update s.proc np _ q).state.Waits → _
      rw [update_apply]
      split
      · next heq => exact fun _ => heq ▸ .inl hembryo
      · exact id
    · change (update s.proc np _ p).state = _
      rw [update_of_ne hne, hprun]
  | exit hpc =>
    have hexit := s.exit_spec p
    generalize s.exit p = s1 at hexit ⊢
    have hcpu1 : s1.cpu = s.cpu := (congrArg PTable.cpu hexit.frame :)
    have hlock1 : s1.lock = s.lock := (congrArg PTable.lock hexit.frame :)
    have hthread1 : s1.thread = s.thread := (congrArg PTable.thread hexit.frame :)
    refine h.move hon (hheld hpc (by simp)) hcpu1 hlock1 (by rw [← hthread1]; rfl) (by simp)
      (fun q hq => hexit.running_iff hq) (fun q hq hq' => ?_) (fun k _ => ?_) (by simp)
    · obtain ⟨e, hw, heq⟩ := hexit.entry q
      refine hw.waits ?_
      have hq' : (s1.proc q).state.Waits := hq'
      rw [heq] at hq'
      simpa [hq] using hq'
    · obtain ⟨e, hw, heq⟩ := hexit.entry p
      change (s1.proc p).state.Parked
      rw [heq]
      exact .inr (.inr (by simp))
  | @reap r hpc hlt hparent hzombie =>
    have hprun := hrunning hpc (by simp)
    have hne : p ≠ r := by grind
    refine h.move hon (hheld hpc (by simp)) rfl rfl rfl (by simp) (fun q hq => ?_)
      (fun q hq => ?_) (by simp) fun _ => ?_
    · change (update s.proc r _ q).state = _ ↔ _
      rw [update_apply]
      split
      · next heq => simp [heq, hzombie]
      · rfl
    · change (update s.proc r _ q).state.Waits → _
      rw [update_apply]
      split
      · exact fun hw => absurd hw (by simp [ProcState.Waits])
      · exact id
    · change (update s.proc r _ p).state = _
      rw [update_of_ne hne, hprun]
  | waitFail hpc =>
    exact h.move hon (hheld hpc (by simp)) rfl rfl rfl (by simp) (fun _ _ => Iff.rfl)
      (fun _ _ => id) (by simp) fun _ => hrunning hpc (by simp)
  | waitSleep hpc =>
    refine h.move hon (hheld hpc (by simp)) rfl rfl rfl (by simp) hownstate hownwaits
      (fun _ _ => ?_) (by simp)
    exact .inr (.inl hownself)
  | yield hpc =>
    refine h.move hon (hheld hpc (by simp)) rfl rfl rfl (by simp) hownstate hownwaits
      (fun _ _ => ?_) (by simp)
    exact .inl hownself
  | sleep hpc =>
    refine h.move hon (hheld hpc (by simp)) rfl rfl rfl (by simp) hownstate hownwaits
      (fun _ _ => ?_) (by simp)
    exact .inr (.inl hownself)
  | wakeup hpc =>
    refine h.move hon (hheld hpc (by simp)) rfl rfl rfl (by simp)
      (fun q _ => (s.wakeup1_woken _ q).running_iff) (fun q _ => (s.wakeup1_woken _ q).waits)
      (by simp) fun _ => ?_
    exact (s.wakeup1_woken _ p).running_iff.mpr (hrunning hpc (by simp))
  | @strike n r hpc =>
    have hproc : ∀ q, ((s.strike r).proc q).state =
        if q = r ∧ (s.proc q).state = .sleeping then .runnable else (s.proc q).state := by
      intro q
      change (update s.proc r _ q).state = _
      rw [update_apply]
      grind
    refine h.move hon (hheld hpc (by simp)) rfl rfl rfl (by simp) (fun q hq => ?_)
      (fun q hq => ?_) (by simp) fun _ => ?_
    · change ((s.strike r).proc q).state = _ ↔ _
      rw [hproc]
      split
      · next hc => simp [hc.2]
      · rfl
    · change ((s.strike r).proc q).state.Waits → _
      rw [hproc]
      split
      · next hc => exact fun _ => .inr (.inr hc.2)
      · exact id
    · change ((s.strike r).proc p).state = _
      rw [hproc, if_neg, hrunning hpc (by simp)]
      rw [hrunning hpc (by simp)]
      simp
  | killFail hpc =>
    exact h.move hon (hheld hpc (by simp)) rfl rfl rfl (by simp) (fun _ _ => Iff.rfl)
      (fun _ _ => id) (by simp) fun _ => hrunning hpc (by simp)
  | @sched k hpc =>
    have hl := hheld hpc (by simp)
    refine h.act (by rw [hcpu]) hl (fun c' hc' => update_of_ne hc' _ _) ?_
      (fun c' hc' heq => ?_) (fun _ _ => Iff.rfl) (fun q hq _ => update_of_ne hq _ _)
      (fun q hq hq' => .inr ⟨hq', update_of_ne hq _ _⟩) ?_
    · grind
    · have heq : s.lock = some c' := heq
      rw [hl] at heq
      exact hc' (Option.some.inj heq).symm
    · refine .back ?_ hl (hparked k hpc) ⟨k, update_self _ _ _⟩
      change update s.cpu c _ c = _
      rw [update_self, hcpu]
  | resumeYield hpc =>
    exact h.move hon (hheld hpc (by simp)) rfl rfl rfl (by simp) (fun _ _ => Iff.rfl)
      (fun _ _ => id) (by simp) fun _ => hrunning hpc (by simp)
  | resumeSleep hpc =>
    refine h.move hon (hheld hpc (by simp)) rfl rfl rfl (by simp) hownstate hownwaits (by simp)
      fun _ => ?_
    exact hownself.trans (hrunning hpc (by simp))
  | resumeWait hpc =>
    refine h.move hon (hheld hpc (by simp)) rfl rfl rfl (by simp) hownstate hownwaits (by simp)
      fun _ => ?_
    exact hownself.trans (hrunning hpc (by simp))
  | release hpc =>
    refine h.act (by rw [hcpu]) (hheld hpc (by simp)) (fun _ _ => rfl)
      (congrArg Cpu.proc hcpu) (fun _ _ => by simp) (fun _ _ => Iff.rfl)
      (fun q hq _ => update_of_ne hq _ _)
      (fun q hq hq' => .inr ⟨hq', update_of_ne hq _ _⟩) ?_
    exact .runs hcpu (by simp) (hrunning hpc (by simp)) (update_self _ _ _)

/-- The scheduler on CPU `c` has no process before or after its step. -/
theorem SchedInv.scheduler {cpu : Cpu} (h : SchedInv s) (hold : (s.cpu c).proc = none)
    (hnew : cpu.proc = none) (hcpu : s'.cpu = update s.cpu c cpu)
    (hlock : ∀ c', c' ≠ c → (s'.lock = some c' ↔ s.lock = some c')) (hthread : s'.thread = s.thread)
    (hproc : ∀ q, (s.proc q).Woken (s'.proc q))
    (hother : ∀ c', c' ≠ c → ∀ p, (s.cpu c').proc = some p →
      (s'.proc p).state = (s.proc p).state)
    (hself : CpuOk s' c) : SchedInv s' := by
  have hnone : (s'.cpu c).proc = none := by rw [hcpu, update_self, hnew]
  refine h.local (fun c' hc => by rw [hcpu, update_of_ne hc]) hlock
    (fun c' hc p hp => ⟨hother c' hc p hp, by rw [hthread]⟩) hself
    (fun p hp => ?_) (fun p hp => ?_) fun p hp _ hoff => ?_
  · grind
  · obtain ⟨c', hc'⟩ := h.running p ((hproc p).running_iff.mp hp)
    refine .inr ⟨c', ?_, hc'⟩
    rintro rfl
    rw [hold] at hc'
    simp at hc'
  · rw [hthread]
    refine h.parked p ((hproc p).waits hp) fun c' hc' => ?_
    by_cases hc : c' = c
    · grind
    · exact hoff c' hc hc'

theorem SchedInv.idle (h : SchedInv s) (hpc : (s.cpu c).sched = .idle) :
    (s.cpu c).proc = none ∧ s.lock ≠ some c := by
  cases h.cpu c with
  | idle hcpu hfree => exact ⟨by rw [hcpu], hfree⟩
  | looks hcpu hlooks => grind
  | swtch hcpu => simp [hcpu] at hpc
  | back hcpu => simp [hcpu] at hpc
  | runs hcpu => simp [hcpu] at hpc
  | inside hcpu => simp [hcpu] at hpc

theorem SchedInv.looks (h : SchedInv s)
    (hpc : (∃ ch, (s.cpu c).sched = .wakeup ch) ∨ ∃ i, (s.cpu c).sched = .scan i) :
    (s.cpu c).proc = none ∧ s.lock = some c := by
  cases h.cpu c with
  | idle hcpu => simp [hcpu] at hpc
  | looks hcpu _ hheld => exact ⟨by rw [hcpu], hheld⟩
  | swtch hcpu => simp [hcpu] at hpc
  | back hcpu => simp [hcpu] at hpc
  | runs hcpu => simp [hcpu] at hpc
  | inside hcpu => simp [hcpu] at hpc

/-- The scheduler is on either side of its `swtch`, for process `i`. -/
theorem SchedInv.switching {i : Nat} (h : SchedInv s) (hon : (s.cpu c).on = none)
    (hpc : (s.cpu c).sched = .swtch i ∨ (s.cpu c).sched = .back i) :
    (s.cpu c).proc = some i ∧ s.lock = some c ∧ (∃ k, s.thread i = .resumed k) ∧
      ((s.cpu c).sched = .swtch i → (s.proc i).state = .running) ∧
      ((s.cpu c).sched = .back i → (s.proc i).state.Parked) := by
  cases h.cpu c with
  | idle hcpu => simp [hcpu] at hpc
  | looks hcpu hlooks => grind
  | swtch hcpu hheld hrun hthread => grind
  | back hcpu hheld hparked hthread => grind
  | runs hcpu => simp [hcpu] at hon
  | inside hcpu => simp [hcpu] at hon

theorem SchedInv.frame (h : SchedInv s) (hcpu : s'.cpu = s.cpu) (hlock : s'.lock = s.lock)
    (hthread : s'.thread = s.thread)
    (hother : ∀ c p, (s.cpu c).proc = some p → (s'.proc p).state = (s.proc p).state)
    (hrunning : ∀ p, (s'.proc p).state = .running → (s.proc p).state = .running)
    (hwaits : ∀ p, (s'.proc p).state.Waits → (s.proc p).state.Waits) : SchedInv s' := by
  refine ⟨fun c => ?_, by rw [hcpu]; exact h.inj, fun p hp => ?_, fun p hp => ?_⟩
  · exact (h.cpu c).frame (by rw [hcpu]) (by rw [hlock]) fun p hp => ⟨hother c p hp, by rw [hthread]⟩
  · rw [hcpu]
    exact h.running p (hrunning p hp)
  · rw [hcpu, hthread]
    exact h.parked p (hwaits p hp)

theorem SchedInv.same_states (h : SchedInv s) (hcpu : s'.cpu = s.cpu) (hlock : s'.lock = s.lock)
    (hthread : s'.thread = s.thread) (hstate : ∀ p, (s'.proc p).state = (s.proc p).state) :
    SchedInv s' :=
  h.frame hcpu hlock hthread (fun _ p _ => hstate p) (fun p hp => by rw [← hstate p, hp])
    fun p hp => by rw [← hstate p]; exact hp

theorem PTable.MayEnter.ne_run (h : s.MayEnter p pc) : pc ≠ .run := by
  rintro rfl
  exact h

theorem PTable.MayEnter.ne_sched (h : s.MayEnter p pc) (k : Resume) : pc ≠ .sched k := by
  rintro rfl
  exact h

theorem SchedInv.step (h : SchedInv s) (hf : ForkInv s) {e : PEvent} (hs : PStep s e s') :
    SchedInv s' := by
  have hsome : ∀ {c c' : Nat}, c' ≠ c → (some c = some c' ↔ none = some c') :=
    fun hc => iff_of_false (fun heq => hc (Option.some.inj heq).symm) (by simp)
  -- the processes of CPUs without the lock are running
  have hother : ∀ {c c' p : Nat}, s.lock = some c → c' ≠ c → (s.cpu c').proc = some p →
      (s.proc p).state = .running := by
    intro c c' p hheld hc hp
    refine (h.unlocked (fun heq => hc ?_) hp).2.1
    rw [hheld] at heq
    exact (Option.some.inj heq).symm
  cases hs with
  | stay => exact h
  | @schedAcquire c hon hpc hfree =>
    obtain ⟨hproc, -⟩ := h.idle hpc
    refine h.scheduler hproc rfl rfl (fun c' hc => ?_) rfl (fun _ => .inl rfl)
      (fun _ _ _ _ => rfl) ?_
    · rw [hfree]
      exact hsome hc
    · exact .looks (update_self _ _ _) (.inr ⟨0, rfl⟩) rfl
  | @schedWake c ch hon hpc =>
    obtain ⟨hproc, hheld⟩ := h.looks (.inl ⟨ch, hpc⟩)
    refine h.scheduler hproc rfl rfl (fun c' hc => ?_) rfl (s.wakeup1_woken ch)
      (fun c' hc p hp => ?_) (.idle (update_self _ _ _) (by simp))
    · rw [hheld]
      exact (hsome hc).symm
    · have hrun := hother hheld hc hp
      rw [hrun]
      exact (s.wakeup1_woken ch p).running_iff.mpr hrun
  | @dispatch c i hon hpc hlt hrunnable =>
    obtain ⟨hproc, hheld⟩ := h.looks (.inr ⟨i, hpc⟩)
    have hoff : ∀ c', (s.cpu c').proc ≠ some i := by grind
    have hstate : ∀ q, q ≠ i → (update s.proc i
        { s.proc i with state := .running } q).state = (s.proc q).state :=
      fun q hq => congrArg Entry.state (update_of_ne hq _ _)
    have hne : ∀ {c' q : Nat}, (s.cpu c').proc = some q → q ≠ i := by
      rintro c' q hq rfl
      exact hoff c' hq
    have hcur : ∀ {q : Nat}, (update s.cpu c ⟨some i, none, .swtch i⟩ c).proc = some q ↔
        i = q := by grind
    refine h.local (fun c' hc => update_of_ne hc _ _) (fun _ _ => Iff.rfl)
      (fun c' hc q hq => ⟨hstate q (hne hq), rfl⟩) ?_ (fun q hq c' _ => ?_) (fun q hq => ?_)
      fun q hq hq' hothers => ?_
    · exact .swtch (update_self _ _ _) hheld
        (by simp [PTable.setCpu, PTable.setProc]) (h.parked i (.inr (.inl hrunnable)) hoff)
    · exact hcur.mp hq ▸ hoff c'
    · by_cases hqi : q = i
      · exact .inl (hcur.mpr hqi.symm)
      · obtain ⟨c', hc'⟩ := h.running q ((hstate q hqi).symm.trans hq)
        refine .inr ⟨c', ?_, hc'⟩
        rintro rfl
        rw [hproc] at hc'
        simp at hc'
    · have hqi : q ≠ i := fun heq => hq' (hcur.mpr heq.symm)
      have hwaits : (s.proc q).state.Waits := hstate q hqi ▸ hq
      refine h.parked q hwaits fun c' hc' => ?_
      by_cases hc : c' = c
      · grind
      · exact hothers c' hc hc'
  | @skip c i hon hpc =>
    obtain ⟨hproc, hheld⟩ := h.looks (.inr ⟨i, hpc⟩)
    exact h.scheduler hproc rfl rfl (fun _ _ => Iff.rfl) rfl (fun _ => .inl rfl)
      (fun _ _ _ _ => rfl) (.looks (update_self _ _ _) (.inr ⟨i + 1, rfl⟩) hheld)
  | @schedRelease c i hon hpc =>
    obtain ⟨hproc, hheld⟩ := h.looks (.inr ⟨i, hpc⟩)
    refine h.scheduler hproc rfl rfl (fun c' hc => ?_) rfl (fun _ => .inl rfl)
      (fun _ _ _ _ => rfl) (.idle (update_self _ _ _) (by simp))
    rw [hheld]
    exact (hsome hc).symm
  | @swtch c i hon hpc =>
    obtain ⟨hproc, hheld, ⟨k, hk⟩, hrun, -⟩ := h.switching hon (.inl hpc)
    refine h.act hproc hheld (fun c' hc => update_of_ne hc _ _)
      (by simp [PTable.setCpu]) (fun c' hc heq => ?_)
      (fun _ _ => Iff.rfl) (fun _ _ _ => rfl) (fun q _ hq => .inr ⟨hq, rfl⟩) ?_
    · have heq : s.lock = some c' := heq
      rw [hheld] at heq
      exact hc (Option.some.inj heq).symm
    · refine .inside (update_self _ _ _) hheld ?_ (fun k' hk' => ?_) fun _ => hrun hpc
      · change s.thread i ≠ _
        simp [hk]
      · have hk' : s.thread i = .sched k' := hk'
        simp [hk] at hk'
  | @back c i hon hpc =>
    obtain ⟨hproc, hheld, hthread, -, hparked⟩ := h.switching hon (.inr hpc)
    have hnone : (update s.cpu c ⟨none, none, .scan (i + 1)⟩ c).proc = none := by
      rw [update_self]
    refine h.local (fun c' hc => update_of_ne hc _ _) (fun _ _ => Iff.rfl)
      (fun _ _ _ _ => ⟨rfl, rfl⟩)
      (.looks (update_self _ _ _) (.inr ⟨i + 1, rfl⟩) hheld) (fun q hq => ?_)
      (fun q hq => ?_) fun q hq _ hothers => ?_
    · exact absurd (hnone.symm.trans hq) (by simp)
    · obtain ⟨c', hc'⟩ := h.running q hq
      refine .inr ⟨c', ?_, hc'⟩
      rintro rfl
      obtain rfl : i = q := by simpa [hproc] using hc'
      have hq : (s.proc i).state = .running := hq
      rcases hparked hpc with hst | hst | hst <;> simp [hst] at hq
    · by_cases hqi : q = i
      · exact hqi ▸ hthread
      · refine h.parked q hq fun c' hc' => ?_
        by_cases hc : c' = c
        · grind
        · exact hothers c' hc hc'
  | @intr c a hon hpc hfree =>
    obtain ⟨hproc, -⟩ := h.idle hpc
    refine h.scheduler hproc rfl rfl (fun c' hc => ?_) rfl (fun _ => .inl rfl)
      (fun _ _ _ _ => rfl) ?_
    · rw [hfree]
      exact hsome hc
    · exact .looks (update_self _ _ _) (.inl ⟨_, rfl⟩) rfl
  | @acquire c p call pc hon hrun hfree hmay =>
    obtain ⟨hcpu, -, hrunning, -⟩ := h.on hon
    have hcur : (s.cpu c).proc = some p := congrArg Cpu.proc hcpu
    have hne : ∀ {c' q : Nat}, c' ≠ c → (s.cpu c').proc = some q → q ≠ p := by
      rintro c' q hc hq rfl
      exact hc (h.inj c' c q hq hcur)
    refine h.local (fun _ _ => rfl) (fun c' hc => ?_)
      (fun c' hc q hq => ⟨rfl, update_of_ne (hne hc hq) _ _⟩) ?_
      (fun q hq c' hc hq' => ?_) (fun q hq => ?_) fun q hq hoff hothers => ?_
    · rw [hfree]
      exact hsome hc
    · have hself : (update s.thread p pc) p = pc := update_self _ _ _
      refine .inside hcpu rfl ?_ (fun k hk => ?_) fun _ => hrunning (by simp [hrun])
      · change update s.thread p pc p ≠ _
        rw [hself]
        exact hmay.ne_run
      · exact absurd (hself.symm.trans hk) (hmay.ne_sched k)
    · have hq : (s.cpu c).proc = some q := hq
      rw [hcur] at hq
      exact hne hc hq' (Option.some.inj hq).symm
    · obtain ⟨c', hc'⟩ := h.running q hq
      by_cases hc : c' = c
      · exact .inl (hc ▸ hc')
      · exact .inr ⟨c', hc, hc'⟩
    · have hqp : q ≠ p := fun heq => hoff (heq ▸ hcur)
      obtain ⟨k, hk⟩ := h.parked q hq fun c' hc' => by grind
      exact ⟨k, (update_of_ne hqp _ _).trans hk⟩
  | @fault c p hon hrun =>
    refine h.same_states rfl rfl rfl fun q => ?_
    change (update s.proc p _ q).state = _
    rw [update_apply]
    split
    · next heq => rw [heq]
    · rfl
  | kstack => exact h.same_states rfl rfl rfl fun _ => rfl
  | @copied c p np hon hrun hfork =>
    refine h.same_states rfl rfl rfl fun q => ?_
    change (update s.proc np _ q).state = _
    rw [update_apply]
    split
    · next heq => rw [heq]
    · rfl
  | @forkFails c p np call hon hrun hfork =>
    have hembryo : (s.proc np).state = .embryo := by
      rcases hfork with ⟨hfork, -⟩ | ⟨hfork, -⟩ <;> exact hf.embryo p _ hfork
    have hstate : ∀ q, ((s.forkFails p np).proc q).state =
        if q = np then .unused else (s.proc q).state := by
      intro q
      change (update s.proc np _ q).state = _
      rw [update_apply]
      split <;> rfl
    refine h.frame rfl rfl rfl (fun c' q hq => ?_) (fun q hq => ?_) fun q hq => ?_
    · rw [hstate, if_neg]
      rintro rfl
      rcases h.current hq with hst | hst | hst | hst <;> simp [hembryo] at hst
    · grind
    · grind [ProcState.Waits]
  | thread hon ht => exact h.thread hf hon ht

theorem PTable.inv_steps (events : List PEvent) :
    ForkInv (PTable.init.steps events) ∧ SchedInv (PTable.init.steps events) := by
  have hsteps : ∀ s : PTable, ForkInv s → SchedInv s →
      ForkInv (s.steps events) ∧ SchedInv (s.steps events) := by
    induction events with
    | nil => exact fun s hf h => ⟨hf, h⟩
    | cons e events ih =>
      intro s hf h
      exact ih _ (hf.step h (s.step_spec e)) (h.step hf (s.step_spec e))
  exact hsteps _ ForkInv.init SchedInv.init

/-- While `ptable.lock` is free, the running processes are the current processes of the
    CPUs, one each, and no CPU works on the stack of another process. No stack is ever in
    use by two CPUs, and the stack that `wait` frees is not in use. -/
theorem scheduler_exclusive (events : List PEvent) :
    let s := PTable.init.steps events
    (s.lock = none →
      (∀ p, (s.proc p).state = .running ↔ ∃! c, (s.cpu c).proc = some p) ∧
      ∀ p, (s.proc p).state ≠ .running → ∀ c, (s.cpu c).on ≠ some p) ∧
    (∀ c c' p, (s.cpu c).on = some p → (s.cpu c').on = some p → c = c') ∧
    ∀ c p q, (s.cpu c).on = some p → s.thread p = .wait → (s.proc q).state = .zombie →
      ∀ c', (s.cpu c').on ≠ some q := by
  intro s
  obtain ⟨-, h⟩ : ForkInv s ∧ SchedInv s := PTable.inv_steps events
  have hcurrent : ∀ {c p}, (s.cpu c).on = some p → (s.cpu c).proc = some p :=
    fun hon => congrArg Cpu.proc (h.on hon).1
  refine ⟨fun hfree => ⟨fun p => ⟨fun hp => ?_, ?_⟩, fun p hp c hon => ?_⟩,
    fun c c' p hc hc' => ?_, fun c p q hon hwait hzombie c' hon' => ?_⟩
  · obtain ⟨c, hc⟩ := h.running p hp
    exact ⟨c, hc, fun c' hc' => h.inj c' c p hc' hc⟩
  · rintro ⟨c, hc, -⟩
    exact (h.unlocked (by simp [hfree]) hc).2.1
  · exact hp (h.unlocked (by simp [hfree]) (hcurrent hon)).2.1
  · exact h.inj c c' p (hcurrent hc) (hcurrent hc')
  · -- the CPU that waits holds the lock, and is itself running
    have hheld : s.lock = some c := (h.on hon).2.1.resolve_left (by simp [hwait])
    by_cases hc : c' = c
    · subst hc
      have hrun := (h.on hon).2.2.1 (by simp [hwait])
      rw [hon] at hon'
      cases hon'
      simp [hrun] at hzombie
    · grind [h.unlocked]

end CowPaging
