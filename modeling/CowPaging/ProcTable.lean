import CowPaging.Kernel

/-!
# The process table and the scheduler

`fork`, `exit`, `wait`, `kill`, `yield`, `sleep`, `wakeup` and `scheduler` of `proc.c`
on any number of CPUs as a transition system. Every CPU executes either its scheduler
or the kernel thread of a process; `ptable.lock` is part of the state and is held by a
CPU, so that a thread that calls `sched` hands it over to the scheduler of its CPU, and
the scheduler to the thread it switches to. What a thread does under the lock between
two points at which it could lose the CPU is one step. A fork is cut where it works
without the lock: the new entry is an `EMBRYO` without parent, then has a parent, then
is `RUNNABLE`, and in between its creator may sleep or be preempted.

Beside the fields of `struct proc` the state keeps the history that the properties are
about: who created a process, which pids exited and which were returned by `wait`, and
which processes were killed since they were created.
-/

namespace CowPaging

open Bytes SlotTable
open Function (update)

/-- What a process sleeps on: a `struct proc` in `wait`, or another address. -/
inductive SleepChan where
  | proc (p : Nat)
  | other (a : Nat)
deriving DecidableEq, Repr

/-- The fields of `struct proc` that this file works on. -/
structure Entry where
  state : ProcState
  pid : Int
  parent : Option Nat
  killed : Bool
  chan : Option SleepChan

/-- Where a thread goes on when `sched` returns. A new process starts at `forkret`, which
    releases the lock as the end of `yield` does. -/
inductive Resume where
  | yield
  | sleep
  | wait
  | never
deriving DecidableEq, Repr

/-- The next statement of a kernel thread. A thread at `run` is in user mode or in kernel
    code that does not hold `ptable.lock`, all others hold it. -/
inductive ThreadPc where
  | run
  | allocproc
  /-- The end of `fork`. -/
  | ready (np : Nat)
  | exit
  | wait
  | yield
  | sleep (ch : SleepChan)
  | wakeup (ch : SleepChan)
  | kill (n : Int)
  /-- `swtch(&p->context, mycpu()->scheduler)`. -/
  | sched (k : Resume)
  /-- Behind that `swtch`. -/
  | resumed (k : Resume)
  /-- `release(&ptable.lock)`, and the value that the call returns. -/
  | release (r : Option Int)
deriving DecidableEq, Repr

/-- How far a `fork` is that has taken entry `np`. -/
inductive ForkStage where
  | kstack (np : Nat)
  | copy (np : Nat)
  | ready (np : Nat)
deriving DecidableEq, Repr

def ForkStage.np : ForkStage → Nat
  | .kstack np | .copy np | .ready np => np

/-- The next statement of `scheduler`, or of an interrupt handler that runs on its stack. -/
inductive SchedPc where
  | idle
  | wakeup (ch : SleepChan)
  | scan (i : Nat)
  /-- `swtch(&(c->scheduler), p->context)`. -/
  | swtch (i : Nat)
  /-- Behind that `swtch`. -/
  | back (i : Nat)
deriving DecidableEq, Repr

structure Cpu where
  /-- `c->proc`. -/
  proc : Option Nat
  /-- The process on whose kernel stack the CPU works, if it is not its scheduler's. -/
  on : Option Nat
  sched : SchedPc
deriving DecidableEq, Repr

structure PTable where
  proc : Nat → Entry
  nextpid : Word
  /-- The CPU that holds `ptable.lock`. -/
  lock : Option Nat
  cpu : Nat → Cpu
  thread : Nat → ThreadPc
  /-- The `fork` that a process is in. -/
  fork : Nat → Option ForkStage
  /-- What the last call of a process returned. -/
  ret : Nat → Int
  /-- Entries taken by `fork`. -/
  forks : Nat
  /-- The pid of the process that created the one in an entry. -/
  creator : Nat → Int
  exited : List Int
  reaped : List Int
  /-- A `kill` of its pid, or its own fault, since the process was created. -/
  marked : Nat → Bool

def initproc : Nat := 0

/-- After `userinit`. -/
def PTable.init : PTable where
  proc p :=
    if p = initproc then ⟨.runnable, 1, none, false, none⟩ else ⟨.unused, 0, none, false, none⟩
  nextpid := 2
  lock := none
  cpu _ := ⟨none, none, .idle⟩
  thread _ := .resumed .yield
  fork _ := none
  ret _ := 0
  forks := 0
  creator _ := 0
  exited := []
  reaped := []
  marked _ := false

/-! ### The table -/

def PTable.setProc (s : PTable) (p : Nat) (f : Entry → Entry) : PTable :=
  { s with proc := update s.proc p (f (s.proc p)) }

/-- `wakeup1`. -/
def PTable.wakeup1 (s : PTable) (ch : SleepChan) : PTable :=
  { s with
    proc := fun q =>
      if (s.proc q).state = .sleeping ∧ (s.proc q).chan = some ch then
        { s.proc q with state := .runnable }
      else s.proc q }

/-- One turn of the loop in `exit` that passes abandoned children to init. -/
def PTable.adopt (p : Nat) (s : PTable) (q : Nat) : PTable :=
  if (s.proc q).parent = some p then
    let s := s.setProc q fun e => { e with parent := some initproc }
    if (s.proc q).state = .zombie then s.wakeup1 (.proc initproc) else s
  else s

/-- `exit` under the lock, up to `sched`. -/
def PTable.exit (s : PTable) (p : Nat) : PTable :=
  let s :=
    match (s.proc p).parent with
    | some q => s.wakeup1 (.proc q)
    | none => s
  let s := (List.range NPROC).foldl (PTable.adopt p) s
  { s.setProc p fun e => { e with state := .zombie } with
    exited := s.exited ++ [(s.proc p).pid] }

/-- `allocproc` under the lock, for entry `np` and creator `p`. -/
def PTable.take (s : PTable) (p np : Nat) : PTable :=
  { s.setProc np fun e => { e with state := .embryo, pid := s.nextpid.toInt } with
    nextpid := s.nextpid + 1
    thread := update s.thread np (.resumed .yield)
    fork := update s.fork p (some (.kstack np))
    forks := s.forks + 1
    creator := update s.creator np (s.proc p).pid
    marked := update s.marked np false }

/-- `wait` gives the entry of a zombie back. -/
def PTable.reap (s : PTable) (q : Nat) : PTable :=
  { s.setProc q fun e => { e with pid := 0, parent := none, killed := false, state := .unused } with
    reaped := s.reaped ++ [(s.proc q).pid] }

/-- `kill` of the process in entry `q`. -/
def PTable.strike (s : PTable) (q : Nat) : PTable :=
  { s.setProc q fun e =>
      { e with
        killed := true
        state := if e.state = .sleeping then .runnable else e.state } with
    marked := update s.marked q true }

/-! ### Threads -/

def PTable.goto (s : PTable) (p : Nat) (pc : ThreadPc) : PTable :=
  { s with thread := update s.thread p pc }

/-- The thread of `p`, on CPU `c`, executes its next statement. -/
def PTable.next (s : PTable) (c p : Nat) : PTable :=
  match s.thread p with
  | .run => s
  | .allocproc =>
    match firstSlot NPROC fun q => decide ((s.proc q).state = .unused) with
    | none => s.goto p (.release (some (-1)))
    | some np => (s.take p np).goto p (.release none)
  | .ready np =>
    { (s.setProc np fun e => { e with state := .runnable }).goto p
        (.release (some (s.proc np).pid)) with
      fork := update s.fork p none }
  | .exit => (s.exit p).goto p (.sched .never)
  | .wait =>
    match firstSlot NPROC fun q =>
        decide ((s.proc q).parent = some p ∧ (s.proc q).state = .zombie) with
    | some q => (s.reap q).goto p (.release (some (s.proc q).pid))
    | none =>
      if firstSlot NPROC (fun q => decide ((s.proc q).parent = some p)) = none ∨
          (s.proc p).killed then
        s.goto p (.release (some (-1)))
      else
        (s.setProc p fun e => { e with chan := some (.proc p), state := .sleeping }).goto p
          (.sched .wait)
  | .yield => (s.setProc p fun e => { e with state := .runnable }).goto p (.sched .yield)
  | .sleep ch =>
    (s.setProc p fun e => { e with chan := some ch, state := .sleeping }).goto p (.sched .sleep)
  | .wakeup ch => (s.wakeup1 ch).goto p (.release none)
  | .kill n =>
    match firstSlot NPROC fun q => decide ((s.proc q).pid = n) with
    | some q => (s.strike q).goto p (.release (some 0))
    | none => s.goto p (.release (some (-1)))
  | .sched k =>
    { s.goto p (.resumed k) with
      cpu := update s.cpu c { s.cpu c with on := none } }
  | .resumed .yield => s.goto p (.release none)
  | .resumed .sleep => (s.setProc p fun e => { e with chan := none }).goto p (.release none)
  | .resumed .wait => (s.setProc p fun e => { e with chan := none }).goto p .wait
  | .resumed .never => s
  | .release r =>
    { s.goto p .run with
      lock := none
      ret := match r with
        | some v => update s.ret p v
        | none => s.ret }

/-- What a thread outside of `ptable.lock` can turn to. -/
inductive PCall where
  | fork
  | exit
  | wait
  | kill (n : Int)
  | yield
  | sleep (a : Nat)
  | wakeup (a : Nat)
  /-- A trap in user space that is the process's own fault. -/
  | fault
  /-- The `kalloc` of `allocproc` succeeds or fails. -/
  | kstack (ok : Bool)
  /-- `copyuvm` succeeds or fails. -/
  | copied (ok : Bool)
  /-- The last lines of `fork`. -/
  | ready

/-- `acquire(&ptable.lock)` on CPU `c`. -/
def PTable.acquire (s : PTable) (c p : Nat) (pc : ThreadPc) : PTable :=
  if s.lock = none then { s.goto p pc with lock := some c } else s

/-- `fork` gives entry `np` back and returns -1. -/
def PTable.forkFails (s : PTable) (p np : Nat) : PTable :=
  { s.setProc np fun e => { e with state := .unused } with
    fork := update s.fork p none
    ret := update s.ret p (-1) }

def PTable.call (s : PTable) (c p : Nat) : PCall → PTable
  | .fork => if s.fork p = none then s.acquire c p .allocproc else s
  | .exit => if s.fork p = none ∧ p ≠ initproc then s.acquire c p .exit else s
  | .wait => if s.fork p = none then s.acquire c p .wait else s
  | .kill n => if s.fork p = none then s.acquire c p (.kill n) else s
  | .yield => s.acquire c p .yield
  | .sleep a => s.acquire c p (.sleep (.other a))
  | .wakeup a => s.acquire c p (.wakeup (.other a))
  | .fault =>
    { s.setProc p fun e => { e with killed := true } with
      marked := update s.marked p true }
  | .kstack ok =>
    match s.fork p with
    | some (.kstack np) =>
      if ok then { s with fork := update s.fork p (some (.copy np)) }
      else s.forkFails p np
    | _ => s
  | .copied ok =>
    match s.fork p with
    | some (.copy np) =>
      if ok then
        { s.setProc np fun e => { e with parent := some p } with
          fork := update s.fork p (some (.ready np)) }
      else s.forkFails p np
    | _ => s
  | .ready =>
    match s.fork p with
    | some (.ready np) => s.acquire c p (.ready np)
    | _ => s

/-! ### Schedulers -/

def PTable.setCpu (s : PTable) (c : Nat) (cpu : Cpu) : PTable :=
  { s with cpu := update s.cpu c cpu }

/-- `scheduler` on CPU `c` executes its next statement. -/
def PTable.schedule (s : PTable) (c : Nat) : PTable :=
  match (s.cpu c).sched with
  | .idle => if s.lock = none then { s.setCpu c ⟨none, none, .scan 0⟩ with lock := some c } else s
  | .wakeup ch => { (s.wakeup1 ch).setCpu c ⟨none, none, .idle⟩ with lock := none }
  | .scan i =>
    if i < NPROC then
      if (s.proc i).state = .runnable then
        (s.setProc i fun e => { e with state := .running }).setCpu c ⟨some i, none, .swtch i⟩
      else s.setCpu c ⟨none, none, .scan (i + 1)⟩
    else { s.setCpu c ⟨none, none, .idle⟩ with lock := none }
  | .swtch i => s.setCpu c ⟨some i, some i, .back i⟩
  | .back i => s.setCpu c ⟨none, none, .scan (i + 1)⟩

inductive PEvent where
  /-- CPU `c` executes a statement of its scheduler. -/
  | sched (c : Nat)
  /-- An interrupt on CPU `c`, in its scheduler, calls `wakeup`. -/
  | intr (c a : Nat)
  /-- The thread on CPU `c` turns to a call. -/
  | call (c : Nat) (call : PCall)
  /-- The thread on CPU `c` executes a statement. -/
  | run (c : Nat)

/-- One event; an event that is not possible in the state changes nothing. -/
def PTable.step (s : PTable) : PEvent → PTable
  | .sched c =>
    match (s.cpu c).on with
    | none => s.schedule c
    | some _ => s
  | .intr c a =>
    if (s.cpu c).on = none ∧ (s.cpu c).sched = .idle ∧ s.lock = none then
      { s.setCpu c ⟨none, none, .wakeup (.other a)⟩ with lock := some c }
    else s
  | .call c call =>
    match (s.cpu c).on with
    | some p => if s.thread p = .run then s.call c p call else s
    | none => s
  | .run c =>
    match (s.cpu c).on with
    | some p => s.next c p
    | none => s

def PTable.steps (s : PTable) (events : List PEvent) : PTable := events.foldl PTable.step s

/-! ### What one event can do -/

/-- The sections that the thread of `p` may enter. -/
def PTable.MayEnter (s : PTable) (p : Nat) : ThreadPc → Prop
  | .allocproc | .wait | .kill _ => s.fork p = none
  | .exit => s.fork p = none ∧ p ≠ initproc
  | .ready np => s.fork p = some (.ready np)
  | .yield | .wakeup _ | .sleep (.other _) => True
  | _ => False

/-- One statement of the thread of `p` on CPU `c`. -/
inductive ThreadStep (s : PTable) (c p : Nat) : PTable → Prop
  | stay : ThreadStep s c p s
  | noEntry : s.thread p = .allocproc → ThreadStep s c p (s.goto p (.release (some (-1))))
  | take {np : Nat} : s.thread p = .allocproc → np < NPROC → (s.proc np).state = .unused →
      ThreadStep s c p ((s.take p np).goto p (.release none))
  | ready {np : Nat} : s.thread p = .ready np →
      ThreadStep s c p
        { (s.setProc np fun e => { e with state := .runnable }).goto p
            (.release (some (s.proc np).pid)) with
          fork := update s.fork p none }
  | exit : s.thread p = .exit → ThreadStep s c p ((s.exit p).goto p (.sched .never))
  | reap {q : Nat} : s.thread p = .wait → q < NPROC → (s.proc q).parent = some p →
      (s.proc q).state = .zombie →
      ThreadStep s c p ((s.reap q).goto p (.release (some (s.proc q).pid)))
  | waitFail : s.thread p = .wait →
      (∀ q, q < NPROC → (s.proc q).parent ≠ some p) ∨ (s.proc p).killed = true →
      ThreadStep s c p (s.goto p (.release (some (-1))))
  | waitSleep : s.thread p = .wait →
      (∀ q, q < NPROC → (s.proc q).parent = some p → (s.proc q).state ≠ .zombie) →
      ThreadStep s c p
        ((s.setProc p fun e => { e with chan := some (.proc p), state := .sleeping }).goto p
          (.sched .wait))
  | yield : s.thread p = .yield →
      ThreadStep s c p
        ((s.setProc p fun e => { e with state := .runnable }).goto p (.sched .yield))
  | sleep {ch : SleepChan} : s.thread p = .sleep ch →
      ThreadStep s c p
        ((s.setProc p fun e => { e with chan := some ch, state := .sleeping }).goto p
          (.sched .sleep))
  | wakeup {ch : SleepChan} : s.thread p = .wakeup ch →
      ThreadStep s c p ((s.wakeup1 ch).goto p (.release none))
  | strike {n : Int} {q : Nat} : s.thread p = .kill n → q < NPROC → (s.proc q).pid = n →
      ThreadStep s c p ((s.strike q).goto p (.release (some 0)))
  | killFail {n : Int} : s.thread p = .kill n →
      ThreadStep s c p (s.goto p (.release (some (-1))))
  | sched {k : Resume} : s.thread p = .sched k →
      ThreadStep s c p
        { s.goto p (.resumed k) with
          cpu := update s.cpu c { s.cpu c with on := none } }
  | resumeYield : s.thread p = .resumed .yield → ThreadStep s c p (s.goto p (.release none))
  | resumeSleep : s.thread p = .resumed .sleep →
      ThreadStep s c p ((s.setProc p fun e => { e with chan := none }).goto p (.release none))
  | resumeWait : s.thread p = .resumed .wait →
      ThreadStep s c p ((s.setProc p fun e => { e with chan := none }).goto p .wait)
  | release {r : Option Int} {ret : Nat → Int} : s.thread p = .release r →
      ThreadStep s c p { s.goto p .run with lock := none, ret := ret }

inductive PStep (s : PTable) : PEvent → PTable → Prop
  | stay (e : PEvent) : PStep s e s
  | schedAcquire {c : Nat} : (s.cpu c).on = none → (s.cpu c).sched = .idle → s.lock = none →
      PStep s (.sched c) { s.setCpu c ⟨none, none, .scan 0⟩ with lock := some c }
  | schedWake {c : Nat} {ch : SleepChan} : (s.cpu c).on = none → (s.cpu c).sched = .wakeup ch →
      PStep s (.sched c) { (s.wakeup1 ch).setCpu c ⟨none, none, .idle⟩ with lock := none }
  | dispatch {c i : Nat} : (s.cpu c).on = none → (s.cpu c).sched = .scan i → i < NPROC →
      (s.proc i).state = .runnable →
      PStep s (.sched c)
        ((s.setProc i fun e => { e with state := .running }).setCpu c ⟨some i, none, .swtch i⟩)
  | skip {c i : Nat} : (s.cpu c).on = none → (s.cpu c).sched = .scan i →
      PStep s (.sched c) (s.setCpu c ⟨none, none, .scan (i + 1)⟩)
  | schedRelease {c i : Nat} : (s.cpu c).on = none → (s.cpu c).sched = .scan i →
      PStep s (.sched c) { s.setCpu c ⟨none, none, .idle⟩ with lock := none }
  | swtch {c i : Nat} : (s.cpu c).on = none → (s.cpu c).sched = .swtch i →
      PStep s (.sched c) (s.setCpu c ⟨some i, some i, .back i⟩)
  | back {c i : Nat} : (s.cpu c).on = none → (s.cpu c).sched = .back i →
      PStep s (.sched c) (s.setCpu c ⟨none, none, .scan (i + 1)⟩)
  | intr {c a : Nat} : (s.cpu c).on = none → (s.cpu c).sched = .idle → s.lock = none →
      PStep s (.intr c a)
        { s.setCpu c ⟨none, none, .wakeup (.other a)⟩ with lock := some c }
  | acquire {c p : Nat} {call : PCall} {pc : ThreadPc} : (s.cpu c).on = some p →
      s.thread p = .run → s.lock = none → s.MayEnter p pc →
      PStep s (.call c call) { s.goto p pc with lock := some c }
  | fault {c p : Nat} : (s.cpu c).on = some p → s.thread p = .run →
      PStep s (.call c .fault)
        { s.setProc p fun e => { e with killed := true } with
          marked := update s.marked p true }
  | kstack {c p np : Nat} : (s.cpu c).on = some p → s.thread p = .run →
      s.fork p = some (.kstack np) →
      PStep s (.call c (.kstack true))
        { s with fork := update s.fork p (some (.copy np)) }
  | copied {c p np : Nat} : (s.cpu c).on = some p → s.thread p = .run →
      s.fork p = some (.copy np) →
      PStep s (.call c (.copied true))
        { s.setProc np fun e => { e with parent := some p } with
          fork := update s.fork p (some (.ready np)) }
  | forkFails {c p np : Nat} {call : PCall} : (s.cpu c).on = some p → s.thread p = .run →
      (s.fork p = some (.kstack np) ∧ call = .kstack false ∨
        s.fork p = some (.copy np) ∧ call = .copied false) →
      PStep s (.call c call) (s.forkFails p np)
  | thread {c p : Nat} {s' : PTable} : (s.cpu c).on = some p → ThreadStep s c p s' →
      PStep s (.run c) s'

theorem PTable.next_spec (s : PTable) (c p : Nat) : ThreadStep s c p (s.next c p) := by
  unfold PTable.next
  split
  · exact .stay
  · next hpc =>
    split
    · exact .noEntry hpc
    · next np hnp =>
      obtain ⟨hlt, hfree⟩ := firstSlot_some hnp
      exact .take hpc hlt (of_decide_eq_true hfree)
  · next hpc => exact .ready hpc
  · next hpc => exact .exit hpc
  · next hpc =>
    split
    · next q hq =>
      obtain ⟨hlt, hchild⟩ := firstSlot_some hq
      exact .reap hpc hlt (of_decide_eq_true hchild).1 (of_decide_eq_true hchild).2
    · next hnone =>
      split
      · next h =>
        refine .waitFail hpc (h.imp_left fun hkids q hq => ?_)
        exact of_decide_eq_false (firstSlot_none hkids hq)
      · refine .waitSleep hpc fun q hq hparent hzombie => ?_
        exact of_decide_eq_false (firstSlot_none hnone hq) ⟨hparent, hzombie⟩
  · next hpc => exact .yield hpc
  · next hpc => exact .sleep hpc
  · next hpc => exact .wakeup hpc
  · next hpc =>
    split
    · next q hq =>
      obtain ⟨hlt, hpid⟩ := firstSlot_some hq
      exact .strike hpc hlt (of_decide_eq_true hpid)
    · exact .killFail hpc
  · next hpc => exact .sched hpc
  · next hpc => exact .resumeYield hpc
  · next hpc => exact .resumeSleep hpc
  · next hpc => exact .resumeWait hpc
  · exact .stay
  · next hpc => exact .release hpc

theorem PTable.call_spec (s : PTable) {c p : Nat} (call : PCall) (hon : (s.cpu c).on = some p)
    (hrun : s.thread p = .run) : PStep s (.call c call) (s.call c p call) := by
  have hacquire : ∀ pc, s.MayEnter p pc → PStep s (.call c call) (s.acquire c p pc) := by
    intro pc hpc
    unfold PTable.acquire
    split
    · next hfree => exact .acquire hon hrun hfree hpc
    · exact .stay _
  have hguarded : ∀ (P : Prop) [Decidable P] pc, (P → s.MayEnter p pc) →
      PStep s (.call c call) (if P then s.acquire c p pc else s) := by
    intro P _ pc hpc
    split
    · next h => exact hacquire pc (hpc h)
    · exact .stay _
  cases call with
  | fork => exact hguarded _ _ fun h => h
  | exit => exact hguarded _ _ fun h => h
  | wait => exact hguarded _ _ fun h => h
  | kill n => exact hguarded _ _ fun h => h
  | yield => exact hacquire _ trivial
  | sleep a => exact hacquire _ trivial
  | wakeup a => exact hacquire _ trivial
  | fault => exact .fault hon hrun
  | kstack ok =>
    dsimp only [PTable.call]
    split
    · next np hfork =>
      cases ok with
      | true => exact .kstack hon hrun hfork
      | false => exact .forkFails hon hrun (.inl ⟨hfork, rfl⟩)
    · exact .stay _
  | copied ok =>
    dsimp only [PTable.call]
    split
    · next np hfork =>
      cases ok with
      | true => exact .copied hon hrun hfork
      | false => exact .forkFails hon hrun (.inr ⟨hfork, rfl⟩)
    · exact .stay _
  | ready =>
    dsimp only [PTable.call]
    split
    · next np hfork => exact hacquire _ hfork
    · exact .stay _

theorem PTable.step_spec (s : PTable) (e : PEvent) : PStep s e (s.step e) := by
  cases e with
  | sched c =>
    dsimp only [PTable.step]
    split
    · next hon =>
      unfold PTable.schedule
      split
      · next hpc =>
        split
        · next hfree => exact .schedAcquire hon hpc hfree
        · exact .stay _
      · next hpc => exact .schedWake hon hpc
      · next hpc =>
        split
        · next hlt =>
          split
          · next hrunnable => exact .dispatch hon hpc hlt hrunnable
          · exact .skip hon hpc
        · exact .schedRelease hon hpc
      · next hpc => exact .swtch hon hpc
      · next hpc => exact .back hon hpc
    · exact .stay _
  | intr c a =>
    dsimp only [PTable.step]
    split
    · next h => exact .intr h.1 h.2.1 h.2.2
    · exact .stay _
  | call c call =>
    dsimp only [PTable.step]
    split
    · next p hon =>
      split
      · next hrun => exact s.call_spec call hon hrun
      · exact .stay _
    · exact .stay _
  | run c =>
    dsimp only [PTable.step]
    split
    · next p hon => exact .thread hon (s.next_spec c p)
    · exact .stay _

/-! ### `exit` -/

/-- An entry after `wakeup1`: asleep entries may have become runnable. -/
def Entry.Woken (e e' : Entry) : Prop :=
  e' = e ∨ e.state = .sleeping ∧ e' = { e with state := .runnable }

theorem PTable.wakeup1_woken (s : PTable) (ch : SleepChan) (q : Nat) :
    (s.proc q).Woken ((s.wakeup1 ch).proc q) := by
  simp only [PTable.wakeup1]
  split
  · next h => exact .inr ⟨h.1, rfl⟩
  · exact .inl rfl

theorem PTable.wakeup1_awake {s : PTable} {ch : SleepChan} {q : Nat}
    (h : ((s.wakeup1 ch).proc q).state = .sleeping) : (s.proc q).chan ≠ some ch := by
  grind [PTable.wakeup1, next]

theorem Entry.Woken.trans {e1 e2 e3 : Entry} (h : e1.Woken e2) (h' : e2.Woken e3) : e1.Woken e3 := by
  obtain rfl | ⟨hsleep, rfl⟩ := h
  · exact h'
  · obtain rfl | ⟨hsleep', rfl⟩ := h'
    · exact .inr ⟨hsleep, rfl⟩
    · simp at hsleep'

/-- Entries after part of the loop in `exit`: those of `l` that were children of `p` are
    init's, and if one of them is a zombie then init is not asleep in `wait`. -/
structure Adopted (s s' : PTable) (p : Nat) (l : List Nat) : Prop where
  entry : ∀ q, ∃ e, (s.proc q).Woken e ∧
    s'.proc q = { e with
      parent := if q ∈ l ∧ (s.proc q).parent = some p then some initproc
        else (s.proc q).parent }
  woken : ∀ z ∈ l, (s.proc z).parent = some p → (s.proc z).state = .zombie →
    ∀ q, (s'.proc q).state = .sleeping → (s.proc q).chan ≠ some (.proc initproc)
  frame : s' = { s with proc := s'.proc }

theorem Entry.Woken.zombie_iff {e e' : Entry} (h : e.Woken e') :
    e'.state = .zombie ↔ e.state = .zombie := by
  obtain rfl | ⟨hsleep, rfl⟩ := h
  · rfl
  · simp [hsleep]

theorem Entry.Woken.of_sleeping {e e' : Entry} (h : e.Woken e') (hsleep : e'.state = .sleeping) :
    e' = e := by
  obtain rfl | ⟨-, rfl⟩ := h
  · rfl
  · simp at hsleep

theorem Entry.Woken.parent_eq {e e' : Entry} (h : e.Woken e') : e'.parent = e.parent := by
  obtain rfl | ⟨-, rfl⟩ := h <;> rfl

theorem Entry.Woken.chan_eq {e e' : Entry} (h : e.Woken e') : e'.chan = e.chan := by
  obtain rfl | ⟨-, rfl⟩ := h <;> rfl

theorem PTable.adopt_spec (s : PTable) (p q : Nat) : Adopted s (s.adopt p q) p [q] := by
  by_cases hchild : (s.proc q).parent = some p
  · obtain ⟨s1, hs1⟩ : ∃ s1, s1 = s.setProc q fun e => { e with parent := some initproc } :=
      ⟨_, rfl⟩
    have hadopt : s.adopt p q =
        if (s1.proc q).state = .zombie then s1.wakeup1 (.proc initproc) else s1 := by
      rw [PTable.adopt, if_pos hchild, hs1]
    have hproc : ∀ r, s1.proc r = { s.proc r with
        parent := if r ∈ [q] ∧ (s.proc r).parent = some p then some initproc
          else (s.proc r).parent } := by
      intro r
      rw [hs1, PTable.setProc]
      by_cases hr : r = q
      · subst hr
        simp [hchild]
      · simp [hr]
    have hframe : s1 = { s with proc := s1.proc } := by
      rw [hs1]
      rfl
    rw [hadopt]
    split
    · next hzombie =>
      refine ⟨fun r => ?_, fun z hz hparent hz' r hr => ?_, by rw [hframe]; rfl⟩
      · rcases s1.wakeup1_woken (.proc initproc) r with heq | ⟨hsleep, heq⟩
        · exact ⟨s.proc r, .inl rfl, by rw [heq, hproc]⟩
        · refine ⟨{ s.proc r with state := .runnable }, .inr ⟨?_, rfl⟩, ?_⟩
          · simpa [hproc] using hsleep
          · rw [heq, hproc]
      · have hchan := PTable.wakeup1_awake hr
        simpa [hproc] using hchan
    · next hzombie =>
      refine ⟨fun r => ⟨s.proc r, .inl rfl, hproc r⟩, fun z hz hparent hz' => ?_, hframe⟩
      rw [List.mem_singleton.mp hz] at hz'
      exact absurd (by simpa [hproc] using hz') hzombie
  · rw [PTable.adopt, if_neg hchild]
    refine ⟨fun r => ⟨s.proc r, .inl rfl, ?_⟩, fun z hz hparent => ?_, rfl⟩
    · rw [if_neg]
      rintro ⟨hr, hparent⟩
      rw [List.mem_singleton.mp hr] at hparent
      exact hchild hparent
    · grind

theorem Adopted.trans {s s1 s' : PTable} {p : Nat} {l l' : List Nat} (h : Adopted s s1 p l)
    (h' : Adopted s1 s' p l') : Adopted s s' p (l ++ l') := by
  have hparent : ∀ q, (s1.proc q).parent =
      if q ∈ l ∧ (s.proc q).parent = some p then some initproc else (s.proc q).parent := by
    intro q
    obtain ⟨e, -, heq⟩ := h.entry q
    rw [heq]
  refine ⟨fun q => ?_, fun z hz hchild hzombie q hq => ?_, ?_⟩
  · obtain ⟨e1, hw1, heq1⟩ := h.entry q
    obtain ⟨e2, hw2, heq2⟩ := h'.entry q
    have hpar := hparent q
    refine ⟨{ e2 with parent := (s.proc q).parent }, ?_, ?_⟩
    · rw [heq1] at hw2
      have hback : ({ e1 with parent := (s.proc q).parent } : Entry) = e1 := by
        rw [← hw1.parent_eq]
      rcases hw2 with rfl | ⟨hsleep, rfl⟩
      · simpa [hback] using hw1
      · have hsleep1 : e1.state = .sleeping := hsleep
        obtain rfl := hw1.of_sleeping hsleep1
        exact .inr ⟨hsleep1, rfl⟩
    · grind
  · have hcase : (s'.proc q).state = .sleeping → (s1.proc q).state = .sleeping ∧
        (s1.proc q).chan = (s.proc q).chan := by
      intro hsleep
      obtain ⟨e1, hw1, heq1⟩ := h.entry q
      obtain ⟨e2, hw2, heq2⟩ := h'.entry q
      have hsleep2 : e2.state = .sleeping := by simpa [heq2] using hsleep
      have heq := hw2.of_sleeping hsleep2
      refine ⟨by rw [← heq]; exact hsleep2, ?_⟩
      rw [heq1]
      exact hw1.chan_eq
    obtain ⟨hsleep1, hchan⟩ := hcase hq
    by_cases hzl : z ∈ l
    · exact h.woken z hzl hchild hzombie q hsleep1
    · have hzl' : z ∈ l' := (List.mem_append.mp hz).resolve_left hzl
      have hchild1 : (s1.proc z).parent = some p := by
        rw [hparent, if_neg (fun hz => hzl hz.1), hchild]
      have hzombie1 : (s1.proc z).state = .zombie := by
        obtain ⟨e, hw, heq⟩ := h.entry z
        rw [heq]
        exact hw.zombie_iff.mpr hzombie
      rw [← hchan]
      exact h'.woken z hzl' hchild1 hzombie1 q hq
  · rw [h'.frame, h.frame]

theorem PTable.foldl_adopt (s : PTable) (p : Nat) (l : List Nat) :
    Adopted s (l.foldl (PTable.adopt p) s) p l := by
  induction l generalizing s with
  | nil => exact ⟨fun q => ⟨s.proc q, .inl rfl, by simp⟩, fun z hz => absurd hz (by simp), rfl⟩
  | cons q l ih => exact (s.adopt_spec p q).trans (ih (s.adopt p q))

/-- The table after `exit` of `p`. -/
structure Exits (s s' : PTable) (p : Nat) : Prop where
  entry : ∀ q, ∃ e, (s.proc q).Woken e ∧
    s'.proc q = { e with
      state := if q = p then .zombie else e.state
      parent := if q < NPROC ∧ (s.proc q).parent = some p then some initproc
        else (s.proc q).parent }
  /-- Its parent does not sleep in `wait`. -/
  parent : ∀ q, (s'.proc q).state = .sleeping → ∀ r, (s.proc p).parent = some r →
    (s.proc q).chan ≠ some (.proc r)
  /-- Nor does init, if it inherits a zombie. -/
  init : ∀ z, z < NPROC → (s.proc z).parent = some p → (s.proc z).state = .zombie →
    ∀ q, (s'.proc q).state = .sleeping → (s.proc q).chan ≠ some (.proc initproc)
  frame : s' = { s with proc := s'.proc, exited := s.exited ++ [(s.proc p).pid] }

theorem Entry.Woken.pid_eq {e e' : Entry} (h : e.Woken e') : e'.pid = e.pid := by
  obtain rfl | ⟨-, rfl⟩ := h <;> rfl

theorem PTable.exit_spec (s : PTable) (p : Nat) : Exits s (s.exit p) p := by
  obtain ⟨s1, hs1⟩ : ∃ s1, s1 = match (s.proc p).parent with
      | some q => s.wakeup1 (.proc q)
      | none => s := ⟨_, rfl⟩
  obtain ⟨s2, hs2⟩ : ∃ s2, s2 = (List.range NPROC).foldl (PTable.adopt p) s1 := ⟨_, rfl⟩
  have hexit : s.exit p = { s2.setProc p fun e => { e with state := .zombie } with
      exited := s2.exited ++ [(s2.proc p).pid] } := by
    rw [PTable.exit, ← hs1, ← hs2]
  have hproc : ∀ q, (s.exit p).proc q =
      { s2.proc q with state := if q = p then .zombie else (s2.proc q).state } := by
    intro q
    rw [hexit]
    by_cases hq : q = p
    · subst hq
      simp [PTable.setProc]
    · simp [PTable.setProc, hq]
  have hwoken : ∀ q, (s.proc q).Woken (s1.proc q) := by
    intro q
    rw [hs1]
    split
    · exact s.wakeup1_woken _ q
    · exact .inl rfl
  have hawake : ∀ q r, (s1.proc q).state = .sleeping → (s.proc p).parent = some r →
      (s.proc q).chan ≠ some (.proc r) := by grind [PTable.wakeup1_awake]
  have hframe1 : s1 = { s with proc := s1.proc } := by
    rw [hs1]
    split <;> rfl
  have hadopted : Adopted s1 s2 p (List.range NPROC) := hs2 ▸ s1.foldl_adopt p _
  -- who is asleep after `exit` slept already, on the same channel
  have hsleeping : ∀ q, ((s.exit p).proc q).state = .sleeping →
      (s1.proc q).state = .sleeping ∧ (s2.proc q).state = .sleeping ∧
        (s1.proc q).chan = (s.proc q).chan := by
    intro q hq
    have hsleep2 : (s2.proc q).state = .sleeping := by grind
    obtain ⟨e, hw, heq⟩ := hadopted.entry q
    have hsleep : e.state = .sleeping := by simpa [heq] using hsleep2
    exact ⟨hw.of_sleeping hsleep ▸ hsleep, hsleep2, (hwoken q).chan_eq⟩
  refine ⟨fun q => ?_, fun q hq r hr => ?_, fun z hz hparent hzombie q hq => ?_, ?_⟩
  · obtain ⟨e, hw, heq⟩ := hadopted.entry q
    refine ⟨e, (hwoken q).trans hw, ?_⟩
    simp only [hproc q, heq, (hwoken q).parent_eq, List.mem_range]
  · exact hawake q r (hsleeping q hq).1 hr
  · obtain ⟨-, hsleep2, hchan⟩ := hsleeping q hq
    rw [← hchan]
    refine hadopted.woken z (List.mem_range.mpr hz) ?_ ((hwoken z).zombie_iff.mpr hzombie) q hsleep2
    rw [(hwoken z).parent_eq, hparent]
  · have hpid : (s2.proc p).pid = (s.proc p).pid := by
      obtain ⟨e, hw, heq⟩ := hadopted.entry p
      rw [heq]
      exact hw.pid_eq.trans (hwoken p).pid_eq
    rw [hexit, hpid, hadopted.frame, hframe1]
    rfl

end CowPaging
