import CowPaging.Pipes
import CowPaging.Lib.Fifo
import Mathlib.Data.Finset.Basic

/-!
# Reading and writing pipes

`pipewrite`, `piperead` and `pipeclose` on one pipe as a transition system. Every
process has a place in the code of `pipe.c`, and a step executes one statement of one
process; the statements between `acquire(&p->lock)` and the `release` or `sleep` that
gives the lock up need the lock, the others of a process may fall anywhere between
them, and so may `kill`, which takes `ptable.lock` only. `sleep` and `wakeup` are
atomic, as `ptable.lock` makes them.

A process calls on an end of the pipe through a descriptor. `ends` holds the processes
that have one for the end: the last `fileclose` calls `pipeclose`, and a process in the
middle of a call has not closed its own.
-/

namespace CowPaging

open Bytes Fifo
open Function (update)

def PIPESIZE : Nat := 512

/-- `struct pipe` without its lock. -/
structure PipeBuf extends Pipe where
  data : Nat → Byte
  nread : Word
  nwrite : Word

/-- `p->nread == p->nwrite`. -/
def PipeBuf.empty (pi : PipeBuf) : Bool := pi.nread == pi.nwrite

/-- `p->nwrite == p->nread + PIPESIZE`. -/
def PipeBuf.full (pi : PipeBuf) : Bool := pi.nwrite == pi.nread + BitVec.ofNat 32 PIPESIZE

/-- `p->data[p->nwrite++ % PIPESIZE] = b`. -/
def PipeBuf.store (pi : PipeBuf) (b : Byte) : PipeBuf :=
  { pi with
    data := update pi.data (pi.nwrite.toNat % PIPESIZE) b
    nwrite := pi.nwrite + 1 }

/-- `p->data[p->nread % PIPESIZE]`. -/
def PipeBuf.front (pi : PipeBuf) : Byte := pi.data (pi.nread.toNat % PIPESIZE)

/-- `p->nread++`. -/
def PipeBuf.drop (pi : PipeBuf) : PipeBuf := { pi with nread := pi.nread + 1 }

def PipeBuf.shut (pi : PipeBuf) (w : Bool) : PipeBuf := { pi with toPipe := pi.toPipe.close w }

/-- The addresses that processes sleep on. -/
inductive PipeChan where
  | nread
  | nwrite
deriving DecidableEq, Repr

/-- The next statement of a process. `addr` are the bytes of a `pipewrite` and `i` its
    loop variable; `n` is the argument of a `piperead` and `got` what it has copied. -/
inductive PipePc where
  | out
  /-- `acquire(&p->lock)`, also the one at the end of `sleep`. -/
  | writeAcquire (addr : List Byte) (i : Nat)
  /-- The tests of `for` and `while`, and the store. -/
  | writeLoop (addr : List Byte) (i : Nat)
  /-- `if(p->readopen == 0 || myproc()->killed)`. -/
  | writeCheck (addr : List Byte) (i : Nat)
  /-- `wakeup(&p->nread)` before the sleep. -/
  | writeWake (addr : List Byte) (i : Nat)
  | writeSleep (addr : List Byte) (i : Nat)
  /-- `wakeup(&p->nread)` after the loop. -/
  | writeEnd (addr : List Byte)
  | writeRelease (addr : List Byte)
  | readAcquire (n : Nat)
  /-- `while(p->nread == p->nwrite && p->writeopen)`. -/
  | readWait (n : Nat)
  /-- `if(myproc()->killed)`. -/
  | readCheck (n : Nat)
  | readSleep (n : Nat)
  /-- The `for` loop that copies. -/
  | readLoop (n : Nat) (got : List Byte)
  /-- `wakeup(&p->nwrite)`. -/
  | readEnd (n : Nat) (got : List Byte)
  | readRelease (n : Nat) (got : List Byte)
  | closeAcquire (w : Bool)
  | closeSet (w : Bool)
  | closeWake (w : Bool)
  | closeRelease (w : Bool)
deriving DecidableEq, Repr

structure PipeState where
  pipe : PipeBuf
  /-- The process that holds `p->lock`. -/
  lock : Option Nat
  pc : Nat → PipePc
  /-- `p->chan` of the processes in state `SLEEPING`. -/
  asleep : Nat → Option PipeChan
  killed : Nat → Bool
  /-- The processes with a descriptor for the write end (`true`) and the read end. -/
  ends : Bool → Finset Nat
  /-- What the last call of a process returned. -/
  ret : Nat → Int
  /-- Every byte stored so far, in storing order. -/
  stored : List Byte
  /-- The bytes of every `piperead` that returned, in order. -/
  reads : List (List Byte)

/-- After `pipealloc` for process `p`. -/
def PipeState.init (p : Nat) (data : Nat → Byte) : PipeState where
  pipe := { readopen := true, writeopen := true, data := data, nread := 0, nwrite := 0 }
  lock := none
  pc _ := .out
  asleep _ := none
  killed _ := false
  ends _ := {p}
  ret _ := 0
  stored := []
  reads := []

/-! ### Statements -/

def PipeState.goto (s : PipeState) (p : Nat) (pc : PipePc) : PipeState :=
  { s with pc := update s.pc p pc }

/-- `acquire(&p->lock)`, by a process that is not asleep. -/
def PipeState.acquire (s : PipeState) (p : Nat) (pc : PipePc) : PipeState :=
  if s.asleep p = none ∧ s.lock = none then { s.goto p pc with lock := some p } else s

/-- `release(&p->lock); return r`. -/
def PipeState.leave (s : PipeState) (p : Nat) (r : Int) : PipeState :=
  { s.goto p .out with lock := none, ret := update s.ret p r }

/-- `sleep(chan, &p->lock)`, up to the `acquire` after the process is woken. -/
def PipeState.sleep (s : PipeState) (p : Nat) (c : PipeChan) (pc : PipePc) : PipeState :=
  { s.goto p pc with lock := none, asleep := update s.asleep p (some c) }

def PipeState.wakeup (s : PipeState) (c : PipeChan) : PipeState :=
  { s with asleep := fun q => if s.asleep q = some c then none else s.asleep q }

/-- The channel that `pipeclose` wakes. -/
def closeChan (w : Bool) : PipeChan := if w then .nread else .nwrite

/-- Process `p` executes its next statement. -/
def PipeState.run (s : PipeState) (p : Nat) : PipeState :=
  match s.pc p with
  | .out => s
  | .writeAcquire addr i => s.acquire p (.writeLoop addr i)
  | .writeLoop addr i =>
    match addr[i]? with
    | none => s.goto p (.writeEnd addr)
    | some b =>
      if s.pipe.full then s.goto p (.writeCheck addr i)
      else
        { s.goto p (.writeLoop addr (i + 1)) with
          pipe := s.pipe.store b, stored := s.stored ++ [b] }
  | .writeCheck addr i =>
    if s.pipe.readopen = false ∨ s.killed p then s.leave p (-1)
    else s.goto p (.writeWake addr i)
  | .writeWake addr i => (s.wakeup .nread).goto p (.writeSleep addr i)
  | .writeSleep addr i => s.sleep p .nwrite (.writeAcquire addr i)
  | .writeEnd addr => (s.wakeup .nread).goto p (.writeRelease addr)
  | .writeRelease addr => s.leave p addr.length
  | .readAcquire n => s.acquire p (.readWait n)
  | .readWait n =>
    if s.pipe.empty ∧ s.pipe.writeopen then s.goto p (.readCheck n)
    else s.goto p (.readLoop n [])
  | .readCheck n => if s.killed p then s.leave p (-1) else s.goto p (.readSleep n)
  | .readSleep n => s.sleep p .nread (.readAcquire n)
  | .readLoop n got =>
    if got.length < n ∧ s.pipe.empty = false then
      { s.goto p (.readLoop n (got ++ [s.pipe.front])) with pipe := s.pipe.drop }
    else s.goto p (.readEnd n got)
  | .readEnd n got => (s.wakeup .nwrite).goto p (.readRelease n got)
  | .readRelease _ got => { s.leave p got.length with reads := s.reads ++ [got] }
  | .closeAcquire w => s.acquire p (.closeSet w)
  | .closeSet w => { s.goto p (.closeWake w) with pipe := s.pipe.shut w }
  | .closeWake w => (s.wakeup (closeChan w)).goto p (.closeRelease w)
  | .closeRelease _ => s.leave p 0

inductive PipeEvent where
  /-- Process `p` calls `write` on a descriptor of the pipe. -/
  | write (p : Nat) (addr : List Byte)
  | read (p n : Nat)
  /-- Process `q` inherits a descriptor of `p`. -/
  | share (p q : Nat) (w : Bool)
  /-- Process `p` closes its descriptor of an end. -/
  | close (p : Nat) (w : Bool)
  | kill (p : Nat)
  | run (p : Nat)

/-- One event; an event that is not possible in the state changes nothing. -/
def PipeState.step (s : PipeState) : PipeEvent → PipeState
  | .write p addr =>
    if s.pc p = .out ∧ p ∈ s.ends true then s.goto p (.writeAcquire addr 0) else s
  | .read p n => if s.pc p = .out ∧ p ∈ s.ends false then s.goto p (.readAcquire n) else s
  | .share p q w =>
    if p ∈ s.ends w then { s with ends := update s.ends w (insert q (s.ends w)) } else s
  | .close p w =>
    if s.pc p = .out ∧ p ∈ s.ends w then
      let rest := (s.ends w).erase p
      let s' := { s with ends := update s.ends w rest }
      if rest = ∅ then s'.goto p (.closeAcquire w) else s'
    else s
  | .kill p =>
    { s with
      killed := update s.killed p true
      asleep := update s.asleep p none }
  | .run p => s.run p

/-- A run from `pipealloc` on. -/
def PipeState.steps (s : PipeState) (events : List PipeEvent) : PipeState :=
  events.foldl PipeState.step s

/-! ### What one event can do -/

/-- The process holds `p->lock`. -/
def PipePc.inside : PipePc → Bool
  | .out | .writeAcquire _ _ | .readAcquire _ | .closeAcquire _ => false
  | _ => true

/-- The end that the process calls on. -/
def PipePc.end? : PipePc → Option Bool
  | .writeAcquire _ _ | .writeLoop _ _ | .writeCheck _ _ | .writeWake _ _ | .writeSleep _ _
  | .writeEnd _ | .writeRelease _ => some true
  | .readAcquire _ | .readWait _ | .readCheck _ | .readSleep _ | .readLoop _ _ | .readEnd _ _
  | .readRelease _ _ => some false
  | _ => none

/-- The end that the process closes. -/
def PipePc.closes? : PipePc → Option Bool
  | .closeAcquire w | .closeSet w | .closeWake w | .closeRelease w => some w
  | _ => none

inductive PipeStep (s : PipeState) : PipeEvent → PipeState → Prop
  | stay (e : PipeEvent) : PipeStep s e s
  | write {p : Nat} {addr : List Byte} : s.pc p = .out → p ∈ s.ends true →
      PipeStep s (.write p addr) (s.goto p (.writeAcquire addr 0))
  | read {p n : Nat} : s.pc p = .out → p ∈ s.ends false →
      PipeStep s (.read p n) (s.goto p (.readAcquire n))
  | share {p q : Nat} {w : Bool} : p ∈ s.ends w →
      PipeStep s (.share p q w)
        { s with ends := update s.ends w (insert q (s.ends w)) }
  | drop {p : Nat} {w : Bool} : s.pc p = .out → p ∈ s.ends w → (s.ends w).erase p ≠ ∅ →
      PipeStep s (.close p w)
        { s with ends := update s.ends w ((s.ends w).erase p) }
  | close {p : Nat} {w : Bool} : s.pc p = .out → p ∈ s.ends w → (s.ends w).erase p = ∅ →
      PipeStep s (.close p w)
        ({ s with ends := update s.ends w ∅ }.goto p (.closeAcquire w))
  | kill (p : Nat) :
      PipeStep s (.kill p)
        { s with
          killed := update s.killed p true
          asleep := update s.asleep p none }
  | acquire {p : Nat} {pc : PipePc} : s.asleep p = none → s.lock = none →
      (∃ addr i, s.pc p = .writeAcquire addr i ∧ pc = .writeLoop addr i) ∨
        (∃ n, s.pc p = .readAcquire n ∧ pc = .readWait n) ∨
        (∃ w, s.pc p = .closeAcquire w ∧ pc = .closeSet w) →
      PipeStep s (.run p) { s.goto p pc with lock := some p }
  | writeDone {p i : Nat} {addr : List Byte} : s.pc p = .writeLoop addr i →
      PipeStep s (.run p) (s.goto p (.writeEnd addr))
  | writeFull {p i : Nat} {addr : List Byte} : s.pc p = .writeLoop addr i →
      s.pipe.full = true → PipeStep s (.run p) (s.goto p (.writeCheck addr i))
  | store {p i : Nat} {addr : List Byte} {b : Byte} : s.pc p = .writeLoop addr i →
      s.pipe.full = false →
      PipeStep s (.run p)
        { s.goto p (.writeLoop addr (i + 1)) with
          pipe := s.pipe.store b, stored := s.stored ++ [b] }
  | writeFail {p i : Nat} {addr : List Byte} : s.pc p = .writeCheck addr i →
      s.pipe.readopen = false ∨ s.killed p = true → PipeStep s (.run p) (s.leave p (-1))
  | writeGoOn {p i : Nat} {addr : List Byte} : s.pc p = .writeCheck addr i →
      s.pipe.readopen = true → PipeStep s (.run p) (s.goto p (.writeWake addr i))
  | writeWake {p i : Nat} {addr : List Byte} : s.pc p = .writeWake addr i →
      PipeStep s (.run p) ((s.wakeup .nread).goto p (.writeSleep addr i))
  | writeSleep {p i : Nat} {addr : List Byte} : s.pc p = .writeSleep addr i →
      PipeStep s (.run p) (s.sleep p .nwrite (.writeAcquire addr i))
  | writeEnd {p : Nat} {addr : List Byte} : s.pc p = .writeEnd addr →
      PipeStep s (.run p) ((s.wakeup .nread).goto p (.writeRelease addr))
  | writeReturn {p : Nat} {addr : List Byte} : s.pc p = .writeRelease addr →
      PipeStep s (.run p) (s.leave p addr.length)
  | readEmpty {p n : Nat} : s.pc p = .readWait n → s.pipe.empty = true →
      s.pipe.writeopen = true → PipeStep s (.run p) (s.goto p (.readCheck n))
  | readStart {p n : Nat} : s.pc p = .readWait n →
      s.pipe.empty = false ∨ s.pipe.writeopen = false →
      PipeStep s (.run p) (s.goto p (.readLoop n []))
  | readFail {p n : Nat} : s.pc p = .readCheck n → PipeStep s (.run p) (s.leave p (-1))
  | readGoOn {p n : Nat} : s.pc p = .readCheck n →
      PipeStep s (.run p) (s.goto p (.readSleep n))
  | readSleep {p n : Nat} : s.pc p = .readSleep n →
      PipeStep s (.run p) (s.sleep p .nread (.readAcquire n))
  | copy {p n : Nat} {got : List Byte} : s.pc p = .readLoop n got → s.pipe.empty = false →
      PipeStep s (.run p)
        { s.goto p (.readLoop n (got ++ [s.pipe.front])) with pipe := s.pipe.drop }
  | readDone {p n : Nat} {got : List Byte} : s.pc p = .readLoop n got →
      n ≤ got.length ∨ s.pipe.empty = true → PipeStep s (.run p) (s.goto p (.readEnd n got))
  | readEnd {p n : Nat} {got : List Byte} : s.pc p = .readEnd n got →
      PipeStep s (.run p) ((s.wakeup .nwrite).goto p (.readRelease n got))
  | readReturn {p n : Nat} {got : List Byte} : s.pc p = .readRelease n got →
      PipeStep s (.run p) { s.leave p got.length with reads := s.reads ++ [got] }
  | closeSet {p : Nat} {w : Bool} : s.pc p = .closeSet w →
      PipeStep s (.run p) { s.goto p (.closeWake w) with pipe := s.pipe.shut w }
  | closeWake {p : Nat} {w : Bool} : s.pc p = .closeWake w →
      PipeStep s (.run p) ((s.wakeup (closeChan w)).goto p (.closeRelease w))
  | closeReturn {p : Nat} {w : Bool} : s.pc p = .closeRelease w →
      PipeStep s (.run p) (s.leave p 0)

theorem PipeState.run_spec (s : PipeState) (p : Nat) : PipeStep s (.run p) (s.run p) := by
  unfold PipeState.run
  split
  · exact .stay _
  · next addr i hpc =>
    unfold PipeState.acquire
    split
    · next h => exact .acquire h.1 h.2 (.inl ⟨addr, i, hpc, rfl⟩)
    · exact .stay _
  · next addr i hpc =>
    split
    · exact .writeDone hpc
    · split
      · next hfull => exact .writeFull hpc hfull
      · next hfull => exact .store hpc (by simpa using hfull)
  · next addr i hpc =>
    split
    · next h => exact .writeFail hpc h
    · next h =>
      rw [not_or, Bool.not_eq_false] at h
      exact .writeGoOn hpc h.1
  · next hpc => exact .writeWake hpc
  · next hpc => exact .writeSleep hpc
  · next hpc => exact .writeEnd hpc
  · next hpc => exact .writeReturn hpc
  · next n hpc =>
    unfold PipeState.acquire
    split
    · next h => exact .acquire h.1 h.2 (.inr (.inl ⟨n, hpc, rfl⟩))
    · exact .stay _
  · next hpc =>
    split
    · next h => exact .readEmpty hpc h.1 h.2
    · next h =>
      rw [not_and_or, Bool.not_eq_true, Bool.not_eq_true] at h
      exact .readStart hpc h
  · next hpc =>
    split
    · exact .readFail hpc
    · exact .readGoOn hpc
  · next hpc => exact .readSleep hpc
  · next hpc =>
    split
    · next h => exact .copy hpc h.2
    · next h =>
      rw [not_and_or, Nat.not_lt, Bool.not_eq_false] at h
      exact .readDone hpc h
  · next hpc => exact .readEnd hpc
  · next hpc => exact .readReturn hpc
  · next w hpc =>
    unfold PipeState.acquire
    split
    · next h => exact .acquire h.1 h.2 (.inr (.inr ⟨w, hpc, rfl⟩))
    · exact .stay _
  · next hpc => exact .closeSet hpc
  · next hpc => exact .closeWake hpc
  · next hpc => exact .closeReturn hpc

theorem PipeState.step_spec (s : PipeState) (e : PipeEvent) : PipeStep s e (s.step e) := by
  cases e with
  | write p addr =>
    rw [PipeState.step]
    split
    · next h => exact .write h.1 h.2
    · exact .stay _
  | read p n =>
    rw [PipeState.step]
    split
    · next h => exact .read h.1 h.2
    · exact .stay _
  | share p q w =>
    rw [PipeState.step]
    split
    · next h => exact .share h
    · exact .stay _
  | close p w =>
    rw [PipeState.step]
    split
    · next h =>
      dsimp only
      split
      · next hlast =>
        rw [hlast]
        exact .close h.1 h.2 hlast
      · next hlast => exact .drop h.1 h.2 hlast
    · exact .stay _
  | kill p => exact .kill p
  | run p => exact s.run_spec p

end CowPaging
