import CowPaging.FreeCount
import CowPaging.Files

/-!
# Pipes

The open files together with the pipes of `pipe.c`, as far as they take and return
pages: a pipe lives in a page from `kalloc`, which goes back when both ends are closed.
What is in a file or a pipe is left out, and so are the stores of `sys_pipe` to the
caller's memory, which are calls of their own (`Op.write`).
-/

namespace CowPaging

open Bytes StateExcept SlotTable

/-- The fields of `struct pipe` that say which ends are open. -/
structure Pipe where
  readopen : Bool
  writeopen : Bool

/-- The write end (`w`) or the read end is open. -/
def Pipe.isOpen (pi : Pipe) (w : Bool) : Bool := if w then pi.writeopen else pi.readopen

def Pipe.close (pi : Pipe) (w : Bool) : Pipe :=
  if w then { pi with writeopen := false } else { pi with readopen := false }

theorem Pipe.isOpen_close (pi : Pipe) (w w' : Bool) :
    (pi.close w).isOpen w' = if w' = w then false else pi.isOpen w' := by
  cases w <;> cases w' <;> rfl

/-- The kernel with its open files and the pipe in every page. -/
structure System extends Files where
  kernel : Kernel
  pipe : Nat → Pipe

abbrev Sys := StateT System (Except Halt)

def System.setFile (s : System) (i : Nat) (f : FileEntry → FileEntry) : System :=
  { s with toFiles := s.toFiles.setFile i f }

def System.setOfile (s : System) (p fd : Nat) (x : Option Nat) : System :=
  { s with toFiles := s.toFiles.setOfile p fd x }

def System.setPipe (s : System) (p : Nat) (f : Pipe → Pipe) : System :=
  { s with pipe := Function.update s.pipe p (f (s.pipe p)) }

/-- A computation of the kernel proper. -/
def onKernel {α : Type} : K α → Sys α := zoom System.kernel fun k s => { s with kernel := k }

def onFiles {α : Type} : FilesM α → Sys α := zoom System.toFiles fun t s => { s with toFiles := t }

section

variable [KernelImage]

def pipeclose (p : Nat) (writable : Bool) : Sys Unit := do
  modify fun s => s.setPipe p fun pi => pi.close writable
  let s ← get
  if (s.pipe p).readopen = false ∧ (s.pipe p).writeopen = false then onKernel (kfree p)
  else pure ()

def fileclose (i : Nat) : Sys Unit := do
  match ← onFiles (filedrop i) with
  | none => pure ()
  | some ff =>
    match ff.type with
    | .pipe => pipeclose ff.pipe ff.writable
    -- `iput` takes and returns no page
    | .inode => pure ()
    | .none => pure ()

variable (evict : K Unit)

/-- `pipealloc`: the files of the two ends. -/
def pipealloc : Sys (Option (Nat × Nat)) := do
  match ← onFiles filealloc with
  | none => pure none
  | some f0 =>
    match ← onFiles filealloc with
    | none => do
      fileclose f0
      pure none
    | some f1 =>
      match ← onKernel (kalloc evict) with
      | none => do
        fileclose f0
        fileclose f1
        pure none
      | some p => do
        modify fun s => s.setPipe p fun _ => { readopen := true, writeopen := true }
        modify fun s => s.setFile f0 fun f =>
          { f with type := .pipe, readable := true, writable := false, pipe := p }
        modify fun s => s.setFile f1 fun f =>
          { f with type := .pipe, readable := false, writable := true, pipe := p }
        pure (some (f0, f1))

/-! ### System calls of process `p` -/

def sysPipe (p : Nat) : Sys Int := do
  match ← pipealloc evict with
  | none => pure (-1)
  | some (rf, wf) =>
    match ← onFiles (fdalloc p rf) with
    | none => do
      fileclose rf
      fileclose wf
      pure (-1)
    | some fd0 =>
      match ← onFiles (fdalloc p wf) with
      | none => do
        modify fun s => s.setOfile p fd0 none
        fileclose rf
        fileclose wf
        pure (-1)
      | some _ => pure 0

def sysClose (p fd : Nat) : Sys Int := do
  match ← onFiles (argfd p fd) with
  | none => pure (-1)
  | some f => do
    modify fun s => s.setOfile p fd none
    fileclose f
    pure 0

/-- The end of `sys_open`, for the inode `ip` that was found. -/
def sysOpen (p ip : Nat) : Sys Int := do
  match ← onFiles filealloc with
  | none => pure (-1)
  | some f =>
    match ← onFiles (fdalloc p f) with
    | none => do
      fileclose f
      pure (-1)
    | some fd => do
      modify fun s => s.setFile f fun f => { f with type := .inode, ip := ip }
      pure (fd : Int)

/-- The loop of `exit` over the open files. -/
def exitFiles (p : Nat) : Sys Unit :=
  loopFrom (fun fd => do
    let s ← get
    match s.ofile p fd with
    | none => pure ()
    | some f => do
      fileclose f
      modify fun s => s.setOfile p fd none) 0 NOFILE

inductive SysOp where
  | call (op : Op)
  | pipe
  | close (fd : Nat)
  | dup (fd : Nat)
  | open (ip : Nat)

/-- Process `p` makes the call. `fork` hands on the open files and `exit` closes them. -/
def syscall (p : Nat) : SysOp → Sys Reply
  | .call .fork => do
    let s ← get
    let r ← onKernel (perform evict p .fork)
    match firstSlot NPROC (fun q => decide ((s.kernel.proc q).state = .unused)), r with
    | some np, .code pid => do
      if pid < 0 then pure () else onFiles (forkFiles p np)
      pure (.code pid)
    | _, r => pure r
  | .call .exit => do
    exitFiles p
    onKernel (perform evict p .exit)
  | .call op => onKernel (perform evict p op)
  | .pipe => return .code (← sysPipe evict p)
  | .close fd => return .code (← sysClose p fd)
  | .dup fd => return .code (← onFiles (sysDup p fd))
  | .open ip => return .code (← sysOpen p ip)

/-- The system after boot. -/
def System.start (k : Kernel) : System where
  toFiles := Files.none
  kernel := k
  pipe := fun _ => ⟨false, false⟩

end

end CowPaging
